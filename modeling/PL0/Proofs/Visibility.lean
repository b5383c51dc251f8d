import Mathlib.Order.Bounds.Basic
import Mathlib.Order.Nat
import PL0.Proofs.Generator.Nesting

/-!
# Which declaration is visible

A symbol table grows by insertions, and what is inserted stands at the top level or in a symbol that is there already
(`SymbolTable.Built`).  So the scopes around a scope have smaller and smaller ids, and a scope has a finite chain of
scopes up to the top level (`SymbolTable.Chain`).  Along this chain a search finds a name in the first scope that
declares it, and there the declaration with the largest id (`lookup_eq_some_iff`).  Later insertions matter only if they
declare the name in a scope of the chain (`Chain.lookup_foldl_insert`).
-/

namespace PL0

namespace SymbolTable

/-! ### Tables, chains and searches -/

/-- The scope is the top level or a symbol of the table. -/
def Knows (table : SymbolTable) (scope : Scope) : Prop :=
  ∀ id ∈ scope, id < table.size

/-- The tables that are built by insertions. -/
inductive Built : SymbolTable → Prop
  | empty : Built .empty
  | insert {table : SymbolTable} (symbol : Symbol) :
      Built table → table.Knows symbol.scope → Built (table.insert symbol)

/-- The scopes from a scope up to the top level. -/
inductive Chain (table : SymbolTable) : Scope → List Scope → Prop
  | top : Chain table none [none]
  | inner {id : Nat} {symbol : Symbol} {outer : List Scope} :
      Chain table symbol.scope outer → table.get? id = some symbol → Chain table (some id) (some id :: outer)

/-- The search for a name goes from scope to scope outwards and ends with a result. -/
inductive Search (table : SymbolTable) (name : String) : Scope → Option Nat → Prop
  | found {scope : Scope} {id : Nat} : table.latest scope name = some id → Search table name scope (some id)
  | absent : table.latest none name = none → Search table name none none
  | outwards {id : Nat} {symbol : Symbol} {result : Option Nat} : table.latest (some id) name = none →
      table.get? id = some symbol → Search table name symbol.scope result → Search table name (some id) result

/-- Some symbol declares the name directly in the scope. -/
def DeclaredIn (table : SymbolTable) (scope : Scope) (name : String) : Prop :=
  ∃ id, table.declares scope name id

variable {table : SymbolTable} {scope : Scope} {name : String}

/-! ### The latest declaration in a scope -/

theorem declares_iff {id : Nat} :
    table.declares scope name id ↔ ∃ s, table.get? id = some s ∧ s.scope = scope ∧ s.name = name := by
  simp only [declares, Option.any_eq_true, Bool.and_eq_true, decide_eq_true_eq]

theorem lt_size_of_declares {id : Nat} (h : table.declares scope name id) : id < table.size := by
  obtain ⟨s, hs, -⟩ := declares_iff.1 h
  exact (Array.getElem?_eq_some_iff.1 hs).1

private theorem isGreatest_of_latestBelow {n id : Nat} (h : table.latestBelow scope name n = some id) :
    IsGreatest {i | i < n ∧ table.declares scope name i} id := by
  induction n with
  | zero => simp [latestBelow] at h
  | succ n ih =>
    rw [latestBelow] at h
    by_cases hn : table.declares scope name n
    · obtain rfl : n = id := by simpa [hn] using h
      exact ⟨⟨Nat.lt_succ_self n, hn⟩, fun i hi => Nat.le_of_lt_succ hi.1⟩
    · obtain ⟨⟨hlt, hid⟩, hmax⟩ := ih (by simpa [hn] using h)
      refine ⟨⟨Nat.lt_succ_of_lt hlt, hid⟩, fun i hi => hmax ⟨?_, hi.2⟩⟩
      have hne : i ≠ n := by
        rintro rfl
        exact hn hi.2
      have := hi.1
      omega

private theorem not_declares_of_latestBelow {n : Nat} (h : table.latestBelow scope name n = none) :
    ∀ i < n, ¬table.declares scope name i := by
  induction n with
  | zero =>
    intro i hi
    omega
  | succ n ih =>
    rw [latestBelow] at h
    by_cases hn : table.declares scope name n
    · simp [hn] at h
    · intro i hi
      by_cases heq : i = n
      · rwa [heq]
      · exact ih (by simpa [hn] using h) i (by omega)

theorem latest_eq_none_iff : table.latest scope name = none ↔ ¬table.DeclaredIn scope name := by
  constructor
  · rintro h ⟨i, hi⟩
    exact not_declares_of_latestBelow h i (lt_size_of_declares hi) hi
  · intro h
    cases hlatest : table.latest scope name with
    | none => rfl
    | some id => exact absurd ⟨id, (isGreatest_of_latestBelow hlatest).1.2⟩ h

/-- The latest declaration is the one with the largest id. -/
theorem latest_eq_some_iff {id : Nat} :
    table.latest scope name = some id ↔ IsGreatest {i | table.declares scope name i} id := by
  have hgreatest : ∀ {j}, table.latest scope name = some j → IsGreatest {i | table.declares scope name i} j := by
    intro j hj
    obtain ⟨⟨-, hdeclares⟩, hmax⟩ := isGreatest_of_latestBelow hj
    exact ⟨hdeclares, fun i hi => hmax ⟨lt_size_of_declares hi, hi⟩⟩
  refine ⟨hgreatest, fun h => ?_⟩
  cases hlatest : table.latest scope name with
  | none => exact absurd ⟨id, h.1⟩ (latest_eq_none_iff.1 hlatest)
  | some j => rw [(hgreatest hlatest).unique h]

/-! ### The chain of a scope -/

/-- A symbol stands in a symbol that was inserted before. -/
theorem Built.scope_lt (h : table.Built) {id : Nat} {s : Symbol} (hs : table.get? id = some s) :
    ∀ j ∈ s.scope, j < id := by
  induction h with
  | empty => simp [SymbolTable.empty, get?] at hs
  | insert symbol _ hknows ih =>
    rcases get?_insert_cases hs with ⟨rfl, rfl⟩ | hs
    · exact hknows
    · exact ih hs

/-- The ids on the chain get smaller, so there are not more scopes on it than symbols in the table. -/
theorem Built.exists_chain (h : table.Built) (hscope : table.Knows scope) :
    ∃ l, table.Chain scope l ∧ l.length ≤ table.size + 1 := by
  have hinner : ∀ id < table.size, ∃ l, table.Chain (some id) l ∧ l.length ≤ id + 2 := by
    intro id
    induction id using Nat.strong_induction_on with
    | _ id ih =>
      intro hid
      have hs : table.get? id = some table.symbols[id] := Array.getElem?_eq_getElem hid
      have hlt := h.scope_lt hs
      cases hsc : table.symbols[id].scope with
      | none =>
        have htop : table.Chain table.symbols[id].scope [none] := by
          rw [hsc]
          exact .top
        exact ⟨_, htop.inner hs, by simp⟩
      | some j =>
        have hj : j < id := hlt j hsc
        obtain ⟨l, hl, hlen⟩ := ih j hj (by omega)
        rw [← hsc] at hl
        refine ⟨_, hl.inner hs, ?_⟩
        rw [List.length_cons]
        omega
  cases scope with
  | none => exact ⟨[none], .top, by simp⟩
  | some id =>
    have hid := hscope id rfl
    obtain ⟨l, hl, hlen⟩ := hinner id hid
    exact ⟨l, hl, by omega⟩

namespace Chain

variable {l : List Scope}

theorem length_pos (h : table.Chain scope l) : 0 < l.length := by
  cases h <;> simp

theorem chainOf_eq (h : table.Chain scope l) {n : Nat} (hn : l.length ≤ n + 1) : table.chainOf n scope = l := by
  induction h generalizing n with
  | top => cases n <;> rfl
  | @inner id symbol outer houter hs ih =>
    have hpos := houter.length_pos
    rw [List.length_cons] at hn
    cases n with
    | zero => omega
    | succ n =>
      have henclosing : table.enclosing id = symbol.scope := by simp [enclosing, hs]
      rw [chainOf, henclosing, ih (by omega)]

theorem chain_eq (h : table.Chain scope l) (hl : l.length ≤ table.size + 1) : table.chain scope = l :=
  h.chainOf_eq hl

theorem insert (h : table.Chain scope l) (symbol : Symbol) : (table.insert symbol).Chain scope l := by
  induction h with
  | top => exact .top
  | inner _ hs ih => exact .inner ih (get?_insert_of_some hs symbol)

/-- The search goes along the chain. -/
theorem search (h : table.Chain scope l) (name : String) :
    table.Search name scope (l.findSome? fun s => table.latest s name) := by
  induction h with
  | top =>
    cases hlatest : table.latest none name with
    | none => simpa [hlatest] using Search.absent hlatest
    | some id => simpa [hlatest] using Search.found hlatest
  | @inner id symbol outer _ hs ih =>
    rw [List.findSome?_cons]
    cases hlatest : table.latest (some id) name with
    | none => exact .outwards hlatest hs ih
    | some j => exact .found hlatest

end Chain

theorem Search.unique {r r' : Option Nat} (h : table.Search name scope r) (h' : table.Search name scope r') :
    r = r' := by
  induction h with
  | found hlatest => cases h' <;> simp_all
  | absent hlatest => cases h' <;> simp_all
  | outwards hlatest hs _ ih =>
    cases h' with
    | found hlatest' => simp [hlatest] at hlatest'
    | outwards _ hs' h' =>
      rw [hs, Option.some.injEq] at hs'
      exact ih (hs' ▸ h')

theorem Built.chain (h : table.Built) (hscope : table.Knows scope) : table.Chain scope (table.chain scope) := by
  obtain ⟨l, hl, hlen⟩ := h.exists_chain hscope
  rwa [hl.chain_eq hlen]

/-! ### Looking up a name -/

theorem lookup_eq_some_iff {id : Nat} :
    table.lookup scope name = some id ↔ ∃ inner c outer, table.chain scope = inner ++ c :: outer ∧
      (∀ s ∈ inner, ¬table.DeclaredIn s name) ∧ IsGreatest {i | table.declares c name i} id := by
  simp only [lookup, List.findSome?_eq_some_iff, latest_eq_some_iff, latest_eq_none_iff]
  constructor
  · rintro ⟨inner, c, outer, hchain, hid, hinner⟩
    exact ⟨inner, c, outer, hchain, hinner, hid⟩
  · rintro ⟨inner, c, outer, hchain, hinner, hid⟩
    exact ⟨inner, c, outer, hchain, hid, hinner⟩

theorem lookup_eq_none_iff :
    table.lookup scope name = none ↔ ∀ s ∈ table.chain scope, ¬table.DeclaredIn s name := by
  simp only [lookup, List.findSome?_eq_none_iff, latest_eq_none_iff]

/-! ### Later insertions -/

theorem declares_insert {symbol : Symbol} (h : symbol.name ≠ name ∨ symbol.scope ≠ scope) (id : Nat) :
    (table.insert symbol).declares scope name id ↔ table.declares scope name id := by
  rw [declares_iff, declares_iff]
  constructor
  · rintro ⟨s, hs, hscope, hname⟩
    rcases get?_insert_cases hs with ⟨-, rfl⟩ | hs
    · rcases h with h | h
      · exact absurd hname h
      · exact absurd hscope h
    · exact ⟨s, hs, hscope, hname⟩
  · rintro ⟨s, hs, hdeclares⟩
    exact ⟨s, get?_insert_of_some hs symbol, hdeclares⟩

theorem latest_insert {symbol : Symbol} (h : symbol.name ≠ name ∨ symbol.scope ≠ scope) :
    (table.insert symbol).latest scope name = table.latest scope name := by
  apply Option.ext
  intro id
  simp only [latest_eq_some_iff, declares_insert h]

private theorem findSome?_of_eq_on {α β : Type} {f g : α → Option β} {l : List α} (h : ∀ a ∈ l, f a = g a) :
    l.findSome? f = l.findSome? g := by
  induction l with
  | nil => rfl
  | cons a l ih =>
    rw [List.findSome?_cons, List.findSome?_cons, h a List.mem_cons_self,
      ih fun b hb => h b (List.mem_cons_of_mem a hb)]

/-- Only a declaration of the name in a scope of the chain can change what is found. -/
theorem Chain.lookup_foldl_insert {l : List Scope} (h : table.Chain scope l) (hl : l.length ≤ table.size + 1)
    {further : List Symbol} (hfurther : ∀ symbol ∈ further, symbol.name ≠ name ∨ symbol.scope ∉ l) :
    (further.foldl SymbolTable.insert table).lookup scope name = table.lookup scope name := by
  induction further generalizing table with
  | nil => rfl
  | cons symbol further ih =>
    have hlen : l.length ≤ (table.insert symbol).size + 1 := by
      rw [size_insert]
      omega
    rw [List.foldl_cons, ih (h.insert symbol) hlen fun s hs => hfurther s (List.mem_cons_of_mem _ hs)]
    have hlatest : ∀ s ∈ l, (table.insert symbol).latest s name = table.latest s name := by
      intro s hs
      refine latest_insert ((hfurther symbol List.mem_cons_self).imp id ?_)
      rintro hsymbol rfl
      exact hsymbol hs
    unfold lookup
    rw [(h.insert symbol).chain_eq hlen, h.chain_eq hl]
    exact findSome?_of_eq_on hlatest

end SymbolTable

/-! ### The states of a compilation -/

namespace Context.Reachable

variable {tokens : List Token} {capacity : Nat} {c : Context}

theorem knows_scope (h : c.Reachable tokens capacity) : c.symbols.Knows c.scope := by
  intro id hid
  have hfits := h.wellNested.current
  rw [Option.mem_def.1 hid] at hfits
  exact hfits.1

theorem built (h : c.Reachable tokens capacity) : c.symbols.Built := by
  induction h with
  | start => exact .empty
  | declared name kind hc ih => exact ih.insert _ hc.knows_scope
  | emittedFor _ _ _ _ _ _ ih _ => exact ih
  | _ => assumption

end Context.Reachable

/-- The chain of a scope starts with the scope itself. -/
theorem SymbolTable.Chain.eq_cons {table : SymbolTable} {scope : Scope} {l : List Scope} (h : table.Chain scope l) :
    l = scope :: l.tail := by
  cases h <;> rfl

/-! ### The use of a name -/

section

variable {c : Context} {x : String}

/-- What is found in the current scope itself is the latest declaration there. -/
theorem Context.own_eq_some_iff {s : Symbol} :
    c.own x = some s ↔
      ∃ id, IsGreatest {i | c.symbols.declares c.scope x i} id ∧ c.symbols.get? id = some s := by
  rw [Context.own, ← SymbolTable.latest_bind, Option.bind_eq_some_iff]
  simp only [SymbolTable.latest_eq_some_iff]

theorem Context.own_eq_none_iff : c.own x = none ↔ ¬c.symbols.DeclaredIn c.scope x := by
  rw [Context.own, SymbolTable.own_eq_none, SymbolTable.latest_eq_none_iff]

theorem Context.missing_eq_undeclared_iff :
    c.missing x = .undeclared ↔ ∀ s ∈ c.symbols.chain c.scope, ¬c.symbols.DeclaredIn s x := by
  rw [← SymbolTable.lookup_eq_none_iff, Context.missing]
  split <;> simp_all

theorem Context.missing_eq_notInCurrentScope_iff :
    c.missing x = .notInCurrentScope ↔ ∃ s ∈ c.symbols.chain c.scope, c.symbols.DeclaredIn s x := by
  have hfound : c.missing x = .notInCurrentScope ↔ c.symbols.lookup c.scope x ≠ none := by
    rw [Context.missing]
    split <;> simp_all
  rw [hfound, ne_eq, SymbolTable.lookup_eq_none_iff]
  simp only [not_forall, not_not, exists_prop]

theorem Gen.lookUp_eq_ok_iff {b : Gen.Binding} :
    Gen.lookUp x c = .ok b c ↔
      ∃ s, c.own x = some s ∧ b = ⟨s.kind, Int32.ofNat c.level - Int32.ofNat s.level⟩ := by
  cases hown : c.own x with
  | none => simp [(Gen.run_lookUp x c).2 hown]
  | some s =>
    rw [(Gen.run_lookUp x c).1 s hown]
    simp [eq_comm]

theorem Gen.lookUp_eq_rejected_iff {e : CompileError} :
    Gen.lookUp x c = .error (.rejected e) c ↔ c.own x = none ∧ c.missing x = e := by
  cases hown : c.own x with
  | none => simp [(Gen.run_lookUp x c).2 hown]
  | some s => simp [(Gen.run_lookUp x c).1 s hown]

end

/-- A search for a name in a table that was built by insertions ends, and it finds the latest declaration of the name in
the first scope of the chain that declares it, or nothing if no scope of the chain does.  Symbols that are inserted
later with another name, or in a scope that is not on the chain, do not change the result.  In every state of a
compilation a name can be used exactly if the current scope itself declares it, and then it stands for the latest of
these declarations; otherwise the error says whether one of the scopes around declares it. -/
theorem lookup_nearest_scope :
    (∀ (table : SymbolTable) (scope : Scope) (name : String), table.Built → table.Knows scope →
      table.Chain scope (table.chain scope) ∧
      (∀ result, table.Search name scope result ↔ result = table.lookup scope name) ∧
      (∀ id, table.lookup scope name = some id ↔ ∃ inner c outer, table.chain scope = inner ++ c :: outer ∧
        (∀ s ∈ inner, ¬table.DeclaredIn s name) ∧ IsGreatest {i | table.declares c name i} id) ∧
      (table.lookup scope name = none ↔ ∀ s ∈ table.chain scope, ¬table.DeclaredIn s name) ∧
      ∀ further : List Symbol, (∀ symbol ∈ further, symbol.name ≠ name ∨ symbol.scope ∉ table.chain scope) →
        (further.foldl SymbolTable.insert table).lookup scope name = table.lookup scope name) ∧
    ∀ (tokens : List Token) (capacity : Nat) (c : Context) (x : String), c.Reachable tokens capacity →
      c.symbols.Chain c.scope (c.symbols.chain c.scope) ∧
      (∀ b, Gen.lookUp x c = .ok b c ↔ ∃ id s, IsGreatest {i | c.symbols.declares c.scope x i} id ∧
        c.symbols.get? id = some s ∧ b = ⟨s.kind, Int32.ofNat c.level - Int32.ofNat s.level⟩) ∧
      (Gen.lookUp x c = .error (.rejected .notInCurrentScope) c ↔ ¬c.symbols.DeclaredIn c.scope x ∧
        ∃ s ∈ (c.symbols.chain c.scope).tail, c.symbols.DeclaredIn s x) ∧
      (Gen.lookUp x c = .error (.rejected .undeclared) c ↔
        ∀ s ∈ c.symbols.chain c.scope, ¬c.symbols.DeclaredIn s x) := by
  constructor
  · intro table scope name hbuilt hscope
    obtain ⟨l, hl, hlen⟩ := hbuilt.exists_chain hscope
    have hsearch : table.Search name scope (table.lookup scope name) := (hbuilt.chain hscope).search name
    refine ⟨hbuilt.chain hscope, fun result => ⟨fun h => h.unique hsearch, ?_⟩, fun id =>
      SymbolTable.lookup_eq_some_iff, SymbolTable.lookup_eq_none_iff, fun further hfurther => ?_⟩
    · rintro rfl
      exact hsearch
    · rw [hl.chain_eq hlen] at hfurther
      exact hl.lookup_foldl_insert hlen hfurther
  · intro tokens capacity c x hc
    have hchain := hc.built.chain hc.knows_scope
    refine ⟨hchain, ?_⟩
    -- the current scope itself is the first one of its chain
    have hfirst : c.scope ∈ c.symbols.chain c.scope := by
      rw [hchain.eq_cons]
      exact List.mem_cons_self
    refine ⟨fun b => ?_, ?_, ?_⟩
    · rw [Gen.lookUp_eq_ok_iff]
      simp only [Context.own_eq_some_iff]
      constructor
      · rintro ⟨s, ⟨id, hid, hs⟩, hb⟩
        exact ⟨id, s, hid, hs, hb⟩
      · rintro ⟨id, s, hid, hs, hb⟩
        exact ⟨s, ⟨id, hid, hs⟩, hb⟩
    · rw [Gen.lookUp_eq_rejected_iff, Context.own_eq_none_iff, Context.missing_eq_notInCurrentScope_iff]
      constructor
      · rintro ⟨hnot, s, hs, hdeclared⟩
        rw [hchain.eq_cons, List.mem_cons] at hs
        rcases hs with rfl | hs
        · exact absurd hdeclared hnot
        · exact ⟨hnot, s, hs, hdeclared⟩
      · rintro ⟨hnot, s, hs, hdeclared⟩
        exact ⟨hnot, s, List.mem_of_mem_tail hs, hdeclared⟩
    · rw [Gen.lookUp_eq_rejected_iff, Context.own_eq_none_iff, Context.missing_eq_undeclared_iff]
      exact ⟨fun h => h.2, fun h => ⟨h c.scope hfirst, h⟩⟩

/-- From `q`, which stands in `p`, the name `x` means the declaration in `p`, though `x` is declared again later at the
top level, and an `x` in a third procedure changes nothing.  In `p` a name of the top level is not in the current
scope. -/
theorem lookup_nearest_scope_shadowed :
    (∃ table : SymbolTable, table.symbols = #[⟨"x", .var 1, 0, none⟩, ⟨"p", .proc 2, 0, none⟩,
        ⟨"x", .var 3, 1, some 1⟩, ⟨"q", .proc 4, 1, some 1⟩, ⟨"x", .var 5, 0, none⟩] ∧ table.Built ∧
      table.Knows (some 3) ∧ table.lookup (some 3) "x" = some 2 ∧
      ([⟨"r", .proc 6, 0, none⟩, ⟨"x", .var 7, 1, some 5⟩].foldl SymbolTable.insert table).lookup (some 3) "x" =
        some 2) ∧
    ∃ c : Context, c.Reachable [] 9 ∧ c.scope = some 1 ∧ c.symbols.DeclaredIn none "x" ∧
      Gen.lookUp "x" c = .error (.rejected .notInCurrentScope) c := by
  obtain ⟨htables, hstates⟩ := lookup_nearest_scope
  constructor
  · have htop : ∀ table : SymbolTable, table.Knows none := by
      intro table id hid
      cases hid
    have hsome : ∀ {table : SymbolTable} {id : Nat}, id < table.size → table.Knows (some id) := by
      intro table id hlt j hj
      rwa [Option.mem_some_iff.1 hj] at hlt
    have hbuilt := ((((SymbolTable.Built.empty.insert ⟨"x", .var 1, 0, none⟩ (htop _)).insert
      ⟨"p", .proc 2, 0, none⟩ (htop _)).insert ⟨"x", .var 3, 1, some 1⟩ (hsome (by decide))).insert
      ⟨"q", .proc 4, 1, some 1⟩ (hsome (by decide))).insert ⟨"x", .var 5, 0, none⟩ (htop _)
    obtain ⟨-, -, hfound, -, hlater⟩ := htables _ (some 3) "x" hbuilt (hsome (by decide))
    have hx := (hfound 2).2 ⟨[some 3], some 1, [none], by decide, by
      intro s hs
      rw [List.mem_singleton.1 hs, ← SymbolTable.latest_eq_none_iff]
      decide, SymbolTable.latest_eq_some_iff.1 (by decide)⟩
    exact ⟨_, rfl, hbuilt, hsome (by decide), hx, (hlater _ (by decide)).trans hx⟩
  · let c := ((Context.start [] 9).declared "x" (.var 1)).declared "p" (.proc 2)
    have hc : c.Reachable [] 9 := (Context.Reachable.start.declared "x" (.var 1)).declared "p" (.proc 2)
    have hp : c.symbols.get? 1 = some ⟨"p", .proc 2, 0, none⟩ := rfl
    have hin : (c.enter "p" 1).Reachable [] 9 := hc.entered "p" hp rfl rfl rfl
    have hx : (c.enter "p" 1).symbols.DeclaredIn none "x" := ⟨0, by decide⟩
    obtain ⟨-, -, hnot, -⟩ := hstates [] 9 _ "x" hin
    exact ⟨_, hin, rfl, hx, hnot.2 ⟨SymbolTable.latest_eq_none_iff.1 (by decide), none, by decide, hx⟩⟩

end PL0
