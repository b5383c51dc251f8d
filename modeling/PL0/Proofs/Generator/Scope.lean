import PL0.Proofs.Generator.Outcome
import PL0.Proofs.Translation

/-!
# What a name means where it is used

Looking up a name succeeds exactly if the current scope itself declares it, and then gives the latest of these
declarations (`wp_lookUp`).  What the scopes further out declare only decides which error is reported.  `Context.Sees`
says that the declarations of the current scope are those of an environment, all made at the current level, so that
the difference of levels at a use is zero.
-/

namespace PL0

namespace SymbolTable

/-- The declarations made directly in a scope, by their names. -/
def own (table : SymbolTable) (scope : Scope) : List (String × Symbol) :=
  (table.symbols.toList.filter (·.scope = scope)).map fun s => (s.name, s)

private theorem latestBelow_bind (table : SymbolTable) (scope : Scope) (x : String) (n : Nat) :
    (table.latestBelow scope x n).bind table.get? =
      PL0.latest (((table.symbols.toList.take n).filter (·.scope = scope)).map fun s => (s.name, s)) x := by
  induction n with
  | zero => rfl
  | succ n ih =>
    rw [latestBelow]
    by_cases hn : n < table.symbols.size
    · have hget : table.get? n = some table.symbols[n] := by simp [get?, hn]
      have htake : table.symbols.toList.take (n + 1) = table.symbols.toList.take n ++ [table.symbols[n]] := by
        rw [List.take_add_one]
        simp [hn]
      rw [htake, List.filter_append, List.map_append, latest_append, ← ih]
      by_cases hs : table.symbols[n].scope = scope
      · by_cases hx : table.symbols[n].name = x
        · simp [declares, hget, hs, hx, PL0.latest]
        · simp [declares, hget, hs, hx, PL0.latest]
      · simp [declares, hget, hs, PL0.latest]
    · have hget : table.get? n = none := by simp [get?]; omega
      have htake : table.symbols.toList.take (n + 1) = table.symbols.toList.take n := by
        rw [List.take_of_length_le (by simp; omega), List.take_of_length_le (by simp; omega)]
      simp [declares, hget, htake, ih]

/-- The latest declaration of a name in a scope. -/
theorem latest_bind (table : SymbolTable) (scope : Scope) (x : String) :
    (table.latest scope x).bind table.get? = PL0.latest (table.own scope) x := by
  rw [latest, latestBelow_bind, List.take_of_length_le (by simp [size])]
  rfl

theorem get?_of_latest {table : SymbolTable} {scope : Scope} {x : String} {id : Nat}
    (h : table.latest scope x = some id) : ∃ s, table.get? id = some s ∧ s.scope = scope ∧ s.name = x := by
  have key : ∀ n, table.latestBelow scope x n = some id → table.declares scope x id := by
    intro n
    induction n with
    | zero => simp [latestBelow]
    | succ n ih =>
      rw [latestBelow]
      split
      · intro hid
        simp only [Option.some.injEq] at hid
        subst hid
        assumption
      · exact ih
  have hd := key _ h
  simp only [declares, Option.any_eq_true] at hd
  obtain ⟨s, hs, hd⟩ := hd
  exact ⟨s, hs, by simpa using hd⟩

theorem own_eq_none {table : SymbolTable} {scope : Scope} {x : String} :
    PL0.latest (table.own scope) x = none ↔ table.latest scope x = none := by
  rw [← latest_bind]
  cases h : table.latest scope x with
  | none => simp
  | some id =>
    obtain ⟨s, hs, -⟩ := get?_of_latest h
    simp [hs]

/-- The search for a name starts in the scope itself. -/
theorem lookup_of_latest {table : SymbolTable} {scope : Scope} {x : String} {id : Nat}
    (h : table.latest scope x = some id) : table.lookup scope x = some id := by
  obtain ⟨s, hs, -⟩ := get?_of_latest h
  have hchain : ∃ rest, table.chain scope = scope :: rest := by
    unfold chain
    cases scope with
    | none => exact ⟨[], by cases table.size <;> rfl⟩
    | some p =>
      -- the walk is bounded by the size of the table, which is not empty
      obtain ⟨n, hn⟩ : ∃ n, table.size = n + 1 := by
        have : id < table.size := (Array.getElem?_eq_some_iff.1 hs).1
        exact ⟨table.size - 1, by omega⟩
      rw [hn]
      exact ⟨_, rfl⟩
  obtain ⟨rest, hrest⟩ := hchain
  simp [lookup, hrest, h]

/-- A name that the scope itself does not declare is found, if at all, in another scope. -/
theorem scope_ne_of_lookup {table : SymbolTable} {scope : Scope} {x : String} {id : Nat}
    (hnone : table.latest scope x = none) (h : table.lookup scope x = some id) :
    ∃ s, table.get? id = some s ∧ s.scope ≠ scope := by
  obtain ⟨scope', -, hfound⟩ := List.exists_of_findSome?_eq_some h
  obtain ⟨s, hs, hscope, -⟩ := get?_of_latest hfound
  refine ⟨s, hs, ?_⟩
  intro he
  rw [← hscope, he, hnone] at hfound
  cases hfound

end SymbolTable

namespace Context

/-- The latest declaration of a name in the current scope itself. -/
def own (c : Context) (x : String) : Option Symbol :=
  latest (c.symbols.own c.scope) x

/-- Why a name that the current scope does not declare may not be used. -/
def missing (c : Context) (x : String) : CompileError :=
  if c.symbols.lookup c.scope x = none then .undeclared else .notInCurrentScope

end Context

namespace Gen

/-- Looking up a name finds the latest declaration in the current scope itself. -/
theorem wp_lookUp {c : Context} {x : String} {Q : Binding → Context → Prop} {E : Stop → Context → Prop} :
    wp (lookUp x) c Q E ↔
      (∀ s, c.own x = some s → Q ⟨s.kind, Int32.ofNat c.level - Int32.ofNat s.level⟩ c) ∧
      (c.own x = none → E (.rejected (c.missing x)) c) := by
  unfold lookUp
  rw [wp_bind, wp_get]
  cases hl : c.symbols.latest c.scope x with
  | some id =>
    obtain ⟨s, hs, hscope, -⟩ := SymbolTable.get?_of_latest hl
    have hown : c.own x = some s := by rw [Context.own, ← SymbolTable.latest_bind, hl]; exact hs
    rw [SymbolTable.lookup_of_latest hl]
    simp only [Option.bind_some, hs, hscope, ↓reduceIte, wp_pure, hown, Option.some.injEq, reduceCtorEq, false_implies,
      and_true, forall_eq']
  | none =>
    have hown : c.own x = none := SymbolTable.own_eq_none.2 hl
    cases hlook : c.symbols.lookup c.scope x with
    | none =>
      simp only [Option.bind_none, wp_reject, hown, reduceCtorEq, false_implies, implies_true, true_and, true_implies,
        Context.missing, hlook, ↓reduceIte]
    | some id =>
      obtain ⟨s, hs, hne⟩ := SymbolTable.scope_ne_of_lookup hl hlook
      simp only [Option.bind_some, hs, hne, ↓reduceIte, wp_reject, hown, reduceCtorEq, false_implies, implies_true,
        true_and, true_implies, Context.missing, hlook]

theorem run_lookUp (x : String) (c : Context) :
    (∀ s, c.own x = some s → lookUp x c = .ok ⟨s.kind, Int32.ofNat c.level - Int32.ofNat s.level⟩ c) ∧
      (c.own x = none → lookUp x c = .error (.rejected (c.missing x)) c) :=
  wp_lookUp.1 (wp_self _ c)

end Gen

/-! ### Environments -/

/-- The current scope declares what the environment says, at the current level. -/
structure Context.Sees (c : Context) (env : Env) : Prop where
  kind (x : String) : (c.own x).map (·.kind) = env x
  level (x : String) (s : Symbol) : c.own x = some s → s.level = c.level

theorem Context.Sees.congr {c c' : Context} {env : Env} (h : c.Sees env) (hsymbols : c'.symbols = c.symbols)
    (hlevel : c'.level = c.level) (hscope : c'.scope = c.scope) : c'.Sees env := by
  have hown : c'.own = c.own := by
    funext x
    simp only [Context.own, hsymbols, hscope]
  exact ⟨fun x => by rw [hown]; exact h.kind x, fun x s hs => by rw [hlevel]; exact h.level x s (hown ▸ hs)⟩

theorem Gen.wp_lookUp_of_sees {c : Context} {env : Env} (h : c.Sees env) {x : String} {Q : Binding → Context → Prop}
    {E : Stop → Context → Prop} :
    wp (lookUp x) c Q E ↔
      (∀ kind, env x = some kind → Q ⟨kind, 0⟩ c) ∧ (env x = none → E (.rejected (c.missing x)) c) := by
  rw [wp_lookUp, ← h.kind x]
  cases hown : c.own x with
  | none => simp
  | some s => simp [h.level x s hown]

end PL0
