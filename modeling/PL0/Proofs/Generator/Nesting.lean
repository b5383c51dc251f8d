import PL0.Proofs.Generator.Reachability

/-!
# Levels and scopes

A level and a scope fit together if the level counts the procedures around the scope: outside of all procedures it is
zero, and in a procedure it is one more than the level on which this procedure was declared (`SymbolTable.Fits`).  In
every state of a compilation the level and the scope of each symbol fit, by a procedure that was declared before the
symbol, and so do the current level and the current scope (`Context.WellNested`).

Only names of the current scope may be used, and two levels that fit one scope are equal.  So the difference of levels
at a use is zero (`WellNested.levelDiff_eq_zero`), and no instruction ever leaves the frame of its block
(`Reachable.fields_eq_zero`).
-/

namespace PL0

/-! ### Levels that fit a scope -/

/-- The level fits the scope, which is outside of all procedures or a procedure among the first `n` symbols. -/
def SymbolTable.Fits (table : SymbolTable) (n level : Nat) : Scope → Prop
  | none => level = 0
  | some j => j < n ∧ ∃ s a, table.get? j = some s ∧ s.kind = .proc a ∧ level = s.level + 1

namespace SymbolTable.Fits

variable {table table' : SymbolTable} {n n' level level' : Nat} {scope : Scope}

theorem mono (h : table.Fits n level scope) (hn : n ≤ n')
    (htable : ∀ id s, table.get? id = some s → table'.get? id = some s) : table'.Fits n' level scope := by
  cases scope with
  | none => exact h
  | some j =>
    obtain ⟨hj, s, a, hs, hkind, hlevel⟩ := h
    exact ⟨by omega, s, a, htable j s hs, hkind, hlevel⟩

/-- A scope determines its level. -/
theorem unique (h : table.Fits n level scope) (h' : table.Fits n' level' scope) : level = level' := by
  cases scope with
  | none => exact h.trans h'.symm
  | some j =>
    obtain ⟨-, s, a, hs, -, hlevel⟩ := h
    obtain ⟨-, s', a', hs', -, hlevel'⟩ := h'
    rw [hs, Option.some.injEq] at hs'
    rw [hlevel, hlevel', hs']

end SymbolTable.Fits

namespace Context

/-- All levels fit their scopes. -/
structure WellNested (c : Context) : Prop where
  symbols : ∀ i s, c.symbols.get? i = some s → c.symbols.Fits i s.level s.scope
  current : c.symbols.Fits c.symbols.size c.level c.scope

/-! ### The invariant -/

namespace WellNested

variable {c c' : Context}

theorem start (tokens : List Token) (capacity : Nat) : (Context.start tokens capacity).WellNested := by
  refine ⟨?_, rfl⟩
  intro i s hs
  simp [Context.start, SymbolTable.empty, SymbolTable.get?] at hs

theorem of_eq (h : c.WellNested) (hsymbols : c'.symbols = c.symbols) (hlevel : c'.level = c.level)
    (hscope : c'.scope = c.scope) : c'.WellNested := by
  refine ⟨?_, ?_⟩
  · rw [hsymbols]
    exact h.symbols
  · rw [hsymbols, hlevel, hscope]
    exact h.current

/-- A declaration is made on the current level and in the current scope. -/
theorem declared (h : c.WellNested) (name : String) (kind : SymbolKind) : (c.declared name kind).WellNested := by
  have hold : ∀ id s, c.symbols.get? id = some s → (c.declared name kind).symbols.get? id = some s :=
    fun id s hs => SymbolTable.get?_insert_of_some hs _
  have hsize : (c.declared name kind).symbols.size = c.symbols.size + 1 := SymbolTable.size_insert _ _
  constructor
  · intro i s hs
    rcases SymbolTable.get?_insert_cases hs with ⟨hi, rfl⟩ | hs
    · rw [hi]
      exact h.current.mono (Nat.le_refl _) hold
    · exact (h.symbols i s hs).mono (Nat.le_refl _) hold
  · exact h.current.mono (by omega) hold

/-- The body of a procedure is entered from the level of the procedure. -/
theorem entered (h : c.WellNested) {id : Nat} {s : Symbol} {a : Int32} (name : String)
    (hs : c.symbols.get? id = some s) (hkind : s.kind = .proc a) (hlevel : s.level = c.level) :
    (c.enter name id).WellNested := by
  have hid : id < c.symbols.size := (Array.getElem?_eq_some_iff.1 hs).1
  refine ⟨h.symbols, hid, s, a, hs, hkind, ?_⟩
  show c.level + 1 = s.level + 1
  rw [hlevel]

/-- Outside of a procedure the level and the scope are those of its declaration. -/
theorem left (h : c.WellNested) {id : Nat} {s : Symbol} (name : String) (hs : c.symbols.get? id = some s) :
    (c.leave name s.level s.scope).WellNested := by
  have hid : id < c.symbols.size := (Array.getElem?_eq_some_iff.1 hs).1
  exact ⟨h.symbols, (h.symbols id s hs).mono (Nat.le_of_lt hid) fun _ _ h => h⟩

/-- What is found by a use was declared on the current level. -/
theorem level_eq (h : c.WellNested) {x : String} {s : Symbol} (hs : c.own x = some s) : s.level = c.level := by
  have hmem := mem_of_latest hs
  simp only [SymbolTable.own, List.mem_map, List.mem_filter, decide_eq_true_eq, Prod.mk.injEq] at hmem
  obtain ⟨s', ⟨hs', hscope⟩, -, rfl⟩ := hmem
  obtain ⟨i, hi⟩ := List.mem_iff_getElem?.1 hs'
  have hfits := h.symbols i s' (by simpa [SymbolTable.get?] using hi)
  rw [hscope] at hfits
  exact hfits.unique h.current

theorem levelDiff_eq_zero (h : c.WellNested) {x : String} {b : Gen.Binding} (hb : Gen.lookUp x c = .ok b c') :
    b.levelDiff = 0 := by
  have hwp : Gen.wp (Gen.lookUp x) c (fun b _ => b.levelDiff = 0) fun _ _ => True := by
    rw [Gen.wp_lookUp]
    refine ⟨fun s hs => ?_, fun _ => trivial⟩
    simp [h.level_eq hs]
  exact Gen.wp_of_ok hwp hb

end WellNested

namespace Reachable

variable {tokens : List Token} {capacity : Nat} {c : Context}

theorem wellNested (h : Reachable tokens capacity c) : c.WellNested := by
  induction h with
  | start => exact .start tokens capacity
  | advanced _ ih => exact ih.of_eq rfl rfl rfl
  | declared name kind _ ih => exact ih.declared name kind
  | emitted op m _ _ ih => exact ih.of_eq rfl rfl rfl
  | emittedFor op m _ _ _ _ ih _ => exact ih.of_eq rfl rfl rfl
  | jumpOpened op _ _ ih => exact ih.of_eq rfl rfl rfl
  | jumpClosed address _ ih => exact ih.of_eq rfl rfl rfl
  | overflowed _ ih => exact ih.of_eq rfl rfl rfl
  | entered name _ hs hkind hlevel _ ih => exact ih.entered name hs hkind hlevel
  | left name _ _ hs ih => exact ih.left name hs

/-- The register field and the difference of levels are zero in every instruction. -/
theorem fields_eq_zero (h : Reachable tokens capacity c) : ∀ ins ∈ c.buffer.code.toList, ins.r = 0 ∧ ins.l = 0 := by
  have hpush : ∀ {code : Array Instruction} {new : Instruction}, (∀ ins ∈ code.toList, ins.r = 0 ∧ ins.l = 0) →
      new.r = 0 ∧ new.l = 0 → ∀ ins ∈ (code.push new).toList, ins.r = 0 ∧ ins.l = 0 := by
    intro code new hcode hnew ins hins
    rw [Array.toList_push, List.mem_append, List.mem_singleton] at hins
    rcases hins with hins | rfl
    · exact hcode ins hins
    · exact hnew
  induction h with
  | start =>
    intro ins hins
    cases hins
  | advanced _ ih => exact ih
  | declared name kind _ ih => exact ih
  | emitted op m _ _ ih => exact hpush ih ⟨rfl, rfl⟩
  | emittedFor op m _ _ hd hb ih _ => exact hpush ih ⟨rfl, hd.wellNested.levelDiff_eq_zero hb⟩
  | jumpOpened op _ _ ih => exact hpush ih ⟨rfl, rfl⟩
  | jumpClosed address _ ih =>
    -- the fields of a closed jump are those of the open one, except for the target
    intro ins hins
    simp only [Context.jumpClosed, CodeBuffer.closeJump, Array.toList_modify] at hins
    obtain ⟨i, hi⟩ := List.mem_iff_getElem?.1 hins
    rw [List.getElem?_modify, Option.map_eq_map, Option.map_eq_some_iff] at hi
    obtain ⟨old, hold, rfl⟩ := hi
    have hfields := ih old (List.mem_of_getElem? hold)
    split <;> exact hfields
  | overflowed _ ih => exact ih
  | entered name _ _ _ _ _ ih => exact ih
  | left name _ _ _ ih => exact ih

end Reachable

end Context

/-! ### Compilations -/

/-- In every state of a compilation, whatever its outcome, levels and scopes fit together, a name that may be used was
declared on the current level, and all emitted instructions have zero in their first two fields.  The states of a
compilation are the reachable ones: the elementary actions and what the productions make of them do not leave these
states, and the last state is one of them. -/
theorem nesting_invariant (tokens : List Token) (capacity : Nat) :
    Gen.Rules (fun _ _ g _ => Gen.Reaches tokens capacity g) (Gen.Found tokens capacity) ∧
    Context.Reachable tokens capacity (compile tokens capacity).final ∧
    ∀ c, Context.Reachable tokens capacity c → c.WellNested ∧
      (∀ x b c', Gen.lookUp x c = .ok b c' → b.levelDiff = 0 ∧ ∃ s, c.own x = some s ∧ s.level = c.level) ∧
      ∀ ins ∈ c.buffer.code.toList, ins.r = 0 ∧ ins.l = 0 := by
  refine ⟨Gen.reaches_rules tokens capacity, compile_reachable tokens capacity,
    fun c hc => ⟨hc.wellNested, ?_, hc.fields_eq_zero⟩⟩
  intro x b c' hb
  refine ⟨hc.wellNested.levelDiff_eq_zero hb, ?_⟩
  have hwp : Gen.wp (Gen.lookUp x) c (fun _ _ => ∃ s, c.own x = some s) fun _ _ => True := by
    rw [Gen.wp_lookUp]
    exact ⟨fun s hs => ⟨s, hs⟩, fun _ => trivial⟩
  obtain ⟨s, hs⟩ := Gen.wp_of_ok hwp hb
  exact ⟨s, hs, hc.wellNested.level_eq hs⟩

/-- A compilation that stops in the inner one of two procedures, where `y` is not declared. -/
theorem nesting_invariant_inner :
    ∃ c, c = (compile [.procSym, .ident "p", .semicolon, .procSym, .ident "q", .semicolon, .varSym, .ident "x",
        .semicolon, .beginSym, .readSym, .ident "x", .semicolon, .writeSym, .ident "y", .endSym] 30).final ∧
      c.symbols.get? 2 = some ⟨"x", .var 3, 2, some 1⟩ ∧ c.symbols.Fits 2 2 (some 1) ∧
      c.symbols.Fits c.symbols.size c.level c.scope ∧ c.buffer.code[6]? = some ⟨.sto, 0, 0, 3⟩ ∧
      ∀ ins ∈ c.buffer.code.toList, ins.r = 0 ∧ ins.l = 0 := by
  obtain ⟨c, hc⟩ : ∃ c, c = (compile [.procSym, .ident "p", .semicolon, .procSym, .ident "q", .semicolon, .varSym,
      .ident "x", .semicolon, .beginSym, .readSym, .ident "x", .semicolon, .writeSym, .ident "y", .endSym] 30).final :=
    ⟨_, rfl⟩
  obtain ⟨-, h⟩ := nesting_invariant [.procSym, .ident "p", .semicolon, .procSym, .ident "q", .semicolon, .varSym,
    .ident "x", .semicolon, .beginSym, .readSym, .ident "x", .semicolon, .writeSym, .ident "y", .endSym] 30
  rw [← hc] at h
  obtain ⟨hnested, -, hfields⟩ := h.2 c h.1
  have hx : c.symbols.get? 2 = some ⟨"x", .var 3, 2, some 1⟩ := by
    rw [hc]
    decide +kernel
  have hsto : c.buffer.code[6]? = some ⟨.sto, 0, 0, 3⟩ := by
    rw [hc]
    decide +kernel
  exact ⟨c, hc, hx, hnested.symbols 2 _ hx, hnested.current, hsto, hfields⟩

end PL0
