import PL0.Proofs.Translation

/-!
# The declarations of a translated block

The symbols of a block are its own declarations, which have the scope and the level of the block, and those of its
procedures, which have other scopes (`Block.scope_symbols`).  So the own declarations are found again by their scope
(`Block.filter_symbols`), and in the environment of a block every name has the sort that the block declares it with
(`Block.sortOf_env`).
-/

namespace PL0

/-- The id of a scope is below `n`. -/
def Scope.Below (scope : Scope) (n : Nat) : Prop :=
  ∀ j, scope = some j → j < n

theorem Scope.Below.mono {scope : Scope} {n m : Nat} (h : scope.Below n) (hnm : n ≤ m) : scope.Below m :=
  fun j hj => Nat.lt_of_lt_of_le (h j hj) hnm

theorem Scope.Below.ne {scope : Scope} {n j : Nat} (h : scope.Below n) (hj : n ≤ j) : some j ≠ scope := by
  intro he
  have := h j he.symm
  omega

/-! ### Scopes -/

mutual

/-- A symbol of a block has the scope of the block or the id of a symbol of the block as its scope. -/
theorem Block.scope_symbols : ∀ (b : Block) (start level : Nat) (scope : Scope) (id : Nat),
    ∀ s ∈ b.symbols start level scope id,
      s.scope = scope ∨ ∃ j, s.scope = some j ∧ id ≤ j ∧ j < id + (b.symbols start level scope id).length
  | .mk consts vars procs body, start, level, scope, id, s, hs => by
    simp only [Block.symbols, List.mem_append, List.mem_map] at hs
    rcases hs with ⟨item, -, rfl⟩ | ⟨item, -, rfl⟩ | hs
    · exact .inl rfl
    · exact .inl rfl
    · rcases Procedures.scope_symbols procs _ _ _ _ s hs with h | ⟨j, hj, hlo, hhi⟩
      · exact .inl h
      · refine .inr ⟨j, hj, by omega, ?_⟩
        simp only [Block.symbols, List.length_append, List.length_map, length_varNames]
        omega

theorem Procedures.scope_symbols : ∀ (l : Procedures) (start level : Nat) (scope : Scope) (id : Nat),
    ∀ s ∈ l.symbols start level scope id,
      s.scope = scope ∨ ∃ j, s.scope = some j ∧ id ≤ j ∧ j < id + (l.symbols start level scope id).length
  | .nil, _, _, _, _, s, hs => by simp [Procedures.symbols] at hs
  | .cons name block rest, start, level, scope, id, s, hs => by
    simp only [Procedures.symbols, List.mem_cons, List.mem_append] at hs
    simp only [Procedures.symbols, List.length_cons, List.length_append]
    rcases hs with rfl | hs | hs
    · exact .inl rfl
    · rcases Block.scope_symbols block _ _ _ _ s hs with h | ⟨j, hj, hlo, hhi⟩
      -- the scope of the body is the id of the procedure
      · exact .inr ⟨id, h, by omega, by omega⟩
      · exact .inr ⟨j, hj, by omega, by omega⟩
    · rcases Procedures.scope_symbols rest _ _ _ _ s hs with h | ⟨j, hj, hlo, hhi⟩
      · exact .inl h
      · exact .inr ⟨j, hj, by omega, by omega⟩

end

/-- A symbol of a procedure body does not have the scope of the block around the procedure. -/
theorem Block.scope_ne {b : Block} {start level id : Nat} {scope : Scope} (hscope : scope.Below id) {s : Symbol}
    (hs : s ∈ b.symbols start level (some id) (id + 1)) : s.scope ≠ scope := by
  rcases b.scope_symbols _ _ _ _ s hs with h | ⟨j, hj, hlo, -⟩
  · rw [h]
    exact hscope.ne (Nat.le_refl id)
  · rw [hj]
    exact hscope.ne (by omega)

private theorem Procedures.filter_symbols : ∀ (l : Procedures) (start level : Nat) {scope : Scope} (id : Nat),
    scope.Below id → (l.symbols start level scope id).filter (·.scope = scope) =
      (l.names start).map fun item => ⟨item.1, item.2, level, scope⟩
  | .nil, _, _, _, _, _ => rfl
  | .cons name block rest, start, level, scope, id, hscope => by
    have hinner : (block.symbols start (level + 1) (some id) (id + 1)).filter (·.scope = scope) = [] := by
      rw [List.filter_eq_nil_iff]
      intro s hs
      simpa using Block.scope_ne hscope hs
    simp only [Procedures.symbols, Procedures.names, List.filter_cons, decide_true, ↓reduceIte, List.filter_append,
      hinner, List.nil_append, List.map_cons]
    rw [rest.filter_symbols _ _ _ (hscope.mono (by omega))]

/-- The symbols with the scope of a block are the declarations of the block itself. -/
theorem Block.filter_symbols (b : Block) (start level : Nat) {scope : Scope} {id : Nat} (hscope : scope.Below id) :
    (b.symbols start level scope id).filter (·.scope = scope) =
      (b.names start).map fun item => ⟨item.1, item.2, level, scope⟩ := by
  obtain ⟨consts, vars, procs, body⟩ := b
  simp only [Block.symbols, Block.names, Block.consts, Block.vars, Block.procs, List.filter_append, List.map_append,
    List.map_map]
  rw [procs.filter_symbols _ _ _ (hscope.mono (by omega)), List.filter_eq_self.2, List.filter_eq_self.2]
  · rfl
  · intro s hs
    obtain ⟨item, -, rfl⟩ := List.mem_map.1 hs
    simp
  · intro s hs
    obtain ⟨item, -, rfl⟩ := List.mem_map.1 hs
    simp

/-! ### Sorts -/

private theorem sorts_varNames (vars : List String) (start : Nat) :
    (varNames vars start).map (fun p => (p.1, p.2.sort)) = vars.map (fun x => (x, NameSort.var)) := by
  induction vars generalizing start with
  | nil => rfl
  | cons x vars ih => simp only [varNames, List.map_cons, ih]; rfl

private theorem Procedures.sorts_names (l : Procedures) (start : Nat) :
    (l.names start).map (fun p => (p.1, p.2.sort)) = l.declarations.map (fun p => (p.1, p.2.sort)) := by
  cases l with
  | nil => rfl
  | cons name block rest =>
    simp only [Procedures.names, Procedures.declarations, List.map_cons, rest.sorts_names]
    rfl

/-- In the environment of a block a name has the sort that the block declares it with. -/
theorem Block.sortOf_env (b : Block) (start : Nat) : (b.env start).sortOf = b.sortOf := by
  funext x
  simp only [Env.sortOf, Block.env, Block.sortOf, Block.meaning, ← latest_map (fun _ => SymbolKind.sort),
    ← latest_map (fun _ => Declaration.sort)]
  congr 1
  simp only [Block.names, Block.declarations, List.map_append, sorts_varNames, b.procs.sorts_names, List.map_map]
  rfl

end PL0
