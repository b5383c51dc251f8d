import Mathlib.Algebra.Group.Nat.Defs
import PL0.Proofs.Placement

/-!
# Names and their addresses

`Block.layout` lists the declarations of a block together with the values and addresses that the translation gives
them.  So for every name that a block declares, the environment of the block has the value of the constant, an address
that no other variable has, or the address where the code of the procedure stands.
-/

namespace PL0

/-! ### Layouts -/

def varLayout : List String → Nat → List (String × Declaration × SymbolKind)
  | [], _ => []
  | x :: rest, start => (x, .var, .var (Int32.ofNat start)) :: varLayout rest (start + 1)

def Procedures.layout : Procedures → Nat → List (String × Declaration × SymbolKind)
  | .nil, _ => []
  | .cons name block rest, start =>
    (name, .proc block, .proc (Int32.ofNat start)) :: rest.layout (start + block.size)

def Block.layout (b : Block) (start : Nat) : List (String × Declaration × SymbolKind) :=
  b.consts.map (fun item => (item.1, .const item.2, .const item.2)) ++
    (varLayout b.vars (start + 1) ++ b.procs.layout (b.procsStart start))

private theorem map_varLayout (vars : List String) (start : Nat) :
    (varLayout vars start).map (fun p => (p.1, p.2.1)) = vars.map (fun x => (x, .var)) ∧
      (varLayout vars start).map (fun p => (p.1, p.2.2)) = varNames vars start := by
  induction vars generalizing start with
  | nil => exact ⟨rfl, rfl⟩
  | cons x vars ih => simp [varLayout, varNames, ih]

private theorem Procedures.map_layout (l : Procedures) (start : Nat) :
    (l.layout start).map (fun p => (p.1, p.2.1)) = l.declarations ∧
      (l.layout start).map (fun p => (p.1, p.2.2)) = l.names start := by
  cases l with
  | nil => exact ⟨rfl, rfl⟩
  | cons name block rest =>
    simp [Procedures.layout, Procedures.declarations, Procedures.names, rest.map_layout]

theorem Block.meaning_eq_layout (b : Block) (start : Nat) (x : String) :
    b.meaning x = (latest (b.layout start) x).map (·.1) := by
  rw [← latest_map fun _ => Prod.fst]
  simp only [Block.meaning, Block.declarations, Block.layout, List.map_append, List.map_map,
    (map_varLayout b.vars (start + 1)).1, (b.procs.map_layout _).1]
  rfl

theorem Block.env_eq_layout (b : Block) (start : Nat) (x : String) :
    b.env start x = (latest (b.layout start) x).map (·.2) := by
  rw [← latest_map fun _ => Prod.snd]
  simp only [Block.env, Block.names, Block.layout, List.map_append, List.map_map,
    (map_varLayout b.vars (start + 1)).2, (b.procs.map_layout _).2]
  rfl

/-- What the environment of a block has for a declaration of the block. -/
theorem Block.exists_env {b : Block} {x : String} {d : Declaration} (h : b.meaning x = some d) (start : Nat) :
    ∃ k, b.env start x = some k ∧ (x, d, k) ∈ b.layout start := by
  rw [b.meaning_eq_layout start, Option.map_eq_some_iff] at h
  obtain ⟨⟨d', k⟩, hlatest, rfl⟩ := h
  exact ⟨k, by rw [b.env_eq_layout, hlatest]; rfl, mem_of_latest hlatest⟩

/-! ### Constants, variables and procedures -/

private theorem mem_varLayout {vars : List String} {start : Nat} {x : String} {d : Declaration} {k : SymbolKind}
    (h : (x, d, k) ∈ varLayout vars start) :
    d = .var ∧ ∃ i, vars[i]? = some x ∧ k = .var (Int32.ofNat (start + i)) := by
  induction vars generalizing start with
  | nil => cases h
  | cons y vars ih =>
    rw [varLayout, List.mem_cons] at h
    rcases h with h | h
    · cases h
      exact ⟨rfl, 0, rfl, rfl⟩
    · obtain ⟨hd, i, hi, hk⟩ := ih h
      exact ⟨hd, i + 1, hi, by rw [hk]; congr 2; omega⟩

private theorem Procedures.mem_layout : ∀ (l : Procedures) (start : Nat) {x : String} {d : Declaration}
    {k : SymbolKind}, (x, d, k) ∈ l.layout start →
    ∃ q a, d = .proc q ∧ k = .proc (Int32.ofNat a) ∧
      ∀ program, Placed program start (l.code start) → Placed program a (q.code a)
  | .nil, _, _, _, _, h => by cases h
  | .cons name block rest, start, x, d, k, h => by
    rw [Procedures.layout, List.mem_cons] at h
    rcases h with h | h
    · cases h
      exact ⟨block, start, rfl, rfl, fun program hp => hp.left⟩
    · obtain ⟨q, a, hd, hk, hplaced⟩ := rest.mem_layout _ h
      exact ⟨q, a, hd, hk, fun program hp => hplaced program (hp.right (Block.length_code _ _))⟩

namespace Block

variable {b q : Block} {start : Nat} {x y : String} {v : Int32}

theorem env_of_const (h : b.meaning x = some (.const v)) (start : Nat) : b.env start x = some (.const v) := by
  obtain ⟨k, hk, hmem⟩ := exists_env h start
  simp only [Block.layout, List.mem_append, List.mem_map] at hmem
  rcases hmem with ⟨item, -, hitem⟩ | hmem | hmem
  · cases hitem
    exact hk
  · cases (mem_varLayout hmem).1
  · obtain ⟨q, a, hd, -⟩ := b.procs.mem_layout _ hmem
    cases hd

/-- The address of a variable is a position in the declaration of the variables. -/
theorem env_of_var (h : b.meaning x = some .var) (start : Nat) :
    ∃ i, b.vars[i]? = some x ∧ b.env start x = some (.var (Int32.ofNat (start + 1 + i))) := by
  obtain ⟨k, hk, hmem⟩ := exists_env h start
  simp only [Block.layout, List.mem_append, List.mem_map] at hmem
  rcases hmem with ⟨item, -, hitem⟩ | hmem | hmem
  · cases hitem
  · obtain ⟨-, i, hi, rfl⟩ := mem_varLayout hmem
    exact ⟨i, hi, hk⟩
  · obtain ⟨q, a, hd, -⟩ := b.procs.mem_layout _ hmem
    cases hd

/-- At the address of a procedure there is its code. -/
theorem env_of_proc {program : List Instruction} (h : b.meaning x = some (.proc q))
    (hp : Placed program start (b.code start)) :
    ∃ a, b.env start x = some (.proc (Int32.ofNat a)) ∧ Placed program a (q.code a) := by
  obtain ⟨k, hk, hmem⟩ := exists_env h start
  simp only [Block.layout, List.mem_append, List.mem_map] at hmem
  rcases hmem with ⟨item, -, hitem⟩ | hmem | hmem
  · cases hitem
  · cases (mem_varLayout hmem).1
  · obtain ⟨q', a, hd, rfl, hplaced⟩ := b.procs.mem_layout _ hmem
    cases hd
    exact ⟨a, hk, hplaced program (placed_procs hp)⟩

/-- Different variables of a block have different addresses. -/
theorem eq_of_env_eq {a : Int32} (hsize : start + b.size ≤ 2 ^ 31) (hx : b.meaning x = some .var)
    (hy : b.meaning y = some .var) (hxa : b.env start x = some (.var a)) (hya : b.env start y = some (.var a)) :
    x = y := by
  obtain ⟨i, hi, hxi⟩ := env_of_var hx start
  obtain ⟨j, hj, hyj⟩ := env_of_var hy start
  have hvars : b.vars.length < b.size := by
    cases b
    simp only [Block.vars, Block.size]
    omega
  have hilt := (List.getElem?_eq_some_iff.1 hi).1
  have hjlt := (List.getElem?_eq_some_iff.1 hj).1
  have heq : Int32.ofNat (start + 1 + i) = Int32.ofNat (start + 1 + j) := by
    have h := hxa.trans hya.symm
    rw [hxi, hyj] at h
    simpa using h
  -- the code fits, so the two addresses are the same numbers as machine words
  have hij := congrArg Int32.toInt heq
  rw [Int32.toInt_ofNat_of_lt (by omega), Int32.toInt_ofNat_of_lt (by omega)] at hij
  obtain rfl : i = j := by omega
  rw [hi, Option.some.injEq] at hj
  exact hj

end Block

end PL0
