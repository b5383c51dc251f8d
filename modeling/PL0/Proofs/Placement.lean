import Mathlib.Algebra.Group.Nat.Defs
import PL0.Proofs.Translation

/-!
# Code in its place

`Placed program a code` says that `code` stands in `program` at the address `a`.  The parts of placed code are placed
at the addresses that follow from the sizes of the parts before them.  A placed block starts with the jump to its
entry, where its frame is reserved, and it ends with its return.  What holds of all instructions of a piece of code at
their addresses (`Throughout`) holds of them where the code is placed.
-/

namespace PL0

def Placed (program : List Instruction) (a : Nat) (code : List Instruction) : Prop :=
  ∃ before after, program = before ++ (code ++ after) ∧ before.length = a

namespace Placed

variable {program code code' : List Instruction} {ins : Instruction} {a : Nat}

theorem left (h : Placed program a (code ++ code')) : Placed program a code := by
  obtain ⟨before, after, hprogram, ha⟩ := h
  exact ⟨before, code' ++ after, by rw [hprogram, List.append_assoc], ha⟩

theorem right {n : Nat} (h : Placed program a (code ++ code')) (hn : code.length = n) :
    Placed program (a + n) code' := by
  obtain ⟨before, after, hprogram, ha⟩ := h
  refine ⟨before ++ code, after, by rw [hprogram, List.append_assoc, List.append_assoc], ?_⟩
  rw [List.length_append, ha, hn]

theorem tail (h : Placed program a (ins :: code)) : Placed program (a + 1) code :=
  (show Placed program a ([ins] ++ code) from h).right rfl

theorem head (h : Placed program a (ins :: code)) : program[a]? = some ins := by
  obtain ⟨before, after, rfl, rfl⟩ := h
  rw [List.getElem?_append_right (Nat.le_refl _), Nat.sub_self]
  rfl

theorem end_le {n : Nat} (h : Placed program a code) (hn : code.length = n) : a + n ≤ program.length := by
  obtain ⟨before, after, rfl, rfl⟩ := h
  simp only [List.length_append]
  omega

end Placed

/-! ### All instructions of a piece of code -/

/-- Every instruction of `code`, which starts at `a`, has a property together with its address. -/
def Throughout (P : Nat → Instruction → Prop) (a : Nat) (code : List Instruction) : Prop :=
  ∀ i ins, code[i]? = some ins → P (a + i) ins

namespace Throughout

variable {P P' : Nat → Instruction → Prop} {program code code' : List Instruction} {ins : Instruction} {a : Nat}

theorem nil : Throughout P a [] := by
  intro i ins hi
  simp at hi

theorem append {n : Nat} (hn : code.length = n) (h : Throughout P a code) (h' : Throughout P (a + n) code') :
    Throughout P a (code ++ code') := by
  subst hn
  intro i ins hi
  by_cases hlt : i < code.length
  · rw [List.getElem?_append_left hlt] at hi
    exact h i ins hi
  · rw [List.getElem?_append_right (by omega)] at hi
    have := h' _ ins hi
    rwa [show a + code.length + (i - code.length) = a + i by omega] at this

theorem cons (hins : P a ins) (h : Throughout P (a + 1) code) : Throughout P a (ins :: code) := by
  have hone : Throughout P a [ins] := by
    intro i ins' hi
    cases i with
    | zero =>
      obtain rfl : ins = ins' := by simpa using hi
      exact hins
    | succ i => simp at hi
  exact (show Throughout P a ([ins] ++ code) from append rfl hone h)

theorem mono (h : Throughout P a code) (hP : ∀ i ins, P i ins → P' i ins) : Throughout P' a code :=
  fun i ins hi => hP _ _ (h i ins hi)

theorem of_mem (h : ∀ ins ∈ code, ∀ i, P i ins) : Throughout P a code :=
  fun _ ins hi => h ins (List.mem_of_getElem? hi) _

theorem placed (h : Throughout P a code) (hp : Placed program a code) {i : Nat} (ha : a ≤ i)
    (hi : i < a + code.length) (hins : program[i]? = some ins) : P i ins := by
  obtain ⟨before, after, rfl, rfl⟩ := hp
  rw [List.getElem?_append_right ha, List.getElem?_append_left (by omega)] at hins
  have := h _ ins hins
  rwa [show before.length + (i - before.length) = i by omega] at this

end Throughout

/-! ### Blocks -/

namespace Block

variable {program : List Instruction} {b : Block} {start : Nat}

/-- The address of the return at the end of a block. -/
def exit (b : Block) (start : Nat) : Nat :=
  b.entry start + 1 + b.body.size

theorem exit_eq (b : Block) (start : Nat) : b.exit start + 1 = start + b.size := by
  cases b
  simp only [exit, entry, procsStart, size, vars, procs, body]
  omega

theorem size_pos (b : Block) : 0 < b.size := by
  cases b
  simp only [size]
  omega

theorem size_le (hp : Placed program start (b.code start)) (hlength : program.length ≤ 2 ^ 31) :
    start + b.size ≤ 2 ^ 31 :=
  Nat.le_trans (hp.end_le (Block.length_code _ _)) hlength

theorem exit_lt (hp : Placed program start (b.code start)) (hlength : program.length ≤ 2 ^ 31) :
    b.exit start < 2 ^ 31 := by
  have hsize := size_le hp hlength
  have hexit := b.exit_eq start
  omega

theorem placed_procs (hp : Placed program start (b.code start)) :
    Placed program (b.procsStart start) (b.procs.code (b.procsStart start)) := by
  obtain ⟨consts, vars, procs, body⟩ := b
  exact (hp.tail.right (List.length_map _)).left

theorem placed_entry (hp : Placed program start (b.code start)) :
    Placed program (b.entry start)
      (instruction .inc 4 :: (b.body.code (b.env start) (b.entry start + 1) ++ [instruction .rtn 0])) := by
  obtain ⟨consts, vars, procs, body⟩ := b
  exact (hp.tail.right (List.length_map _)).right (Procedures.length_code _ _)

theorem placed_body (hp : Placed program start (b.code start)) :
    Placed program (b.entry start + 1) (b.body.code (b.env start) (b.entry start + 1)) :=
  (placed_entry hp).tail.left

theorem rtn_at_exit (hp : Placed program start (b.code start)) :
    program[b.exit start]? = some (instruction .rtn 0) :=
  ((placed_entry hp).tail.right (Statement.length_code _ _)).head

theorem jmp_at_start (hp : Placed program start (b.code start)) :
    program[start]? = some (refer .jmp (b.entry start)) := by
  cases b
  exact hp.head

end Block

end PL0
