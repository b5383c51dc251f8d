import Mathlib.Algebra.Group.Nat.Defs
import PL0.Proofs.Generator.Safety
import PL0.Proofs.Jumps.Targets

/-!
# Conversions lose nothing

Addresses and levels are natural numbers in the compiler, and integers with 32 bits in symbols and instructions.  If the
code has at most `2 ^ 31` instructions, then every conversion in a successful compilation gives the same number again:
an instruction always follows the position that is converted, so the position is less than the length of the program,
and every level is at most the position where it is used.  No counter leaves its range, in any compilation.
-/

namespace PL0

namespace Context.Recorded

variable {c : Context} {ins : Instruction} {i : Nat} {e : Event}

/-- Before the last instruction every position was less than the number of instructions. -/
private theorem position_lt (h : c.Recorded 1 []) (he : (c.emitted ins).log.toList[i]? = some e)
    (hemits : e.emits = false) : emittedIn ((c.emitted ins).log.toList.take i) < (c.emitted ins).buffer.size := by
  have hlog : (c.emitted ins).log.toList = c.log.toList ++ [.appended c.buffer.size ins] := Array.toList_push ..
  have hsize : (c.emitted ins).buffer.size = c.buffer.size + 1 := Array.size_push _
  have hemitted := h.emitted
  rw [hlog] at he ⊢
  by_cases hlt : i < c.log.toList.length
  · have hle := emittedIn_take_le c.log.toList i
    rw [List.take_append_of_le_length (by omega), hsize]
    omega
  -- the last event is the emission itself
  · obtain ⟨hlength, hget⟩ := List.getElem?_eq_some_iff.1 he
    rw [List.length_append, List.length_singleton] at hlength
    obtain rfl : i = c.log.toList.length := by omega
    rw [List.getElem_concat_length rfl] at hget
    rw [← hget] at hemits
    cases hemits

end Context.Recorded

/-- The last state of a compilation that has succeeded. -/
private structure Finished (final : Context) (compiled : CompiledProgram) : Prop where
  recorded : final.Recorded 1 []
  position_lt : ∀ (i : Nat) (e : Event), final.log.toList[i]? = some e → e.emits = false →
    emittedIn (final.log.toList.take i) < final.buffer.size
  compiled_eq : compiled = ⟨⟨final.buffer.code⟩, final.symbols⟩

namespace Finished

variable {final : Context} {compiled : CompiledProgram}

private theorem size_eq (h : Finished final compiled) : compiled.program.size = final.buffer.size := by
  rw [h.compiled_eq]
  rfl

private theorem size_le (h : Finished final compiled) : compiled.program.size ≤ 2 ^ 31 := by
  have := h.recorded.fits
  have := h.recorded.bound
  rw [h.size_eq]
  omega

end Finished

/-- A loop of the tree, in the program. -/
private theorem CompiledProgram.Translates.loop {b : Block} {compiled : CompiledProgram}
    (h : compiled.Translates b) (hsize : compiled.program.size ≤ 2 ^ 31) {loop : Loop} (hloop : loop ∈ b.loops 0) :
    Placed compiled.program.instructions.toList loop.top loop.test ∧ loop.top < compiled.program.size ∧ ∃ ins,
      compiled.program.instructions[loop.closing]? = some ins ∧ ins.op = .jmp ∧ ins.m.toInt = loop.top := by
  have hplaced : Placed b.program 0 (b.code 0) := ⟨[], _, rfl, rfl⟩
  obtain ⟨htest, hclosing, htop⟩ := b.placed_loops 0 hplaced loop hloop
  rw [← h.program] at htest hclosing
  rw [Array.getElem?_toList] at hclosing
  have hlt : loop.closing < compiled.program.size := (Array.getElem?_eq_some_iff.1 hclosing).1
  exact ⟨htest, by omega, _, hclosing, rfl, Int32.toInt_ofNat_of_lt (by omega)⟩

end PL0
