import Mathlib.Algebra.Group.Nat.Defs
import Mathlib.Data.List.Basic
import PL0.Proofs.Generator.Lockstep
import PL0.Proofs.Generator.Reading
import PL0.Proofs.Jumps.Backpatching

/-!
# The capacity as a threshold

A compilation consults the capacity only where it emits an instruction.  So the number of instructions that a
compilation with enough room emits until it succeeds or rejects its tokens is a threshold: with this capacity or a
larger one the outcome is always the same, and with a smaller one the compilation stops when the capacity is reached
(`compile_cases`).  Three more than the number of tokens is enough room.
-/

namespace PL0

variable {tokens : List Token} {capacity : Nat}

/-- How many instructions a compilation emitted until it ended. -/
def Compilation.emitted (compilation : Compilation) : Nat :=
  compilation.final.buffer.size

/-- With enough room a program is compiled or rejected. -/
theorem ok_or_rejected (hroom : ¬(compile tokens capacity).OutOfRoom) :
    (∃ compiled, (compile tokens capacity).outcome = .ok compiled) ∨
      ∃ e, (compile tokens capacity).outcome = .error (.rejected e) := by
  cases h : (compile tokens capacity).outcome with
  | ok compiled => exact .inl ⟨compiled, rfl⟩
  | error stop =>
    obtain ⟨⟨e, rfl⟩ | ⟨capacity', rfl⟩, -⟩ := (compile_pending tokens capacity).2 stop h
    · exact .inr ⟨e, rfl⟩
    · exact absurd ⟨capacity', h⟩ hroom

/-- A compilation with any capacity, compared with one that has enough room. -/
theorem compile_cases (tokens : List Token) (capacity : Nat) :
    ((compile tokens (tokens.length + 3)).emitted ≤ capacity ∧
      (compile tokens capacity).outcome = (compile tokens (tokens.length + 3)).outcome ∧
      (compile tokens capacity).emitted = (compile tokens (tokens.length + 3)).emitted) ∨
    (capacity < (compile tokens (tokens.length + 3)).emitted ∧
      (compile tokens capacity).outcome = .error (.fault (.full capacity)) ∧
      (compile tokens capacity).emitted = capacity) := by
  have hroom : ¬(compile tokens (tokens.length + 3)).OutOfRoom := not_outOfRoom (Nat.le_refl _)
  rcases Nat.le_total capacity (tokens.length + 3) with hle | hge
  · exact compile_narrows hle hroom
  · rcases compile_narrows hge (not_outOfRoom hge) with ⟨hsize, houtcome, hemitted⟩ | ⟨-, hfull, -⟩
    · exact .inl ⟨Nat.le_trans (Nat.le_of_eq hemitted) (Nat.le_trans hsize hge), houtcome.symm, hemitted.symm⟩
    · exact absurd ⟨_, hfull⟩ hroom

/-- A compilation that is not stopped by its capacity ends as with any other capacity that is enough. -/
theorem emitted_le_of_room (hroom : ¬(compile tokens capacity).OutOfRoom) :
    (compile tokens (tokens.length + 3)).emitted ≤ capacity ∧
      (compile tokens capacity).outcome = (compile tokens (tokens.length + 3)).outcome ∧
      (compile tokens capacity).emitted = (compile tokens (tokens.length + 3)).emitted := by
  rcases compile_cases tokens capacity with h | ⟨-, hfull, -⟩
  · exact h
  · exact absurd ⟨_, hfull⟩ hroom

/-- Let `N` be the number of instructions that are emitted when the capacity is unbounded, until the compilation
succeeds or rejects its tokens.  With a capacity of at least `N` the outcome is the same as without a bound, and with a
smaller one the compilation stops after as many instructions as the capacity allows.  So a program that is compiled
fits into the capacity, and every larger capacity gives the same program. -/
theorem capacity_threshold {tokens : List Token} (h : tokens.length < 2 ^ 32) :
    (∀ fault, (compile tokens largestCapacity).outcome ≠ .error (.fault fault)) ∧
    (∀ capacity, (compile tokens largestCapacity).emitted ≤ capacity →
      (compile tokens capacity).outcome = (compile tokens largestCapacity).outcome) ∧
    (∀ capacity, capacity < (compile tokens largestCapacity).emitted →
      (∃ fault, (compile tokens capacity).outcome = .error (.fault fault) ∧
        fault.message = "MAX_CODE_LENGTH(" ++ capacity.repr ++ ") reached: emit is unsuccessful") ∧
      (compile tokens capacity).emitted = capacity) ∧
    (∀ capacity compiled, (compile tokens capacity).outcome = .ok compiled →
      compiled.program.size ≤ capacity ∧
        ∀ k, capacity ≤ k → (compile tokens k).outcome = .ok compiled) := by
  have hlimit : tokens.length + 3 ≤ largestCapacity := by
    have : (2 : Nat) ^ 32 + 3 ≤ largestCapacity := by decide
    omega
  have hroom : ¬(compile tokens largestCapacity).OutOfRoom := not_outOfRoom hlimit
  obtain ⟨-, houtcome, hemitted⟩ := emitted_le_of_room hroom
  rw [houtcome, hemitted]
  refine ⟨?_, ?_, ?_, ?_⟩
  · intro fault hfault
    rw [← houtcome] at hfault
    rcases ok_or_rejected hroom with ⟨compiled, hok⟩ | ⟨e, herror⟩
    · rw [hok] at hfault
      cases hfault
    · rw [herror] at hfault
      cases hfault
  · intro capacity hle
    rcases compile_cases tokens capacity with ⟨-, hsame, -⟩ | ⟨hlt, -, -⟩
    · exact hsame
    · omega
  · intro capacity hlt
    rcases compile_cases tokens capacity with ⟨hle, -, -⟩ | ⟨-, hfull, hsize⟩
    · omega
    · exact ⟨⟨_, hfull, rfl⟩, hsize⟩
  · intro capacity compiled hok
    obtain ⟨hle, hsame, hsize⟩ := emitted_le_of_room (not_outOfRoom_of_ok hok)
    refine ⟨?_, fun k hk => ?_⟩
    · rw [← size_final_of_ok hok]
      exact Nat.le_trans (Nat.le_of_eq hsize) hle
    · rcases compile_cases tokens k with ⟨-, hsame', -⟩ | ⟨hlt, -, -⟩
      · rw [hsame', ← hsame, hok]
      · omega

/-- The name `y` is not declared, which is found after five instructions. -/
theorem capacity_threshold_undeclared :
    (compile [.varSym, .ident "x", .semicolon, .beginSym, .readSym, .ident "x", .semicolon, .writeSym, .ident "y",
      .endSym, .period] 5).outcome = .error (.rejected .undeclared) ∧
    (∃ fault, (compile [.varSym, .ident "x", .semicolon, .beginSym, .readSym, .ident "x", .semicolon, .writeSym,
      .ident "y", .endSym, .period] 4).outcome = .error (.fault fault) ∧
      fault.message = "MAX_CODE_LENGTH(4) reached: emit is unsuccessful") := by
  let tokens : List Token := [.varSym, .ident "x", .semicolon, .beginSym, .readSym, .ident "x", .semicolon, .writeSym,
    .ident "y", .endSym, .period]
  have hemitted : (compile tokens largestCapacity).emitted = 5 := by decide +kernel
  obtain ⟨-, hsame, hfull, -⟩ := capacity_threshold (by decide : tokens.length < 2 ^ 32)
  rw [hemitted] at hsame hfull
  constructor
  · rw [hsame 5 (Nat.le_refl 5)]
    decide +kernel
  · exact (hfull 4 (Nat.lt_succ_self 4)).1

/-- A token sequence needs at most three instructions more than it has tokens.  With such a capacity it is compiled or
rejected, and the levels of its procedures stay within 32 bits. -/
theorem capacity_suffices {tokens : List Token} (h : tokens.length < 2 ^ 32) :
    (∀ capacity, tokens.length + 3 ≤ capacity →
      ((∃ compiled, (compile tokens capacity).outcome = .ok compiled) ∨
        ∃ e, (compile tokens capacity).outcome = .error (.rejected e)) ∧
      ∀ name level, .entered name level ∈ (compile tokens capacity).log → level < 2 ^ 32) ∧
    (∀ capacity compiled, (compile tokens capacity).outcome = .ok compiled →
      compiled.program.size ≤ tokens.length + 3) := by
  constructor
  · intro capacity hcapacity
    refine ⟨ok_or_rejected (not_outOfRoom hcapacity), fun name level hmem => ?_⟩
    have hlevel := (compile_shallow tokens capacity).entered name level (Array.mem_def.2 hmem)
    have hposition := (compile_on tokens capacity).position_le
    omega
  · intro capacity compiled hok
    obtain ⟨-, -, hsize⟩ := emitted_le_of_room (not_outOfRoom_of_ok hok)
    obtain ⟨hle, -, -⟩ := emitted_le_of_room (not_outOfRoom (Nat.le_refl (tokens.length + 3)))
    rw [← size_final_of_ok hok]
    exact Nat.le_trans (Nat.le_of_eq hsize) hle

theorem capacity_suffices_procedure :
    (∃ compiled, (compile [.procSym, .ident "p", .semicolon, .semicolon, .period] 8).outcome = .ok compiled ∧
      compiled.program.size ≤ 8) ∧
    .entered "p" 1 ∈ (compile [.procSym, .ident "p", .semicolon, .semicolon, .period] 8).log ∧ 1 < 2 ^ 32 := by
  let tokens : List Token := [.procSym, .ident "p", .semicolon, .semicolon, .period]
  obtain ⟨hends, hsize⟩ := capacity_suffices (by decide : tokens.length < 2 ^ 32)
  have hok : (compile tokens 8).outcome = .ok ⟨⟨#[⟨.jmp, 0, 0, 4⟩, ⟨.jmp, 0, 0, 2⟩, ⟨.inc, 0, 0, 4⟩, ⟨.rtn, 0, 0, 0⟩,
      ⟨.inc, 0, 0, 4⟩, ⟨.rtn, 0, 0, 0⟩, ⟨.halt, 0, 0, 3⟩]⟩, ⟨#[⟨"p", .proc 1, 0, none⟩]⟩⟩ := by decide +kernel
  have hentered : .entered "p" 1 ∈ (compile tokens 8).log := by
    have hlog : (compile tokens 8).log.contains (.entered "p" 1) := by decide +kernel
    simpa using hlog
  exact ⟨⟨_, hok, hsize 8 _ hok⟩, hentered, (hends 8 (Nat.le_refl 8)).2 "p" 1 hentered⟩

-- the shortest program needs all of this room
example : (compile [.period] 3).outcome = .error (.fault (.full 3)) := rfl

end PL0
