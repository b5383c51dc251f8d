import PL0.Proofs.Translation

/-!
# Which operations occur where

The code of an expression or a condition only pushes values and calculates with them (`Condition.calculates`).  In the
code of a statement there are also calls, jumps, stores, input and output, but cells are reserved and returns are made
by blocks only, and a halt stands at the end of a program only (`Statement.framesNothing`).
-/

namespace PL0

namespace Opcode

/-- The operation pushes a value, or it calculates one from the operands. -/
def isCalculation : Opcode → Bool
  | .lit | .lod | .neg | .add | .sub | .mul | .div | .odd | .eql | .neq | .lss | .leq | .gtr | .geq => true
  | _ => false

/-- The operations of the frame of a block and of the end of a program. -/
def isFraming : Opcode → Bool
  | .inc | .rtn | .halt => true
  | _ => false

variable {op : Opcode}

theorem isJump_of_isCalculation (h : op.isCalculation) : op.isJump = false := by
  cases op <;> first | rfl | cases h

theorem isFraming_of_isCalculation (h : op.isCalculation) : op.isFraming = false := by
  cases op <;> first | rfl | cases h

end Opcode

section

variable {env : Env}

/-! ### Expressions -/

theorem Env.calculates_load (x : String) : (env.load x).op.isCalculation := by
  unfold Env.load
  split <;> rfl

mutual

theorem Expression.calculates : ∀ e : Expression, ∀ ins ∈ e.code env, ins.op.isCalculation
  | .mk sign first rest, ins, h => by
    simp only [Expression.code, List.mem_append] at h
    rcases h with h | h | h
    · exact first.calculates ins h
    · rcases sign with _ | (_ | _) <;> simp [signCode] at h
      rw [h]
      rfl
    · exact rest.calculates ins h

theorem TermTail.calculates : ∀ l : TermTail, ∀ ins ∈ l.code env, ins.op.isCalculation
  | .nil, ins, h => by cases h
  | .cons op term rest, ins, h => by
    simp only [TermTail.code, List.mem_append, List.mem_cons] at h
    rcases h with h | rfl | h
    · exact term.calculates ins h
    · cases op <;> rfl
    · exact rest.calculates ins h

theorem Term.calculates : ∀ t : Term, ∀ ins ∈ t.code env, ins.op.isCalculation
  | .mk first rest, ins, h => by
    simp only [Term.code, List.mem_append] at h
    rcases h with h | h
    · exact first.calculates ins h
    · exact rest.calculates ins h

theorem FactorTail.calculates : ∀ l : FactorTail, ∀ ins ∈ l.code env, ins.op.isCalculation
  | .nil, ins, h => by cases h
  | .cons op factor rest, ins, h => by
    simp only [FactorTail.code, List.mem_append, List.mem_cons] at h
    rcases h with h | rfl | h
    · exact factor.calculates ins h
    · cases op <;> rfl
    · exact rest.calculates ins h

theorem Factor.calculates : ∀ f : Factor, ∀ ins ∈ f.code env, ins.op.isCalculation
  | .name x, ins, h => by
    rw [List.mem_singleton.1 h]
    exact Env.calculates_load x
  | .number value, ins, h => by
    rw [List.mem_singleton.1 h]
    rfl
  | .paren inner, ins, h => inner.calculates ins h

end

theorem Condition.calculates (c : Condition) : ∀ ins ∈ c.code env, ins.op.isCalculation := by
  intro ins h
  cases c with
  | odd e =>
    simp only [Condition.code, List.mem_append, List.mem_singleton] at h
    rcases h with h | rfl
    · exact e.calculates ins h
    · rfl
  | compare left op right =>
    simp only [Condition.code, List.mem_append, List.mem_singleton] at h
    rcases h with h | h | rfl
    · exact left.calculates ins h
    · exact right.calculates ins h
    · cases op <;> rfl

/-! ### Statements -/

mutual

theorem Statement.framesNothing : ∀ (s : Statement) (start : Nat), ∀ ins ∈ s.code env start, ins.op.isFraming = false
  | .empty, _, ins, h => by cases h
  | .assign x e, _, ins, h => by
    simp only [Statement.code, List.mem_append, List.mem_singleton] at h
    rcases h with h | rfl
    · exact Opcode.isFraming_of_isCalculation (e.calculates ins h)
    · rfl
  | .call p, _, ins, h => by
    rw [List.mem_singleton.1 h]
    rfl
  | .compound first rest, start, ins, h => by
    simp only [Statement.code, List.mem_append] at h
    rcases h with h | h
    · exact first.framesNothing _ ins h
    · exact rest.framesNothing _ ins h
  | .ifThen c s, start, ins, h => by
    simp only [Statement.code, List.mem_append, List.mem_cons] at h
    rcases h with h | rfl | h
    · exact Opcode.isFraming_of_isCalculation (c.calculates ins h)
    · rfl
    · exact s.framesNothing _ ins h
  | .ifElse c s t, start, ins, h => by
    simp only [Statement.code, List.mem_append, List.mem_cons] at h
    rcases h with h | rfl | h | rfl | h
    · exact Opcode.isFraming_of_isCalculation (c.calculates ins h)
    · rfl
    · exact s.framesNothing _ ins h
    · rfl
    · exact t.framesNothing _ ins h
  | .whileDo c s, start, ins, h => by
    simp only [Statement.code, List.mem_append, List.mem_cons, List.not_mem_nil, or_false] at h
    rcases h with h | rfl | h | rfl
    · exact Opcode.isFraming_of_isCalculation (c.calculates ins h)
    · rfl
    · exact s.framesNothing _ ins h
    · rfl
  | .read x, _, ins, h => by
    simp only [Statement.code, List.mem_cons, List.not_mem_nil, or_false] at h
    rcases h with rfl | rfl <;> rfl
  | .write x, _, ins, h => by
    simp only [Statement.code, List.mem_cons, List.not_mem_nil, or_false] at h
    rcases h with rfl | rfl
    · exact Opcode.isFraming_of_isCalculation (Env.calculates_load x)
    · rfl

theorem StatementTail.framesNothing : ∀ (l : StatementTail) (start : Nat), ∀ ins ∈ l.code env start,
    ins.op.isFraming = false
  | .nil, _, ins, h => by cases h
  | .cons s rest, start, ins, h => by
    simp only [StatementTail.code, List.mem_append] at h
    rcases h with h | h
    · exact s.framesNothing _ ins h
    · exact rest.framesNothing _ ins h

end

end

end PL0
