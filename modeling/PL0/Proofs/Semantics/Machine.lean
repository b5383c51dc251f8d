import Mathlib.Algebra.Group.Nat.Defs
import PL0.Proofs.Placement
import PL0.Proofs.Semantics.Evaluation

/-!
# The stack machine

The machine that runs compiled programs.  It has a stack of integers for operands and a stack of frames, one for each
activation of a block.  A frame is a map from offsets to integers of its own, all zero in the beginning; it knows the
activation of the block around it (its static link) and where the caller goes on.

    LIT v       push v
    LOD l a     push the value at the offset a of the frame that l static links lead to
    STO l a     pop a value and store it at the offset a of the frame that l static links lead to
    CAL l a     push a frame whose static link is the frame that l static links lead to, go on at a
    RTN         pop the frame, go on at the caller
    INC n       reserve n cells more
    JMP a       go on at a
    JPC a       pop a value, go on at a if it is zero
    READ        push the next integer of the input
    WRITE       pop a value and write it
    HALT        stop

The other instructions pop one or two operands and push a result; in `a - b` the operand `b` is on top.  What the
arithmetic operations do is left open, and a division may have no result.  A machine that cannot go on has no next
state; neither has one that returns from the outermost frame.
-/

namespace PL0

def truth (p : Prop) [Decidable p] : Int :=
  if p then 1 else 0

/-- An activation of a block.  The static link is the number of frames up to the one of the block around it, counted
from the outermost frame. -/
structure Frame where
  cells : Int32 → Int
  reserved : Int
  link : Nat
  returnTo : Nat

/-- The frame of a new activation. -/
def Frame.fresh (link returnTo : Nat) : Frame :=
  ⟨fun _ => 0, 0, link, returnTo⟩

def Frame.store (f : Frame) (a : Int32) (v : Int) : Frame :=
  { f with cells := fun i => if i = a then v else f.cells i }

/-- A state of the machine.  The innermost frame and the topmost operand come first. -/
structure Machine where
  pc : Nat
  operands : List Int
  frames : List Frame
  input : List Int
  output : List Int

namespace Machine

/-- The state in which a program starts. -/
def start (input : List Int) : Machine :=
  ⟨0, [], [.fresh 0 0], input, []⟩

/-! ### Static links -/

/-- The frames from the one that `n` static links lead to. -/
def ancestors : Nat → List Frame → List Frame
  | 0, frames => frames
  | _ + 1, [] => []
  | n + 1, f :: frames => ancestors n (frames.drop (frames.length - f.link))

/-- The frames from the one at the difference `l` of levels, or none. -/
def reach (l : Int32) (frames : List Frame) : List Frame :=
  if 0 ≤ l.toInt then ancestors l.toInt.toNat frames else []

/-- The frames after a value was stored at the offset `a` of a frame. -/
def storeAt (l a : Int32) (v : Int) (frames : List Frame) : Option (List Frame) :=
  match reach l frames with
  | [] => none
  | f :: outer => some (frames.take (frames.length - (outer.length + 1)) ++ f.store a v :: outer)

/-! ### Steps -/

/-- The address that a modifier stands for. -/
def target? (m : Int32) : Option Nat :=
  if 0 ≤ m.toInt then some m.toInt.toNat else none

/-- The operations on one operand. -/
def unary? (ops : Arithmetic) : Opcode → Option (Int → Int)
  | .neg => some ops.neg
  | .odd => some fun a => truth (a % 2 = 1)
  | _ => none

/-- The operations on two operands. -/
def binary? (ops : Arithmetic) : Opcode → Option (Int → Int → Option Int)
  | .add => some fun a b => some (ops.add a b)
  | .sub => some fun a b => some (ops.sub a b)
  | .mul => some fun a b => some (ops.mul a b)
  | .div => some ops.div
  | .eql => some fun a b => some (truth (a = b))
  | .neq => some fun a b => some (truth (a ≠ b))
  | .lss => some fun a b => some (truth (a < b))
  | .leq => some fun a b => some (truth (a ≤ b))
  | .gtr => some fun a b => some (truth (a > b))
  | .geq => some fun a b => some (truth (a ≥ b))
  | _ => none

/-- The operations that only change the operands. -/
def calculate (ops : Arithmetic) (op : Opcode) (operands : List Int) : Option (List Int) :=
  match unary? ops op, binary? ops op, operands with
  | some f, _, a :: rest => some (f a :: rest)
  | none, some f, b :: a :: rest => (f a b).map (· :: rest)
  | _, _, _ => none

def execute (ops : Arithmetic) (ins : Instruction) (s : Machine) : Option Machine :=
  match ins.op, s.operands, s.frames, s.input with
  | .lit, _, _, _ => some { s with pc := s.pc + 1, operands := ins.m.toInt :: s.operands }
  | .lod, _, _, _ => (reach ins.l s.frames).head?.map fun f =>
      { s with pc := s.pc + 1, operands := f.cells ins.m :: s.operands }
  | .sto, v :: rest, _, _ => (storeAt ins.l ins.m v s.frames).map fun frames =>
      { s with pc := s.pc + 1, operands := rest, frames := frames }
  | .cal, _, _, _ => match reach ins.l s.frames, target? ins.m with
      | around@(_ :: _), some a =>
        some { s with pc := a, frames := .fresh around.length (s.pc + 1) :: s.frames }
      | _, _ => none
  | .rtn, _, f :: g :: outer, _ => some { s with pc := f.returnTo, frames := g :: outer }
  | .inc, _, f :: outer, _ =>
    some { s with pc := s.pc + 1, frames := { f with reserved := f.reserved + ins.m.toInt } :: outer }
  | .jmp, _, _, _ => (target? ins.m).map fun a => { s with pc := a }
  | .jpc, v :: rest, _, _ =>
    if v = 0 then (target? ins.m).map fun a => { s with pc := a, operands := rest }
    else some { s with pc := s.pc + 1, operands := rest }
  | .read, _, _, v :: rest => some { s with pc := s.pc + 1, operands := v :: s.operands, input := rest }
  | .write, v :: rest, _, _ => some { s with pc := s.pc + 1, operands := rest, output := s.output ++ [v] }
  | op, _, _, _ => (calculate ops op s.operands).map fun operands => { s with pc := s.pc + 1, operands := operands }

/-- The next state, if there is one. -/
def step (ops : Arithmetic) (program : List Instruction) (s : Machine) : Option Machine :=
  program[s.pc]?.bind fun ins => execute ops ins s

/-- The machine gets from one state to another. -/
inductive Runs (ops : Arithmetic) (program : List Instruction) : Machine → Machine → Prop
  | refl (s : Machine) : Runs ops program s s
  | head {s s' s'' : Machine} : step ops program s = some s' → Runs ops program s' s'' → Runs ops program s s''

namespace Runs

variable {ops : Arithmetic} {program : List Instruction} {s s' s'' : Machine}

theorem one (h : step ops program s = some s') : Runs ops program s s' :=
  .head h (.refl s')

theorem trans (h : Runs ops program s s') (h' : Runs ops program s' s'') : Runs ops program s s'' := by
  induction h with
  | refl => exact h'
  | head hstep _ ih => exact .head hstep (ih h')

end Runs

/-! ### The instructions of compiled programs -/

section

variable {ops : Arithmetic} {program : List Instruction} {pc : Nat} {operands : List Int} {frames : List Frame}
  {f : Frame} {input output : List Int}

theorem step_of {ins : Instruction} (h : program[pc]? = some ins) :
    step ops program ⟨pc, operands, frames, input, output⟩ = execute ops ins ⟨pc, operands, frames, input, output⟩ := by
  simp only [step, h, Option.bind_some]

/-- Without static links to follow the innermost frame is reached. -/
@[simp] theorem reach_zero (frames : List Frame) : reach 0 frames = frames := rfl

@[simp] theorem storeAt_zero (a : Int32) (v : Int) (f : Frame) (frames : List Frame) :
    storeAt 0 a v (f :: frames) = some (f.store a v :: frames) := by
  simp [storeAt]

theorem target?_ofNat {a : Nat} (h : a < 2 ^ 31) : target? (Int32.ofNat a) = some a := by
  simp [target?, Int32.toInt_ofNat_of_lt h]

theorem runs_lit {v : Int32} (h : program[pc]? = some (instruction .lit v)) :
    Runs ops program ⟨pc, operands, frames, input, output⟩ ⟨pc + 1, v.toInt :: operands, frames, input, output⟩ :=
  .one (step_of h)

theorem runs_lod {a : Int32} (h : program[pc]? = some (instruction .lod a)) :
    Runs ops program ⟨pc, operands, f :: frames, input, output⟩
      ⟨pc + 1, f.cells a :: operands, f :: frames, input, output⟩ :=
  .one (step_of h)

theorem runs_sto {a : Int32} {v : Int} (h : program[pc]? = some (instruction .sto a)) :
    Runs ops program ⟨pc, v :: operands, f :: frames, input, output⟩
      ⟨pc + 1, operands, f.store a v :: frames, input, output⟩ := by
  refine .one ((step_of h).trans ?_)
  simp [execute, instruction]

theorem runs_cal {a : Nat} (ha : a < 2 ^ 31) (h : program[pc]? = some (refer .cal a)) :
    Runs ops program ⟨pc, operands, f :: frames, input, output⟩
      ⟨a, operands, .fresh (frames.length + 1) (pc + 1) :: f :: frames, input, output⟩ := by
  refine .one ((step_of h).trans ?_)
  simp [execute, refer, instruction, target?_ofNat ha]

theorem runs_rtn {g : Frame} (h : program[pc]? = some (instruction .rtn 0)) :
    Runs ops program ⟨pc, operands, f :: g :: frames, input, output⟩
      ⟨f.returnTo, operands, g :: frames, input, output⟩ :=
  .one (step_of h)

theorem runs_inc {n : Int32} (h : program[pc]? = some (instruction .inc n)) :
    Runs ops program ⟨pc, operands, f :: frames, input, output⟩
      ⟨pc + 1, operands, { f with reserved := f.reserved + n.toInt } :: frames, input, output⟩ :=
  .one (step_of h)

theorem runs_jmp {a : Nat} (ha : a < 2 ^ 31) (h : program[pc]? = some (refer .jmp a)) :
    Runs ops program ⟨pc, operands, frames, input, output⟩ ⟨a, operands, frames, input, output⟩ := by
  refine .one ((step_of h).trans ?_)
  simp [execute, refer, instruction, target?_ofNat ha]

/-- A conditional jump is taken if the test has failed. -/
theorem runs_jpc {a : Nat} (ha : a < 2 ^ 31) {holds : Bool} (h : program[pc]? = some (refer .jpc a)) :
    Runs ops program ⟨pc, truth holds :: operands, frames, input, output⟩
      ⟨if holds then pc + 1 else a, operands, frames, input, output⟩ := by
  refine .one ((step_of h).trans ?_)
  cases holds <;> simp [execute, refer, instruction, target?_ofNat ha, truth]

theorem runs_read {v : Int} (h : program[pc]? = some (instruction .read 0)) :
    Runs ops program ⟨pc, operands, frames, v :: input, output⟩ ⟨pc + 1, v :: operands, frames, input, output⟩ :=
  .one (step_of h)

theorem runs_write {v : Int} (h : program[pc]? = some (instruction .write 0)) :
    Runs ops program ⟨pc, v :: operands, frames, input, output⟩ ⟨pc + 1, operands, frames, input, output ++ [v]⟩ :=
  .one (step_of h)

theorem runs_unary {op : Opcode} {g : Int → Int} (hop : unary? ops op = some g) {a : Int}
    (h : program[pc]? = some (instruction op 0)) :
    Runs ops program ⟨pc, a :: operands, frames, input, output⟩ ⟨pc + 1, g a :: operands, frames, input, output⟩ := by
  refine .one ((step_of h).trans ?_)
  cases op <;> cases hop <;> rfl

theorem runs_binary {op : Opcode} {g : Int → Int → Option Int} (hop : binary? ops op = some g) {a b c : Int}
    (hc : g a b = some c) (h : program[pc]? = some (instruction op 0)) :
    Runs ops program ⟨pc, b :: a :: operands, frames, input, output⟩
      ⟨pc + 1, c :: operands, frames, input, output⟩ := by
  refine .one ((step_of h).trans ?_)
  have hunary : unary? ops op = none := by
    cases op <;> first | rfl | cases hop
  have hcalculate : calculate ops op (b :: a :: operands) = some (c :: operands) := by
    simp [calculate, hunary, hop, hc]
  cases op <;> first | cases hop; simp [execute, instruction, hcalculate] | cases hop

end

end Machine

end PL0
