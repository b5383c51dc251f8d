import PL0.Event

/-!
# Code buffers

The instructions emitted so far, up to a fixed capacity.  A jump may be emitted before its target is known and is open
until `CodeBuffer.closeJump` fills the target in; a buffer is a finished program when no jump is open.  A step answers
with the buffer after it also when it faults.
-/

namespace PL0

/-- Why a step on a code buffer is impossible. -/
inductive Fault where
  | full (capacity : Nat)
  | notAJump (op : Opcode)
  | jumpsLeftOpen (count : Nat)
deriving DecidableEq

def Fault.message : Fault → String
  | .full capacity => "MAX_CODE_LENGTH(" ++ capacity.repr ++ ") reached: emit is unsuccessful"
  | .notAJump op => op.title ++ " is not a jump"
  | .jumpsLeftOpen count =>
    "assertion `left == right` failed: jump left without a target\n  left: " ++ count.repr ++ "\n right: 0"

/-- Emitted instructions, how many of them there may be, and how many jumps are open. -/
structure CodeBuffer where
  code : Array Instruction
  capacity : Nat
  openJumps : Nat
deriving DecidableEq

namespace CodeBuffer

def empty (capacity : Nat) : CodeBuffer :=
  ⟨#[], capacity, 0⟩

/-- The address of the next instruction. -/
def size (buffer : CodeBuffer) : Nat :=
  buffer.code.size

def isFull (buffer : CodeBuffer) : Bool :=
  buffer.size = buffer.capacity

/-- Appends an instruction.  Its address is the size before. -/
@[inline] def append (buffer : CodeBuffer) (ins : Instruction) : Except Fault Nat × CodeBuffer :=
  if buffer.isFull then (.error (.full buffer.capacity), buffer)
  else (.ok buffer.size, { buffer with code := buffer.code.push ins })

/-- Appends an open jump, for the time being to address 0. -/
@[inline] def openJump (buffer : CodeBuffer) (op : Opcode) : Except Fault Nat × CodeBuffer :=
  if !op.isJump then (.error (.notAJump op), buffer)
  else match buffer.append ⟨op, 0, 0, 0⟩ with
    | (.ok address, buffer) => (.ok address, { buffer with openJumps := buffer.openJumps + 1 })
    | (.error fault, buffer) => (.error fault, buffer)

/-- Points the open jump at `address` to `target`, of which the low 32 bits are kept. -/
def closeJump (buffer : CodeBuffer) (address target : Nat) : CodeBuffer :=
  { buffer with
    code := buffer.code.modify address fun ins => { ins with m := Int32.ofNat target }
    openJumps := buffer.openJumps - 1 }

/-- The finished program. -/
def toProgram (buffer : CodeBuffer) : Except Fault Program :=
  if buffer.openJumps = 0 then .ok ⟨buffer.code⟩ else .error (.jumpsLeftOpen buffer.openJumps)

/-- A step on a buffer. -/
inductive Action where
  | append (ins : Instruction)
  | openJump (op : Opcode)
  | closeJump (address target : Nat)
deriving DecidableEq

/-- The answer to a step, with the address of the instruction if one was appended, and the buffer after it. -/
def perform (buffer : CodeBuffer) : Action → Except Fault (Option Nat) × CodeBuffer
  | .append ins => (buffer.append ins).map (·.map some) id
  | .openJump op => (buffer.openJump op).map (·.map some) id
  | .closeJump address target => (.ok none, buffer.closeJump address target)

/-- What the log says of the attempt to append `ins`. -/
def appendEvent (buffer : CodeBuffer) (ins : Instruction) : Event :=
  if buffer.isFull then .full buffer.capacity else .appended buffer.size ins

/-- What the log says of the attempt to append an open jump.  An operation that is no jump is refused before. -/
def openJumpEvents (buffer : CodeBuffer) (op : Opcode) : List Event :=
  if op.isJump then [if buffer.isFull then .full buffer.capacity else .jumpOpened buffer.size op] else []

/-- What the log says when the jump at `address` is pointed to `target`. -/
def closeJumpEvents (buffer : CodeBuffer) (address target : Nat) : List Event :=
  match buffer.code[address]? with
  | some ins => [.jumpClosed address ins.op target]
  | none => []

theorem size_closeJump (buffer : CodeBuffer) (address target : Nat) :
    (buffer.closeJump address target).size = buffer.size := by
  simp [closeJump, size]

end CodeBuffer

end PL0
