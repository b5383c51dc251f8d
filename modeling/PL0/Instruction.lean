import PL0.Text.Numeral

/-!
# Instructions of the stack machine

Every instruction has an operation and three fields: a register (always zero in compiled programs), a difference of
nesting levels, and a modifier, which holds a literal, an address, a jump target or a frame size.  A program is the
sequence of its instructions, and an address is a position in it.
-/

namespace PL0

/-- The operations of the machine. -/
inductive Opcode where
  | lit
  | rtn
  | lod
  | sto
  | cal
  | inc
  | jmp
  | jpc
  | write
  | read
  | halt
  | neg
  | add
  | sub
  | mul
  | div
  | odd
  | eql
  | neq
  | lss
  | leq
  | gtr
  | geq
deriving DecidableEq

/-- All operations, in the order of their numbers. -/
def Opcode.all : List Opcode :=
  [.lit, .rtn, .lod, .sto, .cal, .inc, .jmp, .jpc, .write, .read, .halt, .neg, .add, .sub, .mul, .div, .odd, .eql, .neq,
    .lss, .leq, .gtr, .geq]

/-- The number of an operation.  The number 18 is not used. -/
def Opcode.code : Opcode → Nat
  | .lit => 1
  | .rtn => 2
  | .lod => 3
  | .sto => 4
  | .cal => 5
  | .inc => 6
  | .jmp => 7
  | .jpc => 8
  | .write => 9
  | .read => 10
  | .halt => 11
  | .neg => 12
  | .add => 13
  | .sub => 14
  | .mul => 15
  | .div => 16
  | .odd => 17
  | .eql => 19
  | .neq => 20
  | .lss => 21
  | .leq => 22
  | .gtr => 23
  | .geq => 24

def Opcode.mnemonic : Opcode → String
  | .lit => "LIT"
  | .rtn => "RTN"
  | .lod => "LOD"
  | .sto => "STO"
  | .cal => "CAL"
  | .inc => "INC"
  | .jmp => "JMP"
  | .jpc => "JPC"
  | .write => "SIO_WRITE"
  | .read => "SIO_READ"
  | .halt => "SIO_HALT"
  | .neg => "NEG"
  | .add => "ADD"
  | .sub => "SUB"
  | .mul => "MUL"
  | .div => "DIV"
  | .odd => "ODD"
  | .eql => "EQL"
  | .neq => "NEQ"
  | .lss => "LSS"
  | .leq => "LEQ"
  | .gtr => "GTR"
  | .geq => "GEQ"

/-- The name of an operation in messages about faults. -/
def Opcode.title : Opcode → String
  | .lit => "Lit"
  | .rtn => "Rtn"
  | .lod => "Lod"
  | .sto => "Sto"
  | .cal => "Cal"
  | .inc => "Inc"
  | .jmp => "Jmp"
  | .jpc => "Jpc"
  | .write => "Write"
  | .read => "Read"
  | .halt => "Halt"
  | .neg => "Neg"
  | .add => "Add"
  | .sub => "Sub"
  | .mul => "Mul"
  | .div => "Div"
  | .odd => "Odd"
  | .eql => "Eql"
  | .neq => "Neq"
  | .lss => "Lss"
  | .leq => "Leq"
  | .gtr => "Gtr"
  | .geq => "Geq"

/-- The operations whose target may be filled in later. -/
def Opcode.isJump : Opcode → Bool
  | .jmp | .jpc => true
  | _ => false

/-- The operation with a given mnemonic. -/
def Opcode.ofMnemonic? (mnemonic : String) : Option Opcode :=
  Opcode.all.find? (·.mnemonic = mnemonic)

/-- One machine instruction. -/
structure Instruction where
  op : Opcode
  r : Int32
  l : Int32
  m : Int32
deriving DecidableEq

/-- The three fields of an instruction in decimal, with blanks between them. -/
def Instruction.fields (ins : Instruction) : String :=
  decimal32 ins.r ++ " " ++ decimal32 ins.l ++ " " ++ decimal32 ins.m

/-- A sequence of instructions. -/
structure Program where
  instructions : Array Instruction
deriving DecidableEq

def Program.size (program : Program) : Nat :=
  program.instructions.size

end PL0
