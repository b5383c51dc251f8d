import PL0.Instruction
import PL0.Symbol
import PL0.Json

/-!
# Renderings

The written forms of a program: lines of integers, a listing with addresses and mnemonics, and a JSON document; and the
table of its symbols.
-/

namespace PL0

/-- The written forms of a program. -/
inductive Format where
  | code
  | listing
  | json
deriving DecidableEq

/-- A text of the given lines. -/
def unlines (lines : List String) : String :=
  String.join (lines.map (· ++ "\n"))

/-- An instruction as four integers. -/
def Instruction.text (ins : Instruction) : String :=
  ins.op.code.repr ++ " " ++ ins.fields

/-- An instruction as an object, which has the number of the operation next to its mnemonic. -/
def Instruction.toJson (ins : Instruction) : Json :=
  .object [("op", .string ins.op.mnemonic), ("code", .number (Int32.ofNat ins.op.code)), ("r", .number ins.r),
    ("l", .number ins.l), ("m", .number ins.m)]

namespace Program

def last? (program : Program) : Option Instruction :=
  program.instructions.back?

/-! ### Code and listing -/

/-- The program as lines of four integers. -/
def code (program : Program) : String :=
  unlines (program.instructions.toList.map Instruction.text)

/-- A line of a listing.  Address and mnemonic stand in columns of four and nine characters. -/
def listingLine (ins : Instruction) (address : Nat) : String :=
  padLeft 4 ' ' address.repr ++ "  " ++ padRight 9 ins.op.mnemonic ++ " " ++ ins.fields

def listingLines (program : Program) : List String :=
  program.instructions.toList.zipIdx.map fun (ins, address) => listingLine ins address

/-- The program with addresses and mnemonics. -/
def listing (program : Program) : String :=
  unlines program.listingLines

/-! ### JSON -/

/-- The program as an object with the array of its instructions. -/
def toJson (program : Program) : Json :=
  .object [("instructions", .array (program.instructions.toList.map Instruction.toJson))]

/-- The program as a JSON document, with a line break after it. -/
def json (program : Program) (print : Json → String := Json.pretty) : String :=
  print program.toJson ++ "\n"

/-! ### All forms -/

/-- The program in a given form, where `print` prints JSON documents. -/
def render (program : Program) (print : Json → String) : Format → String
  | .code => program.code
  | .listing => program.listing
  | .json => program.json print

end Program

/-! ### Symbols -/

namespace SymbolTable

/-- A line of five columns. -/
def dumpLine (name kind level value scope : String) : String :=
  padRight 12 name ++ " " ++ padRight 9 kind ++ " " ++ padLeft 5 ' ' level ++ " " ++ padLeft 7 ' ' value ++ "  " ++
    scope

/-- The name of a scope: that of its procedure. -/
def scopeName (table : SymbolTable) (scope : Scope) : String :=
  match scope.bind table.get? with
  | some symbol => symbol.name
  | none => "global"

/-- The table of all symbols under a heading, in the order of their declarations. -/
def dump (table : SymbolTable) : String :=
  unlines (dumpLine "name" "kind" "level" "value" "scope" ::
    table.symbols.toList.map fun symbol =>
      dumpLine symbol.name symbol.kind.name symbol.level.repr (decimal32 symbol.kind.value)
        (table.scopeName symbol.scope))

end SymbolTable

end PL0
