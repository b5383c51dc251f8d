/-!
# Compile errors

Why a token sequence is rejected: the syntax or the names are wrong.  Each error has a number, which is also the exit
status of the command line, and a text.
-/

namespace PL0

inductive CompileError where
  | numberExpected
  | equalsExpected
  | identifierExpected
  | varSeparatorExpected
  | procSemicolonExpected
  | periodExpected
  | becomesExpected
  | callTargetExpected
  | thenExpected
  | semicolonOrEndExpected
  | doExpected
  | relationalOperatorExpected
  | rightParenMissing
  | illegalFactor
  | procedureInExpression
  | undeclared
  | assignToNonVariable
  | callOfNonProcedure
  | writeProcedure
  | readIntoNonVariable
  | notInCurrentScope
deriving DecidableEq

namespace CompileError

/-- All errors, in the order of their numbers. -/
def all : List CompileError :=
  [.numberExpected, .equalsExpected, .identifierExpected, .varSeparatorExpected, .procSemicolonExpected,
    .periodExpected, .becomesExpected, .callTargetExpected, .thenExpected, .semicolonOrEndExpected, .doExpected,
    .relationalOperatorExpected, .rightParenMissing, .illegalFactor, .procedureInExpression, .undeclared,
    .assignToNonVariable, .callOfNonProcedure, .writeProcedure, .readIntoNonVariable, .notInCurrentScope]

/-- The number of an error.  The two ways in which a factor can be wrong share one. -/
def code : CompileError → Nat
  | .numberExpected => 1
  | .equalsExpected => 2
  | .identifierExpected => 3
  | .varSeparatorExpected => 4
  | .procSemicolonExpected => 5
  | .periodExpected => 6
  | .becomesExpected => 7
  | .callTargetExpected => 8
  | .thenExpected => 9
  | .semicolonOrEndExpected => 10
  | .doExpected => 11
  | .relationalOperatorExpected => 12
  | .rightParenMissing => 13
  | .illegalFactor => 14
  | .procedureInExpression => 14
  | .undeclared => 15
  | .assignToNonVariable => 16
  | .callOfNonProcedure => 17
  | .writeProcedure => 18
  | .readIntoNonVariable => 19
  | .notInCurrentScope => 20

def description : CompileError → String
  | .numberExpected => "'=' must be followed by a number."
  | .equalsExpected => "identifier must be followed by '='."
  | .identifierExpected => "expected identifier."
  | .varSeparatorExpected => "semicolon or comma missing after variable declaration."
  | .procSemicolonExpected => "semicolon missing after procedure declaration."
  | .periodExpected => "period expected."
  | .becomesExpected => "':=' expected."
  | .callTargetExpected => "call must be followed by an identifier."
  | .thenExpected => "'then' expected."
  | .semicolonOrEndExpected => "semicolon or 'end' expected."
  | .doExpected => "'do' expected."
  | .relationalOperatorExpected => "relational operator expected."
  | .rightParenMissing => "right parenthesis missing."
  | .illegalFactor => "the preceding factor cannot begin with this symbol."
  | .procedureInExpression => "a procedure cannot be used as a value."
  | .undeclared => "undeclared identifier."
  | .assignToNonVariable => "assignment to constant or procedure is not allowed."
  | .callOfNonProcedure => "call of a constant or variable is meaningless."
  | .writeProcedure => "cannot write a procedure."
  | .readIntoNonVariable => "cannot read into a constant or procedure."
  | .notInCurrentScope => "identifier is not declared in the current scope."

def message (e : CompileError) : String :=
  "CODE GENERATOR ERROR[" ++ e.code.repr ++ "]: " ++ e.description

end CompileError

end PL0
