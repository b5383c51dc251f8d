import PL0.Generator.Context

/-!
# Expressions and conditions

    condition   ::= "odd" expression | expression rel-op expression
    expression  ::= ["+" | "-"] term {("+" | "-") term}
    term        ::= factor {("*" | "/") factor}
    factor      ::= name | number | "(" expression ")"

The code of an expression leaves its value on top of the stack.  Every production takes a bound `n` on the number of
tokens that are left.  A production that calls itself has read a token before, so the bound goes down with the tokens;
with no tokens left a production does what it does at the end of the input.
-/

namespace PL0.Gen

/-- The operation of a sign between terms. -/
def addOp? : Token → Option Opcode
  | .plus => some .add
  | .minus => some .sub
  | _ => none

/-- The operation of a sign between factors. -/
def mulOp? : Token → Option Opcode
  | .times => some .mul
  | .slash => some .div
  | _ => none

/-- The operation of a relation. -/
def relOp? : Token → Option Opcode
  | .eql => some .eql
  | .neq => some .neq
  | .lss => some .lss
  | .leq => some .leq
  | .gtr => some .gtr
  | .geq => some .geq
  | _ => none

/-- As long as an operator comes, reads it and an operand and emits the operation. -/
def chain (op? : Token → Option Opcode) (operand : Gen Unit) : Nat → Gen Unit
  | 0 => pure ()
  | n + 1 => do
    match op? (← peek) with
    | none => pure ()
    | some op =>
      advance
      operand
      emit op 0 0
      chain op? operand n

/-- Pushes the value of a constant or a variable. -/
def load (binding : Binding) (whenProcedure : CompileError) : Gen Unit :=
  match binding.kind with
  | .const value => emit .lit 0 value
  | .var address => emit .lod binding.levelDiff address
  | .proc _ => reject whenProcedure

/-- A term with the given factors. -/
def termOf (factor : Gen Unit) (n : Nat) : Gen Unit := do
  factor
  chain mulOp? factor n

/-- An expression with the given factors.  A sign in front belongs to the first term only. -/
def expressionOf (factor : Gen Unit) (n : Nat) : Gen Unit := do
  match ← peek with
  | .plus =>
    advance
    termOf factor n
  | .minus =>
    advance
    termOf factor n
    emit .neg 0 0
  | _ => termOf factor n
  chain addOp? (termOf factor n) n

def factor : Nat → Gen Unit
  | 0 => reject .illegalFactor
  | n + 1 => do
    match ← peek with
    | .ident name =>
      load (← lookUp name) .procedureInExpression
      advance
    | .number value =>
      emit .lit 0 value
      advance
    | .lparen =>
      advance
      expressionOf (factor n) n
      expect .rparen .rightParenMissing
    | _ => reject .illegalFactor

def term (n : Nat) : Gen Unit :=
  termOf (factor n) n

def expression (n : Nat) : Gen Unit :=
  expressionOf (factor n) n

def condition (n : Nat) : Gen Unit := do
  if (← peek) = .oddSym then
    advance
    expression n
    emit .odd 0 0
  else
    expression n
    match relOp? (← peek) with
    | none => reject .relationalOperatorExpected
    | some op =>
      advance
      expression n
      emit op 0 0

end PL0.Gen
