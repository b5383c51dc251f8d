import PL0.Generator.Expression

/-!
# Statements

    statement   ::= [ name ":=" expression
                    | "call" name
                    | "begin" statement {";" statement} "end"
                    | "if" condition "then" statement ["else" statement]
                    | "while" condition "do" statement
                    | "read" name
                    | "write" name ]

A statement leaves the stack as it found it.  An `else` belongs to the nearest `if` that is still open.  The forms that
contain statements take the production for these as an argument.
-/

namespace PL0.Gen

/-- An assignment to `name`, which is the current token. -/
def assignment (n : Nat) (name : String) : Gen Unit := do
  let binding ← lookUp name
  match binding.kind with
  | .var address =>
    advance
    expect .becomes .becomesExpected
    expression n
    emit .sto binding.levelDiff address
  | _ => reject .assignToNonVariable

def call : Gen Unit := do
  advance
  let binding ← lookUp (← peekName .callTargetExpected)
  match binding.kind with
  | .proc address =>
    emit .cal binding.levelDiff address
    advance
  | _ => reject .callOfNonProcedure

/-- As long as a semicolon comes, reads it and a statement. -/
def statementTail (statement : Gen Unit) : Nat → Gen Unit
  | 0 => pure ()
  | n + 1 => do
    if (← peek) = .semicolon then
      advance
      statement
      statementTail statement n

def compound (statement : Gen Unit) (n : Nat) : Gen Unit := do
  advance
  statement
  statementTail statement n
  expect .endSym .semicolonOrEndExpected

def ifStatement (statement : Gen Unit) (n : Nat) : Gen Unit := do
  advance
  condition n
  expect .thenSym .thenExpected
  let toElse ← openJump .jpc
  statement
  if (← peek) = .elseSym then
    let toEnd ← openJump .jmp
    closeJump toElse
    advance
    statement
    closeJump toEnd
  else
    closeJump toElse

def whileStatement (statement : Gen Unit) (n : Nat) : Gen Unit := do
  let top ← nextAddress
  advance
  condition n
  let toEnd ← openJump .jpc
  expect .doSym .doExpected
  statement
  emit .jmp 0 (Int32.ofNat top)
  closeJump toEnd

def write : Gen Unit := do
  advance
  let binding ← lookUp (← peekName .identifierExpected)
  load binding .writeProcedure
  emit .write 0 0
  advance

def read : Gen Unit := do
  advance
  let binding ← lookUp (← peekName .identifierExpected)
  match binding.kind with
  | .var address =>
    advance
    emit .read 0 0
    emit .sto binding.levelDiff address
  | _ => reject .readIntoNonVariable

def statement : Nat → Gen Unit
  | 0 => pure ()
  | n + 1 => do
    match ← peek with
    | .ident name => assignment n name
    | .callSym => call
    | .beginSym => compound (statement n) n
    | .ifSym => ifStatement (statement n) n
    | .whileSym => whileStatement (statement n) n
    | .writeSym => write
    | .readSym => read
    | _ => pure ()

end PL0.Gen
