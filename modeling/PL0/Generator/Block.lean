import PL0.Generator.Statement

/-!
# Declarations, blocks and programs

    program     ::= block "."
    block       ::= [const-decl] [var-decl] {proc-decl} statement
    const-decl  ::= "const" name "=" number {"," name "=" number} ";"
    var-decl    ::= "var" name {"," name} ";"
    proc-decl   ::= "procedure" name ";" block ";"

The code of a block starts with a jump over the code of its procedures.  The address of a variable is the address of
the instruction that was emitted for it, the address of a procedure that of the first jump of its block.
-/

namespace PL0.Gen

/-- The cells that every activation of a block reserves. -/
def frameSize : Int32 := 4

/-- As long as a comma comes, reads one more item.  Each item begins with its comma. -/
def commaTail (item : Gen Unit) : Nat → Gen Unit
  | 0 => pure ()
  | n + 1 => do
    if (← peek) = .comma then
      item
      commaTail item n

/-- A constant, after `const` or a comma. -/
def constItem : Gen Unit := do
  advance
  let name ← takeName .identifierExpected
  expect .eql .equalsExpected
  let value ← takeNumber .numberExpected
  let _ ← declare name (.const value)

def constDeclaration (n : Nat) : Gen Unit := do
  if (← peek) = .constSym then
    constItem
    commaTail constItem n
    expect .semicolon .semicolonOrEndExpected

/-- A variable, after `var` or a comma. -/
def varItem : Gen Unit := do
  advance
  let address ← nextAddress
  let name ← takeName .identifierExpected
  let _ ← declare name (.var (Int32.ofNat address))
  emit .inc 0 1

def varDeclaration (n : Nat) : Gen Unit := do
  if (← peek) = .varSym then
    varItem
    commaTail varItem n
    expect .semicolon .varSeparatorExpected

/-- A procedure with the given body, from `procedure` to the semicolon after the body. -/
def procedure (block : Gen Unit) : Gen Unit := do
  let address ← nextAddress
  advance
  let name ← takeName .identifierExpected
  let id ← declare name (.proc (Int32.ofNat address))
  expect .semicolon .procSemicolonExpected
  inBody name id block
  expect .semicolon .procSemicolonExpected

/-- As long as `procedure` comes, reads a procedure. -/
def procedures (block : Gen Unit) : Nat → Gen Unit
  | 0 => pure ()
  | n + 1 => do
    if (← peek) = .procSym then
      procedure block
      procedures block n

/-- A block with the given procedure declarations. -/
def blockOf (procedures : Gen Unit) (n : Nat) : Gen Unit := do
  let skip ← openJump .jmp
  constDeclaration n
  varDeclaration n
  procedures
  closeJump skip
  emit .inc 0 frameSize
  statement n
  emit .rtn 0 0

def block : Nat → Gen Unit
  | 0 => blockOf (pure ()) 0
  | n + 1 => blockOf (procedures (block n) (n + 1)) (n + 1)

/-- The modifier of the final instruction. -/
def haltModifier : Int32 := 3

def program (n : Nat) : Gen Unit := do
  block n
  expect .period .periodExpected
  emit .halt 0 haltModifier

end PL0.Gen
