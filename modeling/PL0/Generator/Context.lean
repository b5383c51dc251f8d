import PL0.TokenStream
import PL0.CodeBuffer
import PL0.CompileError

/-!
# The state of a compilation

The compiler reads tokens, declares and looks up names and emits code in a single pass.  This module has the state of
that pass, `Context`, and its elementary actions.  An action that stops keeps the state in which it stopped, so that
what was read, declared, emitted and reported until then can be stated.
-/

namespace PL0

/-- Why a compilation stops: the program is wrong, or the code buffer does not take a step. -/
inductive Stop where
  | rejected (e : CompileError)
  | fault (f : Fault)
deriving DecidableEq

/-- The state of a compilation.  `level` counts the procedure bodies around the current position and `scope` is the
innermost of these procedures. -/
structure Context where
  tokens : TokenStream
  symbols : SymbolTable
  buffer : CodeBuffer
  level : Nat
  scope : Scope
  log : Array Event

namespace Context

/-- The state before the first token. -/
def start (tokens : List Token) (capacity : Nat) : Context where
  tokens := .ofList tokens
  symbols := .empty
  buffer := .empty capacity
  level := 0
  scope := none
  log := #[]

def record (context : Context) (event : Event) : Context :=
  { context with log := context.log.push event }

/-- Steps into the body of the procedure `id`. -/
def enter (context : Context) (name : String) (id : Nat) : Context :=
  { context with level := context.level + 1, scope := some id }.record (.entered name (context.level + 1))

/-- Steps back out to the surrounding level and scope. -/
def leave (context : Context) (name : String) (level : Nat) (scope : Scope) : Context :=
  { context with level := level, scope := scope }.record (.left name)

end Context

/-- Steps of a compilation. -/
abbrev Gen := EStateM Stop Context

namespace Gen

/-! ### Tokens -/

def reject {α : Type} (e : CompileError) : Gen α :=
  throw (.rejected e)

def peek : Gen Token :=
  return (← get).tokens.current

def advance : Gen Unit :=
  modify fun context => { context with tokens := context.tokens.advance }

/-- Reads `token`, or rejects the program. -/
def expect (token : Token) (e : CompileError) : Gen Unit := do
  if (← peek) = token then advance else reject e

/-- The name at the current position, which is not read yet. -/
def peekName (e : CompileError) : Gen String := do
  match ← peek with
  | .ident name => return name
  | _ => reject e

/-- Reads a name. -/
def takeName (e : CompileError) : Gen String := do
  let name ← peekName e
  advance
  return name

/-- Reads a number. -/
def takeNumber (e : CompileError) : Gen Int32 := do
  match ← peek with
  | .number value => advance; return value
  | _ => reject e

/-! ### Names -/

/-- Declares a name at the current level and scope, and returns its id. -/
def declare (name : String) (kind : SymbolKind) : Gen Nat :=
  modifyGet fun context =>
    let symbol : Symbol := ⟨name, kind, context.level, context.scope⟩
    (context.symbols.size, { context with symbols := context.symbols.insert symbol }.record (.declared symbol))

/-- What a name means where it is used, and how many levels further out it was declared. -/
structure Binding where
  kind : SymbolKind
  levelDiff : Int32

/-- Looks a name up.  Only a declaration directly in the current scope may be used. -/
def lookUp (name : String) : Gen Binding := do
  let context ← get
  match (context.symbols.lookup context.scope name).bind context.symbols.get? with
  | none => reject .undeclared
  | some symbol =>
    if symbol.scope = context.scope then
      return ⟨symbol.kind, Int32.ofNat context.level - Int32.ofNat symbol.level⟩
    else reject .notInCurrentScope

/-! ### Code -/

/-- The address of the next instruction. -/
def nextAddress : Gen Nat :=
  return (← get).buffer.size

/-- Emits an instruction. -/
def emit (op : Opcode) (l m : Int32) : Gen Unit := fun context =>
  let ins : Instruction := ⟨op, 0, l, m⟩
  let context := context.record (context.buffer.appendEvent ins)
  match context.buffer.append ins with
  | (.ok _, buffer) => .ok () { context with buffer := buffer }
  | (.error fault, buffer) => .error (.fault fault) { context with buffer := buffer }

/-- Emits an open jump and returns its address. -/
def openJump (op : Opcode) : Gen Nat := fun context =>
  let context := (context.buffer.openJumpEvents op).foldl Context.record context
  match context.buffer.openJump op with
  | (.ok address, buffer) => .ok address { context with buffer := buffer }
  | (.error fault, buffer) => .error (.fault fault) { context with buffer := buffer }

/-- Points the open jump at `address` to the next instruction. -/
def closeJump (address : Nat) : Gen Unit :=
  modify fun context =>
    let target := context.buffer.size
    let context := (context.buffer.closeJumpEvents address target).foldl Context.record context
    { context with buffer := context.buffer.closeJump address target }

/-! ### Procedure bodies -/

/-- Runs `body` as the body of the procedure `name`.  Level and scope come back also when the body is rejected. -/
def inBody (name : String) (id : Nat) (body : Gen Unit) : Gen Unit := fun context =>
  let level := context.level
  let scope := context.scope
  match body (context.enter name id) with
  | .ok _ context => .ok () (context.leave name level scope)
  | .error (.rejected e) context => .error (.rejected e) (context.leave name level scope)
  | .error (.fault f) context => .error (.fault f) context

end Gen

end PL0
