import PL0.Generator.Block

/-!
# Compilations

`compile` turns a token sequence into a program and the table of its symbols.  Besides, the result has the state in
which the compilation ended, whatever the outcome.
-/

namespace PL0

/-- The number of instructions a program may have if nothing else is said. -/
def defaultCapacity : Nat := 500

/-- The largest capacity, which is no bound in practice: the largest unsigned integer of 64 bits. -/
def largestCapacity : Nat := UInt64.size - 1

/-- A compiled program and its declarations. -/
structure CompiledProgram where
  program : Program
  symbols : SymbolTable
deriving DecidableEq

/-- The outcome of a compilation and its last state. -/
structure Compilation where
  outcome : Except Stop CompiledProgram
  final : Context

/-- Compiles all tokens; `n` bounds their number. -/
def Gen.wholeProgram (n : Nat) : Gen CompiledProgram := do
  program n
  let context ← get
  match context.buffer.toProgram with
  | .ok program => return ⟨program, context.symbols⟩
  | .error fault => throw (.fault fault)

/-- Compiles a token sequence to at most `capacity` instructions. -/
def compile (tokens : List Token) (capacity : Nat) : Compilation :=
  match Gen.wholeProgram tokens.length (.start tokens capacity) with
  | .ok compiled final => ⟨.ok compiled, final⟩
  | .error stop final => ⟨.error stop, final⟩

/-- What a compilation reports. -/
def Compilation.log (compilation : Compilation) : List Event :=
  compilation.final.log.toList

/-- What a compilation reports when its size is announced before and after. -/
def Compilation.announcedLog (compilation : Compilation) (tokens : List Token) (capacity : Nat) : List Event :=
  .generating tokens.length capacity :: compilation.log ++
    match compilation.outcome with
    | .ok compiled => [.emittedInTotal compiled.program.size]
    | .error _ => []

end PL0
