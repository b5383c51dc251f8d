import PL0.Loading
import PL0.Compilation
import PL0.Rendering
import PL0.FileTree

/-!
# Runs

`run` carries out what the options ask for: it reads the input, compiles it and writes the program, to a file or to the
standard output.  A failure writes nothing.
-/

namespace PL0

/-- What is asked for. -/
structure Options where
  input : String
  output : Option String
  lexemes : Bool
  format : Format
  capacity : Nat
  symbols : Bool
  verbosity : Nat
deriving DecidableEq

/-- What a run leaves on the terminal, with its exit status. -/
structure Report where
  status : Nat
  stdout : String
  stderr : String
deriving DecidableEq

/-- Why a run fails. -/
inductive Failure where
  | verbosity
  | reading (path : String) (cause : FileFault)
  | notText (path : String)
  | loading (path : String) (e : LoadError)
  | generating (path : String) (e : CompileError)
  | fault (f : Fault)
  | creating (path : String) (cause : FileFault)
deriving DecidableEq

/-- A rejected program exits with the number of its error. -/
def Failure.status : Failure → Nat
  | .generating _ e => e.code
  | .fault _ => 101
  | _ => 1

/-- The lines that report a failure. -/
def Failure.lines : Failure → List String
  | .verbosity => ["Don't be crazy with verbose"]
  | .reading path cause => ["Reading " ++ path ++ ": " ++ cause.message]
  | .notText path => ["Reading " ++ path ++ ": stream did not contain valid UTF-8"]
  | .loading path e => ["Loading " ++ path ++ ": " ++ e.message]
  | .generating path e => ["Generating code for " ++ path ++ ": " ++ e.message]
  | .fault f => ["panicked", f.message]
  | .creating path cause => ["Creating " ++ path ++ ": " ++ cause.message]

/-- The lines of a log down to a severity. -/
def shown (limit : Severity) (log : List Event) : List String :=
  (log.filter (·.isShown limit)).map Event.line

/-- The report of a failed run. -/
def Failure.report (failure : Failure) (limit : Severity) (log : List Event) : Report :=
  ⟨failure.status, "", unlines (shown limit log ++ failure.lines)⟩

/-- The work between reading the input and writing the output. -/
def compileContent (options : Options) (content : ByteArray) : List Event × Except Failure CompiledProgram :=
  match String.fromUTF8? content with
  | none => ([], .error (.notText options.input))
  | some text =>
    let loading := if options.lexemes then loadLexemes text else loadSource text
    match loading.tokens with
    | .error e => (loading.log, .error (.loading options.input e))
    | .ok tokens =>
      let compilation := compile tokens options.capacity
      let log := loading.log ++ compilation.log
      match compilation.outcome with
      | .error (.rejected e) => (log, .error (.generating options.input e))
      | .error (.fault f) => (log, .error (.fault f))
      | .ok compiled => (log ++ [.generated compiled.program.size], .ok compiled)

/-- The symbols, if they are asked for. -/
def symbolText (options : Options) (compiled : CompiledProgram) : String :=
  if options.symbols then compiled.symbols.dump else ""

/-- Reads, compiles and writes.  JSON documents are printed by `print`. -/
def run {m : Type → Type} [Monad m] [FileAccess m] (print : Json → String) (options : Options) : m Report := do
  match Severity.ofVerbosity? options.verbosity with
  | none => return Failure.verbosity.report .error []
  | some limit =>
    match ← FileAccess.read options.input with
    | .error fault => return (Failure.reading options.input fault).report limit [.verbositySet limit]
    | .ok content =>
      let (log, result) := compileContent options content
      let log := .verbositySet limit :: log
      match result with
      | .error failure => return failure.report limit log
      | .ok compiled =>
        let text := compiled.program.render print options.format
        let stderr := unlines (shown limit log) ++ symbolText options compiled
        match options.output with
        | none => return ⟨0, text, stderr⟩
        | some path =>
          match ← FileAccess.write path text.toUTF8 with
          | .error fault => return (Failure.creating path fault).report limit log
          | .ok () => return ⟨0, "", stderr⟩

end PL0
