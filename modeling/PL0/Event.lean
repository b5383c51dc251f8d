import PL0.Instruction
import PL0.Symbol

/-!
# Log events

What the compiler reports while it works.  Events are kept as data; `Event.severity` and `Event.text` say how they
appear in a log, and a verbosity selects the severities that are shown.  A jump whose target is still open is an event
of its own, which appears in the log like any other emitted instruction.
-/

namespace PL0

/-- How important an event is, from the most to the least. -/
inductive Severity where
  | error
  | warn
  | info
  | debug
  | trace
deriving DecidableEq

def Severity.name : Severity → String
  | .error => "ERROR"
  | .warn => "WARN"
  | .info => "INFO"
  | .debug => "DEBUG"
  | .trace => "TRACE"

/-- Zero for the most important. -/
def Severity.rank : Severity → Nat
  | .error => 0
  | .warn => 1
  | .info => 2
  | .debug => 3
  | .trace => 4

/-- The least important severity that a verbosity shows.  There are five steps. -/
def Severity.ofVerbosity? : Nat → Option Severity
  | 0 => some .error
  | 1 => some .warn
  | 2 => some .info
  | 3 => some .debug
  | 4 => some .trace
  | _ => none

inductive Event where
  | verbositySet (severity : Severity)
  | sourceLoaded (bytes : Nat)
  | lexed (tokens : Nat)
  | lexemeListParsed (tokens : Nat)
  | generating (tokens capacity : Nat)
  | emittedInTotal (instructions : Nat)
  | generated (instructions : Nat)
  | declared (symbol : Symbol)
  | entered (name : String) (level : Nat)
  | left (name : String)
  | appended (address : Nat) (ins : Instruction)
  | jumpOpened (address : Nat) (op : Opcode)
  | jumpClosed (address : Nat) (op : Opcode) (target : Nat)
  | full (capacity : Nat)
deriving DecidableEq

def Event.severity : Event → Severity
  | .verbositySet _ => .trace
  | .sourceLoaded _ => .info
  | .lexed _ => .debug
  | .lexemeListParsed _ => .info
  | .generating _ _ => .info
  | .emittedInTotal _ => .info
  | .generated _ => .info
  | .declared _ => .debug
  | .entered _ _ => .debug
  | .left _ => .debug
  | .appended _ _ => .trace
  | .jumpOpened _ _ => .trace
  | .jumpClosed _ _ _ => .trace
  | .full _ => .error

/-- A kind in the log, with its value in braces. -/
def SymbolKind.text : SymbolKind → String
  | .const value => "Const \x7b value: " ++ decimal32 value ++ " \x7d"
  | .var address => "Var \x7b address: " ++ decimal32 address ++ " \x7d"
  | .proc address => "Proc \x7b address: " ++ decimal32 address ++ " \x7d"

/-- A scope in the log. -/
def scopeText : Scope → String
  | none => "None"
  | some id => "Some(SymbolId(" ++ id.repr ++ "))"

/-- An emitted instruction in the log. -/
def emissionText (address : Nat) (ins : Instruction) : String :=
  zeroPadded address ++ " " ++ ins.op.mnemonic ++ " " ++ ins.fields

def Event.text : Event → String
  | .verbositySet severity => "Logger verbosity " ++ severity.name
  | .sourceLoaded bytes => "source loaded, size: " ++ bytes.repr ++ " bytes"
  | .lexed tokens => "lexed " ++ tokens.repr ++ " tokens"
  | .lexemeListParsed tokens => "lexeme list parsed, " ++ tokens.repr ++ " tokens"
  | .generating tokens capacity =>
    "generating code for " ++ tokens.repr ++ " tokens (capacity " ++ capacity.repr ++ ")"
  | .emittedInTotal instructions => "emitted " ++ instructions.repr ++ " instructions"
  | .generated instructions => "generated " ++ instructions.repr ++ " instructions"
  | .declared symbol =>
    "declare " ++ symbol.name ++ " " ++ symbol.kind.text ++ " at level " ++ symbol.level.repr ++ " in scope " ++
      scopeText symbol.scope
  | .entered name level => "enter " ++ name ++ " at level " ++ level.repr
  | .left name => "leave " ++ name
  | .appended address ins => emissionText address ins
  | .jumpOpened address op => emissionText address ⟨op, 0, 0, 0⟩
  | .jumpClosed address op target =>
    "patch " ++ zeroPadded address ++ " " ++ op.mnemonic ++ " -> " ++ zeroPadded target
  | .full capacity => "MAX_CODE_LENGTH(" ++ capacity.repr ++ ") reached, terminating code generator"

/-- Whether an event is shown when events down to `limit` are. -/
def Event.isShown (event : Event) (limit : Severity) : Bool :=
  event.severity.rank ≤ limit.rank

/-- An event as a line of a log on a terminal. -/
def Event.line (event : Event) : String :=
  "[" ++ event.severity.name ++ "] " ++ event.text

end PL0
