import PL0.Run

/-!
# Command line arguments

Arguments are read from left to right, and the first fault decides.  A value that stands in an argument of its own is
examined when the next argument is accepted, or at the end: an argument that cannot be accepted at all is reported
before a wrong value in front of it.  A value that is attached to its option is examined at once.
-/

namespace PL0

/-- What can be wrong with a command line. -/
inductive UsageError where
  | unknownArgument
  | invalidValue
  | malformedNumber
  | repeatedOption
  | missingInput
  | unneededValue
deriving DecidableEq

/-- Why a command line gives no options: it asks for help or for the version, or it is wrong. -/
inductive Refusal where
  | help
  | version
  | usage (e : UsageError)
deriving DecidableEq

/-- The arguments with a value.  The input is the one without a name. -/
inductive Slot where
  | input
  | output
  | format
  | capacity
deriving DecidableEq

/-- The options without a value. -/
inductive Switch where
  | lexemes
  | symbols
  | verbose
  | help
  | version
deriving DecidableEq

/-- What an argument names. -/
inductive Parameter where
  | slot (slot : Slot)
  | switch (switch : Switch)
deriving DecidableEq

/-- What has been read so far.  An open slot has its value, if that has been read, but it has not been examined. -/
structure Draft where
  input : Option String := none
  output : Option String := none
  format : Option Format := none
  capacity : Option Nat := none
  lexemes : Bool := false
  symbols : Bool := false
  verbosity : Nat := 0
  opened : Option (Slot × Option String) := none

/-- The formats by name. -/
def Format.ofName? : String → Option Format
  | "code" => some .code
  | "listing" => some .listing
  | "json" => some .json
  | _ => none

/-- Options by their long name. -/
def Parameter.ofLong? : String → Option Parameter
  | "output" => some (.slot .output)
  | "format" => some (.slot .format)
  | "max-code" => some (.slot .capacity)
  | "lexemes" => some (.switch .lexemes)
  | "symbols" => some (.switch .symbols)
  | "verbose" => some (.switch .verbose)
  | "help" => some (.switch .help)
  | "version" => some (.switch .version)
  | _ => none

/-- Options by their letter. -/
def Parameter.ofShort? : Char → Option Parameter
  | 'o' => some (.slot .output)
  | 'v' => some (.switch .verbose)
  | 'h' => some (.switch .help)
  | 'V' => some (.switch .version)
  | _ => none

namespace Draft

/-- The largest count of a repeated switch. -/
def verbosityLimit : Nat := 255

/-- A path may not be empty. -/
def examinePath (path : String) : Except UsageError String :=
  if path.isEmpty then .error .invalidValue else .ok path

/-- Fills a slot.  A missing value is found before a repetition, and that before a wrong value. -/
def fill (draft : Draft) (slot : Slot) (value : Option String) : Except UsageError Draft := do
  let some value := value | throw .invalidValue
  match slot with
  | .input =>
    if draft.input.isSome then throw .repeatedOption
    return { draft with input := some (← examinePath value) }
  | .output =>
    if draft.output.isSome then throw .repeatedOption
    return { draft with output := some (← examinePath value) }
  | .format =>
    if draft.format.isSome then throw .repeatedOption
    let some format := Format.ofName? value | throw .invalidValue
    return { draft with format := some format }
  | .capacity =>
    if draft.capacity.isSome then throw .repeatedOption
    match readNat largestCapacity value.toList with
    | .ok capacity => return { draft with capacity := some capacity }
    | .error _ => throw .malformedNumber

/-- Examines the open slot. -/
def settle (draft : Draft) : Except UsageError Draft :=
  match draft.opened with
  | none => .ok draft
  | some (slot, value) => { draft with opened := none }.fill slot value

/-- Opens a slot, after the one before it. -/
def openSlot (draft : Draft) (slot : Slot) (value : Option String) : Except UsageError Draft := do
  return { ← draft.settle with opened := some (slot, value) }

/-- Fills a slot with a value that is attached to its option. -/
def attach (draft : Draft) (slot : Slot) (value : String) : Except UsageError Draft := do
  (← draft.settle).fill slot (some value)

/-- Turns a switch on.  Only the verbosity may be raised again. -/
def turnOn (draft : Draft) (switch : Switch) : Except Refusal Draft := do
  let draft ← draft.settle.mapError .usage
  match switch with
  | .lexemes => if draft.lexemes then throw (.usage .repeatedOption) else return { draft with lexemes := true }
  | .symbols => if draft.symbols then throw (.usage .repeatedOption) else return { draft with symbols := true }
  | .verbose => return { draft with verbosity := min (draft.verbosity + 1) verbosityLimit }
  | .help => throw .help
  | .version => throw .version

/-- An argument without a name.  Only one is accepted. -/
def positional (draft : Draft) (value : String) : Except UsageError Draft :=
  if draft.input.isSome || draft.opened.any (·.1 = .input) then .error .unknownArgument
  else draft.openSlot .input (some value)

/-- Whether the next argument can be the value of the open slot. -/
def awaitsValue (draft : Draft) : Bool :=
  draft.opened.any (·.2.isNone)

/-- A long option, with its value if one is attached. -/
def long (draft : Draft) (name : String) (value : Option String) : Except Refusal Draft :=
  match Parameter.ofLong? name, value with
  | none, _ => .error (.usage .unknownArgument)
  | some (.switch _), some _ => .error (.usage .unneededValue)
  | some (.switch switch), none => draft.turnOn switch
  | some (.slot slot), some value => (draft.attach slot value).mapError .usage
  | some (.slot slot), none => (draft.openSlot slot none).mapError .usage

/-- A group of letters.  What follows the letter of a slot is its value, with or without an equals sign. -/
def short (draft : Draft) : List Char → Except Refusal Draft
  | [] => .ok draft
  | c :: cs =>
    match Parameter.ofShort? c, cs with
    | none, _ => .error (.usage .unknownArgument)
    | some (.switch switch), cs => do (← draft.turnOn switch).short cs
    | some (.slot slot), [] => (draft.openSlot slot none).mapError .usage
    | some (.slot slot), '=' :: value => (draft.attach slot (String.ofList value)).mapError .usage
    | some (.slot slot), value => (draft.attach slot (String.ofList value)).mapError .usage

/-- Splits a long option at its first equals sign. -/
def splitLong (cs : List Char) : String × Option String :=
  match cs.dropWhile (· ≠ '=') with
  | [] => (String.ofList cs, none)
  | _ :: value => (String.ofList (cs.takeWhile (· ≠ '=')), some (String.ofList value))

/-- An argument that may be an option. -/
def argument (draft : Draft) (text : String) : Except Refusal Draft :=
  match text.toList with
  | '-' :: '-' :: c :: cs =>
    let (name, value) := splitLong (c :: cs)
    draft.long name value
  | '-' :: c :: cs => draft.short (c :: cs)
  | _ =>
    if draft.awaitsValue then
      .ok { draft with opened := draft.opened.map fun (slot, _) => (slot, some text) }
    else (draft.positional text).mapError .usage

/-- Reads all arguments.  After `--` none of them is an option or the value of one. -/
def read (draft : Draft) (afterDashes : Bool) : List String → Except Refusal Draft
  | [] => draft.settle.mapError .usage
  | text :: rest =>
    if afterDashes then do
      (← (draft.positional text).mapError .usage).read true rest
    else if text = "--" then draft.read true rest
    else do
      (← draft.argument text).read false rest

/-- The options, if the input is there. -/
def finish (draft : Draft) (defaultCapacity : Nat) : Except Refusal Options :=
  match draft.input with
  | none => .error (.usage .missingInput)
  | some input =>
    .ok {
      input := input
      output := draft.output
      lexemes := draft.lexemes
      format := draft.format.getD .code
      capacity := draft.capacity.getD defaultCapacity
      symbols := draft.symbols
      verbosity := draft.verbosity }

end Draft

/-- Reads a command line, without the name of the program. -/
def Options.parse (defaultCapacity : Nat) (arguments : List String) : Except Refusal Options := do
  (← ({} : Draft).read false arguments).finish defaultCapacity

end PL0
