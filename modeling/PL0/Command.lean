import PL0.Arguments

/-!
# The command line

`respond` answers the bare arguments: it does what they ask for, or it says why that cannot be done.
-/

namespace PL0

/-- The name and the version of the program. -/
def versionText : String := "plzero 0.1.0\n"

def helpText : String :=
  unlines
    ["Usage: plzero [OPTIONS] <INPUT>",
      "",
      "Arguments:",
      "  <INPUT>  Input PL/0 program (or lexeme list with --lexemes)",
      "",
      "Options:",
      "  -o, --output <OUTPUT>      Output file; stdout when omitted",
      "      --lexemes              Input holds numeric token codes instead of source text",
      "      --format <FORMAT>      Output format [default: code] [possible values: code, listing, json]",
      "      --max-code <MAX_CODE>  Instruction capacity [default: 500]",
      "      --symbols              Print the symbol table to stderr after a successful compilation",
      "  -v, --verbose...           Log verbosity (-v warn, -vv info, -vvv debug, -vvvv trace)",
      "  -h, --help                 Print help",
      "  -V, --version              Print version"]

def UsageError.message : UsageError → String
  | .unknownArgument => "unexpected argument found"
  | .invalidValue => "a value is missing, empty or not one of the possible values"
  | .malformedNumber => "a value is not a number of the wanted size"
  | .repeatedOption => "an option is given more than once"
  | .missingInput => "the input is missing"
  | .unneededValue => "a value is given to an option that takes none"

/-- The report of a command line that gives no options. -/
def Refusal.report : Refusal → Report
  | .help => ⟨0, helpText, ""⟩
  | .version => ⟨0, versionText, ""⟩
  | .usage e => ⟨2, "", unlines ["error: " ++ e.message, "", "For more information, try '--help'."]⟩

/-- Answers a command line, given without the name of the program. -/
def respond {m : Type → Type} [Monad m] [FileAccess m] (arguments : List String) : m Report :=
  match Options.parse defaultCapacity arguments with
  | .error refusal => pure refusal.report
  | .ok options => run Json.pretty options

end PL0
