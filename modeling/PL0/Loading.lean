import PL0.Source
import PL0.LexemeList
import PL0.Event

/-!
# Loading

Tokens from one of the two written forms of a program, together with the events that loading reports.
-/

namespace PL0

inductive LoadError where
  | lexical (e : LexicalError)
  | lexeme (e : LexemeError)
deriving DecidableEq

def LoadError.message : LoadError → String
  | .lexical e => "lexer error: " ++ e.message
  | .lexeme e => e.message

/-- The outcome of loading, and what was reported. -/
structure Loading where
  tokens : Except LoadError (List Token)
  log : List Event

/-- Loads source text.  Its size is reported in bytes of UTF-8. -/
def loadSource (source : String) : Loading :=
  match tokenize source with
  | .ok tokens => ⟨.ok tokens, [.sourceLoaded source.utf8ByteSize, .lexed tokens.length]⟩
  | .error e => ⟨.error (.lexical e), [.sourceLoaded source.utf8ByteSize]⟩

/-- Loads a lexeme list. -/
def loadLexemes (text : String) : Loading :=
  match readLexemeList text with
  | .ok tokens => ⟨.ok tokens, [.lexemeListParsed tokens.length]⟩
  | .error e => ⟨.error (.lexeme e), []⟩

end PL0
