import PL0.Token
import PL0.Text.Blank
import PL0.Text.Numeral

/-!
# Source text

Reading PL/0 source text.  Between two lexemes stand blanks and comments; a lexeme is a word, a digit string, or one
of the symbols, and is always read as long as it goes.  A `Lexer` hands out one token per call of `Lexer.next`, at
most one error, and then nothing more; `tokenize` collects a whole text.
-/

namespace PL0

/-- What can be wrong with a source text. -/
inductive LexicalError where
  | unterminatedComment
  | loneColon
  | digitLedName (digits : String)
  | numberTooLarge (digits : String)
  | unexpected (c : Char)
deriving DecidableEq

def LexicalError.message : LexicalError → String
  | .unterminatedComment => "unterminated comment"
  | .loneColon => "expected '=' after ':'"
  | .digitLedName digits => "identifier cannot start with a digit: " ++ digits ++ "…"
  | .numberTooLarge digits => "number too large: " ++ digits
  | .unexpected c => "unexpected character " ++ c.toString

/-- Skips blanks and comments.  The flag tells whether the text starts inside a comment; nothing is returned if the
text ends inside one. -/
def skipGap : Bool → List Char → Option (List Char)
  | false, [] => some []
  | true, [] => none
  | true, '*' :: '/' :: cs => skipGap false cs
  | true, _ :: cs => skipGap true cs
  | false, '/' :: '*' :: cs => skipGap true cs
  | false, c :: cs => if isBlank c then skipGap false cs else some (c :: cs)

/-- The symbol at the start of a text, the longer one of two. -/
def symbol? : List Char → Option (Token × List Char)
  | '+' :: cs => some (.plus, cs)
  | '-' :: cs => some (.minus, cs)
  | '*' :: cs => some (.times, cs)
  | '/' :: cs => some (.slash, cs)
  | '(' :: cs => some (.lparen, cs)
  | ')' :: cs => some (.rparen, cs)
  | '=' :: cs => some (.eql, cs)
  | ',' :: cs => some (.comma, cs)
  | '.' :: cs => some (.period, cs)
  | ';' :: cs => some (.semicolon, cs)
  | '<' :: '>' :: cs => some (.neq, cs)
  | '<' :: '=' :: cs => some (.leq, cs)
  | '<' :: cs => some (.lss, cs)
  | '>' :: '=' :: cs => some (.geq, cs)
  | '>' :: cs => some (.gtr, cs)
  | ':' :: '=' :: cs => some (.becomes, cs)
  | _ => none

/-- Reads the digit string at the start of a text.  No letter may follow it. -/
def readNumber (cs : List Char) : Except LexicalError (Token × List Char) :=
  let digits := cs.takeWhile Char.isDigit
  let rest := cs.dropWhile Char.isDigit
  if rest.head?.any Char.isAlpha then .error (.digitLedName (String.ofList digits))
  else match readInt32 digits with
    | .ok value => .ok (.number value, rest)
    | .error _ => .error (.numberTooLarge (String.ofList digits))

/-- Reads the word at the start of a text. -/
def readWord (cs : List Char) : Token × List Char :=
  (.ofWord (String.ofList (cs.takeWhile Char.isAlphanum)), cs.dropWhile Char.isAlphanum)

/-- Reads the lexeme that starts with `c`.  Letters and digits are those of ASCII. -/
def readLexeme (c : Char) (cs : List Char) : Except LexicalError (Token × List Char) :=
  if c.isDigit then readNumber (c :: cs)
  else if c.isAlpha then .ok (readWord (c :: cs))
  else match symbol? (c :: cs) with
    | some result => .ok result
    | none => .error (if c = ':' then .loneColon else .unexpected c)

/-- What is left after a lexeme that starts with `c` turned out to be wrong.  A digit string has been read to its end,
and with a colon the character after it. -/
def restAfterError (c : Char) (cs : List Char) : List Char :=
  if c.isDigit then cs.dropWhile Char.isDigit
  else if c = ':' then cs.tail
  else cs

/-- A reader of source text: the characters still to read, and whether it has come to its end. -/
structure Lexer where
  rest : List Char
  finished : Bool

def Lexer.ofString (source : String) : Lexer :=
  ⟨source.toList, false⟩

/-- The next token or error, if there is one.  An error finishes the reader. -/
def Lexer.next (lexer : Lexer) : Option (Except LexicalError Token) × Lexer :=
  if lexer.finished then (none, lexer)
  else match skipGap false lexer.rest with
    | none => (some (.error .unterminatedComment), ⟨[], true⟩)
    | some [] => (none, ⟨[], true⟩)
    | some (c :: cs) =>
      match readLexeme c cs with
      | .ok (token, rest) => (some (.ok token), ⟨rest, false⟩)
      | .error e => (some (.error e), ⟨restAfterError c cs, true⟩)

/-- At most `n` results of a reader, after those collected so far. -/
def Lexer.collect : Nat → Lexer → List (Except LexicalError Token) → List (Except LexicalError Token)
  | 0, _, results => results.reverse
  | n + 1, lexer, results =>
    match lexer.next with
    | (none, _) => results.reverse
    | (some result, lexer) => lexer.collect n (result :: results)

/-- All results of a reader.  Each takes at least one character, so there are no more than characters left. -/
def Lexer.results (lexer : Lexer) : List (Except LexicalError Token) :=
  lexer.collect lexer.rest.length []

/-- The tokens of a source text, or its first error. -/
def tokenize (source : String) : Except LexicalError (List Token) :=
  (Lexer.ofString source).results.mapM id

end PL0
