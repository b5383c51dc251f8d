import PL0.Token
import PL0.Text.Blank
import PL0.Text.Numeral

/-!
# Lexeme lists

A program can also be given as a list of words: for each token the number of its kind, followed by the name or the
number itself for the two kinds that carry a value.  Such a number and its value together are an item.  Faults name
the position of the word that starts the item.
-/

namespace PL0

/-- What can be wrong with an item of a lexeme list. -/
inductive ItemFault where
  | notACode (word : String) (cause : NumeralFault)
  | nameMissing
  | valueMissing
  | notANumber (word : String) (cause : NumeralFault)
  | unknownCode (code : Nat)
deriving DecidableEq

def ItemFault.message : ItemFault → String
  | .notACode word cause => "`" ++ word ++ "` is not a token code: " ++ cause.message
  | .nameMissing => "identifier without a lexeme"
  | .valueMissing => "number without a lexeme"
  | .notANumber word cause => "`" ++ word ++ "` is not a number: " ++ cause.message
  | .unknownCode code => "unknown token code " ++ code.repr

/-- A fault with the position of its item. -/
structure LexemeError where
  item : Nat
  fault : ItemFault
deriving DecidableEq

def LexemeError.message (e : LexemeError) : String :=
  "item " ++ e.item.repr ++ ": " ++ e.fault.message

/-- Reads the number of a kind of token, at most 255. -/
def readCode (word : String) : Except ItemFault Nat :=
  (readNat 255 word.toList).mapError (.notACode word)

/-- Reads the items of a list of words, of which the first has position `i`, after the tokens read so far. -/
def readItems (i : Nat) (tokens : Array Token) : List String → Except LexemeError (Array Token)
  | [] => .ok tokens
  | word :: rest =>
    match readCode word with
    | .error fault => .error ⟨i, fault⟩
    | .ok 2 =>
      match rest with
      | [] => .error ⟨i, .nameMissing⟩
      | name :: rest => readItems (i + 2) (tokens.push (.ident name)) rest
    | .ok 3 =>
      match rest with
      | [] => .error ⟨i, .valueMissing⟩
      | digits :: rest =>
        match readInt32 digits.toList with
        | .error cause => .error ⟨i, .notANumber digits cause⟩
        | .ok value => readItems (i + 2) (tokens.push (.number value)) rest
    | .ok code =>
      match Token.ofCode? code with
      | none => .error ⟨i, .unknownCode code⟩
      | some token => readItems (i + 1) (tokens.push token) rest

/-- The tokens of a lexeme list, or its first fault. -/
def readLexemeList (text : String) : Except LexemeError (List Token) :=
  (readItems 0 #[] (words text.toList)).map Array.toList

end PL0
