import PL0.LexemeList
import PL0.Proofs.Text.Decimal

/-!
# Lexeme lists that were written

A token is written as the number of its kind, followed by its name or its value if it has one (`Token.lexemes`).  A list
of words that was written in this way, with blanks between the words, is read as the tokens again
(`readLexemeList_of_spaced`), if the names are words themselves.
-/

namespace PL0

namespace Token

/-- The words that stand for a token. -/
def lexemes (token : Token) : List String :=
  token.code.repr :: match token with
    | .ident name => [name]
    | .number value => [decimal32 value]
    | _ => []

/-- A name can be written as one word. -/
def HasUnbrokenName : Token → Prop
  | .ident name => IsUnbroken name.toList
  | _ => True

/-- The token carries neither a name nor a value. -/
def IsPlain (token : Token) : Prop :=
  token.code ≠ 2 ∧ token.code ≠ 3

theorem code_le (token : Token) : token.code ≤ 255 := by
  cases token <;> simp [code]

theorem ofCode?_code {token : Token} (h : token.IsPlain) : ofCode? token.code = some token := by
  cases token with
  | ident name => exact absurd rfl h.1
  | number value => exact absurd rfl h.2
  | _ => rfl

theorem lexemes_of_isPlain {token : Token} (h : token.IsPlain) : token.lexemes = [token.code.repr] := by
  cases token with
  | ident name => exact absurd rfl h.1
  | number value => exact absurd rfl h.2
  | _ => rfl

end Token

/-! ### Words -/

theorem isUnbroken_lexemes {token : Token} (h : token.HasUnbrokenName) :
    ∀ word ∈ token.lexemes, IsUnbroken word.toList := by
  have hcode : IsUnbroken token.code.repr.toList := by
    rw [Nat.toList_repr]
    exact isUnbroken_toDigits _
  intro word hword
  rcases List.mem_cons.1 hword with rfl | hword
  · exact hcode
  cases token with
  | ident name =>
    rw [List.mem_singleton.1 hword]
    exact h
  | number value =>
    rw [List.mem_singleton.1 hword]
    exact isUnbroken_decimal32 value
  | _ => cases hword

/-! ### Items -/

section

variable {word : String} {rest : List String} (i : Nat) (tokens : Array Token)

theorem readItems_name (hcode : readCode word = .ok 2) (name : String) :
    readItems i tokens (word :: name :: rest) = readItems (i + 2) (tokens.push (.ident name)) rest := by
  rw [readItems.eq_def]
  simp only [hcode]

theorem readItems_number (hcode : readCode word = .ok 3) {digits : String} {value : Int32}
    (hvalue : readInt32 digits.toList = .ok value) :
    readItems i tokens (word :: digits :: rest) = readItems (i + 2) (tokens.push (.number value)) rest := by
  rw [readItems.eq_def]
  simp only [hcode, hvalue]

theorem readItems_plain {code : Nat} {token : Token} (hcode : readCode word = .ok code)
    (htoken : Token.ofCode? code = some token) :
    readItems i tokens (word :: rest) = readItems (i + 1) (tokens.push token) rest := by
  have hname : code ≠ 2 := by
    rintro rfl
    cases htoken
  have hnumber : code ≠ 3 := by
    rintro rfl
    cases htoken
  rw [readItems.eq_def]
  simp only [hcode, htoken]

end

theorem readCode_code (token : Token) : readCode token.code.repr = .ok token.code := by
  rw [readCode, readNat_repr token.code_le]
  rfl

/-- The words of a token are read as this token. -/
theorem readItems_lexemes (token : Token) (i : Nat) (tokens : Array Token) (rest : List String) :
    readItems i tokens (token.lexemes ++ rest) = readItems (i + token.lexemes.length) (tokens.push token) rest := by
  have hcode := readCode_code token
  by_cases hplain : token.IsPlain
  · rw [Token.lexemes_of_isPlain hplain]
    exact readItems_plain i tokens hcode (Token.ofCode?_code hplain)
  cases token with
  | ident name => exact readItems_name i tokens hcode name
  | number value => exact readItems_number i tokens hcode (readInt32_decimal32 value)
  | _ => exact absurd ⟨by decide, by decide⟩ hplain

theorem readItems_flatMap_lexemes (written : List Token) (i : Nat) (tokens : Array Token) :
    readItems i tokens (written.flatMap Token.lexemes) = .ok (tokens ++ written) := by
  induction written generalizing i tokens with
  | nil => simp [readItems]
  | cons token written ih =>
    rw [List.flatMap_cons, readItems_lexemes, ih]
    simp

/-- The words of a lexeme list that was written. -/
theorem words_of_lexemes {tokens : List Token} {text : List Char} (h : ∀ t ∈ tokens, t.HasUnbrokenName)
    (htext : Spaced IsBlankRun ((tokens.flatMap Token.lexemes).map String.toList) text) :
    words text = tokens.flatMap Token.lexemes := by
  have hunbroken : ∀ piece ∈ (tokens.flatMap Token.lexemes).map String.toList, IsUnbroken piece := by
    intro piece hpiece
    obtain ⟨word, hword, rfl⟩ := List.mem_map.1 hpiece
    obtain ⟨token, htoken, hword⟩ := List.mem_flatMap.1 hword
    exact isUnbroken_lexemes (h token htoken) word hword
  rw [words_of_spaced htext hunbroken, List.map_map]
  simp [Function.comp_def]

theorem readLexemeList_of_words {tokens : List Token} {text : String}
    (h : words text.toList = tokens.flatMap Token.lexemes) : readLexemeList text = .ok tokens := by
  rw [readLexemeList, h, readItems_flatMap_lexemes]
  simp [Except.map]

/-- A lexeme list that was written is read back. -/
theorem readLexemeList_of_spaced {tokens : List Token} {text : String} (h : ∀ t ∈ tokens, t.HasUnbrokenName)
    (htext : Spaced IsBlankRun ((tokens.flatMap Token.lexemes).map String.toList) text.toList) :
    readLexemeList text = .ok tokens :=
  readLexemeList_of_words (words_of_lexemes h htext)

end PL0
