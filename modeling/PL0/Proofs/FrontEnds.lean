import PL0.Loading
import PL0.Proofs.Lexing.Recognition
import PL0.Proofs.LexemeList.Encoding

/-!
# The two written forms of a program

A token sequence can be written as source text, where each token has its spelling, and as a lexeme list.  The tokens that
come from source text are the spellable ones (`spellable_of_splits`), and these are read back from both written forms.
Between two spellings there may be any gap: the gap keeps the two lexemes apart, since no lexeme goes on with a blank or
with the start of a comment (`noneFollows_gap`).
-/

namespace PL0

/-! ### Spellings -/

namespace Token

/-- How a token is written in source text. -/
def spelling : Token → String
  | .nul => ""
  | .ident name => name
  | .number value => decimal32 value
  | .plus => "+"
  | .minus => "-"
  | .times => "*"
  | .slash => "/"
  | .oddSym => "odd"
  | .eql => "="
  | .neq => "<>"
  | .lss => "<"
  | .leq => "<="
  | .gtr => ">"
  | .geq => ">="
  | .lparen => "("
  | .rparen => ")"
  | .comma => ","
  | .semicolon => ";"
  | .period => "."
  | .becomes => ":="
  | .beginSym => "begin"
  | .endSym => "end"
  | .ifSym => "if"
  | .thenSym => "then"
  | .whileSym => "while"
  | .doSym => "do"
  | .callSym => "call"
  | .constSym => "const"
  | .varSym => "var"
  | .procSym => "procedure"
  | .writeSym => "write"
  | .readSym => "read"
  | .elseSym => "else"

/-- The tokens that have a spelling in source text. -/
def Spellable : Token → Prop
  | .nul => False
  | .ident name => IsWord name.toList ∧ ¬IsReserved name
  | .number value => 0 ≤ value.toInt
  | _ => True

instance : DecidablePred Spellable
  | .nul => inferInstanceAs (Decidable False)
  | .ident _ => inferInstanceAs (Decidable (_ ∧ _))
  | .number _ => inferInstanceAs (Decidable (_ ≤ _))
  | .plus | .minus | .times | .slash | .oddSym | .eql | .neq | .lss | .leq | .gtr | .geq | .lparen | .rparen | .comma
  | .semicolon | .period | .becomes | .beginSym | .endSym | .ifSym | .thenSym | .whileSym | .doSym | .callSym
  | .constSym | .varSym | .procSym | .writeSym | .readSym | .elseSym => inferInstanceAs (Decidable True)

end Token

/-- The text is a lexeme list of the tokens, with blanks between the words. -/
def IsLexemeText (tokens : List Token) (text : String) : Prop :=
  Spaced IsBlankRun ((tokens.flatMap Token.lexemes).map String.toList) text.toList

/-- At least one separator, and nothing else. -/
def IsGap (gap : List Char) : Prop :=
  ∃ separators, separators ≠ [] ∧ (∀ s ∈ separators, Separator s) ∧ gap = separators.flatten

/-- The text consists of the spellings of the tokens, with gaps between them. -/
def IsSourceText (tokens : List Token) (text : String) : Prop :=
  Spaced IsGap (tokens.map fun t => t.spelling.toList) text.toList

/-- The characters that can make a lexeme longer, or a comment of it. -/
def goesOn (c : Char) : Bool :=
  c.isAlphanum || ['>', '=', '*'].contains c

/-! ### Lexemes have spellable tokens -/

theorem spellable_of_lexeme {text next : List Char} {token : Token} (h : Lexeme text token next) : token.Spellable := by
  have hreserved : ∀ entry ∈ reservedWords, entry.2.Spellable := by decide
  have hsymbol : ∀ entry ∈ symbolTexts, entry.2.1.Spellable := by decide
  cases h with
  | reserved hword _ => exact hreserved _ hword
  | name hword hname _ =>
    refine ⟨?_, hname⟩
    rwa [String.toList_ofList]
  | number hdigits hvalue _ =>
    show 0 ≤ (Int32.ofNat _).toInt
    have hlarge : largestNumber < 2 ^ 31 := by decide
    rw [Int32.toInt_ofNat_of_lt (by omega)]
    exact Int.natCast_nonneg _
  | symbol htext _ => exact hsymbol _ htext

theorem spellable_of_splits {text next : List Char} {tokens : List Token} (h : Splits text tokens next) :
    ∀ t ∈ tokens, t.Spellable := by
  induction h with
  | done next => simp
  | separator _ _ ih => exact ih
  | lexeme hl _ ih => simpa [spellable_of_lexeme hl] using ih

/-! ### Spellings are lexemes -/

/-- A token without a name and a value is spelled by a reserved word or a symbol. -/
theorem spelling_of_isPlain {token : Token} (h : token.Spellable) (hplain : token.IsPlain) :
    (token.spelling, token) ∈ reservedWords ∨ ∃ entry ∈ symbolTexts, entry.1 = token.spelling.toList ∧
      entry.2.1 = token ∧ ∀ c ∈ entry.2.2, goesOn c := by
  cases token with
  | nul => cases h
  | ident name => exact absurd rfl hplain.1
  | number value => exact absurd rfl hplain.2
  | _ => decide

private theorem lexeme_digits (n : Nat) (hn : n ≤ largestNumber) {next : List Char}
    (hnext : NoneFollows Char.isAlphanum next) : Lexeme (Nat.toDigits 10 n) (.number (Int32.ofNat n)) next := by
  have hvalue : Nat.ofDigitChars 10 (Nat.toDigits 10 n) 0 = n := Nat.ofDigitChars_ten_toDigits
  have hdigits : IsDigits (Nat.toDigits 10 n) := ⟨Nat.toDigits_ne_nil, isDigit_toDigits⟩
  have hlexeme := Lexeme.number hdigits (by omega) hnext
  rwa [hvalue] at hlexeme

/-- A spelling is a lexeme of its token, unless what follows makes something longer of it. -/
theorem lexeme_spelling {token : Token} (h : token.Spellable) {next : List Char} (hnext : NoneFollows goesOn next) :
    Lexeme token.spelling.toList token next := by
  have hword : NoneFollows Char.isAlphanum next := hnext.mono (by simp_all [goesOn])
  by_cases hplain : token.IsPlain
  · rcases spelling_of_isPlain h hplain with hreserved | ⟨⟨text, token', barred⟩, hentry, htext, rfl, hbarred⟩
    · exact .reserved hreserved hword
    · rw [← htext]
      exact .symbol hentry (hnext.mono fun c hc => hbarred c (by simpa using hc))
  cases token with
  | ident name =>
    have hname : ¬IsReserved (String.ofList name.toList) := by
      rw [String.ofList_toList]
      exact h.2
    have hlexeme := Lexeme.name h.1 hname hword
    rwa [String.ofList_toList] at hlexeme
  | number value =>
    have hnonneg : 0 ≤ value.toInt := h
    have hlarge : value.toInt.toNat ≤ largestNumber := by
      have hlt := value.toInt_lt
      show value.toInt.toNat ≤ 2147483647
      omega
    have hlexeme := lexeme_digits value.toInt.toNat hlarge hword
    rwa [ofNat_toInt_of_nonneg hnonneg, ← toList_decimal32_of_nonneg hnonneg] at hlexeme
  | _ => exact absurd ⟨by decide, by decide⟩ hplain

/-! ### Gaps keep lexemes apart -/

theorem goesOn_of_isBlank {c : Char} (h : isBlank c) : goesOn c = false := by
  have hword : c.isAlphanum = false := by
    cases hc : c.isAlphanum with
    | false => rfl
    | true =>
      rw [isBlank_of_isAlphanum hc] at h
      cases h
  have hsymbol : c ∉ ['>', '=', '*'] := by
    have hvisible : ∀ d ∈ ['>', '=', '*'], isBlank d = false := by decide
    intro hc
    rw [hvisible c hc] at h
    cases h
  simp only [goesOn, hword, Bool.false_or]
  simpa using hsymbol

theorem noneFollows_separator {s : List Char} (h : Separator s) (next : List Char) : NoneFollows goesOn (s ++ next) := by
  intro c hc
  cases h with
  | blank hblank =>
    obtain rfl : _ = c := Option.some.inj hc
    exact goesOn_of_isBlank hblank
  | comment _ =>
    obtain rfl : '/' = c := Option.some.inj hc
    rfl

theorem isGap_of_separator {s : List Char} (h : Separator s) : IsGap s :=
  ⟨[s], by simp, by simpa using h, by simp⟩

theorem noneFollows_gap {gap : List Char} (h : IsGap gap) (next : List Char) : NoneFollows goesOn (gap ++ next) := by
  obtain ⟨separators, hne, hseparators, rfl⟩ := h
  obtain ⟨s, separators, rfl⟩ := List.exists_cons_of_ne_nil hne
  rw [List.flatten_cons, List.append_assoc]
  exact noneFollows_separator (hseparators s (by simp)) _

theorem Splits.gap_append {gap text next : List Char} {tokens : List Token} (hgap : IsGap gap)
    (h : Splits text tokens next) : Splits (gap ++ text) tokens next := by
  obtain ⟨separators, -, hseparators, rfl⟩ := hgap
  induction separators with
  | nil => exact h
  | cons s separators ih =>
    rw [List.flatten_cons, List.append_assoc]
    exact .separator (hseparators s (by simp)) (ih fun s hs => hseparators s (by simp [hs]))

/-- Spellings with gaps between them split into their tokens. -/
theorem splits_of_spaced {tokens : List Token} (h : ∀ t ∈ tokens, t.Spellable) {text : List Char}
    (htext : Spaced IsGap (tokens.map fun t => t.spelling.toList) text) : Splits text tokens [] := by
  induction tokens generalizing text with
  | nil =>
    cases htext
    exact .done []
  | cons token tokens ih =>
    have htoken : token.Spellable := h token (by simp)
    have hrest : ∀ t ∈ tokens, t.Spellable := fun t ht => h t (by simp [ht])
    cases tokens with
    -- after the last spelling the text ends, and after any other one there is a gap
    | nil =>
      cases htext
      have hend : NoneFollows goesOn ([] ++ []) := by simp [NoneFollows]
      have hlast := Splits.lexeme (lexeme_spelling htoken hend) (.done [])
      rwa [List.append_nil] at hlast
    | cons token' tokens =>
      cases htext with
      | cons _ hgap hspaced =>
        rw [List.append_assoc]
        refine .lexeme (lexeme_spelling htoken ?_) ((ih hrest hspaced).gap_append hgap)
        rw [List.append_assoc]
        exact noneFollows_gap hgap _

/-! ### Both ways of loading -/

theorem hasUnbrokenName_of_spellable {token : Token} (h : token.Spellable) : token.HasUnbrokenName := by
  cases token with
  | ident name => exact ⟨h.1.ne_nil, fun c hc => isBlank_of_isAlphanum (h.1.all c hc)⟩
  | _ => trivial

theorem exists_isLexemeText (tokens : List Token) : ∃ text, IsLexemeText tokens text :=
  have hgap : IsBlankRun [' '] := by decide
  exists_spaced hgap _

theorem exists_isSourceText (tokens : List Token) : ∃ text, IsSourceText tokens text :=
  have hblank : Separator [' '] := .blank (by decide)
  exists_spaced (isGap_of_separator hblank) _

theorem loadSource_tokens {source : String} {tokens : List Token} :
    (loadSource source).tokens = .ok tokens ↔ tokenize source = .ok tokens := by
  rw [loadSource]
  split
  · simp_all
  · simp_all

theorem loadLexemes_tokens {text : String} {tokens : List Token} :
    (loadLexemes text).tokens = .ok tokens ↔ readLexemeList text = .ok tokens := by
  rw [loadLexemes]
  split
  · simp_all
  · simp_all

theorem loadSource_of_isSourceText {tokens : List Token} (h : ∀ t ∈ tokens, t.Spellable) {text : String}
    (htext : IsSourceText tokens text) : (loadSource text).tokens = .ok tokens :=
  loadSource_tokens.2 (tokenize_of_splits (splits_of_spaced h htext))

/-- The tokens that source text can have are the spellable ones.  They are read back from their lexeme lists and from
their spellings. -/
theorem front_ends_agree (tokens : List Token) :
    (∀ source, (loadSource source).tokens = .ok tokens →
      (∀ t ∈ tokens, t.Spellable) ∧
      (∃ text, IsLexemeText tokens text) ∧
      (∀ text, IsLexemeText tokens text → (loadLexemes text).tokens = .ok tokens) ∧
      ∀ text, IsSourceText tokens text → (loadSource text).tokens = .ok tokens) ∧
    ((∀ t ∈ tokens, t.Spellable) →
      (∃ text, IsSourceText tokens text) ∧
      ∀ text, IsSourceText tokens text → (loadSource text).tokens = .ok tokens) := by
  refine ⟨fun source hsource => ?_, fun h => ⟨exists_isSourceText tokens, fun _ => loadSource_of_isSourceText h⟩⟩
  have hspellable := spellable_of_splits (splits_of_tokenize (loadSource_tokens.1 hsource))
  have hnames : ∀ t ∈ tokens, t.HasUnbrokenName := fun t ht => hasUnbrokenName_of_spellable (hspellable t ht)
  exact ⟨hspellable, exists_isLexemeText tokens, fun _ htext =>
    loadLexemes_tokens.2 (readLexemeList_of_spaced hnames htext), fun _ => loadSource_of_isSourceText hspellable⟩

/-- A comment keeps `<` and `=` apart as well as a blank does. -/
theorem front_ends_agree_lss_eql :
    (loadSource "x< =007").tokens = .ok [.ident "x", .lss, .eql, .number 7] ∧
    (loadLexemes "2 x 11\n9  3 7").tokens = .ok [.ident "x", .lss, .eql, .number 7] ∧
    (loadSource "x </**/= 7").tokens = .ok [.ident "x", .lss, .eql, .number 7] := by
  have hsource : (loadSource "x< =007").tokens = .ok [.ident "x", .lss, .eql, .number 7] := by rfl
  have hlexemes : IsLexemeText [.ident "x", .lss, .eql, .number 7] "2 x 11\n9  3 7" :=
    .cons ['2'] (show IsBlankRun [' '] by decide) <| .cons ['x'] (show IsBlankRun [' '] by decide) <|
      .cons ['1', '1'] (show IsBlankRun ['\n'] by decide) <| .cons ['9'] (show IsBlankRun [' ', ' '] by decide) <|
      .cons ['3'] (show IsBlankRun [' '] by decide) <| .single ['7']
  have hblank : IsGap [' '] := isGap_of_separator (.blank (by decide))
  have hcomment : IsGap ['/', '*', '*', '/'] := isGap_of_separator (@Separator.comment [] (by decide))
  have hspelling : IsSourceText [.ident "x", .lss, .eql, .number 7] "x </**/= 7" :=
    .cons ['x'] hblank <| .cons ['<'] hcomment <| .cons ['='] hblank <| .single ['7']
  obtain ⟨-, -, hload, hrespelled⟩ := (front_ends_agree _).1 _ hsource
  exact ⟨hsource, hload _ hlexemes, hrespelled _ hspelling⟩

end PL0
