import PL0.Source
import PL0.Proofs.Text.Spacing

/-!
# The lexical grammar

A source text consists of separators, which are blanks and comments, and of lexemes.  What a lexeme is depends on the
character after it: a word or a digit string goes as far as letters and digits go, and `<`, `>` and `/` are symbols of
their own only if the next character does not make something longer of them.  So `Lexeme` and `Splits` have what follows
as an argument.

A text that cannot be split to its end has a first fault (`Faulty`), which is where the split ends
(`exists_splits`).
-/

namespace PL0

/-- What follows does not begin with a character of the class `p`. -/
def NoneFollows (p : Char → Bool) (next : List Char) : Prop :=
  ∀ c ∈ next.head?, p c = false

/-- What may stand between two lexemes. -/
inductive Separator : List Char → Prop
  | blank {c : Char} : isBlank c → Separator [c]
  | comment {body : List Char} : ¬['*', '/'] <:+: body → Separator ('/' :: '*' :: body ++ ['*', '/'])

/-- The symbols, with their tokens and the characters that may not follow them. -/
def symbolTexts : List (List Char × Token × List Char) :=
  [(['+'], .plus, []), (['-'], .minus, []), (['*'], .times, []), (['/'], .slash, ['*']), (['('], .lparen, []),
    ([')'], .rparen, []), (['='], .eql, []), ([','], .comma, []), (['.'], .period, []), ([';'], .semicolon, []),
    (['<', '>'], .neq, []), (['<', '='], .leq, []), (['<'], .lss, ['>', '=']), (['>', '='], .geq, []),
    (['>'], .gtr, ['=']), ([':', '='], .becomes, [])]

/-- A letter, then letters and digits. -/
def IsWord : List Char → Prop
  | [] => False
  | c :: cs => c.isAlpha ∧ ∀ d ∈ cs, d.isAlphanum

instance : DecidablePred IsWord
  | [] => inferInstanceAs (Decidable False)
  | _ :: _ => inferInstanceAs (Decidable (_ ∧ _))

def IsReserved (word : String) : Prop :=
  ∃ entry ∈ reservedWords, entry.1 = word

instance : DecidablePred IsReserved :=
  fun _ => inferInstanceAs (Decidable (∃ entry ∈ reservedWords, _))

def IsDigits (text : List Char) : Prop :=
  text ≠ [] ∧ ∀ d ∈ text, d.isDigit

/-- The largest number that a digit string may stand for, which is the largest one of 32 bits with a sign. -/
def largestNumber : Nat := 2147483647

/-- `Lexeme text token next`: the text is a lexeme of the token if `next` follows. -/
inductive Lexeme : List Char → Token → List Char → Prop
  | reserved {word : String} {token : Token} {next : List Char} : (word, token) ∈ reservedWords →
      NoneFollows Char.isAlphanum next → Lexeme word.toList token next
  | name {text next : List Char} : IsWord text → ¬IsReserved (String.ofList text) →
      NoneFollows Char.isAlphanum next → Lexeme text (.ident (String.ofList text)) next
  | number {digits next : List Char} : IsDigits digits → Nat.ofDigitChars 10 digits 0 ≤ largestNumber →
      NoneFollows Char.isAlphanum next → Lexeme digits (.number (Int32.ofNat (Nat.ofDigitChars 10 digits 0))) next
  | symbol {text next barred : List Char} {token : Token} : (text, token, barred) ∈ symbolTexts →
      NoneFollows barred.contains next → Lexeme text token next

/-- `Splits text tokens next`: when `next` follows, the text consists of separators and of lexemes of the tokens. -/
inductive Splits : List Char → List Token → List Char → Prop
  | done (next : List Char) : Splits [] [] next
  | separator {s text next : List Char} {tokens : List Token} : Separator s → Splits text tokens next →
      Splits (s ++ text) tokens next
  | lexeme {l text next : List Char} {token : Token} {tokens : List Token} : Lexeme l token (text ++ next) →
      Splits text tokens next → Splits (l ++ text) (token :: tokens) next

/-- `Faulty text message`: the text begins with something that is neither a separator nor a lexeme. -/
inductive Faulty : List Char → String → Prop
  | comment {body : List Char} : ¬['*', '/'] <:+: body → Faulty ('/' :: '*' :: body) "unterminated comment"
  | colon {next : List Char} : NoneFollows (· == '=') next → Faulty (':' :: next) "expected '=' after ':'"
  | digitLed {digits next : List Char} {c : Char} : IsDigits digits → c.isAlpha →
      Faulty (digits ++ c :: next) ("identifier cannot start with a digit: " ++ String.ofList digits ++ "…")
  | tooLarge {digits next : List Char} : IsDigits digits → largestNumber < Nat.ofDigitChars 10 digits 0 →
      NoneFollows Char.isAlphanum next → Faulty (digits ++ next) ("number too large: " ++ String.ofList digits)
  | unexpected {c : Char} {next : List Char} : isBlank c = false → c.isAlphanum = false →
      (∀ entry ∈ symbolTexts, c ∉ entry.1.head?) → Faulty (c :: next) ("unexpected character " ++ c.toString)

/-! ### Runs of characters -/

theorem noneFollows_dropWhile (p : Char → Bool) (text : List Char) : NoneFollows p (text.dropWhile p) := by
  intro c hc
  have h := List.head?_dropWhile_not p text
  rw [Option.mem_def.1 hc] at h
  exact h

theorem NoneFollows.takeWhile_append {p : Char → Bool} {next : List Char} (h : NoneFollows p next) {text : List Char}
    (htext : ∀ c ∈ text, p c) : (text ++ next).takeWhile p = text := by
  rw [List.takeWhile_append_of_pos htext]
  cases next with
  | nil => simp
  | cons c next =>
    have hc : p c = false := h c rfl
    simp [hc]

theorem NoneFollows.dropWhile_append {p : Char → Bool} {next : List Char} (h : NoneFollows p next) {text : List Char}
    (htext : ∀ c ∈ text, p c) : (text ++ next).dropWhile p = next := by
  rw [List.dropWhile_append_of_pos htext]
  cases next with
  | nil => rfl
  | cons c next =>
    have hc : p c = false := h c rfl
    simp [hc]

theorem exists_of_not_noneFollows {p : Char → Bool} {next : List Char} (h : ¬NoneFollows p next) :
    ∃ c cs, next = c :: cs ∧ p c := by
  cases next with
  | nil => exact absurd (fun _ hc => by cases hc) h
  | cons c cs =>
    refine ⟨c, cs, rfl, Decidable.byContradiction fun hc => h ?_⟩
    intro d hd
    cases hd
    simpa using hc

/-- A text begins with a run of characters of the class that is as long as possible. -/
theorem exists_run (p : Char → Bool) (text : List Char) :
    ∃ run next, text = run ++ next ∧ (∀ c ∈ run, p c) ∧ NoneFollows p next :=
  ⟨text.takeWhile p, text.dropWhile p, List.takeWhile_append_dropWhile.symm, List.all_eq_true.1 List.all_takeWhile,
    noneFollows_dropWhile p text⟩

/-! ### Comments -/

/-- A text with one more character in front has no end of a comment in it. -/
theorem not_infix_cons {c : Char} {cs : List Char} :
    ¬['*', '/'] <:+: c :: cs ↔ ¬(c = '*' ∧ cs.head? = some '/') ∧ ¬['*', '/'] <:+: cs := by
  rw [List.infix_cons_iff, not_or]
  refine and_congr_left fun _ => not_congr ?_
  cases cs with
  | nil => simp
  | cons d ds =>
    simp only [List.cons_prefix_cons, List.nil_prefix, and_true, List.head?_cons, Option.some.injEq]
    exact and_congr eq_comm eq_comm

/-- A comment ends where its end comes for the first time. -/
theorem exists_comment_end (cs : List Char) :
    (∃ body rest, cs = body ++ '*' :: '/' :: rest ∧ ¬['*', '/'] <:+: body) ∨ ¬['*', '/'] <:+: cs := by
  induction cs with
  | nil => exact .inr (by simp)
  | cons c cs ih =>
    by_cases hends : c = '*' ∧ cs.head? = some '/'
    · obtain ⟨rfl, hhead⟩ := hends
      obtain ⟨rest, rfl⟩ := List.head?_eq_some_iff.1 hhead
      exact .inl ⟨[], rest, rfl, by simp⟩
    rcases ih with ⟨body, rest, rfl, hbody⟩ | hnone
    · refine .inl ⟨c :: body, rest, rfl, not_infix_cons.2 ⟨?_, hbody⟩⟩
      rintro ⟨rfl, hhead⟩
      refine hends ⟨rfl, ?_⟩
      rw [List.head?_append, hhead]
      rfl
    · exact .inr (not_infix_cons.2 ⟨hends, hnone⟩)

/-! ### Lexemes -/

theorem IsWord.ne_nil {text : List Char} (h : IsWord text) : text ≠ [] := by
  rintro rfl
  exact h

theorem isWord_of_reserved : ∀ entry ∈ reservedWords, IsWord entry.1.toList := by
  decide

theorem Separator.ne_nil {s : List Char} (h : Separator s) : s ≠ [] := by
  cases h <;> simp

theorem Lexeme.ne_nil {text next : List Char} {token : Token} (h : Lexeme text token next) : text ≠ [] := by
  cases h with
  | reserved hword _ => exact (isWord_of_reserved _ hword).ne_nil
  | name hword _ _ => exact hword.ne_nil
  | number hdigits _ _ => exact hdigits.1
  | symbol htext _ =>
    have hall : ∀ entry ∈ symbolTexts, entry.1 ≠ [] := by decide
    exact hall _ htext

/-- A word is a reserved word or a name. -/
theorem exists_lexeme_of_word {text next : List Char} (h : IsWord text) (hnext : NoneFollows Char.isAlphanum next) :
    ∃ token, Lexeme text token next := by
  by_cases hreserved : IsReserved (String.ofList text)
  · obtain ⟨⟨word, token⟩, hentry, hword⟩ := hreserved
    have hlexeme := Lexeme.reserved hentry hnext
    rw [show word = String.ofList text from hword, String.toList_ofList] at hlexeme
    exact ⟨token, hlexeme⟩
  · exact ⟨_, .name h hreserved hnext⟩

/-- A symbol that is followed by a character which may not follow it is the start of a longer symbol or of a comment. -/
theorem exists_longer_symbol : ∀ entry ∈ symbolTexts, ∀ d ∈ entry.2.2, entry.1 ++ [d] = ['/', '*'] ∨
    ∃ longer ∈ symbolTexts, longer.1 = entry.1 ++ [d] ∧ longer.2.2 = [] := by
  decide

/-- Of the characters that symbols begin with, only the colon is no symbol itself. -/
theorem exists_single_symbol : ∀ entry ∈ symbolTexts, entry.1.head? = some ':' ∨
    ∃ single ∈ symbolTexts, single.1 = entry.1.take 1 := by
  decide

theorem exists_symbol_at {c : Char} {cs : List Char} (h : ∃ entry ∈ symbolTexts, c ∈ entry.1.head?)
    (hcolon : ¬(c = ':' ∧ NoneFollows (· == '=') cs)) : ∃ entry ∈ symbolTexts, ∃ rest, c :: cs = entry.1 ++ rest := by
  obtain ⟨entry, hentry, hc⟩ := h
  obtain ⟨more, htext⟩ := List.head?_eq_some_iff.1 (Option.mem_def.1 hc)
  rcases exists_single_symbol entry hentry with hhead | ⟨single, hsingle, hsingleText⟩
  · obtain rfl : c = ':' := by simpa [htext] using hhead
    obtain ⟨d, ds, rfl, hd⟩ := exists_of_not_noneFollows fun hnext => hcolon ⟨rfl, hnext⟩
    obtain rfl : d = '=' := by simpa using hd
    exact ⟨([':', '='], .becomes, []), by decide, ds, rfl⟩
  · refine ⟨single, hsingle, cs, ?_⟩
    rw [hsingleText, htext]
    rfl

theorem exists_lexeme_of_symbol {entry : List Char × Token × List Char} (h : entry ∈ symbolTexts) {rest : List Char}
    (hcomment : ¬['/', '*'] <+: entry.1 ++ rest) : ∃ l token next, entry.1 ++ rest = l ++ next ∧ Lexeme l token next := by
  by_cases hnext : NoneFollows entry.2.2.contains rest
  · exact ⟨entry.1, entry.2.1, rest, rfl, .symbol h hnext⟩
  obtain ⟨d, ds, rfl, hd⟩ := exists_of_not_noneFollows hnext
  have happend : entry.1 ++ d :: ds = entry.1 ++ [d] ++ ds := by simp
  rcases exists_longer_symbol entry h d (by simpa using hd) with hcommentText | ⟨longer, hlonger, htext, hfree⟩
  · rw [happend, hcommentText] at hcomment
    exact absurd (List.prefix_append _ _) hcomment
  · refine ⟨longer.1, longer.2.1, ds, by rw [happend, htext], .symbol hlonger ?_⟩
    rw [hfree]
    exact fun _ _ => rfl

/-! ### Splitting a text -/

/-- What the digits at the start of a text are is decided by the character after them and by their value. -/
theorem exists_lexeme_of_digits {digits next : List Char} (h : IsDigits digits) (hnext : NoneFollows Char.isDigit next) :
    (∃ token, Lexeme digits token next) ∨ ∃ message, Faulty (digits ++ next) message := by
  by_cases hletter : NoneFollows Char.isAlpha next
  · have hnext' : NoneFollows Char.isAlphanum next := by
      intro c hc
      simp [Char.isAlphanum, hletter c hc, hnext c hc]
    by_cases hvalue : Nat.ofDigitChars 10 digits 0 ≤ largestNumber
    · exact .inl ⟨_, .number h hvalue hnext'⟩
    · exact .inr ⟨_, .tooLarge h (Nat.lt_of_not_le hvalue) hnext'⟩
  · obtain ⟨c, cs, rfl, hc⟩ := exists_of_not_noneFollows hletter
    exact .inr ⟨_, .digitLed h hc⟩

/-- A text begins with a separator, with a lexeme or with a fault. -/
theorem exists_piece (c : Char) (cs : List Char) :
    (∃ s rest, c :: cs = s ++ rest ∧ Separator s) ∨ (∃ l token rest, c :: cs = l ++ rest ∧ Lexeme l token rest) ∨
      ∃ message, Faulty (c :: cs) message := by
  by_cases hblank : isBlank c
  · exact .inl ⟨[c], cs, rfl, .blank hblank⟩
  by_cases hcomment : ['/', '*'] <+: c :: cs
  · obtain ⟨rest, hrest⟩ := hcomment
    rcases exists_comment_end rest with ⟨body, next, rfl, hbody⟩ | hopen
    · exact .inl ⟨_, next, by rw [← hrest]; simp, .comment hbody⟩
    · rw [← hrest]
      exact .inr (.inr ⟨_, .comment hopen⟩)
  by_cases hdigit : c.isDigit
  · obtain ⟨run, next, rfl, hrun, hnext⟩ := exists_run Char.isDigit cs
    have hdigits : IsDigits (c :: run) := ⟨by simp, by simpa [hdigit] using hrun⟩
    rcases exists_lexeme_of_digits hdigits hnext with ⟨token, hlexeme⟩ | hfaulty
    · exact .inr (.inl ⟨c :: run, token, next, rfl, hlexeme⟩)
    · exact .inr (.inr hfaulty)
  by_cases halpha : c.isAlpha
  · obtain ⟨run, next, rfl, hrun, hnext⟩ := exists_run Char.isAlphanum cs
    have hword : IsWord (c :: run) := ⟨halpha, hrun⟩
    obtain ⟨token, hlexeme⟩ := exists_lexeme_of_word hword hnext
    exact .inr (.inl ⟨c :: run, token, next, rfl, hlexeme⟩)
  by_cases hcolon : c = ':' ∧ NoneFollows (· == '=') cs
  · obtain ⟨rfl, hnext⟩ := hcolon
    exact .inr (.inr ⟨_, .colon hnext⟩)
  by_cases hsymbol : ∃ entry ∈ symbolTexts, c ∈ entry.1.head?
  · obtain ⟨entry, hentry, rest, hrest⟩ := exists_symbol_at hsymbol hcolon
    rw [hrest] at hcomment ⊢
    exact .inr (.inl (exists_lexeme_of_symbol hentry hcomment))
  · refine .inr (.inr ⟨_, .unexpected (by simpa using hblank) ?_ ?_⟩)
    · simp [Char.isAlphanum, halpha, hdigit]
    · exact fun entry hentry hc => hsymbol ⟨entry, hentry, hc⟩

/-- A text splits up to its end or up to its first fault. -/
theorem exists_splits (source : List Char) :
    ∃ text tokens rest, source = text ++ rest ∧ Splits text tokens rest ∧
      (rest = [] ∨ ∃ message, Faulty rest message) := by
  induction hn : source.length using Nat.strongRecOn generalizing source with
  | ind n ih =>
    subst hn
    cases source with
    | nil => exact ⟨[], [], [], rfl, .done [], .inl rfl⟩
    | cons c cs =>
      -- the induction hypothesis, for what is left after a first piece
      have hleft : ∀ {piece left : List Char}, c :: cs = piece ++ left → piece ≠ [] → ∃ text tokens rest,
          left = text ++ rest ∧ Splits text tokens rest ∧ (rest = [] ∨ ∃ message, Faulty rest message) := by
        intro piece left heq hne
        have hlength := congrArg List.length heq
        have hpos := List.length_pos_iff.2 hne
        rw [List.length_append] at hlength
        exact ih left.length (by omega) left rfl
      rcases exists_piece c cs with ⟨s, left, heq, hs⟩ | ⟨l, token, left, heq, hl⟩ | hfaulty
      · obtain ⟨text, tokens, rest, rfl, hsplits, hend⟩ := hleft heq hs.ne_nil
        exact ⟨s ++ text, tokens, rest, by rw [heq, List.append_assoc], .separator hs hsplits, hend⟩
      · obtain ⟨text, tokens, rest, rfl, hsplits, hend⟩ := hleft heq hl.ne_nil
        exact ⟨l ++ text, token :: tokens, rest, by rw [heq, List.append_assoc], .lexeme hl hsplits, hend⟩
      · exact ⟨[], [], c :: cs, rfl, .done _, .inr hfaulty⟩

end PL0
