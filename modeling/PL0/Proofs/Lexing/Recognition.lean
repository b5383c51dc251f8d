import PL0.Proofs.Lexing.Grammar
import PL0.Proofs.Text.Decimal
import PL0.Proofs.Text.Spacing

/-!
# What the lexer recognises

One call of the lexer passes over separators (`Lexer.next_separator`) and takes one lexeme (`Lexer.next_lexeme`) or
reports one fault (`Lexer.next_faulty`).  Since every text splits up to its end or up to its first fault, this is
enough to know what `tokenize` makes of it.
-/

namespace PL0

/-! ### Separators -/

theorem skipGap_inside {c : Char} {cs : List Char} (h : ¬(c = '*' ∧ cs.head? = some '/')) :
    skipGap true (c :: cs) = skipGap true cs := by
  rw [skipGap]
  rintro rest rfl rfl
  exact h ⟨rfl, rfl⟩

theorem skipGap_outside {c : Char} {cs : List Char} (hblank : isBlank c = false)
    (h : ¬(c = '/' ∧ cs.head? = some '*')) : skipGap false (c :: cs) = some (c :: cs) := by
  rw [skipGap]
  · simp [hblank]
  · rintro rest rfl rfl
    exact h ⟨rfl, rfl⟩

theorem skipGap_comment {body : List Char} (h : ¬['*', '/'] <:+: body) (rest : List Char) :
    skipGap true (body ++ '*' :: '/' :: rest) = skipGap false rest := by
  induction body with
  | nil => rfl
  | cons c body ih =>
    obtain ⟨hc, hbody⟩ := not_infix_cons.1 h
    have hstep : ¬(c = '*' ∧ (body ++ '*' :: '/' :: rest).head? = some '/') := by
      rintro ⟨hstar, hhead⟩
      cases body with
      | nil => simp at hhead
      | cons d body => exact hc ⟨hstar, hhead⟩
    rw [List.cons_append, skipGap_inside hstep]
    exact ih hbody

theorem skipGap_unterminated {body : List Char} (h : ¬['*', '/'] <:+: body) : skipGap true body = none := by
  induction body with
  | nil => rfl
  | cons c body ih =>
    obtain ⟨hc, hbody⟩ := not_infix_cons.1 h
    rw [skipGap_inside hc]
    exact ih hbody

theorem Separator.skipGap_append {s : List Char} (h : Separator s) (rest : List Char) :
    skipGap false (s ++ rest) = skipGap false rest := by
  cases h with
  | @blank c hc =>
    rw [List.singleton_append, skipGap]
    · simp [hc]
    · rintro _ rfl _
      exact absurd hc (by decide)
  | @comment body hbody =>
    have hassoc : '/' :: '*' :: body ++ ['*', '/'] ++ rest = '/' :: '*' :: (body ++ '*' :: '/' :: rest) := by simp
    rw [hassoc, skipGap]
    exact skipGap_comment hbody rest

/-! ### Symbols -/

theorem NoneFollows.mono {p q : Char → Bool} {next : List Char} (h : NoneFollows p next) (hq : ∀ c, q c → p c) :
    NoneFollows q next := by
  intro c hc
  have hp := h c hc
  cases hqc : q c with
  | false => rfl
  | true => rwa [hq c hqc] at hp

private theorem symbol?_lss {next : List Char} (h : NoneFollows ['>', '='].contains next) :
    symbol? ('<' :: next) = some (.lss, next) := by
  cases next with
  | nil => rfl
  | cons c cs =>
    have hc : c ≠ '>' ∧ c ≠ '=' := by simpa using h c rfl
    rw [symbol?]
    · exact fun _ hcons => hc.1 (List.cons.inj hcons).1
    · exact fun _ hcons => hc.2 (List.cons.inj hcons).1

private theorem symbol?_gtr {next : List Char} (h : NoneFollows ['='].contains next) :
    symbol? ('>' :: next) = some (.gtr, next) := by
  cases next with
  | nil => rfl
  | cons c cs =>
    have hc : c ≠ '=' := by simpa using h c rfl
    rw [symbol?]
    exact fun _ hcons => hc (List.cons.inj hcons).1

private theorem symbol?_colon {next : List Char} (h : NoneFollows (· == '=') next) : symbol? (':' :: next) = none := by
  cases next with
  | nil => rfl
  | cons c cs =>
    have hc : c ≠ '=' := by simpa using h c rfl
    rw [symbol?] <;> simp [hc]

/-- A symbol is read as long as it goes. -/
theorem symbol?_append {entry : List Char × Token × List Char} (h : entry ∈ symbolTexts) {next : List Char}
    (hnext : NoneFollows entry.2.2.contains next) : symbol? (entry.1 ++ next) = some (entry.2.1, next) := by
  simp only [symbolTexts, List.mem_cons, List.not_mem_nil, or_false] at h
  rcases h with rfl | rfl | rfl | rfl | rfl | rfl | rfl | rfl | rfl | rfl | rfl | rfl | rfl | rfl | rfl | rfl
  all_goals try rfl
  · exact symbol?_lss hnext
  · exact symbol?_gtr hnext

/-- Only the first characters of symbols are read as symbols. -/
theorem exists_head_of_symbol? {text : List Char} (h : symbol? text ≠ none) :
    ∃ entry ∈ symbolTexts, entry.1.head? = text.head? := by
  unfold symbol? at h
  split at h
  case h_17 => exact absurd rfl h
  all_goals
    rw [List.head?_cons]
    decide

/-! ### Words and numbers -/

theorem keyword?_eq_some {word : String} {token : Token} (h : (word, token) ∈ reservedWords) :
    Token.keyword? word = some token := by
  have hall : ∀ entry ∈ reservedWords, Token.keyword? entry.1 = some entry.2 := by decide
  exact hall _ h

theorem keyword?_eq_none {word : String} (h : ¬IsReserved word) : Token.keyword? word = none := by
  cases hword : Token.keyword? word with
  | none => rfl
  | some token =>
    obtain ⟨before, after, hsplit, -⟩ := List.lookup_eq_some_iff.1 hword
    exact absurd ⟨(word, token), by simp [hsplit], rfl⟩ h

theorem IsWord.all {text : List Char} (h : IsWord text) : ∀ c ∈ text, c.isAlphanum := by
  cases text with
  | nil => simp
  | cons c cs =>
    have hc : c.isAlphanum := by simp [Char.isAlphanum, h.1]
    simpa [hc] using h.2

theorem readWord_append {text next : List Char} (h : IsWord text) (hnext : NoneFollows Char.isAlphanum next) :
    readWord (text ++ next) = (Token.ofWord (String.ofList text), next) := by
  rw [readWord, hnext.takeWhile_append h.all, hnext.dropWhile_append h.all]

theorem NoneFollows.head?_any {p : Char → Bool} {next : List Char} (h : NoneFollows p next) :
    next.head?.any p = false := by
  cases next with
  | nil => rfl
  | cons c cs => exact h c rfl

section

variable {digits next : List Char} (h : IsDigits digits)

include h

/-- The value decides, if no letter follows. -/
theorem readNumber_append (hnext : NoneFollows Char.isAlphanum next) :
    readNumber (digits ++ next) =
      if Nat.ofDigitChars 10 digits 0 ≤ largestNumber then
        .ok (.number (Int32.ofNat (Nat.ofDigitChars 10 digits 0)), next)
      else .error (.numberTooLarge (String.ofList digits)) := by
  have hdigit : NoneFollows Char.isDigit next := hnext.mono (by simp_all [Char.isAlphanum])
  have halpha : NoneFollows Char.isAlpha next := hnext.mono (by simp_all [Char.isAlphanum])
  have hbound : Int32.size / 2 - 1 = largestNumber := rfl
  simp only [readNumber, hdigit.takeWhile_append h.2, hdigit.dropWhile_append h.2, halpha.head?_any,
    Bool.false_eq_true, ↓reduceIte, readInt32_of_digits h.1 h.2, hbound]
  by_cases hvalue : Nat.ofDigitChars 10 digits 0 ≤ largestNumber
  · rw [readDigits_of_le h.2 hvalue, if_pos hvalue]
    rfl
  · rw [readDigits_of_gt h.2 (Nat.zero_le _) (Nat.lt_of_not_le hvalue), if_neg hvalue]
    rfl

theorem readNumber_append_letter {c : Char} (hc : c.isAlpha) :
    readNumber (digits ++ c :: next) = .error (.digitLedName (String.ofList digits)) := by
  have hdigit : NoneFollows Char.isDigit (c :: next) := by
    intro d hd
    cases hd
    exact isDigit_of_isAlpha hc
  simp only [readNumber, hdigit.takeWhile_append h.2, hdigit.dropWhile_append h.2, List.head?_cons, Option.any_some, hc,
    ↓reduceIte]

end

/-! ### One call of the lexer -/

/-- `rest` is what is left of `text` after at least one character was read. -/
def IsProperSuffix (rest text : List Char) : Prop :=
  ∃ taken, taken ≠ [] ∧ text = taken ++ rest

namespace IsProperSuffix

variable {rest text : List Char}

theorem of_append {taken : List Char} (h : taken ≠ []) (rest : List Char) : IsProperSuffix rest (taken ++ rest) :=
  ⟨taken, h, rfl⟩

theorem of_tail {c : Char} (h : rest <:+ text) : IsProperSuffix rest (c :: text) := by
  obtain ⟨taken, rfl⟩ := h
  exact ⟨c :: taken, by simp, rfl⟩

theorem append_left (h : IsProperSuffix rest text) (s : List Char) : IsProperSuffix rest (s ++ text) := by
  obtain ⟨taken, hne, rfl⟩ := h
  exact ⟨s ++ taken, by simp [hne], by rw [List.append_assoc]⟩

theorem suffix (h : IsProperSuffix rest text) : rest <:+ text := by
  obtain ⟨taken, -, rfl⟩ := h
  exact List.suffix_append taken rest

theorem length_lt (h : IsProperSuffix rest text) : rest.length < text.length := by
  obtain ⟨taken, hne, rfl⟩ := h
  have hpos := List.length_pos_iff.2 hne
  rw [List.length_append]
  omega

end IsProperSuffix

theorem restAfterError_suffix (c : Char) (cs : List Char) : restAfterError c cs <:+ cs := by
  unfold restAfterError
  split
  · exact List.dropWhile_suffix _
  · split
    · exact List.tail_suffix cs
    · exact List.suffix_refl cs

theorem readLexeme_of_digit {c : Char} (hc : c.isDigit) (cs : List Char) : readLexeme c cs = readNumber (c :: cs) := by
  rw [readLexeme, if_pos hc]

theorem readLexeme_of_alpha {c : Char} (hc : c.isAlpha) (cs : List Char) :
    readLexeme c cs = .ok (readWord (c :: cs)) := by
  rw [readLexeme, if_neg (by simp [isDigit_of_isAlpha hc]), if_pos hc]

theorem readLexeme_of_other {c : Char} (hc : c.isAlphanum = false) (cs : List Char) :
    (∀ token rest, symbol? (c :: cs) = some (token, rest) → readLexeme c cs = .ok (token, rest)) ∧
    (symbol? (c :: cs) = none → readLexeme c cs = .error (if c = ':' then .loneColon else .unexpected c)) := by
  simp only [Char.isAlphanum, Bool.or_eq_false_iff] at hc
  constructor
  · intro token rest h
    simp only [readLexeme, hc.1, hc.2, h, Bool.false_eq_true, ↓reduceIte]
  · intro h
    simp only [readLexeme, hc.1, hc.2, h, Bool.false_eq_true, ↓reduceIte]

namespace Lexer

theorem next_separator {s : List Char} (h : Separator s) (rest : List Char) :
    next ⟨s ++ rest, false⟩ = next ⟨rest, false⟩ := by
  simp only [next, h.skipGap_append, Bool.false_eq_true, ↓reduceIte]

section

variable {c : Char} {cs : List Char} (hblank : isBlank c = false) (hcomment : ¬(c = '/' ∧ cs.head? = some '*'))

include hblank hcomment

theorem next_of_ok {token : Token} {rest : List Char} (h : readLexeme c cs = .ok (token, rest)) :
    next ⟨c :: cs, false⟩ = (some (.ok token), ⟨rest, false⟩) := by
  simp only [next, skipGap_outside hblank hcomment, h, Bool.false_eq_true, ↓reduceIte]

theorem next_of_error {e : LexicalError} (h : readLexeme c cs = .error e) :
    next ⟨c :: cs, false⟩ = (some (.error e), ⟨restAfterError c cs, true⟩) := by
  simp only [next, skipGap_outside hblank hcomment, h, Bool.false_eq_true, ↓reduceIte]

end

/-- Words and numbers are no comments. -/
private theorem not_comment_of_isAlphanum {c : Char} (h : c.isAlphanum) (cs : List Char) :
    ¬(c = '/' ∧ cs.head? = some '*') := by
  rintro ⟨rfl, -⟩
  exact absurd h (by decide)

private theorem next_word {text rest : List Char} (h : IsWord text) (hrest : NoneFollows Char.isAlphanum rest) :
    next ⟨text ++ rest, false⟩ = (some (.ok (Token.ofWord (String.ofList text))), ⟨rest, false⟩) := by
  obtain ⟨c, cs, rfl⟩ := List.exists_cons_of_ne_nil h.ne_nil
  have hc := h.all c (by simp)
  refine next_of_ok (isBlank_of_isAlphanum hc) (not_comment_of_isAlphanum hc _) ?_
  rw [readLexeme_of_alpha h.1]
  exact congrArg _ (readWord_append h hrest)

private theorem next_digits {digits rest : List Char} (h : IsDigits digits) :
    (∀ token rest', readNumber (digits ++ rest) = .ok (token, rest') →
      next ⟨digits ++ rest, false⟩ = (some (.ok token), ⟨rest', false⟩)) ∧
    (∀ e, readNumber (digits ++ rest) = .error e →
      next ⟨digits ++ rest, false⟩ = (some (.error e), ⟨(digits ++ rest).dropWhile Char.isDigit, true⟩)) := by
  obtain ⟨c, cs, rfl⟩ := List.exists_cons_of_ne_nil h.1
  have hdigit := h.2 c (by simp)
  have hc : c.isAlphanum := by simp [Char.isAlphanum, hdigit]
  have hread : readLexeme c (cs ++ rest) = readNumber (c :: cs ++ rest) := readLexeme_of_digit hdigit _
  have hleft : restAfterError c (cs ++ rest) = (c :: cs ++ rest).dropWhile Char.isDigit := by
    rw [restAfterError, if_pos hdigit, List.cons_append, List.dropWhile_cons_of_pos hdigit]
  rw [← hread, ← hleft]
  exact ⟨fun _ _ => next_of_ok (isBlank_of_isAlphanum hc) (not_comment_of_isAlphanum hc _),
    fun _ => next_of_error (isBlank_of_isAlphanum hc) (not_comment_of_isAlphanum hc _)⟩

private theorem next_symbol {entry : List Char × Token × List Char} (h : entry ∈ symbolTexts) {rest : List Char}
    (hrest : NoneFollows entry.2.2.contains rest) :
    next ⟨entry.1 ++ rest, false⟩ = (some (.ok entry.2.1), ⟨rest, false⟩) := by
  have hread := symbol?_append h hrest
  have hvisible : ∀ entry ∈ symbolTexts, entry.1.head?.any fun c => !isBlank c && !c.isAlphanum := by decide
  have hslash : ∀ entry ∈ symbolTexts, entry.1.head? = some '/' → entry.1 = ['/'] ∧ entry.2.2 = ['*'] := by decide
  obtain ⟨c, cs, htext⟩ : ∃ c cs, entry.1 = c :: cs := List.exists_cons_of_ne_nil (Lexeme.symbol h hrest).ne_nil
  have hc := hvisible entry h
  rw [htext, List.head?_cons, Option.any_some, Bool.and_eq_true, Bool.not_eq_true', Bool.not_eq_true'] at hc
  have hcomment : ¬(c = '/' ∧ (cs ++ rest).head? = some '*') := by
    rintro ⟨rfl, hhead⟩
    obtain ⟨hsingle, hbarred⟩ := hslash entry h (by rw [htext]; rfl)
    obtain rfl : cs = [] := by simpa [htext] using hsingle
    have hstar := hrest '*' hhead
    rw [hbarred] at hstar
    cases hstar
  rw [htext] at hread ⊢
  exact next_of_ok hc.1 hcomment ((readLexeme_of_other hc.2 _).1 _ _ hread)

theorem next_lexeme {text rest : List Char} {token : Token} (h : Lexeme text token rest) :
    next ⟨text ++ rest, false⟩ = (some (.ok token), ⟨rest, false⟩) := by
  cases h with
  | reserved hword hrest =>
    rw [next_word (isWord_of_reserved _ hword) hrest, String.ofList_toList, Token.ofWord, keyword?_eq_some hword]
    rfl
  | name hword hreserved hrest =>
    rw [next_word hword hrest, Token.ofWord, keyword?_eq_none hreserved]
    rfl
  | number hdigits hvalue hrest =>
    refine (next_digits hdigits).1 _ _ ?_
    rw [readNumber_append hdigits hrest, if_pos hvalue]
  | symbol htext hrest => exact next_symbol htext hrest

private theorem symbol?_unexpected {c : Char} (h : ∀ entry ∈ symbolTexts, c ∉ entry.1.head?) (cs : List Char) :
    symbol? (c :: cs) = none := by
  by_cases hread : symbol? (c :: cs) = none
  · exact hread
  · obtain ⟨entry, hentry, hhead⟩ := exists_head_of_symbol? hread
    exact absurd hhead (h entry hentry)

/-- A fault is reported, and then the lexer is finished. -/
theorem next_faulty {text : List Char} {message : String} (h : Faulty text message) :
    ∃ e rest, next ⟨text, false⟩ = (some (.error e), ⟨rest, true⟩) ∧ e.message = message ∧
      IsProperSuffix rest text := by
  cases h with
  | @comment body hbody =>
    have hgap : skipGap false ('/' :: '*' :: body) = none := skipGap_unterminated hbody
    refine ⟨.unterminatedComment, [], ?_, rfl, .of_tail List.nil_suffix⟩
    simp only [next, hgap, Bool.false_eq_true, ↓reduceIte]
  | @colon cs hnext =>
    have hread := (readLexeme_of_other rfl cs).2 (symbol?_colon hnext)
    exact ⟨.loneColon, _, next_of_error rfl (by simp) hread, rfl, .of_tail (restAfterError_suffix _ cs)⟩
  | @digitLed digits cs c hdigits hc =>
    have hread : readNumber (digits ++ c :: cs) = _ := readNumber_append_letter hdigits hc
    have hleft : (digits ++ c :: cs).dropWhile Char.isDigit = c :: cs := by
      rw [List.dropWhile_append_of_pos hdigits.2, List.dropWhile_cons_of_neg (by simp [isDigit_of_isAlpha hc])]
    have hnext := (next_digits hdigits).2 _ hread
    rw [hleft] at hnext
    exact ⟨_, _, hnext, rfl, .of_append hdigits.1 _⟩
  | @tooLarge digits cs hdigits hvalue hnext =>
    have hread := readNumber_append hdigits hnext
    rw [if_neg (by omega)] at hread
    have hdigit : NoneFollows Char.isDigit cs := hnext.mono (by simp_all [Char.isAlphanum])
    have hnext := (next_digits hdigits).2 _ hread
    rw [hdigit.dropWhile_append hdigits.2] at hnext
    exact ⟨_, _, hnext, rfl, .of_append hdigits.1 _⟩
  | @unexpected c cs hblank hc hsymbol =>
    have hcolon : c ≠ ':' := by
      rintro rfl
      exact hsymbol ([':', '='], .becomes, []) (by decide) rfl
    have hslash : c ≠ '/' := by
      rintro rfl
      exact hsymbol (['/'], .slash, ['*']) (by decide) rfl
    have hread := (readLexeme_of_other hc cs).2 (symbol?_unexpected hsymbol cs)
    rw [if_neg hcolon] at hread
    have hnext := next_of_error hblank (fun h => hslash h.1) hread
    exact ⟨.unexpected c, _, hnext, rfl, .of_tail (restAfterError_suffix c cs)⟩

/-- One call ends the lexer, or it takes a token, or it reports an error and ends the lexer.  A token or an error takes at
least one character. -/
theorem next_cases (text : List Char) :
    next ⟨text, false⟩ = (none, ⟨[], true⟩) ∨
    (∃ token rest, next ⟨text, false⟩ = (some (.ok token), ⟨rest, false⟩) ∧ IsProperSuffix rest text) ∨
    ∃ e rest, next ⟨text, false⟩ = (some (.error e), ⟨rest, true⟩) ∧ IsProperSuffix rest text := by
  obtain ⟨text, tokens, rest, rfl, hsplits, hend⟩ := exists_splits text
  induction hsplits with
  | done rest =>
    rcases hend with rfl | ⟨message, hfaulty⟩
    · exact .inl rfl
    · obtain ⟨e, left, hnext, -, hleft⟩ := next_faulty hfaulty
      exact .inr (.inr ⟨e, left, hnext, hleft⟩)
  | @separator s text rest tokens hs _ ih =>
    rw [List.append_assoc, next_separator hs]
    rcases ih hend with hdone | ⟨token, left, hnext, hleft⟩ | ⟨e, left, hnext, hleft⟩
    · exact .inl hdone
    · exact .inr (.inl ⟨token, left, hnext, hleft.append_left s⟩)
    · exact .inr (.inr ⟨e, left, hnext, hleft.append_left s⟩)
  | @lexeme l text rest token tokens hl _ _ =>
    rw [List.append_assoc, next_lexeme hl]
    exact .inr (.inl ⟨token, text ++ rest, rfl, .of_append hl.ne_nil _⟩)

/-! ### All results of a lexer -/

theorem next_finished (rest : List Char) : next ⟨rest, true⟩ = (none, ⟨rest, true⟩) := rfl

theorem length_next {lexer lexer' : Lexer} {result : Except LexicalError Token}
    (h : lexer.next = (some result, lexer')) : lexer'.rest.length < lexer.rest.length := by
  obtain ⟨text, finished⟩ := lexer
  cases finished with
  | true =>
    rw [next_finished] at h
    cases h
  | false =>
    rcases next_cases text with hnext | ⟨token, rest, hnext, hleft⟩ | ⟨e, rest, hnext, hleft⟩ <;>
      rw [hnext] at h <;> cases h <;> exact hleft.length_lt

variable {lexer lexer' : Lexer} {result : Except LexicalError Token}

theorem collect_of_none (h : lexer.next = (none, lexer')) (n : Nat) (results : List (Except LexicalError Token)) :
    lexer.collect n results = results.reverse := by
  cases n with
  | zero => rfl
  | succ n => rw [collect, h]

theorem collect_of_some (h : lexer.next = (some result, lexer')) (n : Nat)
    (results : List (Except LexicalError Token)) :
    lexer.collect (n + 1) results = lexer'.collect n (result :: results) := by
  rw [collect, h]

theorem collect_append (n : Nat) (lexer : Lexer) (results : List (Except LexicalError Token)) :
    lexer.collect n results = results.reverse ++ lexer.collect n [] := by
  induction n generalizing lexer results with
  | zero => simp [collect]
  | succ n ih =>
    rcases h : lexer.next with ⟨_ | result, lexer'⟩
    · rw [collect_of_none h, collect_of_none h, List.reverse_nil, List.append_nil]
    · rw [collect_of_some h, collect_of_some h, ih lexer' (result :: results), ih lexer' [result]]
      simp

/-- More calls than there are characters left give nothing more. -/
theorem collect_eq_collect {n m : Nat} (hn : lexer.rest.length ≤ n) (hm : lexer.rest.length ≤ m) :
    lexer.collect n [] = lexer.collect m [] := by
  induction n generalizing lexer m with
  | zero =>
    rcases h : lexer.next with ⟨_ | result, lexer'⟩
    · rw [collect_of_none h, collect_of_none h]
    · have := length_next h
      omega
  | succ n ih =>
    rcases h : lexer.next with ⟨_ | result, lexer'⟩
    · rw [collect_of_none h, collect_of_none h]
    · have hlength := length_next h
      obtain ⟨m, rfl⟩ : ∃ k, m = k + 1 := ⟨m - 1, by omega⟩
      have hsame : lexer'.collect n [] = lexer'.collect m [] := ih (by omega) (by omega)
      rw [collect_of_some h, collect_of_some h, collect_append n, collect_append m, hsame]

theorem results_of_none (h : lexer.next = (none, lexer')) : lexer.results = [] :=
  collect_of_none h _ _

theorem results_of_some (h : lexer.next = (some result, lexer')) : lexer.results = result :: lexer'.results := by
  have hlength := length_next h
  obtain ⟨n, hn⟩ : ∃ n, lexer.rest.length = n + 1 := ⟨lexer.rest.length - 1, by omega⟩
  have hsame : lexer'.collect n [] = lexer'.results := collect_eq_collect (by omega) (Nat.le_refl _)
  rw [results, hn, collect_of_some h, collect_append, hsame]
  rfl

/-- What a text splits into is handed out before what the rest gives. -/
theorem results_append {text rest : List Char} {tokens : List Token} (h : Splits text tokens rest) :
    results ⟨text ++ rest, false⟩ = tokens.map .ok ++ results ⟨rest, false⟩ := by
  induction h with
  | done rest => rfl
  | @separator s text rest tokens hs _ ih =>
    have hnext := next_separator hs (text ++ rest)
    rw [← ih, List.append_assoc]
    rcases h : next ⟨text ++ rest, false⟩ with ⟨_ | result, lexer'⟩
    · rw [results_of_none h, results_of_none (hnext.trans h)]
    · rw [results_of_some h, results_of_some (hnext.trans h)]
  | lexeme hl _ ih =>
    rw [List.append_assoc, results_of_some (next_lexeme hl), ih]
    rfl

end Lexer

/-! ### Whole texts -/

theorem mapM_id_append (tokens : List Token) (results : List (Except LexicalError Token)) :
    (tokens.map Except.ok ++ results).mapM id = (results.mapM id).map (tokens ++ ·) := by
  induction tokens with
  | nil =>
    rw [List.map_nil, List.nil_append]
    cases results.mapM id <;> rfl
  | cons token tokens ih =>
    rw [List.map_cons, List.cons_append, List.mapM_cons, ih]
    cases results.mapM id <;> rfl

section

variable {source message : String} {text rest : List Char} {tokens : List Token}

theorem tokenize_of_splits (h : Splits source.toList tokens []) : tokenize source = .ok tokens := by
  have hresults := Lexer.results_append h
  rw [List.append_nil] at hresults
  rw [tokenize, Lexer.ofString, hresults, mapM_id_append]
  show Except.ok (tokens ++ []) = _
  rw [List.append_nil]

theorem tokenize_of_faulty (hsource : source.toList = text ++ rest) (h : Splits text tokens rest)
    (hrest : Faulty rest message) : (tokenize source).mapError LexicalError.message = .error message := by
  obtain ⟨e, left, hnext, hmessage, -⟩ := Lexer.next_faulty hrest
  rw [tokenize, Lexer.ofString, hsource, Lexer.results_append h, mapM_id_append, Lexer.results_of_some hnext,
    Lexer.results_of_none (Lexer.next_finished left), ← hmessage]
  rfl

/-- The text splits to its end, or there is a first fault. -/
theorem splits_or_faulty (source : String) :
    (∃ tokens, Splits source.toList tokens []) ∨
      ∃ text tokens rest message, source.toList = text ++ rest ∧ Splits text tokens rest ∧ Faulty rest message := by
  obtain ⟨text, tokens, rest, hsource, hsplits, rfl | ⟨message, hfaulty⟩⟩ := exists_splits source.toList
  · rw [List.append_nil] at hsource
    exact .inl ⟨tokens, hsource ▸ hsplits⟩
  · exact .inr ⟨text, tokens, rest, message, hsource, hsplits, hfaulty⟩

theorem splits_of_tokenize (h : tokenize source = .ok tokens) : Splits source.toList tokens [] := by
  rcases splits_or_faulty source with ⟨tokens', hsplits⟩ | ⟨_, _, _, message, hsource, hsplits, hfaulty⟩
  · rw [tokenize_of_splits hsplits, Except.ok.injEq] at h
    rwa [← h]
  · have herror := tokenize_of_faulty hsource hsplits hfaulty
    rw [h] at herror
    cases herror

theorem exists_faulty_of_tokenize (h : (tokenize source).mapError LexicalError.message = .error message) :
    ∃ text tokens rest, source.toList = text ++ rest ∧ Splits text tokens rest ∧ Faulty rest message := by
  rcases splits_or_faulty source with ⟨tokens', hsplits⟩ | ⟨text, tokens, rest, message', hsource, hsplits, hfaulty⟩
  · rw [tokenize_of_splits hsplits] at h
    cases h
  · rw [tokenize_of_faulty hsource hsplits hfaulty, Except.error.injEq] at h
    exact ⟨text, tokens, rest, hsource, hsplits, h ▸ hfaulty⟩

end

/-- A source text is read without an error exactly if it splits into separators and lexemes, and then it is read as their
tokens.  Otherwise the message is that of the first fault. -/
theorem tokenize_iff_splits (source : String) :
    (∀ tokens, tokenize source = .ok tokens ↔ Splits source.toList tokens []) ∧
    ∀ message, (tokenize source).mapError LexicalError.message = .error message ↔
      ∃ text tokens rest, source.toList = text ++ rest ∧ Splits text tokens rest ∧ Faulty rest message := by
  refine ⟨fun tokens => ⟨splits_of_tokenize, tokenize_of_splits⟩, fun message => ⟨exists_faulty_of_tokenize, ?_⟩⟩
  rintro ⟨text, tokens, rest, hsource, hsplits, hfaulty⟩
  exact tokenize_of_faulty hsource hsplits hfaulty

-- a letter after the digits counts before their value
example : tokenize "9999999999x" = .error (.digitLedName "9999999999") := by rfl

end PL0
