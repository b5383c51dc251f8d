import PL0.Proofs.Lexing.Recognition

/-!
# Calling a lexer again and again

A lexer may be called any number of times.  One call reads on in its text (`Lexer.next_suffix`), and by at least one
character if it has a result (`Lexer.next_properSuffix`); a call without a token finishes the lexer
(`Lexer.next_finishes`), and a finished lexer stays as it is (`Lexer.after_of_finished`).  So the calls give the results
of the lexer one by one and then nothing more (`Lexer.call_eq_result`), and these results are tokens with at most one
error behind them (`Lexer.exists_results`).
-/

namespace PL0

namespace Lexer

/-- The lexer after `n` calls. -/
def after (lexer : Lexer) : Nat → Lexer
  | 0 => lexer
  | n + 1 => after lexer.next.2 n

theorem after_add (lexer : Lexer) (n m : Nat) : lexer.after (n + m) = (lexer.after n).after m := by
  induction n generalizing lexer with
  | zero => rw [Nat.zero_add]; rfl
  | succ n ih =>
    rw [Nat.add_right_comm]
    exact ih lexer.next.2

theorem after_succ (lexer : Lexer) (n : Nat) : lexer.after (n + 1) = (lexer.after n).next.2 :=
  lexer.after_add n 1

/-! ### One call -/

theorem next_suffix (lexer : Lexer) : lexer.next.2.rest <:+ lexer.rest := by
  obtain ⟨text, finished⟩ := lexer
  cases finished with
  | true => exact List.suffix_refl text
  | false =>
    rcases next_cases text with hnext | ⟨token, rest, hnext, hrest⟩ | ⟨e, rest, hnext, hrest⟩
    · rw [hnext]
      exact List.nil_suffix
    · rw [hnext]
      exact hrest.suffix
    · rw [hnext]
      exact hrest.suffix

theorem next_properSuffix {lexer : Lexer} (h : lexer.next.1 ≠ none) : IsProperSuffix lexer.next.2.rest lexer.rest := by
  obtain ⟨text, finished⟩ := lexer
  cases finished with
  | true => exact absurd rfl h
  | false =>
    rcases next_cases text with hnext | ⟨token, rest, hnext, hrest⟩ | ⟨e, rest, hnext, hrest⟩
    · rw [hnext] at h
      exact absurd rfl h
    · rw [hnext]
      exact hrest
    · rw [hnext]
      exact hrest

/-- A call that gives no token was the last one that changed anything. -/
theorem next_finishes {lexer : Lexer} (h : ∀ token, lexer.next.1 ≠ some (.ok token)) : lexer.next.2.finished := by
  obtain ⟨text, finished⟩ := lexer
  cases finished with
  | true => rfl
  | false =>
    rcases next_cases text with hnext | ⟨token, rest, hnext, -⟩ | ⟨e, rest, hnext, -⟩
    · rw [hnext]
    · rw [hnext] at h
      exact absurd rfl (h token)
    · rw [hnext]

theorem next_of_finished {lexer : Lexer} (h : lexer.finished) : lexer.next = (none, lexer) := by
  rw [next, if_pos h]

/-! ### All calls -/

theorem after_of_finished {lexer : Lexer} (h : lexer.finished) (n : Nat) : lexer.after n = lexer := by
  induction n with
  | zero => rfl
  | succ n ih => rw [after_succ, ih, next_of_finished h]

/-- The calls give the results one by one. -/
theorem call_eq_result (lexer : Lexer) (n : Nat) : (lexer.after n).next.1 = lexer.results[n]? := by
  induction n generalizing lexer with
  | zero =>
    rcases h : lexer.next with ⟨_ | result, lexer'⟩
    · rw [results_of_none h, after, h]
      rfl
    · rw [results_of_some h, after, h]
      rfl
  | succ n ih =>
    rw [after, ih]
    rcases h : lexer.next with ⟨_ | result, lexer'⟩
    · have hfinished : lexer'.finished := by
        have hnext : lexer.next.2.finished := next_finishes (by simp [h])
        rwa [h] at hnext
      rw [results_of_none h, results_of_none (next_of_finished hfinished)]
      rfl
    · rw [results_of_some h]
      rfl

theorem length_results (lexer : Lexer) : lexer.results.length ≤ lexer.rest.length := by
  induction hn : lexer.rest.length using Nat.strongRecOn generalizing lexer with
  | ind n ih =>
    subst hn
    rcases h : lexer.next with ⟨_ | result, lexer'⟩
    · rw [results_of_none h]
      exact Nat.zero_le _
    · have hlength := length_next h
      have hrest := ih _ hlength lexer' rfl
      rw [results_of_some h, List.length_cons]
      omega

/-- Tokens, and at most one error behind them. -/
theorem exists_results (text : List Char) : ∃ (tokens : List Token) (error : Option LexicalError),
    results ⟨text, false⟩ = tokens.map .ok ++ (error.map .error).toList := by
  obtain ⟨text, tokens, rest, rfl, hsplits, rfl | ⟨message, hfaulty⟩⟩ := exists_splits text
  · refine ⟨tokens, none, ?_⟩
    rw [results_append hsplits]
    rfl
  · obtain ⟨e, left, hnext, -, -⟩ := next_faulty hfaulty
    refine ⟨tokens, some e, ?_⟩
    rw [results_append hsplits, results_of_some hnext, results_of_none (next_finished left)]
    rfl

end Lexer

theorem tokenize_of_results {source : String} {tokens : List Token} {error : Option LexicalError}
    (h : (Lexer.ofString source).results = tokens.map .ok ++ (error.map .error).toList) :
    tokenize source = error.elim (.ok tokens) .error := by
  rw [tokenize, h, mapM_id_append]
  cases error with
  | none =>
    show Except.ok (tokens ++ []) = .ok tokens
    rw [List.append_nil]
  | some e => rfl

/-- However often the lexer of a text is called, it gives tokens, then at most one error, and then nothing for ever.  A
call reads on in the text, by at least one character if it gives something, so there are at most as many results as
characters; after a call that gives no token the text stays where it is.  The tokens or the error are what `tokenize`
makes of the text. -/
theorem lexer_calls (source : String) : ∃ (tokens : List Token) (error : Option LexicalError),
    (∀ n, ((Lexer.ofString source).after n).next.1 = (tokens.map .ok ++ (error.map .error).toList)[n]?) ∧
    tokenize source = error.elim (.ok tokens) .error ∧
    tokens.length + error.toList.length ≤ source.length ∧
    (∀ n, ((Lexer.ofString source).after (n + 1)).rest <:+ ((Lexer.ofString source).after n).rest) ∧
    (∀ n, ((Lexer.ofString source).after n).next.1 ≠ none →
      IsProperSuffix ((Lexer.ofString source).after (n + 1)).rest ((Lexer.ofString source).after n).rest) ∧
    ∀ n, (∀ token, ((Lexer.ofString source).after n).next.1 ≠ some (.ok token)) →
      ∀ m > n, ((Lexer.ofString source).after m).rest = ((Lexer.ofString source).after (n + 1)).rest := by
  obtain ⟨tokens, error, hresults⟩ := Lexer.exists_results source.toList
  refine ⟨tokens, error, ?_, tokenize_of_results hresults, ?_, ?_, ?_, ?_⟩
  · intro n
    rw [← hresults]
    exact Lexer.call_eq_result _ n
  · have hlength := Lexer.length_results ⟨source.toList, false⟩
    rw [hresults, List.length_append, List.length_map] at hlength
    cases error <;> simpa [← String.length_toList] using hlength
  · intro n
    rw [Lexer.after_succ]
    exact Lexer.next_suffix _
  · intro n hsome
    rw [Lexer.after_succ]
    exact Lexer.next_properSuffix hsome
  · intro n hnone m hm
    obtain ⟨k, rfl⟩ : ∃ k, m = n + 1 + k := ⟨m - (n + 1), by omega⟩
    have hfinished : ((Lexer.ofString source).after (n + 1)).finished := by
      rw [Lexer.after_succ]
      exact Lexer.next_finishes hnone
    rw [Lexer.after_add _ (n + 1) k, Lexer.after_of_finished hfinished]

/-- A name that begins with digits ends the lexer.  The digits have been read, and the letter after them never is. -/
theorem lexer_calls_digit_led : ∃ lexer, lexer = Lexer.ofString "x /* is */ := 12a;" ∧
    (lexer.after 1).next.1 = some (.ok .becomes) ∧ (lexer.after 2).next.1 = some (.error (.digitLedName "12")) ∧
    IsProperSuffix (lexer.after 2).rest (lexer.after 1).rest ∧ ∀ n > 2, (lexer.after n).rest = ['a', ';'] := by
  obtain ⟨tokens, error, -, -, -, -, hprogress, hstays⟩ := lexer_calls "x /* is */ := 12a;"
  have hbecomes : ((Lexer.ofString "x /* is */ := 12a;").after 1).next.1 = some (.ok .becomes) := by rfl
  have herror : ((Lexer.ofString "x /* is */ := 12a;").after 2).next.1 = some (.error (.digitLedName "12")) := by rfl
  refine ⟨_, rfl, hbecomes, herror, hprogress 1 (by simp [hbecomes]), fun n hn => ?_⟩
  exact hstays 2 (by simp [herror]) n hn

end PL0
