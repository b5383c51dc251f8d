import PL0.Proofs.FrontEnds

/-!
# Lexeme lists read back

A token sequence has a lexeme list if its names are words.  It does not matter what these words look like: a name that
is a number or a reserved word stands where a name is due, so it is read as a name.  Conversely the names that are read
from any lexeme list are words of it (`hasUnbrokenName_of_readItems`).  So the lexeme lists of a token sequence are read
as this sequence, and the sequences that can be read are those that can be written (`lexeme_list_round_trip`).
-/

namespace PL0

/-- The text is a lexeme list of the tokens.  Blanks may stand around it. -/
def IsLexemeList (tokens : List Token) (text : String) : Prop :=
  ∃ before body after : String, text = before ++ body ++ after ∧ (∀ c ∈ before.toList, isBlank c) ∧
    (∀ c ∈ after.toList, isBlank c) ∧ IsLexemeText tokens body

theorem IsLexemeText.isLexemeList {tokens : List Token} {text : String} (h : IsLexemeText tokens text) :
    IsLexemeList tokens text :=
  ⟨"", text, "", by simp, by simp, by simp, h⟩

/-! ### Reading what was written -/

theorem words_of_isLexemeList {tokens : List Token} {text : String} (h : ∀ t ∈ tokens, t.HasUnbrokenName)
    (htext : IsLexemeList tokens text) : words text.toList = tokens.flatMap Token.lexemes := by
  obtain ⟨before, body, after, rfl, hbefore, hafter, hbody⟩ := htext
  rw [String.toList_append, String.toList_append, words_append_blanks hafter, words_blanks_append hbefore]
  exact words_of_lexemes h hbody

theorem loadLexemes_of_isLexemeList {tokens : List Token} {text : String} (h : ∀ t ∈ tokens, t.HasUnbrokenName)
    (htext : IsLexemeList tokens text) : (loadLexemes text).tokens = .ok tokens :=
  loadLexemes_tokens.2 (readLexemeList_of_words (words_of_isLexemeList h htext))

/-! ### The names that are read -/

/-- A token without a name has no name to be broken. -/
theorem Token.hasUnbrokenName_of_ofCode? {code : Nat} {token : Token} (h : ofCode? code = some token) :
    token.HasUnbrokenName := by
  cases token with
  | ident name =>
    obtain rfl : 2 = code := code_of_ofCode? h
    cases h
  | _ => trivial

private theorem forall_mem_push {P : Token → Prop} {tokens : Array Token} {token : Token} (h : ∀ t ∈ tokens, P t)
    (htoken : P token) : ∀ t ∈ tokens.push token, P t := by
  intro t ht
  rcases Array.mem_push.1 ht with ht | rfl
  · exact h t ht
  · exact htoken

/-- The names that are read are words of the list. -/
theorem hasUnbrokenName_of_readItems {i : Nat} {tokens result : Array Token} {list : List String}
    (h : readItems i tokens list = .ok result) (hlist : ∀ word ∈ list, IsUnbroken word.toList)
    (htokens : ∀ t ∈ tokens, t.HasUnbrokenName) : ∀ t ∈ result, t.HasUnbrokenName := by
  fun_induction readItems i tokens list with
  | case1 =>
    obtain rfl := Except.ok.inj h
    exact htokens
  | case2 | case3 | case5 | case6 | case8 => cases h
  | case4 _ _ _ _ name rest ih =>
    apply ih h
    · exact fun word hword => hlist word (by simp [hword])
    · exact forall_mem_push htokens (hlist name (by simp))
  | case7 _ _ _ _ _ rest _ _ ih =>
    apply ih h
    · exact fun word hword => hlist word (by simp [hword])
    · exact forall_mem_push htokens trivial
  | case9 _ _ _ rest _ _ _ _ _ hcode ih =>
    apply ih h
    · exact fun word hword => hlist word (by simp [hword])
    · exact forall_mem_push htokens (Token.hasUnbrokenName_of_ofCode? hcode)

theorem hasUnbrokenName_of_loadLexemes {tokens : List Token} {text : String}
    (h : (loadLexemes text).tokens = .ok tokens) : ∀ t ∈ tokens, t.HasUnbrokenName := by
  have hread : (readItems 0 #[] (words text.toList)).map Array.toList = .ok tokens := loadLexemes_tokens.1 h
  cases hitems : readItems 0 #[] (words text.toList) with
  | error e =>
    rw [hitems] at hread
    cases hread
  | ok result =>
    rw [hitems] at hread
    obtain rfl : result.toList = tokens := Except.ok.inj hread
    have hresult := hasUnbrokenName_of_readItems hitems (fun word => isUnbroken_of_mem_words) (by simp)
    intro t ht
    exact hresult t (Array.mem_toList_iff.1 ht)

/-! ### Both directions -/

/-- If the names of a token sequence are words, then the sequence has lexeme lists, and all of them are read as this
sequence.  The names of a sequence that is read from some lexeme list are words, so it is read from every lexeme list
of it, too. -/
theorem lexeme_list_round_trip (tokens : List Token) :
    ((∀ t ∈ tokens, t.HasUnbrokenName) →
      (∃ text, IsLexemeList tokens text) ∧
      ∀ text, IsLexemeList tokens text → (loadLexemes text).tokens = .ok tokens) ∧
    ∀ text, (loadLexemes text).tokens = .ok tokens →
      (∀ t ∈ tokens, t.HasUnbrokenName) ∧
      ∀ text', IsLexemeList tokens text' → (loadLexemes text').tokens = .ok tokens := by
  constructor
  · intro h
    obtain ⟨text, htext⟩ := exists_isLexemeText tokens
    exact ⟨⟨text, htext.isLexemeList⟩, fun _ => loadLexemes_of_isLexemeList h⟩
  · intro text htext
    have h := hasUnbrokenName_of_loadLexemes htext
    exact ⟨h, fun _ => loadLexemes_of_isLexemeList h⟩

/-- The name `3` is no number, the name `begin` is no reserved word, and the blanks are of several kinds. -/
theorem lexeme_list_round_trip_names :
    (loadLexemes "\n2 3\u30002\tbegin 2 ü 1  3 -2147483648\r\n").tokens =
      .ok [.ident "3", .ident "begin", .ident "ü", .nul, .number (-2147483648)] ∧
    (loadLexemes "+2 3 02 begin 2 ü 001 3 -02147483648").tokens =
      .ok [.ident "3", .ident "begin", .ident "ü", .nul, .number (-2147483648)] := by
  have hread : (loadLexemes "+2 3 02 begin 2 ü 001 3 -02147483648").tokens =
      .ok [.ident "3", .ident "begin", .ident "ü", .nul, .number (-2147483648)] := by rfl
  have hbody : IsLexemeText [.ident "3", .ident "begin", .ident "ü", .nul, .number (-2147483648)]
      "2 3\u30002\tbegin 2 ü 1  3 -2147483648" :=
    .cons ['2'] (show IsBlankRun [' '] by decide) <| .cons ['3'] (show IsBlankRun ['\u3000'] by decide) <|
      .cons ['2'] (show IsBlankRun ['\t'] by decide) <|
      .cons ['b', 'e', 'g', 'i', 'n'] (show IsBlankRun [' '] by decide) <|
      .cons ['2'] (show IsBlankRun [' '] by decide) <| .cons ['ü'] (show IsBlankRun [' '] by decide) <|
      .cons ['1'] (show IsBlankRun [' ', ' '] by decide) <| .cons ['3'] (show IsBlankRun [' '] by decide) <|
      .single ['-', '2', '1', '4', '7', '4', '8', '3', '6', '4', '8']
  have hlist : IsLexemeList [.ident "3", .ident "begin", .ident "ü", .nul, .number (-2147483648)]
      "\n2 3\u30002\tbegin 2 ü 1  3 -2147483648\r\n" :=
    ⟨"\n", _, "\r\n", by decide, by decide, by decide, hbody⟩
  obtain ⟨hnames, -⟩ := (lexeme_list_round_trip _).2 _ hread
  obtain ⟨-, hagain⟩ := (lexeme_list_round_trip _).1 hnames
  exact ⟨hagain _ hlist, hread⟩

end PL0
