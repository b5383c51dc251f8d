import PL0.Proofs.FrontEnds

/-!
# Lexeme lists one after the other

A list of words is read item by item.  `Items list tokens` says that the list consists of well-formed items, and
`IllFormed list fault` that its first item is not well-formed.  Every list is of the first kind or has a longest part of
that kind with an ill-formed item behind it (`exists_items`).  In the first case the tokens of the items are read
(`readLexemeList_of_items`), in the second case the error has the position where that part ends
(`readLexemeList_of_illFormed`).

An item is complete in itself, so items can be appended to items.  An ill-formed item stays ill-formed when words are
appended, unless a word is all that it lacks (`IllFormed.append`).
-/

namespace PL0

/-! ### Items -/

/-- `Item list token`: the words are a well-formed item that stands for the token. -/
inductive Item : List String → Token → Prop
  | plain {word : String} {code : Nat} {token : Token} : readCode word = .ok code → Token.ofCode? code = some token →
      Item [word] token
  | name {word : String} (name : String) : readCode word = .ok 2 → Item [word, name] (.ident name)
  | number {word digits : String} {value : Int32} : readCode word = .ok 3 → readInt32 digits.toList = .ok value →
      Item [word, digits] (.number value)

inductive Items : List String → List Token → Prop
  | nil : Items [] []
  | cons {item list : List String} {token : Token} {tokens : List Token} : Item item token → Items list tokens →
      Items (item ++ list) (token :: tokens)

inductive IllFormed : List String → ItemFault → Prop
  | notACode {word : String} {rest : List String} {fault : ItemFault} : readCode word = .error fault →
      IllFormed (word :: rest) fault
  | unknownCode {word : String} {rest : List String} {code : Nat} : readCode word = .ok code → code ≠ 2 → code ≠ 3 →
      Token.ofCode? code = none → IllFormed (word :: rest) (.unknownCode code)
  | nameMissing {word : String} : readCode word = .ok 2 → IllFormed [word] .nameMissing
  | valueMissing {word : String} : readCode word = .ok 3 → IllFormed [word] .valueMissing
  | notANumber {word digits : String} {rest : List String} {cause : NumeralFault} : readCode word = .ok 3 →
      readInt32 digits.toList = .error cause → IllFormed (word :: digits :: rest) (.notANumber digits cause)

/-- The item ends too early. -/
def ItemFault.LacksWord (fault : ItemFault) : Prop :=
  fault = .nameMissing ∨ fault = .valueMissing

instance : DecidablePred ItemFault.LacksWord :=
  fun _ => inferInstanceAs (Decidable (_ ∨ _))

theorem Item.ne_nil {list : List String} {token : Token} (h : Item list token) : list ≠ [] := by
  cases h <;> simp

theorem IllFormed.ne_nil {list : List String} {fault : ItemFault} (h : IllFormed list fault) : list ≠ [] := by
  cases h <;> simp

theorem Items.append {list list' : List String} {tokens tokens' : List Token} (h : Items list tokens)
    (h' : Items list' tokens') : Items (list ++ list') (tokens ++ tokens') := by
  induction h with
  | nil => exact h'
  | cons hitem _ ih =>
    rw [List.append_assoc]
    exact .cons hitem ih

theorem IllFormed.append {list : List String} {fault : ItemFault} (h : IllFormed list fault) (hfault : ¬fault.LacksWord)
    (more : List String) : IllFormed (list ++ more) fault := by
  cases h with
  | notACode hcode => exact .notACode hcode
  | unknownCode hcode hname hnumber htoken => exact .unknownCode hcode hname hnumber htoken
  | nameMissing _ => exact absurd (.inl rfl) hfault
  | valueMissing _ => exact absurd (.inr rfl) hfault
  | notANumber hcode hvalue => exact .notANumber hcode hvalue

/-! ### Every list has items up to its first fault -/

/-- The first item is well-formed or not. -/
theorem exists_item (word : String) (rest : List String) :
    (∃ item token left, word :: rest = item ++ left ∧ Item item token) ∨ ∃ fault, IllFormed (word :: rest) fault := by
  cases hcode : readCode word with
  | error fault => exact .inr ⟨fault, .notACode hcode⟩
  | ok code =>
    by_cases hname : code = 2
    · subst hname
      cases rest with
      | nil => exact .inr ⟨_, .nameMissing hcode⟩
      | cons name rest => exact .inl ⟨[word, name], _, rest, rfl, .name name hcode⟩
    by_cases hnumber : code = 3
    · subst hnumber
      cases rest with
      | nil => exact .inr ⟨_, .valueMissing hcode⟩
      | cons digits rest =>
        cases hvalue : readInt32 digits.toList with
        | error cause => exact .inr ⟨_, .notANumber hcode hvalue⟩
        | ok value => exact .inl ⟨[word, digits], _, rest, rfl, .number hcode hvalue⟩
    cases htoken : Token.ofCode? code with
    | none => exact .inr ⟨_, .unknownCode hcode hname hnumber htoken⟩
    | some token => exact .inl ⟨[word], token, rest, rfl, .plain hcode htoken⟩

theorem exists_items (list : List String) :
    ∃ before tokens rest, list = before ++ rest ∧ Items before tokens ∧
      (rest = [] ∨ ∃ fault, IllFormed rest fault) := by
  induction hn : list.length using Nat.strongRecOn generalizing list with
  | ind n ih =>
    subst hn
    cases list with
    | nil => exact ⟨[], [], [], rfl, .nil, .inl rfl⟩
    | cons word list =>
      rcases exists_item word list with ⟨item, token, left, heq, hitem⟩ | hfault
      · have hlength := congrArg List.length heq
        have hpos := List.length_pos_iff.2 hitem.ne_nil
        rw [List.length_append] at hlength
        obtain ⟨before, tokens, rest, rfl, hbefore, hrest⟩ := ih left.length (by omega) left rfl
        exact ⟨item ++ before, token :: tokens, rest, by rw [heq, List.append_assoc], .cons hitem hbefore, hrest⟩
      · exact ⟨[], [], word :: list, rfl, .nil, .inr hfault⟩

/-! ### Reading items -/

theorem Item.readItems_append {item : List String} {token : Token} (h : Item item token) (i : Nat)
    (tokens : Array Token) (rest : List String) :
    readItems i tokens (item ++ rest) = readItems (i + item.length) (tokens.push token) rest := by
  cases h with
  | plain hcode htoken => exact readItems_plain i tokens hcode htoken
  | name name hcode => exact readItems_name i tokens hcode name
  | number hcode hvalue => exact readItems_number i tokens hcode hvalue

theorem Items.readItems_append {list : List String} {read : List Token} (h : Items list read) (i : Nat)
    (tokens : Array Token) (rest : List String) :
    readItems i tokens (list ++ rest) = readItems (i + list.length) (tokens ++ read) rest := by
  induction h generalizing i tokens with
  | nil => simp
  | cons hitem _ ih =>
    rw [List.append_assoc, hitem.readItems_append, ih, List.length_append, Nat.add_assoc]
    simp

theorem IllFormed.readItems_eq {list : List String} {fault : ItemFault} (h : IllFormed list fault) (i : Nat)
    (tokens : Array Token) : readItems i tokens list = .error ⟨i, fault⟩ := by
  rw [readItems.eq_def]
  cases h with
  | notACode hcode => simp only [hcode]
  | unknownCode hcode hname hnumber htoken => simp only [hcode, htoken]
  | nameMissing hcode => simp only [hcode]
  | valueMissing hcode => simp only [hcode]
  | notANumber hcode hvalue => simp only [hcode, hvalue]

theorem readLexemeList_of_items {text : String} {tokens : List Token} (h : Items (words text.toList) tokens) :
    readLexemeList text = .ok tokens := by
  have hread := h.readItems_append 0 #[] []
  rw [List.append_nil, readItems] at hread
  rw [readLexemeList, hread]
  simp [Except.map]

theorem readLexemeList_of_illFormed {text : String} {before rest : List String} {tokens : List Token}
    {fault : ItemFault} (htext : words text.toList = before ++ rest) (hbefore : Items before tokens)
    (hrest : IllFormed rest fault) : readLexemeList text = .error ⟨before.length, fault⟩ := by
  rw [readLexemeList, htext, hbefore.readItems_append, hrest.readItems_eq, Nat.zero_add]
  rfl

theorem items_of_readLexemeList {text : String} {tokens : List Token} (h : readLexemeList text = .ok tokens) :
    Items (words text.toList) tokens := by
  obtain ⟨before, tokens', rest, htext, hbefore, rfl | ⟨fault, hrest⟩⟩ := exists_items (words text.toList)
  · rw [List.append_nil] at htext
    rw [← htext] at hbefore
    rw [readLexemeList_of_items hbefore, Except.ok.injEq] at h
    rwa [← h]
  · rw [readLexemeList_of_illFormed htext hbefore hrest] at h
    cases h

theorem illFormed_of_readLexemeList {text : String} {e : LexemeError} (h : readLexemeList text = .error e) :
    ∃ before tokens rest, words text.toList = before ++ rest ∧ Items before tokens ∧ IllFormed rest e.fault ∧
      e.item = before.length := by
  obtain ⟨before, tokens, rest, htext, hbefore, rfl | ⟨fault, hrest⟩⟩ := exists_items (words text.toList)
  · rw [List.append_nil] at htext
    rw [readLexemeList_of_items (htext ▸ hbefore)] at h
    cases h
  · rw [readLexemeList_of_illFormed htext hbefore hrest] at h
    cases h
    exact ⟨before, tokens, rest, htext, hbefore, hrest, rfl⟩

/-! ### Two lists -/

theorem loadLexemes_error {text : String} {e : LexemeError} :
    (loadLexemes text).tokens = .error (.lexeme e) ↔ readLexemeList text = .error e := by
  rw [loadLexemes]
  cases readLexemeList text <;> simp

theorem exists_of_loadLexemes_error {text : String} {e : LoadError} (h : (loadLexemes text).tokens = .error e) :
    ∃ e', e = .lexeme e' ∧ readLexemeList text = .error e' := by
  rw [loadLexemes] at h
  cases hread : readLexemeList text with
  | error e' =>
    rw [hread] at h
    exact ⟨e', (Except.error.inj h).symm, rfl⟩
  | ok tokens =>
    rw [hread] at h
    cases h

section

variable {a b gap : String} (hgap : IsBlankRun gap.toList)

include hgap

private theorem words_of_both : words (a ++ gap ++ b).toList = words a.toList ++ words b.toList := by
  rw [String.toList_append, String.toList_append, words_append_blankRun hgap]

theorem readLexemeList_append {tokens tokens' : List Token} (ha : readLexemeList a = .ok tokens)
    (hb : readLexemeList b = .ok tokens') : readLexemeList (a ++ gap ++ b) = .ok (tokens ++ tokens') := by
  apply readLexemeList_of_items
  rw [words_of_both hgap]
  exact (items_of_readLexemeList ha).append (items_of_readLexemeList hb)

/-- An error in the second list comes after all words of the first one. -/
theorem readLexemeList_append_of_second {tokens : List Token} {e : LexemeError} (ha : readLexemeList a = .ok tokens)
    (hb : readLexemeList b = .error e) :
    readLexemeList (a ++ gap ++ b) = .error ⟨e.item + (words a.toList).length, e.fault⟩ := by
  obtain ⟨before, tokens', rest, htext, hbefore, hrest, hitem⟩ := illFormed_of_readLexemeList hb
  have hboth : words (a ++ gap ++ b).toList = words a.toList ++ before ++ rest := by
    rw [words_of_both hgap, htext, List.append_assoc]
  rw [readLexemeList_of_illFormed hboth ((items_of_readLexemeList ha).append hbefore) hrest, hitem, List.length_append,
    Nat.add_comm]

theorem readLexemeList_append_of_first {e : LexemeError} (ha : readLexemeList a = .error e)
    (hfault : ¬e.fault.LacksWord) : readLexemeList (a ++ gap ++ b) = .error e := by
  obtain ⟨before, tokens, rest, htext, hbefore, hrest, hitem⟩ := illFormed_of_readLexemeList ha
  have hboth : words (a ++ gap ++ b).toList = before ++ (rest ++ words b.toList) := by
    rw [words_of_both hgap, htext, List.append_assoc]
  rw [readLexemeList_of_illFormed hboth hbefore (hrest.append hfault _), ← hitem]

end

/-- Two lexeme lists with blanks between them are read one after the other: if the first one is read without an error,
then its tokens come before those of the second one, or the error of the second one is found as many words later; and
an error of the first one stays the same, unless a word was missing.  An error has the position of the first item that
is not well-formed. -/
theorem lexeme_lists_compose (a b : String) {gap : String} (hgap : IsBlankRun gap.toList) :
    (∀ tokens, (loadLexemes a).tokens = .ok tokens →
      (∀ tokens', (loadLexemes b).tokens = .ok tokens' →
        (loadLexemes (a ++ gap ++ b)).tokens = .ok (tokens ++ tokens')) ∧
      ∀ e, (loadLexemes b).tokens = .error (.lexeme e) →
        (loadLexemes (a ++ gap ++ b)).tokens = .error (.lexeme ⟨e.item + (words a.toList).length, e.fault⟩)) ∧
    (∀ e, (loadLexemes a).tokens = .error (.lexeme e) → ¬e.fault.LacksWord →
      (loadLexemes (a ++ gap ++ b)).tokens = .error (.lexeme e)) ∧
    ∀ (text : String) (e : LoadError), (loadLexemes text).tokens = .error e ↔
      ∃ before tokens word rest fault, words text.toList = before ++ word :: rest ∧ Items before tokens ∧
        IllFormed (word :: rest) fault ∧ e = .lexeme ⟨before.length, fault⟩ := by
  refine ⟨fun tokens ha => ⟨fun tokens' hb => ?_, fun e hb => ?_⟩, fun e ha hfault => ?_,
    fun text e => ⟨fun h => ?_, ?_⟩⟩
  · exact loadLexemes_tokens.2 (readLexemeList_append hgap (loadLexemes_tokens.1 ha) (loadLexemes_tokens.1 hb))
  · exact loadLexemes_error.2 (readLexemeList_append_of_second hgap (loadLexemes_tokens.1 ha) (loadLexemes_error.1 hb))
  · exact loadLexemes_error.2 (readLexemeList_append_of_first hgap (loadLexemes_error.1 ha) hfault)
  · obtain ⟨⟨item, fault⟩, rfl, hread⟩ := exists_of_loadLexemes_error h
    obtain ⟨before, tokens, rest, htext, hbefore, hrest, rfl⟩ := illFormed_of_readLexemeList hread
    obtain ⟨word, rest, rfl⟩ := List.exists_cons_of_ne_nil hrest.ne_nil
    exact ⟨before, tokens, word, rest, fault, htext, hbefore, hrest, rfl⟩
  · rintro ⟨before, tokens, word, rest, fault, htext, hbefore, hrest, rfl⟩
    exact loadLexemes_error.2 (readLexemeList_of_illFormed htext hbefore hrest)

/-- A number that is too large for a kind is the third word of the second list and the seventh word of both.  A sign
without digits is no number, whatever comes behind it. -/
theorem lexeme_lists_compose_errors :
    (loadLexemes "29 2 x 18").tokens = .ok [.varSym, .ident "x", .semicolon] ∧
    (loadLexemes "3 7 300").tokens = .error (.lexeme ⟨2, .notACode "300" .tooLarge⟩) ∧
    (loadLexemes "29 2 x 18\n\u30003 7 300").tokens = .error (.lexeme ⟨6, .notACode "300" .tooLarge⟩) ∧
    (loadLexemes "2 3 3 -").tokens = .error (.lexeme ⟨2, .notANumber "-" .invalidDigit⟩) ∧
    (loadLexemes "2 3 3 -\n\u30003 7 300").tokens = .error (.lexeme ⟨2, .notANumber "-" .invalidDigit⟩) := by
  have hgap : IsBlankRun "\n\u3000".toList := by decide
  have hfirst : (loadLexemes "29 2 x 18").tokens = .ok [.varSym, .ident "x", .semicolon] := by rfl
  have hsecond : (loadLexemes "3 7 300").tokens = .error (.lexeme ⟨2, .notACode "300" .tooLarge⟩) := by rfl
  have hsign : (loadLexemes "2 3 3 -").tokens = .error (.lexeme ⟨2, .notANumber "-" .invalidDigit⟩) := by rfl
  refine ⟨hfirst, hsecond, ?_, hsign, ?_⟩
  · exact ((lexeme_lists_compose "29 2 x 18" "3 7 300" hgap).1 _ hfirst).2 _ hsecond
  · exact (lexeme_lists_compose "2 3 3 -" "3 7 300" hgap).2.1 _ hsign (by decide)

end PL0
