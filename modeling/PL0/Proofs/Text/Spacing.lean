import PL0.Text.Blank

/-!
# Texts with gaps

`Spaced Gap pieces text` says that the text consists of the pieces, with a gap between any two of them.  If the gaps are
runs of blanks and the pieces have no blanks in them, then the pieces are the words of the text (`words_of_spaced`).
Words always are such pieces (`isUnbroken_of_mem_words`).
-/

namespace PL0

/-- What holds of all characters of a text is decided by going through the text, not through all characters. -/
instance decidableForallMemText (p : Char → Prop) [DecidablePred p] (text : List Char) : Decidable (∀ c ∈ text, p c) :=
  List.decidableBAll p text

/-! ### Letters and digits -/

theorem isBlank_of_visible {c : Char} (hfirst : 33 ≤ c.toNat) (hlast : c.toNat ≤ 126) : isBlank c = false := by
  simp only [isBlank, blankRanges, List.any_cons, List.any_nil, Bool.or_false, Bool.or_eq_false_iff,
    Bool.and_eq_false_iff, decide_eq_false_iff_not]
  omega

private theorem toNat_of_isAlpha {c : Char} (h : c.isAlpha) : 65 ≤ c.toNat ∧ c.toNat ≤ 122 := by
  delta Char.isAlpha Char.isUpper Char.isLower at h
  simp only [Bool.or_eq_true, Bool.and_eq_true, decide_eq_true_eq, ge_iff_le, UInt32.le_iff_toNat_le] at h
  change 65 ≤ c.toNat ∧ c.toNat ≤ 90 ∨ 97 ≤ c.toNat ∧ c.toNat ≤ 122 at h
  omega

private theorem toNat_of_isDigit {c : Char} (h : c.isDigit) : 48 ≤ c.toNat ∧ c.toNat ≤ 57 :=
  Char.isDigit_iff_toNat.1 h

theorem isDigit_of_isAlpha {c : Char} (h : c.isAlpha) : c.isDigit = false := by
  have halpha := toNat_of_isAlpha h
  cases hc : c.isDigit with
  | false => rfl
  | true =>
    have hdigit := toNat_of_isDigit hc
    omega

theorem isBlank_of_isAlphanum {c : Char} (h : c.isAlphanum) : isBlank c = false := by
  have hvisible : 33 ≤ c.toNat ∧ c.toNat ≤ 126 := by
    rcases Bool.or_eq_true _ _ ▸ h with halpha | hdigit
    · have := toNat_of_isAlpha halpha
      omega
    · have := toNat_of_isDigit hdigit
      omega
  exact isBlank_of_visible hvisible.1 hvisible.2

/-! ### Pieces and gaps -/

inductive Spaced (Gap : List Char → Prop) : List (List Char) → List Char → Prop
  | nil : Spaced Gap [] []
  | single (piece : List Char) : Spaced Gap [piece] piece
  | cons {gap next text : List Char} {pieces : List (List Char)} (piece : List Char) : Gap gap →
      Spaced Gap (next :: pieces) text → Spaced Gap (piece :: next :: pieces) (piece ++ gap ++ text)

/-- The pieces with one and the same gap everywhere. -/
theorem spaced_intercalate {Gap : List Char → Prop} {gap : List Char} (hgap : Gap gap) (pieces : List (List Char)) :
    Spaced Gap pieces (gap.intercalate pieces) := by
  induction pieces with
  | nil => exact .nil
  | cons piece pieces ih =>
    cases pieces with
    | nil =>
      rw [List.intercalate_singleton]
      exact .single piece
    | cons next pieces =>
      rw [List.intercalate_cons_cons]
      exact .cons piece hgap ih

theorem exists_spaced {Gap : List Char → Prop} {gap : List Char} (hgap : Gap gap) (pieces : List (List Char)) :
    ∃ text : String, Spaced Gap pieces text.toList := by
  refine ⟨String.ofList (gap.intercalate pieces), ?_⟩
  rw [String.toList_ofList]
  exact spaced_intercalate hgap pieces

/-! ### Words -/

/-- At least one blank, and nothing else. -/
def IsBlankRun (gap : List Char) : Prop :=
  gap ≠ [] ∧ ∀ c ∈ gap, isBlank c

instance : DecidablePred IsBlankRun :=
  fun _ => inferInstanceAs (Decidable (_ ∧ _))

/-- A piece of text that has no blanks in it and is not empty. -/
def IsUnbroken (piece : List Char) : Prop :=
  piece ≠ [] ∧ ∀ c ∈ piece, isBlank c = false

instance : DecidablePred IsUnbroken :=
  fun _ => inferInstanceAs (Decidable (_ ∧ _))

theorem words_of_unbroken {piece : List Char} (h : IsUnbroken piece) : words piece = [String.ofList piece] := by
  have hne : piece.isEmpty = false := by simpa using h.1
  simp [words, List.splitOnP_eq_singleton h.2, hne]

theorem words_blanks_append {gap : List Char} (h : ∀ c ∈ gap, isBlank c) (text : List Char) :
    words (gap ++ text) = words text := by
  induction gap with
  | nil => rfl
  | cons c gap ih =>
    have hstep := words_append_cons (a := []) (b := gap ++ text) (h c (by simp))
    rw [List.nil_append, words_nil, List.nil_append] at hstep
    rw [List.cons_append, hstep]
    exact ih fun d hd => h d (by simp [hd])

theorem words_append_blanks {gap : List Char} (h : ∀ c ∈ gap, isBlank c) (text : List Char) :
    words (text ++ gap) = words text := by
  cases gap with
  | nil => rw [List.append_nil]
  | cons c gap =>
    have hblank : ∀ d ∈ gap, isBlank d := fun d hd => h d (by simp [hd])
    have hgap := words_blanks_append hblank []
    rw [List.append_nil, words_nil] at hgap
    rw [words_append_cons (h c (by simp)), hgap, List.append_nil]

/-- Blanks between two texts keep their words apart. -/
theorem words_append_blankRun {gap : List Char} (h : IsBlankRun gap) (a b : List Char) :
    words (a ++ gap ++ b) = words a ++ words b := by
  obtain ⟨c, cs, rfl⟩ := List.exists_cons_of_ne_nil h.1
  have hassoc : a ++ c :: cs ++ b = a ++ c :: (cs ++ b) := by simp
  rw [hassoc, words_append_cons (h.2 c (by simp)), words_blanks_append fun d hd => h.2 d (by simp [hd])]

private theorem isBlank_of_mem_splitOnP {text piece : List Char} (h : piece ∈ text.splitOnP isBlank) :
    ∀ c ∈ piece, isBlank c = false := by
  induction text generalizing piece with
  | nil =>
    obtain rfl : piece = [] := by simpa using h
    simp
  | cons d text ih =>
    obtain ⟨first, rest, hsplit⟩ := List.exists_cons_of_ne_nil (List.splitOnP_ne_nil isBlank text)
    have hfirst := ih (hsplit ▸ List.mem_cons_self)
    rw [List.splitOnP_cons_eq_if_modifyHead] at h
    by_cases hd : isBlank d
    · rw [if_pos hd] at h
      rcases List.mem_cons.1 h with rfl | h
      · simp
      · exact ih h
    · rw [if_neg hd, hsplit, List.modifyHead_cons] at h
      rcases List.mem_cons.1 h with rfl | h
      · simpa [hd] using hfirst
      · exact ih (hsplit ▸ List.mem_cons_of_mem _ h)

theorem isUnbroken_of_mem_words {text : List Char} {word : String} (h : word ∈ words text) :
    IsUnbroken word.toList := by
  obtain ⟨piece, hpiece, rfl⟩ := List.mem_map.1 h
  obtain ⟨hsplit, hne⟩ := List.mem_filter.1 hpiece
  rw [String.toList_ofList]
  exact ⟨by simpa using hne, isBlank_of_mem_splitOnP hsplit⟩

theorem words_of_spaced {pieces : List (List Char)} {text : List Char} (h : Spaced IsBlankRun pieces text)
    (hpieces : ∀ piece ∈ pieces, IsUnbroken piece) : words text = pieces.map String.ofList := by
  induction h with
  | nil => rfl
  | single piece => exact words_of_unbroken (hpieces piece (by simp))
  | @cons gap next text pieces piece hgap _ ih =>
    have hrest := ih fun p hp => hpieces p (by simp [List.mem_cons.1 hp])
    rw [words_append_blankRun hgap, hrest, words_of_unbroken (hpieces piece (by simp))]
    rfl

/-- Pieces with a single blank between any two of them. -/
theorem words_intercalate {pieces : List String} (h : ∀ piece ∈ pieces, IsUnbroken piece.toList) :
    words (" ".intercalate pieces).toList = pieces := by
  have hspaced := spaced_intercalate (show IsBlankRun " ".toList by decide) (pieces.map String.toList)
  rw [String.toList_intercalate, words_of_spaced hspaced]
  · simp
  · intro piece hpiece
    obtain ⟨piece, hmem, rfl⟩ := List.mem_map.1 hpiece
    exact h piece hmem

end PL0
