/-!
# Blanks and words

The blanks are the characters with the Unicode property `White_Space`.  A text splits at its blanks into words
(`words`), and the words of `a`, of a blank and of `b` one after the other are the words of `a` followed by those
of `b` (`words_append_cons`).
-/

namespace PL0

/-- The characters with the property `White_Space`, as ranges of code points. -/
def blankRanges : List (Nat × Nat) :=
  [(0x09, 0x0d), (0x20, 0x20), (0x85, 0x85), (0xa0, 0xa0), (0x1680, 0x1680), (0x2000, 0x200a), (0x2028, 0x2029),
    (0x202f, 0x202f), (0x205f, 0x205f), (0x3000, 0x3000)]

def isBlank (c : Char) : Bool :=
  blankRanges.any fun (first, last) => first ≤ c.toNat && c.toNat ≤ last

/-- The words of a text: its longest runs of characters that are not blank. -/
def words (text : List Char) : List String :=
  ((text.splitOnP isBlank).filter (!·.isEmpty)).map String.ofList

theorem words_nil : words [] = [] := rfl

theorem words_append_cons {a b : List Char} {c : Char} (h : isBlank c) :
    words (a ++ c :: b) = words a ++ words b := by
  simp [words, List.splitOnP_append_cons _ _ h]

end PL0
