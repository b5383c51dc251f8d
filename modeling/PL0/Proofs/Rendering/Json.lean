import Mathlib.Data.List.Forall2
import PL0.Proofs.Lexing.Grammar
import PL0.Proofs.Rendering.Lines

/-!
# JSON documents are read back

A reader of JSON documents, as far as programs need it: objects, arrays, strings without escapes, and integers with 32
bits.  Space may stand between any two parts.  `Json.Reads item text x` says that the reader `item` finds `x` at the
start of every text that begins with space and `text`, if no numeral is made longer by what follows.  Reading composes:
members and elements that can be read make objects and arrays that can be read (`Json.Reads.object`,
`Json.Reads.array`).

`Json.ReadsBack print` says that the documents that `print` prints are read as what was printed.  It is what is asked of
a printer of JSON, and the usual printer is one (`Json.readsBack_pretty`).
-/

namespace PL0

namespace Json

variable {α : Type}

/-! ### Readers -/

def isSpace (c : Char) : Bool :=
  [' ', '\n', '\r', '\t'].contains c

/-- The characters of numerals. -/
def isNumeral (c : Char) : Bool :=
  c.isDigit || ['+', '-', '.', 'e', 'E'].contains c

/-- The characters that stand for themselves in a string. -/
def isPlain (c : Char) : Bool :=
  ' ' ≤ c && c ≠ '"' && c ≠ '\\'

/-- Reads the character `c` and the space before it. -/
def readChar (c : Char) (text : List Char) : Option (List Char) :=
  match text.dropWhile isSpace with
  | [] => none
  | d :: rest => if d = c then some rest else none

/-- Reads a string whose first quotation mark has been read. -/
def readString (text : List Char) : Option (String × List Char) :=
  match text.dropWhile isPlain with
  | '"' :: rest => some (String.ofList (text.takeWhile isPlain), rest)
  | _ => none

/-- Reads at most `n` items with commas between them, and the character `close` after the last one. -/
def readItems (item : List Char → Option (α × List Char)) (close : Char) : Nat → List Char → Option (List α × List Char)
  | 0, _ => none
  | n + 1, text => do
    let (x, rest) ← item text
    match readChar ',' rest with
    | some rest =>
      let (xs, rest) ← readItems item close n rest
      return (x :: xs, rest)
    | none =>
      let rest ← readChar close rest
      return ([x], rest)

/-- Reads items, or none at all, up to the character `close`. -/
def readList (item : List Char → Option (α × List Char)) (close : Char) (text : List Char) :
    Option (List α × List Char) :=
  readItems item close text.length text <|> (readChar close text).map ([], ·)

/-- Reads a member of an object. -/
def readMember (value : List Char → Option (Json × List Char)) (text : List Char) :
    Option ((String × Json) × List Char) := do
  let text ← readChar '"' text
  let (name, text) ← readString text
  let text ← readChar ':' text
  let (v, text) ← value text
  return ((name, v), text)

/-- Reads a value with at most `n` levels. -/
def readValue : Nat → List Char → Option (Json × List Char)
  | 0, _ => none
  | n + 1, text =>
    match text.dropWhile isSpace with
    | '"' :: rest => (readString rest).map fun (s, rest) => (.string s, rest)
    | '[' :: rest => (readList (readValue n) ']' rest).map fun (elements, rest) => (.array elements, rest)
    | '\x7b' :: rest =>
      (readList (readMember (readValue n)) '\x7d' rest).map fun (members, rest) => (.object members, rest)
    | rest => do
      let value ← readInteger (String.ofList (rest.takeWhile isNumeral))
      return (.number value, rest.dropWhile isNumeral)

/-- Reads a document.  There cannot be more levels than characters. -/
def read (text : String) : Option Json := do
  let (v, rest) ← readValue (text.length + 1) text.toList
  if rest.all isSpace then return v else none

/-! ### What is read -/

/-- Wherever the text stands, after any space and before anything that does not make a numeral longer, the reader finds
`x` and leaves what follows. -/
def Reads (item : List Char → Option (α × List Char)) (text : List Char) (x : α) : Prop :=
  ∀ gap rest, (∀ c ∈ gap, isSpace c) → NoneFollows isNumeral rest → item (gap ++ (text ++ rest)) = some (x, rest)

/-- Space ends a numeral. -/
theorem isNumeral_of_isSpace {c : Char} (h : isSpace c) : isNumeral c = false := by
  simp only [isSpace, List.contains_eq_mem, List.mem_cons, List.not_mem_nil, or_false, decide_eq_true_eq] at h
  rcases h with rfl | rfl | rfl | rfl <;> rfl

section

variable {gap : List Char} (hgap : ∀ c ∈ gap, isSpace c)

include hgap

theorem Reads.space_append {item : List Char → Option (α × List Char)} {text : List Char} {x : α}
    (h : Reads item text x) : Reads item (gap ++ text) x := by
  intro before rest hbefore hrest
  have hspace : ∀ c ∈ before ++ gap, isSpace c := by
    intro c hc
    rcases List.mem_append.1 hc with hc | hc
    · exact hbefore c hc
    · exact hgap c hc
  rw [List.append_assoc, ← List.append_assoc]
  exact h _ rest hspace hrest

theorem dropWhile_space {c : Char} (hc : isSpace c = false) (rest : List Char) :
    (gap ++ c :: rest).dropWhile isSpace = c :: rest := by
  have hnext : NoneFollows isSpace (c :: rest) := by
    rintro _ ⟨⟩
    exact hc
  exact hnext.dropWhile_append hgap

theorem readChar_append {c : Char} (hc : isSpace c = false) (rest : List Char) :
    readChar c (gap ++ c :: rest) = some rest := by
  rw [readChar, dropWhile_space hgap hc]
  exact if_pos rfl

theorem readChar_of_ne {c d : Char} (hd : isSpace d = false) (hne : d ≠ c) (rest : List Char) :
    readChar c (gap ++ d :: rest) = none := by
  rw [readChar, dropWhile_space hgap hd]
  exact if_neg hne

theorem noneFollows_space {c : Char} (hc : isNumeral c = false) (rest : List Char) :
    NoneFollows isNumeral (gap ++ c :: rest) := by
  intro d hd
  cases gap with
  | nil =>
    cases hd
    exact hc
  | cons b gap =>
    cases hd
    exact isNumeral_of_isSpace (hgap d List.mem_cons_self)

end

/-! ### Numbers and strings -/

theorem isNumeral_decimal32 (value : Int32) : ∀ c ∈ (decimal32 value).toList, isNumeral c := by
  have hdigits : ∀ n, ∀ c ∈ Nat.toDigits 10 n, isNumeral c := fun n c hc => by
    simp [isNumeral, isDigit_toDigits c hc]
  by_cases hsign : value.toInt < 0
  · rw [toList_decimal32_of_neg hsign]
    exact List.forall_mem_cons.2 ⟨rfl, hdigits _⟩
  · rw [toList_decimal32_of_nonneg (by omega)]
    exact hdigits _

theorem reads_number (value : Int32) (n : Nat) :
    Reads (readValue (n + 1)) (decimal32 value).toList (.number value) := by
  intro gap rest hgap hrest
  have htext := isNumeral_decimal32 value
  have htake := hrest.takeWhile_append htext
  have hdrop := hrest.dropWhile_append htext
  obtain ⟨c, cs, hc⟩ := List.exists_cons_of_ne_nil (isUnbroken_decimal32 value).1
  have hnumeral : isNumeral c := htext c (by simp [hc])
  have hspace : isSpace c = false := by
    by_contra h
    rw [isNumeral_of_isSpace (Bool.of_not_eq_false h)] at hnumeral
    cases hnumeral
  rw [hc, List.cons_append, readValue, dropWhile_space hgap hspace, ← List.cons_append, ← hc]
  split
  case h_4 =>
    rw [htake, hdrop, String.ofList_toList, readInteger_decimal32]
    rfl
  -- No other value begins with a character of a numeral.
  all_goals
    rename_i heq
    rw [hc, List.cons_append, List.cons.injEq] at heq
    rw [heq.1] at hnumeral
    cases hnumeral

section

variable {text : String}

theorem readString_append (htext : ∀ c ∈ text.toList, isPlain c) (rest : List Char) :
    readString (text.toList ++ '"' :: rest) = some (text, rest) := by
  have hnext : NoneFollows isPlain ('"' :: rest) := by
    rintro _ ⟨⟩
    rfl
  rw [readString, hnext.dropWhile_append htext, hnext.takeWhile_append htext, String.ofList_toList]
  rfl

theorem reads_string (htext : ∀ c ∈ text.toList, isPlain c) (n : Nat) :
    Reads (readValue (n + 1)) ('"' :: (text.toList ++ ['"'])) (.string text) := by
  intro gap rest hgap _
  rw [List.cons_append, List.append_assoc, readValue, dropWhile_space hgap rfl]
  show (readString (text.toList ++ '"' :: rest)).map _ = _
  rw [readString_append htext]
  rfl

theorem reads_member {value : List Char → Option (Json × List Char)} {chars : List Char} {v : Json}
    (htext : ∀ c ∈ text.toList, isPlain c) (h : Reads value chars v) :
    Reads (readMember value) ('"' :: (text.toList ++ '"' :: ':' :: ' ' :: chars)) (text, v) := by
  intro gap rest hgap hrest
  have hquote := readChar_append hgap (show isSpace '"' = false from rfl)
    (text.toList ++ '"' :: ':' :: ' ' :: (chars ++ rest))
  have hcolon : readChar ':' (':' :: ' ' :: (chars ++ rest)) = some (' ' :: (chars ++ rest)) :=
    readChar_append (List.forall_mem_nil _) rfl _
  have hvalue : value (' ' :: (chars ++ rest)) = some (v, rest) := h [' '] rest (by decide) hrest
  simp only [readMember, List.cons_append, List.append_assoc, hquote, readString_append htext, hcolon, hvalue,
    Option.bind_eq_bind, Option.bind_some, Option.pure_def]

end

/-! ### Lists -/

/-- Every item but the last is followed by a comma. -/
theorem length_le_intercalate (texts : List (List Char)) :
    texts.length ≤ ([',', '\n'].intercalate texts).length + 1 := by
  induction texts with
  | nil => exact Nat.zero_le _
  | cons text texts ih =>
    cases texts with
    | nil => simp
    | cons text' texts =>
      rw [List.intercalate_cons_cons]
      simp only [List.length_append, List.length_cons, List.length_nil] at ih ⊢
      omega

section

variable {item : List Char → Option (α × List Char)} {texts : List (List Char)} {xs : List α} {close : Char}
  (hclose : close = ']' ∨ close = '\x7d')

include hclose

theorem readItems_intercalate (h : List.Forall₂ (Reads item) texts xs) (hne : texts ≠ []) {n : Nat}
    (hn : texts.length ≤ n) {lead gap : List Char} (hlead : ∀ c ∈ lead, isSpace c) (hgap : ∀ c ∈ gap, isSpace c)
    (rest : List Char) :
    readItems item close n (lead ++ ([',', '\n'].intercalate texts ++ (gap ++ close :: rest))) = some (xs, rest) := by
  have hspace : isSpace close = false := by rcases hclose with rfl | rfl <;> rfl
  have hnumeral : isNumeral close = false := by rcases hclose with rfl | rfl <;> rfl
  have hcomma : close ≠ ',' := by rcases hclose with rfl | rfl <;> decide
  induction h generalizing n lead with
  | nil => exact absurd rfl hne
  | @cons text x texts xs htext htexts ih =>
    obtain ⟨n, rfl⟩ : ∃ m, n = m + 1 := ⟨n - 1, by rw [List.length_cons] at hn; omega⟩
    cases htexts with
    | nil =>
      have hitem := htext lead _ hlead (noneFollows_space hgap hnumeral rest)
      rw [List.intercalate_singleton, readItems]
      simp only [hitem, readChar_of_ne hgap hspace hcomma, readChar_append hgap hspace, Option.bind_eq_bind,
        Option.bind_some, Option.pure_def]
    | @cons text' x' texts xs htext' htexts =>
      have hrest := ih (by simp) (Nat.le_of_succ_le_succ hn) (show ∀ c ∈ ['\n'], isSpace c by decide)
      have hread := readChar_append (List.forall_mem_nil _) (show isSpace ',' = false from rfl)
        (['\n'] ++ ([',', '\n'].intercalate (text' :: texts) ++ (gap ++ close :: rest)))
      have hitem := htext lead _ hlead (noneFollows_space (List.forall_mem_nil _) (show isNumeral ',' = false from rfl)
        (['\n'] ++ ([',', '\n'].intercalate (text' :: texts) ++ (gap ++ close :: rest))))
      simp only [List.nil_append, List.cons_append] at hitem hread hrest
      simp only [List.intercalate_cons_cons, readItems, List.append_assoc, List.cons_append, List.nil_append, hitem,
        hread, hrest, Option.bind_eq_bind, Option.bind_some, Option.pure_def]

theorem readList_intercalate (h : List.Forall₂ (Reads item) texts xs) (hne : texts ≠ []) {gap : List Char}
    (hgap : ∀ c ∈ gap, isSpace c) (rest : List Char) :
    readList item close ('\n' :: ([',', '\n'].intercalate texts ++ (gap ++ close :: rest))) = some (xs, rest) := by
  have hlength := length_le_intercalate texts
  have hitems := readItems_intercalate hclose h hne
    (n := ('\n' :: ([',', '\n'].intercalate texts ++ (gap ++ close :: rest))).length) (by simp; omega)
    (show ∀ c ∈ ['\n'], isSpace c by decide) hgap rest
  rw [List.singleton_append] at hitems
  rw [readList, hitems]
  rfl

end

section

variable {gap : List Char} (hgap : ∀ c ∈ gap, isSpace c) (n : Nat) (rest : List Char)

include hgap

theorem readValue_array : readValue (n + 1) (gap ++ '[' :: rest) =
    (readList (readValue n) ']' rest).map fun (elements, rest) => (.array elements, rest) := by
  rw [readValue, dropWhile_space hgap rfl]
  rfl

theorem readValue_object : readValue (n + 1) (gap ++ '\x7b' :: rest) =
    (readList (readMember (readValue n)) '\x7d' rest).map fun (members, rest) => (.object members, rest) := by
  rw [readValue, dropWhile_space hgap rfl]
  rfl

end

section

variable {n : Nat} {texts : List (List Char)} {gap : List Char} (hne : texts ≠ []) (hgap : ∀ c ∈ gap, isSpace c)

include hne hgap

theorem Reads.array {elements : List Json} (h : List.Forall₂ (Reads (readValue n)) texts elements) :
    Reads (readValue (n + 1)) ('[' :: '\n' :: ([',', '\n'].intercalate texts ++ (gap ++ [']']))) (.array elements) := by
  intro before rest hbefore _
  simp only [List.cons_append, List.append_assoc, List.nil_append]
  rw [readValue_array hbefore, readList_intercalate (.inl rfl) h hne hgap]
  rfl

theorem Reads.object {members : List (String × Json)}
    (h : List.Forall₂ (Reads (readMember (readValue n))) texts members) :
    Reads (readValue (n + 1)) ('\x7b' :: '\n' :: ([',', '\n'].intercalate texts ++ (gap ++ ['\x7d'])))
      (.object members) := by
  intro before rest hbefore _
  simp only [List.cons_append, List.append_assoc, List.nil_append]
  rw [readValue_object hbefore, readList_intercalate (.inr rfl) h hne hgap]
  rfl

end

/-- Nothing stands between the brackets. -/
theorem readList_empty {item : List Char → Option (α × List Char)} {close : Char} {rest : List Char}
    (hspace : isSpace close = false) (hitem : item (close :: rest) = none) :
    readList item close (close :: rest) = some ([], rest) := by
  have hclose : readChar close (close :: rest) = some rest := readChar_append (List.forall_mem_nil _) hspace rest
  rw [readList, List.length_cons, readItems, hitem, hclose]
  rfl

theorem reads_emptyArray (n : Nat) : Reads (readValue (n + 1)) ['[', ']'] (.array []) := by
  intro gap rest hgap _
  have hitem : readValue n (']' :: rest) = none := by
    cases n with
    | zero => rfl
    | succ n =>
      rw [readValue, List.dropWhile_cons_of_neg (by decide)]
      rfl
  simp only [List.cons_append, List.nil_append]
  rw [readValue_array hgap, readList_empty rfl hitem]
  rfl

theorem reads_emptyObject (n : Nat) : Reads (readValue (n + 1)) ['\x7b', '\x7d'] (.object []) := by
  intro gap rest hgap _
  have hquote : readChar '"' ('\x7d' :: rest) = none := readChar_of_ne (List.forall_mem_nil _) rfl (by decide) rest
  have hitem : readMember (readValue n) ('\x7d' :: rest) = none := by
    rw [readMember, hquote]
    rfl
  simp only [List.cons_append, List.nil_append]
  rw [readValue_object hgap, readList_empty rfl hitem]
  rfl

/-! ### Printed values -/

/-- The strings and names in a value need no escapes. -/
inductive Unescaped : Json → Prop
  | number (value : Int32) : Unescaped (.number value)
  | string {text : String} : (∀ c ∈ text.toList, isPlain c) → Unescaped (.string text)
  | array {elements : List Json} : (∀ v ∈ elements, Unescaped v) → Unescaped (.array elements)
  | object {members : List (String × Json)} : (∀ m ∈ members, ∀ c ∈ m.1.toList, isPlain c) →
      (∀ m ∈ members, Unescaped m.2) → Unescaped (.object members)

/-- Documents of such values are read as what was printed, also if space follows. -/
def ReadsBack (print : Json → String) : Prop :=
  ∀ v : Json, v.Unescaped → ∀ gap : String, (∀ c ∈ gap.toList, isSpace c) → read (print v ++ gap) = some v

theorem isSpace_indent (depth : Nat) : ∀ c ∈ (indent depth).toList, isSpace c := by
  intro c hc
  rw [indent, String.toList_ofList] at hc
  rw [List.eq_of_mem_replicate hc]
  rfl

theorem isSpace_newLine (depth : Nat) : ∀ c ∈ '\n' :: (indent depth).toList, isSpace c :=
  List.forall_mem_cons.2 ⟨rfl, isSpace_indent depth⟩

/-- Items that can be read can be read on lines of their own. -/
theorem Reads.indented {item : List Char → Option (α × List Char)} {text : α → String} {xs : List α}
    (h : ∀ x ∈ xs, Reads item (text x).toList x) (depth : Nat) :
    List.Forall₂ (Reads item) ((xs.map text).map fun t => (indent depth ++ t).toList) xs := by
  rw [List.map_map, List.forall₂_map_left_iff, List.forall₂_same]
  intro x hx
  rw [Function.comp_apply, String.toList_append]
  exact (h x hx).space_append (isSpace_indent depth)

theorem length_le_intercalate_of_mem {text : List Char} {texts : List (List Char)} (h : text ∈ texts) :
    text.length ≤ ([',', '\n'].intercalate texts).length := by
  induction texts with
  | nil => cases h
  | cons head texts ih =>
    cases texts with
    | nil =>
      rw [List.mem_singleton] at h
      rw [h, List.intercalate_singleton]
    | cons next texts =>
      rw [List.intercalate_cons_cons]
      simp only [List.length_append]
      rcases List.mem_cons.1 h with rfl | h
      · omega
      · have := ih h
        omega

section

variable {items : List String} (opening closing : String) (depth : Nat)

theorem toList_enclose_nil : (enclose opening closing depth []).toList = opening.toList ++ closing.toList :=
  String.toList_append

theorem toList_enclose (hne : items ≠ []) : (enclose opening closing depth items).toList =
    opening.toList ++ '\n' :: ([',', '\n'].intercalate (items.map fun item => (indent (depth + 1) ++ item).toList) ++
      (('\n' :: (indent depth).toList) ++ closing.toList)) := by
  cases items with
  | nil => exact absurd rfl hne
  | cons item items =>
    show (opening ++ "\n" ++ ",\n".intercalate ((item :: items).map (indent (depth + 1) ++ ·)) ++ "\n" ++
      indent depth ++ closing).toList = _
    rw [String.toList_append, String.toList_append, String.toList_append, String.toList_append, String.toList_append,
      String.toList_intercalate, List.map_map]
    simp only [List.append_assoc]
    rfl

/-- An item is shorter than the list in which it stands. -/
theorem length_lt_enclose {item : String} (h : item ∈ items) :
    item.length < (enclose opening closing depth items).length := by
  have hmem : (indent (depth + 1) ++ item).toList ∈ items.map fun item => (indent (depth + 1) ++ item).toList :=
    List.mem_map_of_mem h
  have hle := length_le_intercalate_of_mem hmem
  rw [← String.length_toList, ← String.length_toList, toList_enclose opening closing depth (List.ne_nil_of_mem h)]
  simp only [String.toList_append, List.length_append, List.length_cons] at hle ⊢
  omega

end

/-- A printed value is read wherever it stands. -/
theorem reads_write {v : Json} (h : v.Unescaped) (depth : Nat) {n : Nat} (hn : (v.write depth).length ≤ n) :
    Reads (readValue (n + 1)) (v.write depth).toList v := by
  induction h generalizing depth n with
  | number value =>
    rw [write]
    exact reads_number value n
  | @string text htext =>
    rw [write, quote]
    simpa using reads_string htext n
  | @array elements _ ih =>
    rw [write] at hn ⊢
    by_cases hne : elements = []
    · rw [hne, List.map_nil, toList_enclose_nil]
      exact reads_emptyArray n
    · have hitems : ∀ v ∈ elements, Reads (readValue n) (v.write (depth + 1)).toList v := by
        intro v hv
        have hlt := length_lt_enclose "[" "]" depth (List.mem_map_of_mem (f := fun v => v.write (depth + 1)) hv)
        obtain ⟨m, rfl⟩ : ∃ m, n = m + 1 := ⟨n - 1, by omega⟩
        exact ih v hv (depth + 1) (by omega)
      rw [toList_enclose "[" "]" depth (by simpa using hne)]
      exact Reads.array (by simpa using hne) (isSpace_newLine depth) (Reads.indented hitems (depth + 1))
  | @object members hnames _ ih =>
    rw [write] at hn ⊢
    by_cases hne : members = []
    · rw [hne, List.map_nil, toList_enclose_nil]
      exact reads_emptyObject n
    · have hitems : ∀ m ∈ members,
          Reads (readMember (readValue n)) (quote m.1 ++ ": " ++ m.2.write (depth + 1)).toList m := by
        intro m hm
        have hlt := length_lt_enclose "\x7b" "\x7d" depth
          (List.mem_map_of_mem (f := fun m => quote m.1 ++ ": " ++ m.2.write (depth + 1)) hm)
        rw [String.length_append] at hlt
        obtain ⟨k, rfl⟩ : ∃ k, n = k + 1 := ⟨n - 1, by omega⟩
        simpa [quote] using reads_member (hnames m hm) (ih m hm (depth + 1) (by omega))
      rw [toList_enclose "\x7b" "\x7d" depth (by simpa using hne)]
      exact Reads.object (by simpa using hne) (isSpace_newLine depth) (Reads.indented hitems (depth + 1))

theorem readsBack_pretty : ReadsBack pretty := by
  intro v hv gap hgap
  have hlength : (v.write 0).length ≤ (pretty v ++ gap).length := by
    rw [String.length_append, pretty]
    exact Nat.le_add_right _ _
  have hnext : NoneFollows isNumeral gap.toList := by
    intro c hc
    exact isNumeral_of_isSpace (hgap c (List.mem_of_mem_head? hc))
  have hread := reads_write hv 0 hlength [] gap.toList (List.forall_mem_nil _) hnext
  rw [List.nil_append, ← String.toList_append] at hread
  rw [read]
  simp only [pretty] at hread ⊢
  simp only [hread, Option.bind_eq_bind, Option.bind_some, Option.pure_def]
  rw [if_pos (List.all_eq_true.2 hgap)]

end Json

end PL0
