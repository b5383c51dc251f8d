import Mathlib.Data.List.Zip
import PL0.Rendering
import PL0.Proofs.Text.Decimal

/-!
# Programs in lines

The code and the listing of a program have one line for each instruction.  They can be read line by line: a line of the
code as four integers (`Instruction.ofCodeLine?`), a line of the listing as an address, a mnemonic and three integers
with blanks between them (`readRow`).  Whatever is in the fields, and however wide they are, this gives the instructions
again (`ofCode?_code`, `ofListing?_listing`).
-/

namespace PL0

/-! ### Lines -/

/-- The lines of a text.  The last one may do without a line break. -/
def linesOf : List Char → List (List Char)
  | [] => []
  | c :: cs =>
    if c = '\n' then [] :: linesOf cs
    else match linesOf cs with
      | [] => [[c]]
      | line :: lines => (c :: line) :: lines

theorem linesOf_append {line : List Char} (h : '\n' ∉ line) (rest : List Char) :
    linesOf (line ++ '\n' :: rest) = line :: linesOf rest := by
  induction line with
  | nil => simp [linesOf]
  | cons c line ih =>
    rw [List.mem_cons, not_or] at h
    rw [List.cons_append, linesOf, if_neg (Ne.symm h.1), ih h.2]

theorem linesOf_unlines {lines : List String} (h : ∀ line ∈ lines, '\n' ∉ line.toList) :
    linesOf (unlines lines).toList = lines.map String.toList := by
  rw [unlines, String.toList_join, List.flatMap_map]
  induction lines with
  | nil => rfl
  | cons line lines ih =>
    have hline : (line ++ "\n").toList = line.toList ++ ['\n'] := by simp
    rw [List.flatMap_cons, hline, List.append_assoc, List.singleton_append, linesOf_append (h line (by simp)),
      ih fun l hl => h l (by simp [hl])]
    rfl

theorem IsUnbroken.newline_notMem {piece : List Char} (h : IsUnbroken piece) : '\n' ∉ piece := by
  intro hmem
  have := h.2 _ hmem
  cases this

/-! ### Readers -/

def readInteger (word : String) : Option Int32 :=
  (readInt32 word.toList).toOption

/-- Reads an address, which is written in digits only. -/
def readAddress (word : String) : Option Nat :=
  if word.toList ≠ [] ∧ ∀ c ∈ word.toList, c.isDigit then some (Nat.ofDigitChars 10 word.toList 0) else none

/-- The operation with a given number. -/
def Opcode.ofCode? (code : Int32) : Option Opcode :=
  Opcode.all.find? fun op => Int32.ofNat op.code = code

/-- Reads a line as the number of an operation and three fields. -/
def Instruction.ofCodeLine? (line : List Char) : Option Instruction :=
  match words line with
  | [code, r, l, m] => do
    return ⟨← Opcode.ofCode? (← readInteger code), ← readInteger r, ← readInteger l, ← readInteger m⟩
  | _ => none

/-- Reads a line as an address and an instruction with its mnemonic. -/
def readRow (line : List Char) : Option (Nat × Instruction) :=
  match words line with
  | [address, mnemonic, r, l, m] => do
    return (← readAddress address,
      ⟨← Opcode.ofMnemonic? mnemonic, ← readInteger r, ← readInteger l, ← readInteger m⟩)
  | _ => none

/-- Reads a program from its code. -/
def Program.ofCode? (text : String) : Option Program := do
  return ⟨(← (linesOf text.toList).mapM Instruction.ofCodeLine?).toArray⟩

/-- Reads the rows of a listing. -/
def readListing (text : String) : Option (List (Nat × Instruction)) :=
  (linesOf text.toList).mapM readRow

/-- Reads a program from its listing, where the rows have to be numbered from zero. -/
def Program.ofListing? (text : String) : Option Program := do
  let rows ← readListing text
  if rows.map Prod.fst = List.range rows.length then return ⟨(rows.map Prod.snd).toArray⟩ else none

/-! ### Words are read back -/

theorem readInteger_decimal32 (v : Int32) : readInteger (decimal32 v) = some v := by
  rw [readInteger, readInt32_decimal32]
  rfl

theorem readAddress_of_digits {digits : List Char} (hne : digits ≠ []) (hdigits : ∀ c ∈ digits, c.isDigit) :
    readAddress (String.ofList digits) = some (Nat.ofDigitChars 10 digits 0) := by
  rw [readAddress, String.toList_ofList, if_pos ⟨hne, hdigits⟩]

theorem readAddress_repr (n : Nat) : readAddress n.repr = some n := by
  have h := readAddress_of_digits Nat.toDigits_ne_nil (isDigit_toDigits (n := n))
  rwa [Nat.ofDigitChars_ten_toDigits, ← Nat.toList_repr, String.ofList_toList] at h

theorem Opcode.ofCode?_code (op : Opcode) : Opcode.ofCode? (Int32.ofNat op.code) = some op := by
  cases op <;> rfl

theorem Opcode.ofMnemonic?_mnemonic (op : Opcode) : Opcode.ofMnemonic? op.mnemonic = some op := by
  cases op <;> rfl

/-- The number of an operation is written as an integer with 32 bits is. -/
theorem Opcode.repr_code (op : Opcode) : op.code.repr = decimal32 (Int32.ofNat op.code) := by
  cases op <;> rfl

theorem Opcode.isUnbroken_mnemonic (op : Opcode) : IsUnbroken op.mnemonic.toList := by
  cases op <;> decide

theorem words_fields (ins : Instruction) :
    words ins.fields.toList = [decimal32 ins.r, decimal32 ins.l, decimal32 ins.m] := by
  have htext : ins.fields = " ".intercalate [decimal32 ins.r, decimal32 ins.l, decimal32 ins.m] := by
    simp [Instruction.fields, ← String.toList_inj]
  rw [htext, words_intercalate]
  simp [isUnbroken_decimal32]

theorem newline_notMem_fields (ins : Instruction) : '\n' ∉ ins.fields.toList := by
  simp [Instruction.fields, (isUnbroken_decimal32 _).newline_notMem]

/-- A row with the mnemonic and the fields of an instruction is read as this instruction. -/
theorem readRow_of_words {line : List Char} {word : String} {address : Nat} {ins : Instruction}
    (hline : words line = [word, ins.op.mnemonic, decimal32 ins.r, decimal32 ins.l, decimal32 ins.m])
    (hword : readAddress word = some address) : readRow line = some (address, ins) := by
  simp only [readRow, hline, hword, Opcode.ofMnemonic?_mnemonic, readInteger_decimal32]
  rfl

/-! ### Code -/

theorem newline_notMem_text (ins : Instruction) : '\n' ∉ ins.text.toList := by
  have hcode : '\n' ∉ (decimal32 (Int32.ofNat ins.op.code)).toList := (isUnbroken_decimal32 _).newline_notMem
  simp [Instruction.text, Opcode.repr_code, hcode, newline_notMem_fields]

theorem ofCodeLine?_text (ins : Instruction) : Instruction.ofCodeLine? ins.text.toList = some ins := by
  have hwords : words ins.text.toList =
      [decimal32 (Int32.ofNat ins.op.code), decimal32 ins.r, decimal32 ins.l, decimal32 ins.m] := by
    rw [Instruction.text, Opcode.repr_code, String.toList_append, String.toList_append,
      words_append_blankRun (by decide), words_of_unbroken (isUnbroken_decimal32 _), words_fields, String.ofList_toList]
    rfl
  simp only [Instruction.ofCodeLine?, hwords, readInteger_decimal32]
  show (Opcode.ofCode? (Int32.ofNat ins.op.code) >>= fun op => some (⟨op, ins.r, ins.l, ins.m⟩ : Instruction)) = _
  rw [Opcode.ofCode?_code]
  rfl

theorem mapM_map_eq_some {α β γ : Type} {f : β → Option γ} {g : α → β} {h : α → γ}
    (hf : ∀ a, f (g a) = some (h a)) (list : List α) : (list.map g).mapM f = some (list.map h) := by
  have hcomp : f ∘ g = fun a => pure (h a) := funext hf
  rw [List.mapM_map, hcomp, List.mapM_pure]
  rfl

theorem linesOf_code (program : Program) :
    linesOf program.code.toList = program.instructions.toList.map fun ins => ins.text.toList := by
  rw [Program.code, linesOf_unlines, List.map_map]
  · rfl
  · intro line hline
    obtain ⟨ins, -, rfl⟩ := List.mem_map.1 hline
    exact newline_notMem_text ins

theorem ofCode?_code (program : Program) : Program.ofCode? program.code = some program := by
  rw [Program.ofCode?, linesOf_code, mapM_map_eq_some ofCodeLine?_text]
  simp

/-! ### Listings -/

/-- A piece of text, blanks, and more text. -/
theorem words_piece {piece gap : List Char} (hpiece : IsUnbroken piece) (hgap : IsBlankRun gap) (text : List Char) :
    words (piece ++ (gap ++ text)) = String.ofList piece :: words text := by
  rw [← List.append_assoc, words_append_blankRun hgap, words_of_unbroken hpiece]
  rfl

section

variable (ins : Instruction) (address : Nat)

theorem toList_listingLine : (Program.listingLine ins address).toList =
    List.replicate (4 - address.repr.toList.length) ' ' ++ (address.repr.toList ++ ("  ".toList ++
      (ins.op.mnemonic.toList ++ ((List.replicate (9 - ins.op.mnemonic.toList.length) ' ' ++ [' ']) ++
        ins.fields.toList)))) := by
  simp [Program.listingLine, padLeft, padRight, List.leftpad, List.rightpad]

theorem isUnbroken_repr : IsUnbroken address.repr.toList := by
  rw [Nat.toList_repr]
  exact isUnbroken_toDigits address

theorem newline_notMem_listingLine : '\n' ∉ (Program.listingLine ins address).toList := by
  simp [toList_listingLine, (isUnbroken_toDigits address).newline_notMem, ins.op.isUnbroken_mnemonic.newline_notMem,
    newline_notMem_fields]

/-- Also a wide address and a wide mnemonic are followed by a blank. -/
theorem readRow_listingLine : readRow (Program.listingLine ins address).toList = some (address, ins) := by
  have hleft : ∀ c ∈ List.replicate (4 - address.repr.toList.length) ' ', isBlank c := by
    intro c hc
    rw [List.eq_of_mem_replicate hc]
    rfl
  have hright : IsBlankRun (List.replicate (9 - ins.op.mnemonic.toList.length) ' ' ++ [' ']) := by
    refine ⟨by simp, fun c hc => ?_⟩
    have hc : c = ' ' := by
      simp only [List.mem_append, List.mem_replicate, List.mem_singleton] at hc
      rcases hc with ⟨-, hc⟩ | hc <;> exact hc
    rw [hc]
    rfl
  refine readRow_of_words ?_ (readAddress_repr address)
  rw [toList_listingLine, words_blanks_append hleft, words_piece (isUnbroken_repr address) (by decide),
    words_piece ins.op.isUnbroken_mnemonic hright, words_fields, String.ofList_toList, String.ofList_toList]

end

theorem linesOf_listing (program : Program) :
    linesOf program.listing.toList =
      program.instructions.toList.zipIdx.map fun row => (Program.listingLine row.1 row.2).toList := by
  rw [Program.listing, linesOf_unlines, Program.listingLines, List.map_map]
  · rfl
  · intro line hline
    obtain ⟨row, -, rfl⟩ := List.mem_map.1 hline
    exact newline_notMem_listingLine row.1 row.2

theorem readListing_listing (program : Program) :
    readListing program.listing = some ((List.range program.size).zip program.instructions.toList) := by
  have hrow : ∀ row : Instruction × Nat, readRow (Program.listingLine row.1 row.2).toList = some row.swap :=
    fun row => readRow_listingLine row.1 row.2
  rw [readListing, linesOf_listing, mapM_map_eq_some hrow, List.zipIdx_eq_zip_range', List.zip_swap,
    Array.length_toList, ← List.range_eq_range']
  rfl

theorem ofListing?_listing (program : Program) : Program.ofListing? program.listing = some program := by
  have hlength : (List.range program.size).length = program.instructions.toList.length := by
    rw [List.length_range, Array.length_toList, Program.size]
  rw [Program.ofListing?, readListing_listing]
  simp [List.map_fst_zip, List.map_snd_zip, ← hlength]

end PL0
