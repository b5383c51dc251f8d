import PL0.Event
import PL0.Proofs.Rendering.Lines

/-!
# Messages of a log

A log is a sequence of messages.  They can be read again: a message about the code is a row with an instruction, or it
tells the target of a jump (`Change.read`); a message about a declaration has everything that belongs to a symbol
(`readDeclaration`); and the other ones that matter here tell that the body of a procedure is entered or left (`nest`).
The name of a procedure or of a symbol may be any text, so it is what remains of a message without its known parts.
-/

namespace PL0

/-! ### Texts without their known parts -/

section

variable (a b : List Char)

theorem dropPrefix?_append : (a ++ b).dropPrefix? a = some b :=
  List.dropPrefix?_eq_some_iff.2 ⟨a, rfl, BEq.rfl⟩

theorem dropSuffix?_append : (a ++ b).dropSuffix? b = some a :=
  List.dropSuffix?_eq_some_iff.2 ⟨b, rfl, BEq.rfl⟩

theorem dropPrefix?_of_ne {c d : Char} (h : c ≠ d) : (c :: a).dropPrefix? (d :: b) = none := by
  simp [List.dropPrefix?, h]

end

/-! ### Numbers and words -/

section

variable (n : Nat)

theorem toList_zeroPadded :
    (zeroPadded n).toList = List.replicate (4 - n.repr.toList.length) '0' ++ Nat.toDigits 10 n := by
  simp [zeroPadded, padLeft, List.leftpad]

theorem isDigit_zeroPadded : ∀ c ∈ (zeroPadded n).toList, c.isDigit := by
  intro c hc
  rw [toList_zeroPadded, List.mem_append] at hc
  rcases hc with hc | hc
  · rw [List.eq_of_mem_replicate hc]
    rfl
  · exact isDigit_toDigits c hc

theorem isUnbroken_zeroPadded : IsUnbroken (zeroPadded n).toList := by
  refine ⟨?_, fun c hc => isBlank_of_isAlphanum ?_⟩
  · rw [toList_zeroPadded]
    exact List.append_ne_nil_of_right_ne_nil _ Nat.toDigits_ne_nil
  · simp [Char.isAlphanum, isDigit_zeroPadded n c hc]

/-- Zeros in front do not matter. -/
theorem readAddress_zeroPadded : readAddress (zeroPadded n) = some n := by
  have h := readAddress_of_digits (isUnbroken_zeroPadded n).1 (isDigit_zeroPadded n)
  rw [String.ofList_toList, toList_zeroPadded, Nat.ofDigitChars_append, Nat.ofDigitChars_replicate_zero, Nat.mul_zero,
    Nat.ofDigitChars_ten_toDigits] at h
  exact h

end

/-! ### Code -/

/-- What a message says of the code: an instruction was appended, or the target of a jump was filled in. -/
inductive Change where
  | append (address : Nat) (ins : Instruction)
  | patch (address : Nat) (op : Opcode) (target : Nat)

namespace Change

/-- Reads the words of a message about a target. -/
def readPatch : List String → Option Change
  | ["patch", address, mnemonic, "->", target] => do
    return .patch (← readAddress address) (← Opcode.ofMnemonic? mnemonic) (← readAddress target)
  | _ => none

/-- Reads a message, which is a row with an instruction or is about a target. -/
def read (message : String) : Option Change :=
  match readRow message.toList with
  | some (address, ins) => some (.append address ins)
  | none => readPatch (words message.toList)

/-- Does what the message says.  An instruction is appended at the end of the code, and a target is filled in where the
operation is the one that the message names. -/
def apply (code : Array Instruction) : Change → Option (Array Instruction)
  | .append address ins => if address = code.size then some (code.push ins) else none
  | .patch address op target => do
    let ins ← code[address]?
    if ins.op = op then some (code.modify address fun ins => { ins with m := Int32.ofNat target }) else none

end Change

/-- Goes on from the code before a message. -/
def rebuild (code : Array Instruction) (message : String) : Option (Array Instruction) :=
  (Change.read message).bind (Change.apply code)

section

variable {code : Array Instruction}

theorem rebuild_emission (ins : Instruction) : rebuild code (emissionText code.size ins) = some (code.push ins) := by
  have htext : emissionText code.size ins = " ".intercalate
      [zeroPadded code.size, ins.op.mnemonic, decimal32 ins.r, decimal32 ins.l, decimal32 ins.m] := by
    simp [emissionText, Instruction.fields, ← String.toList_inj]
  have hrow : readRow (emissionText code.size ins).toList = some (code.size, ins) := by
    refine readRow_of_words ?_ (readAddress_zeroPadded code.size)
    rw [htext, words_intercalate]
    simp [isUnbroken_zeroPadded, isUnbroken_decimal32, ins.op.isUnbroken_mnemonic]
  rw [rebuild, Change.read, hrow]
  exact if_pos rfl

theorem rebuild_patch {address : Nat} {ins : Instruction} (h : code[address]? = some ins) (target : Nat) :
    rebuild code (Event.text (.jumpClosed address ins.op target)) =
      some (code.modify address fun ins => { ins with m := Int32.ofNat target }) := by
  have htext : Event.text (.jumpClosed address ins.op target) =
      " ".intercalate ["patch", zeroPadded address, ins.op.mnemonic, "->", zeroPadded target] := by
    show "patch " ++ zeroPadded address ++ " " ++ ins.op.mnemonic ++ " -> " ++ zeroPadded target = _
    simp [← String.toList_inj]
  have hwords : words (Event.text (.jumpClosed address ins.op target)).toList =
      ["patch", zeroPadded address, ins.op.mnemonic, "->", zeroPadded target] := by
    have hpatch : IsUnbroken "patch".toList := by decide
    have harrow : IsUnbroken "->".toList := by decide
    rw [htext, words_intercalate]
    simp only [List.forall_mem_cons, List.not_mem_nil, false_implies, implies_true, isUnbroken_zeroPadded,
      ins.op.isUnbroken_mnemonic, hpatch, harrow, and_self]
  have hrow : readRow (Event.text (.jumpClosed address ins.op target)).toList = none := by
    rw [readRow, hwords]
    rfl
  have hread : Change.read (Event.text (.jumpClosed address ins.op target)) = some (.patch address ins.op target) := by
    simp only [Change.read, hrow, hwords, Change.readPatch, readAddress_zeroPadded, Opcode.ofMnemonic?_mnemonic]
    rfl
  rw [rebuild, hread, Option.bind_some, Change.apply, h]
  exact if_pos rfl

end

/-! ### Bodies -/

/-- Goes on from the bodies that are open before a message, of which the innermost one comes first.  A body is entered
on the level of its nesting, and only the innermost body is left. -/
def nest (bodies : List String) (message : String) : Option (List String) :=
  match message.toList.dropPrefix? "enter ".toList, message.toList.dropPrefix? "leave ".toList with
  | some rest, _ => do
    let name ← rest.dropSuffix? (" at level " ++ (bodies.length + 1).repr).toList
    return String.ofList name :: bodies
  | none, some name => if bodies.head? = some (String.ofList name) then some bodies.tail else none
  | none, none => some bodies

theorem toList_entered (name : String) (level : Nat) : (Event.text (.entered name level)).toList =
    "enter ".toList ++ (name.toList ++ (" at level " ++ level.repr).toList) := by
  show ("enter " ++ name ++ " at level " ++ level.repr).toList = _
  simp only [String.toList_append, List.append_assoc]

theorem toList_left (name : String) : (Event.text (.left name)).toList = "leave ".toList ++ name.toList := by
  show ("leave " ++ name).toList = _
  rw [String.toList_append]

theorem nest_entered (bodies : List String) (name : String) :
    nest bodies (Event.text (.entered name (bodies.length + 1))) = some (name :: bodies) := by
  rw [nest, toList_entered, dropPrefix?_append]
  simp only [dropSuffix?_append, Option.bind_eq_bind, Option.bind_some, Option.pure_def, String.ofList_toList]

theorem nest_left (bodies : List String) (name : String) :
    nest (name :: bodies) (Event.text (.left name)) = some bodies := by
  have henter : (Event.text (.left name)).toList.dropPrefix? "enter ".toList = none := by
    rw [toList_left]
    exact dropPrefix?_of_ne _ _ (by decide)
  rw [nest, henter, toList_left, dropPrefix?_append]
  simp only [String.ofList_toList, List.head?_cons, if_true, List.tail_cons]

/-! ### Declarations -/

/-- The word for a kind. -/
def SymbolKind.title : SymbolKind → String
  | .const _ => "Const"
  | .var _ => "Var"
  | .proc _ => "Proc"

/-- The word for what the value of a kind is. -/
def SymbolKind.label : SymbolKind → String
  | .const _ => "value:"
  | .var _ => "address:"
  | .proc _ => "address:"

def SymbolKind.ofWords? (title label : String) (value : Int32) : Option SymbolKind :=
  [SymbolKind.const value, .var value, .proc value].find? fun kind => kind.title = title ∧ kind.label = label

def readScope (word : String) : Option Scope :=
  if word = "None" then some none
  else do
    let rest ← word.toList.dropPrefix? "Some(SymbolId(".toList
    let digits ← rest.dropSuffix? "))".toList
    return some (← readAddress (String.ofList digits))

/-- What follows the name in a message about a declaration. -/
def declarationEnd (kind : SymbolKind) (level : Nat) (scope : Scope) : String :=
  " " ++ kind.text ++ " at level " ++ level.repr ++ " in scope " ++ scopeText scope

/-- Reads the last eleven words, which do not depend on the name, and then the name. -/
def readDeclaration (text : List Char) : Option Symbol :=
  match (words text).reverse with
  | scope :: w₁ :: w₂ :: level :: w₃ :: w₄ :: w₅ :: value :: label :: w₆ :: title :: _ =>
    if [w₆, w₅, w₄, w₃, w₂, w₁] = ["\x7b", "\x7d", "at", "level", "in", "scope"] then do
      let kind ← SymbolKind.ofWords? title label (← readInteger value)
      let level ← readAddress level
      let scope ← readScope scope
      let name ← text.dropSuffix? (declarationEnd kind level scope).toList
      return ⟨String.ofList name, kind, level, scope⟩
    else none
  | _ => none

/-- Goes on from the symbols that are declared before a message. -/
def declareMore (symbols : Array Symbol) (message : String) : Option (Array Symbol) :=
  match message.toList.dropPrefix? "declare ".toList with
  | some rest => (readDeclaration rest).map symbols.push
  | none => some symbols

theorem SymbolKind.ofWords?_title (kind : SymbolKind) :
    SymbolKind.ofWords? kind.title kind.label kind.value = some kind := by
  cases kind <;> rfl

theorem SymbolKind.isUnbroken_words (kind : SymbolKind) :
    IsUnbroken kind.title.toList ∧ IsUnbroken kind.label.toList := by
  cases kind with
  | const _ => exact ⟨show IsUnbroken "Const".toList by decide, show IsUnbroken "value:".toList by decide⟩
  | var _ => exact ⟨show IsUnbroken "Var".toList by decide, show IsUnbroken "address:".toList by decide⟩
  | proc _ => exact ⟨show IsUnbroken "Proc".toList by decide, show IsUnbroken "address:".toList by decide⟩

theorem SymbolKind.text_eq (kind : SymbolKind) :
    kind.text = " ".intercalate [kind.title, "\x7b", kind.label, decimal32 kind.value, "\x7d"] := by
  cases kind with
  | const value =>
    show "Const \x7b value: " ++ decimal32 value ++ " \x7d" =
      " ".intercalate ["Const", "\x7b", "value:", decimal32 value, "\x7d"]
    simp [← String.toList_inj]
  | var address =>
    show "Var \x7b address: " ++ decimal32 address ++ " \x7d" =
      " ".intercalate ["Var", "\x7b", "address:", decimal32 address, "\x7d"]
    simp [← String.toList_inj]
  | proc address =>
    show "Proc \x7b address: " ++ decimal32 address ++ " \x7d" =
      " ".intercalate ["Proc", "\x7b", "address:", decimal32 address, "\x7d"]
    simp [← String.toList_inj]

theorem toList_scopeText (id : Nat) :
    (scopeText (some id)).toList = "Some(SymbolId(".toList ++ (id.repr.toList ++ "))".toList) := by
  show ("Some(SymbolId(" ++ id.repr ++ "))").toList = _
  rw [String.toList_append, String.toList_append, List.append_assoc]

theorem readScope_scopeText (scope : Scope) : readScope (scopeText scope) = some scope := by
  cases scope with
  | none => rfl
  | some id =>
    have hne : scopeText (some id) ≠ "None" := by
      rw [Ne, ← String.toList_inj, toList_scopeText]
      simp
    rw [readScope, if_neg hne, toList_scopeText, dropPrefix?_append]
    simp only [Option.bind_eq_bind, Option.bind_some, dropSuffix?_append, String.ofList_toList, readAddress_repr,
      Option.pure_def]

theorem isUnbroken_scopeText (scope : Scope) : IsUnbroken (scopeText scope).toList := by
  cases scope with
  | none =>
    show IsUnbroken "None".toList
    decide
  | some id =>
    have hbefore : ∀ c ∈ "Some(SymbolId(".toList, isBlank c = false := by decide
    have hafter : ∀ c ∈ "))".toList, isBlank c = false := by decide
    rw [toList_scopeText]
    refine ⟨by simp, fun c hc => ?_⟩
    rcases List.mem_append.1 hc with hc | hc
    · exact hbefore c hc
    · rcases List.mem_append.1 hc with hc | hc
      · exact (isUnbroken_repr id).2 c hc
      · exact hafter c hc

section

variable (kind : SymbolKind) (level : Nat) (scope : Scope)

theorem declarationEnd_eq : declarationEnd kind level scope = " " ++ " ".intercalate
    [kind.title, "\x7b", kind.label, decimal32 kind.value, "\x7d", "at", "level", level.repr, "in", "scope",
      scopeText scope] := by
  show " " ++ kind.text ++ " at level " ++ level.repr ++ " in scope " ++ scopeText scope = _
  rw [SymbolKind.text_eq]
  simp [← String.toList_inj]

/-- Whatever the name is, its words come before those of what follows it. -/
theorem words_declaration (name : List Char) :
    words (name ++ (declarationEnd kind level scope).toList) = words name ++
      [kind.title, "\x7b", kind.label, decimal32 kind.value, "\x7d", "at", "level", level.repr, "in", "scope",
        scopeText scope] := by
  have hkind := kind.isUnbroken_words
  have hfixed : ∀ word ∈ ["\x7b", "\x7d", "at", "level", "in", "scope"], IsUnbroken word.toList := by decide
  simp only [List.forall_mem_cons] at hfixed
  rw [declarationEnd_eq, String.toList_append, ← List.append_assoc, words_append_blankRun (by decide),
    words_intercalate]
  simp only [List.forall_mem_cons, List.not_mem_nil, false_implies, implies_true, hkind, hfixed, isUnbroken_decimal32,
    isUnbroken_repr, isUnbroken_scopeText, and_self]

theorem readDeclaration_append (name : String) :
    readDeclaration (name.toList ++ (declarationEnd kind level scope).toList) = some ⟨name, kind, level, scope⟩ := by
  rw [readDeclaration, words_declaration, List.reverse_append]
  simp only [List.reverse_cons, List.reverse_nil, List.nil_append, List.cons_append, if_true, readInteger_decimal32,
    SymbolKind.ofWords?_title, readAddress_repr, readScope_scopeText, dropSuffix?_append, Option.bind_eq_bind,
    Option.bind_some, Option.pure_def, String.ofList_toList]

end

section

variable (s : Symbol)

theorem toList_declared : (Event.text (.declared s)).toList =
    "declare ".toList ++ (s.name.toList ++ (declarationEnd s.kind s.level s.scope).toList) := by
  show ("declare " ++ s.name ++ " " ++ s.kind.text ++ " at level " ++ s.level.repr ++ " in scope " ++
    scopeText s.scope).toList = _
  simp only [declarationEnd, String.toList_append, List.append_assoc]

theorem declareMore_declared (symbols : Array Symbol) :
    declareMore symbols (Event.text (.declared s)) = some (symbols.push s) := by
  rw [declareMore, toList_declared, dropPrefix?_append]
  show (readDeclaration _).map symbols.push = _
  rw [readDeclaration_append]
  rfl

theorem nest_declared (bodies : List String) : nest bodies (Event.text (.declared s)) = some bodies := by
  have henter : (Event.text (.declared s)).toList.dropPrefix? "enter ".toList = none := by
    rw [toList_declared]
    exact dropPrefix?_of_ne _ _ (by decide)
  have hleave : (Event.text (.declared s)).toList.dropPrefix? "leave ".toList = none := by
    rw [toList_declared]
    exact dropPrefix?_of_ne _ _ (by decide)
  rw [nest, henter, hleave]

end

section

variable (symbols : Array Symbol) (name : String)

theorem declareMore_entered (level : Nat) : declareMore symbols (Event.text (.entered name level)) = some symbols := by
  have hdeclare : (Event.text (.entered name level)).toList.dropPrefix? "declare ".toList = none := by
    rw [toList_entered]
    exact dropPrefix?_of_ne _ _ (by decide)
  rw [declareMore, hdeclare]

theorem declareMore_left : declareMore symbols (Event.text (.left name)) = some symbols := by
  have hdeclare : (Event.text (.left name)).toList.dropPrefix? "declare ".toList = none := by
    rw [toList_left]
    exact dropPrefix?_of_ne _ _ (by decide)
  rw [declareMore, hdeclare]

end

end PL0
