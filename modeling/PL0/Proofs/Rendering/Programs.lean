import PL0.Proofs.Rendering.Json

/-!
# Programs are read back

The three written forms of a program can be read: code and listing line by line, and the JSON document of a printer
whose documents are read back (`Program.read?_render`).  So the forms say the same, and each of them determines the
program.
-/

namespace PL0

/-! ### JSON -/

namespace Json

def member? (name : String) : Json → Option Json
  | .object members => members.lookup name
  | _ => none

def text? : Json → Option String
  | .string text => some text
  | _ => none

def integer? : Json → Option Int32
  | .number value => some value
  | _ => none

def elements? : Json → Option (List Json)
  | .array elements => some elements
  | _ => none

end Json

/-- The instruction of an object.  Mnemonic and number have to be those of one operation. -/
def Instruction.ofJson? (json : Json) : Option Instruction := do
  let op ← Opcode.ofMnemonic? (← (← json.member? "op").text?)
  let code ← (← json.member? "code").integer?
  if Int32.ofNat op.code = code then
    return ⟨op, ← (← json.member? "r").integer?, ← (← json.member? "l").integer?, ← (← json.member? "m").integer?⟩
  else none

/-- Reads a program from its JSON document. -/
def Program.ofJson? (text : String) : Option Program := do
  let elements ← (← (← Json.read text).member? "instructions").elements?
  return ⟨(← elements.mapM Instruction.ofJson?).toArray⟩

theorem Instruction.ofJson?_toJson (ins : Instruction) : Instruction.ofJson? ins.toJson = some ins := by
  have hop : ins.toJson.member? "op" = some (.string ins.op.mnemonic) := rfl
  have hcode : ins.toJson.member? "code" = some (.number (Int32.ofNat ins.op.code)) := rfl
  have hr : ins.toJson.member? "r" = some (.number ins.r) := rfl
  have hl : ins.toJson.member? "l" = some (.number ins.l) := rfl
  have hm : ins.toJson.member? "m" = some (.number ins.m) := rfl
  simp only [ofJson?, hop, hcode, hr, hl, hm, Json.text?, Json.integer?, Opcode.ofMnemonic?_mnemonic,
    Option.bind_eq_bind, Option.bind_some, Option.pure_def, if_true]

theorem Opcode.isPlain_mnemonic (op : Opcode) : ∀ c ∈ op.mnemonic.toList, Json.isPlain c := by
  cases op <;> decide

theorem Instruction.unescaped_toJson (ins : Instruction) : ins.toJson.Unescaped := by
  refine .object ?_ ?_
  · have hnames : ∀ name ∈ ["op", "code", "r", "l", "m"], ∀ c ∈ name.toList, Json.isPlain c := by decide
    intro m hm
    exact hnames m.1 (List.mem_map_of_mem (f := Prod.fst) hm)
  · simp only [List.forall_mem_cons]
    exact ⟨.string ins.op.isPlain_mnemonic, .number _, .number _, .number _, .number _, List.forall_mem_nil _⟩

namespace Program

variable (program : Program)

theorem unescaped_toJson : program.toJson.Unescaped := by
  refine .object ?_ ?_
  · have hname : ∀ c ∈ "instructions".toList, Json.isPlain c := by decide
    intro m hm
    rw [List.mem_singleton.1 hm]
    exact hname
  · rw [List.forall_mem_singleton]
    refine .array fun v hv => ?_
    obtain ⟨ins, -, rfl⟩ := List.mem_map.1 hv
    exact ins.unescaped_toJson

/-- The document of a program is read as the program. -/
theorem ofJson?_json {print : Json → String} (hprint : Json.ReadsBack print) :
    ofJson? (program.json print) = some program := by
  have hread : Json.read (program.json print) = some program.toJson :=
    hprint _ program.unescaped_toJson "\n" (by decide)
  rw [ofJson?, hread]
  show (((program.instructions.toList.map Instruction.toJson).mapM Instruction.ofJson?) >>= fun instructions =>
    some (⟨instructions.toArray⟩ : Program)) = _
  rw [mapM_map_eq_some Instruction.ofJson?_toJson]
  simp

/-! ### All forms -/

/-- Reads a program that is written in a given form. -/
def read? : Format → String → Option Program
  | .code => ofCode?
  | .listing => ofListing?
  | .json => ofJson?

theorem read?_render {print : Json → String} (hprint : Json.ReadsBack print) (format : Format) :
    read? format (program.render print format) = some program := by
  cases format with
  | code => exact ofCode?_code program
  | listing => exact ofListing?_listing program
  | json => exact program.ofJson?_json hprint

end Program

/-- The three written forms of a program say the same: each can be read, and gives the program again.  Code and listing
have a line for each instruction, and the lines of the listing are numbered from zero.  So no two programs are written
alike in any of the forms.  Of the printer of JSON documents it is only used that they are read back, as those of the
usual printer are. -/
theorem renderings_read_back : Json.ReadsBack Json.pretty ∧ ∀ print : Json → String, Json.ReadsBack print →
    (∀ (program : Program) (format : Format), Program.read? format (program.render print format) = some program) ∧
    (∀ program : Program,
      (linesOf (program.render print .code).toList).length = program.size ∧
      (linesOf (program.render print .listing).toList).length = program.size ∧
      readListing (program.render print .listing) = some ((List.range program.size).zip program.instructions.toList)) ∧
    ∀ format, Function.Injective fun program : Program => program.render print format := by
  refine ⟨Json.readsBack_pretty, fun print hprint => ?_⟩
  refine ⟨fun program => program.read?_render hprint, fun program => ⟨?_, ?_, readListing_listing program⟩, ?_⟩
  · rw [Program.render, linesOf_code, List.length_map, Array.length_toList, Program.size]
  · rw [Program.render, linesOf_listing, List.length_map, List.length_zipIdx, Array.length_toList, Program.size]
  · intro format first second heq
    have hread : some first = some second := by
      rw [← first.read?_render hprint format, ← second.read?_render hprint format]
      exact congrArg (Program.read? format) heq
    exact Option.some.inj hread

/-- A mnemonic that fills its column, and the least integer with 32 bits. -/
theorem renderings_read_back_widest : Json.ReadsBack Json.pretty ∧
    Program.read? .json (Program.render ⟨#[⟨.write, 0, 0, -2147483648⟩]⟩ Json.pretty .json) =
      some ⟨#[⟨.write, 0, 0, -2147483648⟩]⟩ ∧
    readListing (Program.render ⟨#[⟨.write, 0, 0, -2147483648⟩]⟩ Json.pretty .listing) =
      some [(0, ⟨.write, 0, 0, -2147483648⟩)] := by
  obtain ⟨hpretty, hforms⟩ := renderings_read_back
  obtain ⟨hread, hlines, -⟩ := hforms Json.pretty hpretty
  exact ⟨hpretty, hread _ .json, (hlines ⟨#[⟨.write, 0, 0, -2147483648⟩]⟩).2.2⟩

end PL0
