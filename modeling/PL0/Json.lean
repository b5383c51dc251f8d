import PL0.Text.Numeral

/-!
# JSON

Values, and the usual way to print them: indented by two blanks a level, with every element of an array and every member
of an object on a line of its own.
-/

namespace PL0

/-- What a JSON document can hold, as far as programs need it. -/
inductive Json where
  | number (value : Int32)
  | string (text : String)
  | array (elements : List Json)
  | object (members : List (String × Json))

namespace Json

/-- The blanks at the start of a line. -/
def indent (depth : Nat) : String :=
  String.ofList (List.replicate (2 * depth) ' ')

/-- A text between quotation marks.  Names and mnemonics need no escapes. -/
def quote (text : String) : String :=
  "\"" ++ text ++ "\""

/-- Items between brackets, each on a line of its own.  Nothing stands between the brackets if there are no items. -/
def enclose (opening closing : String) (depth : Nat) : List String → String
  | [] => opening ++ closing
  | items =>
    opening ++ "\n" ++ ",\n".intercalate (items.map (indent (depth + 1) ++ ·)) ++ "\n" ++ indent depth ++ closing

theorem sizeOf_snd_lt {m : String × Json} {members : List (String × Json)} (h : m ∈ members) :
    sizeOf m.2 < sizeOf members := by
  obtain ⟨name, v⟩ := m
  have hlt := List.sizeOf_lt_of_mem h
  rw [Prod.mk.sizeOf_spec] at hlt
  show sizeOf v < _
  omega

/-- Writes a value that stands `depth` levels deep. -/
def write (depth : Nat) : Json → String
  | .number value => decimal32 value
  | .string text => quote text
  | .array elements => enclose "[" "]" depth (elements.map fun v => v.write (depth + 1))
  | .object members => enclose "\x7b" "\x7d" depth (members.map fun m => quote m.1 ++ ": " ++ m.2.write (depth + 1))
termination_by v => v
decreasing_by
  · have := List.sizeOf_lt_of_mem ‹v ∈ elements›
    simp_wf
    omega
  · have := sizeOf_snd_lt ‹m ∈ members›
    simp_wf
    omega

/-- Prints a document. -/
def pretty (v : Json) : String :=
  v.write 0

end Json

end PL0
