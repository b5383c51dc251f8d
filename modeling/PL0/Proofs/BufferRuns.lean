import Mathlib.Algebra.Group.Nat.Defs
import Mathlib.Data.List.Nodup
import PL0.Proofs.Generator.Extension

/-!
# Runs of a code buffer

A code buffer is used by appending instructions, opening jumps and closing them, in any order.  A run is a history of
such steps with what each of them answered, beginning with an empty buffer; a jump is closed at most once, after it was
opened, and steps that fault are part of the history.  What the buffer holds can be read off the history
(`CodeBuffer.Records`): every step is one of five kinds (`CodeBuffer.perform_cases`), and each of them keeps the buffer
in line with the history.
-/

namespace PL0

namespace CodeBuffer

/-! ### Histories -/

/-- A step and what it answered. -/
structure Performed where
  action : Action
  answer : Except Fault (Option Nat)

/-- The instruction that a step appended. -/
def Performed.emission? : Performed → Option Instruction
  | ⟨.append ins, .ok _⟩ => some ins
  | ⟨.openJump op, .ok _⟩ => some ⟨op, 0, 0, 0⟩
  | _ => none

/-- The address that was answered. -/
def Performed.address? : Performed → Option Nat
  | ⟨_, .ok address⟩ => address
  | _ => none

/-- The address of the jump that a step opened. -/
def Performed.opened? : Performed → Option Nat
  | ⟨.openJump _, .ok address⟩ => address
  | _ => none

/-- The address of the jump that a step closed, and its target. -/
def Performed.closing? : Performed → Option (Nat × Nat)
  | ⟨.closeJump address target, .ok _⟩ => some (address, target)
  | _ => none

/-- Steps and their answers, in the order of time. -/
abbrev History := List Performed

namespace History

def emissions (history : History) : List Instruction :=
  history.filterMap Performed.emission?

def addresses (history : History) : List Nat :=
  history.filterMap Performed.address?

def opened (history : History) : List Nat :=
  history.filterMap Performed.opened?

def closings (history : History) : List (Nat × Nat) :=
  history.filterMap Performed.closing?

def closed (history : History) : List Nat :=
  history.closings.map Prod.fst

/-- The jumps that were opened and not closed. -/
def pending (history : History) : List Nat :=
  history.opened.filter (· ∉ history.closed)

/-- A step that may come next: only a jump that was opened is closed, and only once. -/
def Allows (history : History) : Action → Prop
  | .append _ => True
  | .openJump _ => True
  | .closeJump address _ => address ∈ history.opened ∧ address ∉ history.closed

@[simp] theorem emissions_concat (history : History) (p : Performed) :
    History.emissions (history ++ [p]) = history.emissions ++ p.emission?.toList := by
  cases h : p.emission? <;> simp [emissions, h]

@[simp] theorem addresses_concat (history : History) (p : Performed) :
    History.addresses (history ++ [p]) = history.addresses ++ p.address?.toList := by
  cases h : p.address? <;> simp [addresses, h]

@[simp] theorem opened_concat (history : History) (p : Performed) :
    History.opened (history ++ [p]) = history.opened ++ p.opened?.toList := by
  cases h : p.opened? <;> simp [opened, h]

@[simp] theorem closings_concat (history : History) (p : Performed) :
    History.closings (history ++ [p]) = history.closings ++ p.closing?.toList := by
  cases h : p.closing? <;> simp [closings, h]

theorem closed_concat (history : History) (p : Performed) :
    History.closed (history ++ [p]) = history.closed ++ (p.closing?.map Prod.fst).toList := by
  cases h : p.closing? <;> simp [closed, h]

theorem mem_closed {history : History} {address : Nat} :
    address ∈ history.closed ↔ ∃ target, (address, target) ∈ history.closings := by
  simp [closed]

end History

/-- The history and the buffer after some steps on an empty buffer. -/
inductive Run (capacity : Nat) : History → CodeBuffer → Prop
  | start : Run capacity [] (.empty capacity)
  | step {history : History} {buffer : CodeBuffer} (action : Action) (run : Run capacity history buffer)
      (allowed : history.Allows action) :
      Run capacity (history ++ [⟨action, (buffer.perform action).1⟩]) (buffer.perform action).2

/-! ### One step -/

variable {capacity : Nat} {history : History} {buffer : CodeBuffer}

/-- The buffer with one more instruction. -/
private def pushed (buffer : CodeBuffer) (ins : Instruction) : CodeBuffer :=
  { buffer with code := buffer.code.push ins }

/-- What a step can do. -/
theorem perform_cases (buffer : CodeBuffer) (action : Action) :
    (∃ ins, action = .append ins ∧ buffer.size ≠ buffer.capacity ∧
      buffer.perform action = (.ok (some buffer.size), pushed buffer ins)) ∨
    (∃ op, action = .openJump op ∧ op.isJump ∧ buffer.size ≠ buffer.capacity ∧
      buffer.perform action = (.ok (some buffer.size),
        { pushed buffer ⟨op, 0, 0, 0⟩ with openJumps := buffer.openJumps + 1 })) ∨
    (∃ address target, action = .closeJump address target ∧
      buffer.perform action = (.ok none, buffer.closeJump address target)) ∨
    (∃ op, action = .openJump op ∧ op.isJump = false ∧ buffer.perform action = (.error (.notAJump op), buffer)) ∨
    ((∃ ins, action = .append ins) ∨ ∃ op, action = .openJump op ∧ op.isJump) ∧ buffer.size = buffer.capacity ∧
      buffer.perform action = (.error (.full buffer.capacity), buffer) := by
  cases action with
  | append ins =>
    by_cases hfull : buffer.size = buffer.capacity
    · refine .inr (.inr (.inr (.inr ⟨.inl ⟨ins, rfl⟩, hfull, ?_⟩)))
      simp [perform, append, isFull, hfull, Except.map]
    · refine .inl ⟨ins, rfl, hfull, ?_⟩
      simp [perform, append, isFull, hfull, Except.map, pushed]
  | openJump op =>
    by_cases hop : op.isJump
    · by_cases hfull : buffer.size = buffer.capacity
      · refine .inr (.inr (.inr (.inr ⟨.inr ⟨op, rfl, hop⟩, hfull, ?_⟩)))
        simp [perform, openJump, hop, append, isFull, hfull, Except.map]
      · refine .inr (.inl ⟨op, rfl, hop, hfull, ?_⟩)
        simp [perform, openJump, hop, append, isFull, hfull, Except.map, pushed]
    · have hop' : op.isJump = false := by simpa using hop
      refine .inr (.inr (.inr (.inl ⟨op, rfl, hop', ?_⟩)))
      simp [perform, openJump, hop', Except.map]
  | closeJump address target => exact .inr (.inr (.inl ⟨address, target, rfl, rfl⟩))

/-- A step that faults changes nothing. -/
theorem perform_of_error {action : Action} {fault : Fault} (h : (buffer.perform action).1 = .error fault) :
    (buffer.perform action).2 = buffer := by
  obtain ⟨_, _, _, e⟩ | ⟨_, _, _, _, e⟩ | ⟨_, _, _, e⟩ | ⟨_, _, _, e⟩ | ⟨_, _, e⟩ := perform_cases buffer action
  · simp [e] at h
  · simp [e] at h
  · simp [e] at h
  · rw [e]
  · rw [e]

/-! ### What a buffer holds -/

/-- The buffer is what the history says. -/
structure Records (capacity : Nat) (history : History) (buffer : CodeBuffer) : Prop where
  capacity_eq : buffer.capacity = capacity
  size_eq : buffer.size = history.emissions.length
  size_le : buffer.size ≤ capacity
  /-- The addresses that were answered are 0, 1, 2 and so on. -/
  addresses_eq : history.addresses = List.range buffer.size
  openJumps_eq : buffer.openJumps = history.pending.length
  /-- Where no jump was closed stands what was emitted. -/
  emitted : ∀ address, address ∉ history.closed → buffer.code[address]? = history.emissions[address]?
  /-- Where a jump was closed stands the jump that was emitted, with the low 32 bits of its target. -/
  patched : ∀ address target, (address, target) ∈ history.closings →
    ∃ op, history.emissions[address]? = some ⟨op, 0, 0, 0⟩ ∧
      buffer.code[address]? = some ⟨op, 0, 0, (UInt32.ofNat (target % 2 ^ 32)).toInt32⟩
  /-- Where a jump was opened a jump was emitted. -/
  jumps : ∀ address ∈ history.opened, ∃ op, op.isJump ∧ history.emissions[address]? = some ⟨op, 0, 0, 0⟩
  opened_nodup : history.opened.Nodup
  closed_nodup : history.closed.Nodup
  closed_opened : ∀ address ∈ history.closed, address ∈ history.opened

private theorem toInt32_ofNat_mod (n : Nat) : (UInt32.ofNat (n % 2 ^ 32)).toInt32 = Int32.ofNat n := by
  rw [UInt32.toInt32_ofNat']
  apply Int32.toBitVec_inj.1
  apply BitVec.eq_of_toNat_eq
  simp

namespace Records

theorem start (capacity : Nat) : Records capacity [] (.empty capacity) := by
  constructor <;> simp [empty, size, History.emissions, History.addresses, History.opened, History.closings,
    History.closed, History.pending]

theorem lt_of_opened (h : Records capacity history buffer) {address : Nat} (ha : address ∈ history.opened) :
    address < buffer.size := by
  obtain ⟨op, _, he⟩ := h.jumps address ha
  rw [h.size_eq]
  exact (List.getElem?_eq_some_iff.1 he).1

theorem lt_of_closed (h : Records capacity history buffer) {address : Nat} (ha : address ∈ history.closed) :
    address < buffer.size :=
  h.lt_of_opened (h.closed_opened address ha)

/-- A step that faulted leaves no trace. -/
private theorem faulted (h : Records capacity history buffer) {p : Performed} {fault : Fault}
    (hp : p.answer = .error fault) : Records capacity (history ++ [p]) buffer := by
  obtain ⟨action, answer⟩ := p
  cases hp
  have hemissions : History.emissions (history ++ [⟨action, .error fault⟩]) = history.emissions := by
    cases action <;> simp [Performed.emission?]
  have haddresses : History.addresses (history ++ [⟨action, .error fault⟩]) = history.addresses := by
    simp [Performed.address?]
  have hopened : History.opened (history ++ [⟨action, .error fault⟩]) = history.opened := by
    cases action <;> simp [Performed.opened?]
  have hclosings : History.closings (history ++ [⟨action, .error fault⟩]) = history.closings := by
    cases action <;> simp [Performed.closing?]
  have hclosed : History.closed (history ++ [⟨action, .error fault⟩]) = history.closed := by
    rw [History.closed, hclosings, History.closed]
  have hpending : History.pending (history ++ [⟨action, .error fault⟩]) = history.pending := by
    rw [History.pending, hopened, hclosed, History.pending]
  constructor
  · exact h.capacity_eq
  · rw [hemissions]
    exact h.size_eq
  · exact h.size_le
  · rw [haddresses]
    exact h.addresses_eq
  · rw [hpending]
    exact h.openJumps_eq
  · rw [hemissions, hclosed]
    exact h.emitted
  · rw [hemissions, hclosings]
    exact h.patched
  · rw [hemissions, hopened]
    exact h.jumps
  · rw [hopened]
    exact h.opened_nodup
  · rw [hclosed]
    exact h.closed_nodup
  · rw [hopened, hclosed]
    exact h.closed_opened

/-- With one more instruction the earlier ones stay where they are. -/
private theorem getElem?_emissions (h : Records capacity history buffer) (ins : Instruction) {a : Nat}
    (ha : a < buffer.size) : (history.emissions ++ [ins])[a]? = history.emissions[a]? := by
  rw [h.size_eq] at ha
  exact List.getElem?_append_left ha

private theorem getElem?_pushed (buffer : CodeBuffer) (ins : Instruction) (a : Nat) :
    (pushed buffer ins).code[a]? = if a = buffer.size then some ins else buffer.code[a]? :=
  Array.getElem?_push

/-- Where no jump was closed stands what was emitted, also at the new address. -/
private theorem emitted_pushed (h : Records capacity history buffer) (ins : Instruction) {a : Nat}
    (ha : a ∉ history.closed) : (pushed buffer ins).code[a]? = (history.emissions ++ [ins])[a]? := by
  rw [getElem?_pushed]
  by_cases hlt : a < buffer.size
  · rw [if_neg (by omega), h.getElem?_emissions ins hlt, h.emitted a ha]
  · by_cases heq : a = buffer.size
    · rw [if_pos heq, heq, h.size_eq, List.getElem?_concat_length]
    · rw [if_neg heq, h.emitted a ha]
      have := h.size_eq
      rw [List.getElem?_eq_none (by omega), List.getElem?_eq_none (by simp; omega)]

/-- A step that appends an instruction, and opens it if it is a jump to be closed later. -/
private theorem appended (h : Records capacity history buffer) (hroom : buffer.size ≠ buffer.capacity) {p : Performed}
    {ins : Instruction} (hemission : p.emission? = some ins) (haddress : p.address? = some buffer.size)
    (hclosing : p.closing? = none)
    (hopened : ∀ a, p.opened? = some a → a = buffer.size ∧ ∃ op, op.isJump ∧ ins = ⟨op, 0, 0, 0⟩) :
    Records capacity (history ++ [p])
      { pushed buffer ins with openJumps := buffer.openJumps + p.opened?.toList.length } := by
  have hsize : (pushed buffer ins).size = buffer.size + 1 := Array.size_push _
  have hemissions : History.emissions (history ++ [p]) = history.emissions ++ [ins] := by
    simp [hemission]
  have hclosed : History.closed (history ++ [p]) = history.closed := by
    simp [History.closed_concat, hclosing]
  -- the new address is the end of the code, where nothing was opened or closed before
  have hnew : ∀ a, p.opened? = some a → a ∉ history.closed := by
    intro a ha hmem
    have := h.lt_of_closed hmem
    have := (hopened a ha).1
    omega
  have hpending : History.pending (history ++ [p]) = history.pending ++ p.opened?.toList := by
    rw [History.pending, History.opened_concat, hclosed, List.filter_append, History.pending]
    congr 1
    apply List.filter_eq_self.2
    intro a ha
    simpa using hnew a (by simpa using ha)
  constructor
  · exact h.capacity_eq
  · show (pushed buffer ins).size = _
    rw [hsize, h.size_eq, hemissions, List.length_append, List.length_singleton]
  · have := h.size_le
    have := h.capacity_eq
    show (pushed buffer ins).size ≤ capacity
    omega
  · show _ = List.range (pushed buffer ins).size
    rw [hsize, List.range_succ, ← h.addresses_eq, History.addresses_concat, haddress]
    rfl
  · show buffer.openJumps + _ = _
    rw [h.openJumps_eq, hpending, List.length_append]
  · intro a ha
    rw [hclosed] at ha
    rw [hemissions]
    exact h.emitted_pushed ins ha
  · intro a target hmem
    rw [History.closings_concat, hclosing, Option.toList_none, List.append_nil] at hmem
    have ha := h.lt_of_closed (History.mem_closed.2 ⟨target, hmem⟩)
    obtain ⟨op, hold, hnow⟩ := h.patched a target hmem
    refine ⟨op, ?_, ?_⟩
    · rw [hemissions, h.getElem?_emissions ins ha, hold]
    · show (pushed buffer ins).code[a]? = _
      rw [getElem?_pushed, if_neg (by omega), hnow]
  · intro a ha
    rw [History.opened_concat, List.mem_append] at ha
    rw [hemissions]
    rcases ha with ha | ha
    · rw [h.getElem?_emissions ins (h.lt_of_opened ha)]
      exact h.jumps a ha
    · obtain ⟨rfl, op, hop, rfl⟩ := hopened a (by simpa using ha)
      refine ⟨op, hop, ?_⟩
      rw [h.size_eq, List.getElem?_concat_length]
  · rw [History.opened_concat, List.nodup_append]
    refine ⟨h.opened_nodup, ?_, ?_⟩
    · cases p.opened? <;> simp
    · intro a ha b hb
      have := h.lt_of_opened ha
      have := (hopened b (by simpa using hb)).1
      omega
  · rw [hclosed]
    exact h.closed_nodup
  · rw [hclosed]
    intro a ha
    simp [h.closed_opened a ha]

/-- Closing takes one jump from the pending ones. -/
private theorem pending_closing (h : Records capacity history buffer) {address : Nat} (ha : address ∈ history.opened)
    (hfresh : address ∉ history.closed) {p : Performed} {target : Nat} (hopened : p.opened? = none)
    (hclosing : p.closing? = some (address, target)) :
    History.pending (history ++ [p]) = history.pending.erase address ∧ address ∈ history.pending := by
  have hclosed : History.closed (history ++ [p]) = history.closed ++ [address] := by
    simp [History.closed_concat, hclosing]
  have hnodup : history.pending.Nodup := h.opened_nodup.filter _
  have hmem : address ∈ history.pending := List.mem_filter.2 ⟨ha, by simpa using hfresh⟩
  refine ⟨?_, hmem⟩
  rw [hnodup.erase_eq_filter, History.pending, History.opened_concat, hopened, hclosed, Option.toList_none,
    List.append_nil, History.pending, List.filter_filter]
  apply List.filter_congr
  intro a _
  by_cases hne : a = address <;> simp [hne]

/-- A step that closes a jump. -/
private theorem patchedAt (h : Records capacity history buffer) {address : Nat} (ha : address ∈ history.opened)
    (hfresh : address ∉ history.closed) (target : Nat) :
    Records capacity (history ++ [⟨.closeJump address target, .ok none⟩]) (buffer.closeJump address target) := by
  let p : Performed := ⟨.closeJump address target, .ok none⟩
  have hemissions : History.emissions (history ++ [p]) = history.emissions := by
    simp [p, Performed.emission?]
  have haddresses : History.addresses (history ++ [p]) = history.addresses := by
    simp [p, Performed.address?]
  have hopened : History.opened (history ++ [p]) = history.opened := by
    simp [p, Performed.opened?]
  have hclosings : History.closings (history ++ [p]) = history.closings ++ [(address, target)] := by
    simp [p, Performed.closing?]
  have hclosed : History.closed (history ++ [p]) = history.closed ++ [address] := by
    simp [History.closed, hclosings]
  obtain ⟨hpending, hmem⟩ := h.pending_closing ha hfresh (p := p) rfl rfl
  have hsize : (buffer.closeJump address target).size = buffer.size := size_closeJump _ _ _
  have hcode : ∀ a, (buffer.closeJump address target).code[a]? =
      if address = a then buffer.code[a]?.map fun ins => { ins with m := Int32.ofNat target } else buffer.code[a]? :=
    fun a => Array.getElem?_modify
  constructor
  · exact h.capacity_eq
  · rw [hsize, hemissions]
    exact h.size_eq
  · rw [hsize]
    exact h.size_le
  · rw [hsize, haddresses]
    exact h.addresses_eq
  · show buffer.openJumps - 1 = _
    rw [h.openJumps_eq, hpending, List.length_erase_of_mem hmem]
  · intro a hnot
    rw [hclosed, List.mem_append, List.mem_singleton, not_or] at hnot
    rw [hcode, if_neg (Ne.symm hnot.2), hemissions]
    exact h.emitted a hnot.1
  · intro a t hat
    rw [hclosings, List.mem_append, List.mem_singleton] at hat
    rw [hemissions, hcode]
    rcases hat with hat | hat
    -- an earlier closing concerns another jump
    · have hne : address ≠ a := by
        rintro rfl
        exact hfresh (History.mem_closed.2 ⟨t, hat⟩)
      rw [if_neg hne]
      exact h.patched a t hat
    · obtain ⟨rfl, rfl⟩ := Prod.mk.inj hat
      obtain ⟨op, _, hop⟩ := h.jumps a ha
      refine ⟨op, hop, ?_⟩
      rw [if_pos rfl, h.emitted a hfresh, hop, toInt32_ofNat_mod]
      rfl
  · rw [hemissions, hopened]
    exact h.jumps
  · rw [hopened]
    exact h.opened_nodup
  · rw [hclosed, List.nodup_append]
    refine ⟨h.closed_nodup, List.nodup_singleton _, ?_⟩
    intro a hclosed' b hb
    rw [List.mem_singleton] at hb
    rintro rfl
    exact hfresh (hb ▸ hclosed')
  · intro a hmem'
    rw [hclosed, List.mem_append, List.mem_singleton] at hmem'
    rw [hopened]
    rcases hmem' with hmem' | rfl
    · exact h.closed_opened a hmem'
    · exact ha

/-- Every step keeps the buffer in line with the history. -/
theorem step (h : Records capacity history buffer) {action : Action} (hallowed : history.Allows action) :
    Records capacity (history ++ [⟨action, (buffer.perform action).1⟩]) (buffer.perform action).2 := by
  obtain ⟨ins, rfl, hroom, e⟩ | ⟨op, rfl, hop, hroom, e⟩ | ⟨address, target, rfl, e⟩ | ⟨op, _, _, e⟩ | ⟨_, _, e⟩ :=
    perform_cases buffer action
  · rw [e]
    exact h.appended hroom (p := ⟨.append ins, .ok (some buffer.size)⟩) rfl rfl rfl (by simp [Performed.opened?])
  · rw [e]
    refine h.appended hroom (p := ⟨.openJump op, .ok (some buffer.size)⟩) rfl rfl rfl ?_
    intro a ha
    exact ⟨(Option.some.inj ha).symm, op, hop, rfl⟩
  · rw [e]
    exact h.patchedAt hallowed.1 hallowed.2 target
  · rw [e]
    exact h.faulted rfl
  · rw [e]
    exact h.faulted rfl

end Records

/-- After every run the buffer is what the history says. -/
theorem Run.records (run : Run capacity history buffer) : Records capacity history buffer := by
  induction run with
  | start => exact .start capacity
  | step action _ hallowed ih => exact ih.step hallowed

/-! ### Attempts and finished programs -/

theorem answer_append (buffer : CodeBuffer) (ins : Instruction) :
    (buffer.perform (.append ins)).1 =
      if buffer.size = buffer.capacity then .error (.full buffer.capacity) else .ok (some buffer.size) := by
  by_cases hfull : buffer.size = buffer.capacity <;> simp [perform, append, isFull, hfull, Except.map]

/-- That the operation is a jump is checked first, also when the buffer is full. -/
theorem answer_openJump (buffer : CodeBuffer) (op : Opcode) :
    (buffer.perform (.openJump op)).1 =
      if op.isJump then
        if buffer.size = buffer.capacity then .error (.full buffer.capacity) else .ok (some buffer.size)
      else .error (.notAJump op) := by
  by_cases hop : op.isJump
  · by_cases hfull : buffer.size = buffer.capacity <;> simp [perform, openJump, append, isFull, hop, hfull, Except.map]
  · simp [perform, openJump, hop, Except.map]

theorem toProgram_of_pending (h : Records capacity history buffer) :
    buffer.toProgram =
      if history.pending = [] then .ok ⟨buffer.code⟩ else .error (.jumpsLeftOpen history.pending.length) := by
  rw [toProgram, h.openJumps_eq]
  by_cases hnil : history.pending = []
  · simp [hnil]
  · simp [hnil, List.length_eq_zero_iff]

theorem History.pending_eq_nil_iff {history : History} :
    history.pending = [] ↔ ∀ address ∈ history.opened, address ∈ history.closed := by
  simp [History.pending, List.filter_eq_nil_iff]

/-- What a run of a code buffer leaves behind, what the next step answers and when the program is finished. -/
theorem buffer_run (run : Run capacity history buffer) :
    Records capacity history buffer ∧
    (∀ ins, (buffer.perform (.append ins)).1 =
      if buffer.size = capacity then .error (.full capacity) else .ok (some buffer.size)) ∧
    (∀ op, (buffer.perform (.openJump op)).1 =
      if op.isJump then if buffer.size = capacity then .error (.full capacity) else .ok (some buffer.size)
      else .error (.notAJump op)) ∧
    (∀ address target, history.Allows (.closeJump address target) →
      (buffer.perform (.closeJump address target)).1 = .ok none ∧ address < buffer.size ∧ 0 < buffer.openJumps) ∧
    (∀ action fault, (buffer.perform action).1 = .error fault → (buffer.perform action).2 = buffer) ∧
    ((∃ fault, buffer.toProgram = .error fault) ↔ ∃ address ∈ history.opened, address ∉ history.closed) ∧
    ((∀ address ∈ history.opened, address ∈ history.closed) → buffer.toProgram = .ok ⟨buffer.code⟩) := by
  have h := run.records
  have hprogram := toProgram_of_pending h
  refine ⟨h, ?_, ?_, ?_, ?_, ?_, ?_⟩
  · intro ins
    rw [answer_append, h.capacity_eq]
  · intro op
    rw [answer_openJump, h.capacity_eq]
  · rintro address target ⟨hopened, hfresh⟩
    refine ⟨rfl, h.lt_of_opened hopened, ?_⟩
    rw [h.openJumps_eq]
    exact List.length_pos_of_mem (List.mem_filter.2 ⟨hopened, by simpa using hfresh⟩)
  · intro action fault
    exact perform_of_error
  · constructor
    · rintro ⟨fault, hfault⟩
      by_contra hnone
      have hall : ∀ address ∈ history.opened, address ∈ history.closed := by
        simpa using hnone
      rw [hprogram, if_pos (History.pending_eq_nil_iff.2 hall)] at hfault
      cases hfault
    · rintro ⟨address, hopened, hfresh⟩
      refine ⟨_, hprogram.trans (if_neg ?_)⟩
      intro hnil
      exact hfresh (History.pending_eq_nil_iff.1 hnil address hopened)
  · intro hall
    rw [hprogram, if_pos (History.pending_eq_nil_iff.2 hall)]

/-- One jump in a buffer for one instruction: the second instruction does not fit, and an operation that is no jump is
refused before that is found out.  The jump is pointed to 2³² + 5, of which 5 is kept. -/
theorem buffer_run_full : ∃ history buffer, Run 1 history buffer ∧
    history.map Performed.answer = [.ok (some 0), .error (.notAJump .sto), .error (.full 1), .ok none] ∧
    buffer.openJumps = 0 ∧ buffer.code[0]? = some ⟨.jmp, 0, 0, 5⟩ ∧ buffer.toProgram = .ok ⟨buffer.code⟩ := by
  have run := (Run.start : Run 1 [] (.empty 1)).step (.openJump .jmp) trivial
    |>.step (.openJump .sto) trivial
    |>.step (.append ⟨.rtn, 0, 0, 0⟩) trivial
    |>.step (.closeJump 0 (2 ^ 32 + 5)) ⟨by decide, by decide⟩
  obtain ⟨h, _, _, _, _, _, hprogram⟩ := buffer_run run
  refine ⟨_, _, run, by rfl, ?_, ?_, hprogram (by decide)⟩
  · rw [h.openJumps_eq]
    rfl
  · obtain ⟨op, hop, hcode⟩ := h.patched 0 (2 ^ 32 + 5) (by decide)
    cases hop
    exact hcode

end CodeBuffer

end PL0
