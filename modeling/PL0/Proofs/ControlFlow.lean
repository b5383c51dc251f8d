import PL0.Proofs.Confinement
import PL0.Proofs.Opcodes
import PL0.Proofs.Stack.Discipline

/-!
# The way of the control through a program

Control comes to a block by its first jump, which skips the cells of the variables and the procedures, and goes on from
the entry of the block to its return (`Block.LaidOut.flows_cases`).  So the cells of single variables are never
reserved: an activation reserves the frame of its block and nothing else.  This holds of the ways through the program
(`Block.LaidOut.covers_of_reached`, `Region.Stands.incs_along`) and of the frames of a machine that runs it
(`Block.LaidOut.framed_of_runs`).
-/

namespace PL0

/-! ### Ways through a program -/

/-- Where control can go after the instruction at `a`: a call goes to the procedure, and after the return it goes on. -/
def Instruction.targets (ins : Instruction) (a : Nat) : List Int :=
  if ins.op = .cal then ins.m.toInt :: ins.successors a else ins.successors a

/-- The instruction at an address, if this is an address of the program. -/
def fetch (program : List Instruction) : Int → Option Instruction
  | .ofNat i => program[i]?
  | .negSucc _ => none

/-- Control can go from one address to another one. -/
def Flows (program : List Instruction) (a t : Int) : Prop :=
  ∃ (i : Nat) (ins : Instruction), a = i ∧ program[i]? = some ins ∧ t ∈ ins.targets i

/-- Within one activation control can go from one address to another one. -/
def Proceeds (program : List Instruction) (a t : Int) : Prop :=
  ∃ (i : Nat) (ins : Instruction), a = i ∧ program[i]? = some ins ∧ t ∈ ins.successors i

/-- Control can come to the address. -/
def Reached (program : List Instruction) : Int → Prop :=
  Relation.ReflTransGen (Flows program) 0

/-- Activations start at the address: it is that of the main block, or a call goes there. -/
def IsEntrance (program : List Instruction) (a : Int) : Prop :=
  a = 0 ∨ ∃ ins ∈ program, ins.op = .cal ∧ ins.m.toInt = a

/-- The block with this scope starts with a jump at `start`, and it reserves its frame at `lo`, where the jump goes. -/
structure Opens (program : List Instruction) (table : SymbolTable) (scope : Scope) (start lo : Int) : Prop where
  startsAt : ∃ i : Nat, start = i ∧ table.StartsAt scope i
  skip : ∃ ins, fetch program start = some ins ∧ ins.op = .jmp ∧ ins.m.toInt = lo
  frame : fetch program lo = some ⟨.inc, 0, 0, 4⟩

theorem Proceeds.flows {program : List Instruction} {a t : Int} (h : Proceeds program a t) : Flows program a t := by
  obtain ⟨i, ins, ha, hins, ht⟩ := h
  refine ⟨i, ins, ha, hins, ?_⟩
  unfold Instruction.targets
  split
  · exact List.mem_cons_of_mem _ ht
  · exact ht

/-! ### Ways through a block -/

namespace Region.Stands

variable {program : List Instruction} {table : SymbolTable} {r : Region} {a : Nat} {ins : Instruction} {t : Int}

theorem opens (h : r.Stands program table) (hlength : program.length ≤ 2 ^ 31) :
    Opens program table r.scope r.start r.entry :=
  ⟨⟨_, rfl, h.startsAt⟩, ⟨_, Block.jmp_at_start h.code, rfl, h.toInt_entry hlength⟩, (Block.placed_entry h.code).head⟩

theorem eq_skip (h : r.Stands program table) (hins : program[r.start]? = some ins) : ins = refer .jmp r.entry :=
  Option.some.inj (hins.symm.trans (Block.jmp_at_start h.code))

theorem successors_start (h : r.Stands program table) (hlength : program.length ≤ 2 ^ 31)
    (hins : program[r.start]? = some ins) : ins.successors r.start = [(r.entry : Int)] := by
  rw [h.eq_skip hins]
  exact congrArg ([·]) (h.toInt_entry hlength)

theorem flows_start (h : r.Stands program table) (hlength : program.length ≤ 2 ^ 31)
    (hflows : Flows program r.start t) : t = r.entry := by
  obtain ⟨i, ins, hi, hins, ht⟩ := hflows
  obtain rfl : r.start = i := by omega
  have hjmp : ins.op = .jmp := by
    rw [h.eq_skip hins]
    rfl
  rw [Instruction.targets, if_neg (by simp [hjmp]), h.successors_start hlength hins] at ht
  exact List.mem_singleton.1 ht

/-- From the entry of a block to its return, the frame at the entry is all that is reserved. -/
theorem eq_entry_of_inc (h : r.Stands program table) (hlo : r.entry ≤ a) (hhi : a ≤ r.exit)
    (hins : program[a]? = some ins) (hinc : ins.op = .inc) : a = r.entry ∧ ins = instruction .inc 4 := by
  have hall : Throughout (fun a ins => ins.op = .inc → a = r.entry ∧ ins = instruction .inc 4) r.entry
      (instruction .inc 4 :: (r.block.body.code r.env (r.entry + 1) ++ [instruction .rtn 0])) := by
    refine .cons (fun _ => ⟨rfl, rfl⟩) (.append (Statement.length_code _ _) (.of_mem fun ins hins _ hinc => ?_)
      (.cons (fun hinc => by cases hinc) .nil))
    have hnone := r.block.body.framesNothing _ _ hins
    rw [hinc] at hnone
    cases hnone
  exact h.of_throughout hall hlo hhi hins hinc

/-- Control does not come back to the entry of the block, and it leaves the block by its return only. -/
theorem successors_within (h : r.Stands program table) (hlength : program.length ≤ 2 ^ 31) (hlo : r.entry ≤ a)
    (hhi : a ≤ r.exit) (hins : program[a]? = some ins) (ht : t ∈ ins.successors a) :
    ∃ i : Nat, t = i ∧ r.entry < i ∧ i ≤ r.exit := by
  have hexit := h.exit_lt
  rcases h.belongs_or_exit hlo hhi hins with hbelongs | ⟨-, rfl⟩
  · have hne : a ≠ r.exit := by
      rintro rfl
      obtain rfl := Option.some.inj ((Block.rtn_at_exit h.code).symm.trans hins)
      exact hbelongs.ne_rtn rfl
    rcases Instruction.mem_successors ht with rfl | ⟨hjump, rfl⟩
    · exact ⟨a + 1, rfl, by omega, by omega⟩
    · obtain ⟨-, m, hm, hborder⟩ := hbelongs.jump hjump
      have hwithin : r.entry + 1 ≤ m ∧ m ≤ r.exit := Statement.border_within hborder
      rw [hm, Int32.toInt_ofNat_of_lt (by omega)]
      exact ⟨m, rfl, by omega, by omega⟩
  · cases ht

/-- A way from an address of the block on, within one activation. -/
theorem within_of_proceeds (h : r.Stands program table) (hlength : program.length ≤ 2 ^ 31) (hlo : r.entry ≤ a)
    (hhi : a ≤ r.exit) {path : List Int} (hpath : ((a : Int) :: path).IsChain (Proceeds program)) :
    ∀ t ∈ path, ∃ i : Nat, t = i ∧ r.entry < i ∧ i ≤ r.exit := by
  induction path generalizing a with
  | nil => simp
  | cons t path ih =>
    rw [List.isChain_cons_cons] at hpath
    obtain ⟨i, ins, hi, hins, ht⟩ := hpath.1
    obtain rfl : a = i := by omega
    obtain ⟨i, rfl, hlo', hhi'⟩ := h.successors_within hlength hlo hhi hins ht
    rintro t' (_ | ⟨_, ht'⟩)
    · exact ⟨i, rfl, hlo', hhi'⟩
    · exact ih (Nat.le_of_lt hlo') hhi' hpath.2 t' ht'

/-- On a way through the block from its start on the frame is reserved, and nothing else. -/
theorem incs_along (h : r.Stands program table) (hlength : program.length ≤ 2 ^ 31) {rest : List Int}
    (hpath : ((r.start : Int) :: t :: rest).IsChain (Proceeds program)) :
    (((r.start : Int) :: t :: rest).filterMap (fetch program)).filter (·.op = .inc) = [⟨.inc, 0, 0, 4⟩] := by
  rw [List.isChain_cons_cons] at hpath
  obtain rfl := h.flows_start hlength hpath.1.flows
  have hrest := h.within_of_proceeds hlength (Nat.le_refl _) (Nat.le_of_lt r.entry_lt_exit) hpath.2
  have hskip : fetch program r.start = some (refer .jmp r.entry) := Block.jmp_at_start h.code
  have hframe : fetch program r.entry = some ⟨.inc, 0, 0, 4⟩ := (Block.placed_entry h.code).head
  have hnone : (rest.filterMap (fetch program)).filter (·.op = .inc) = [] := by
    rw [List.filter_eq_nil_iff]
    intro ins hins hinc
    obtain ⟨t, ht, hfetch⟩ := List.mem_filterMap.1 hins
    obtain ⟨i, rfl, hlo, hhi⟩ := hrest t ht
    have := (h.eq_entry_of_inc (Nat.le_of_lt hlo) hhi hfetch (of_decide_eq_true hinc)).1
    omega
  rw [List.filterMap_cons_some hskip, List.filterMap_cons_some hframe,
    List.filter_cons_of_neg (by simp [refer, instruction]), List.filter_cons_of_pos rfl, hnone]

end Region.Stands

namespace Block.LaidOut

variable {program : List Instruction} {table : SymbolTable} {b : Block} {r : Region} {a : Nat} {ins : Instruction}
  {t : Int}

theorem exists_start (h : b.LaidOut program table) {scope : Scope} {start : Nat} (hstart : table.StartsAt scope start) :
    ∃ r ∈ b.regions 0 0 none 0, r.start = start := by
  obtain ⟨r, hr, rfl⟩ := h.exists_region scope hstart.isBlock
  exact ⟨r, hr, (h.stands r hr).startsAt.unique hstart⟩

theorem exists_main (h : b.LaidOut program table) : ∃ r ∈ b.regions 0 0 none 0, r.start = 0 :=
  h.exists_start (show table.StartsAt none 0 from rfl)

/-- A call goes to the start of a block. -/
theorem target_of_call (h : b.LaidOut program table) (hr : r ∈ b.regions 0 0 none 0) (hlo : r.entry ≤ a)
    (hhi : a ≤ r.exit) (hins : program[a]? = some ins) (hcal : ins.op = .cal) :
    ∃ r' ∈ b.regions 0 0 none 0, ins.m.toInt = r'.start := by
  have hstands := h.stands r hr
  rcases hstands.belongs_or_exit hlo hhi hins with hbelongs | ⟨-, rfl⟩
  · obtain ⟨-, p, hp⟩ := hbelongs.call hcal
    obtain ⟨j, -, r', -, -, hstands', hm⟩ := hstands.callee h.length hp
    obtain ⟨r'', hr'', hstart⟩ := h.exists_start hstands'.startsAt
    exact ⟨r'', hr'', by rw [hm, hstart]⟩
  · cases hcal

/-- Where control can go from the first jump of a block, and from its entry on. -/
theorem flows_cases (h : b.LaidOut program table) (hr : r ∈ b.regions 0 0 none 0)
    (ha : a = r.start ∨ r.entry ≤ a ∧ a ≤ r.exit) (hflows : Flows program a t) :
    a = r.start ∧ t = r.entry ∨ (∃ i : Nat, t = i ∧ r.entry < i ∧ i ≤ r.exit) ∨
      ∃ r' ∈ b.regions 0 0 none 0, t = r'.start := by
  have hstands := h.stands r hr
  rcases ha with rfl | ⟨hlo, hhi⟩
  · exact .inl ⟨rfl, hstands.flows_start h.length hflows⟩
  · obtain ⟨i, ins, hi, hins, ht⟩ := hflows
    obtain rfl : a = i := by omega
    unfold Instruction.targets at ht
    split at ht
    · rename_i hcal
      rcases List.mem_cons.1 ht with rfl | ht
      · exact .inr (.inr (h.target_of_call hr hlo hhi hins hcal))
      · exact .inr (.inl (hstands.successors_within h.length hlo hhi hins ht))
    · exact .inr (.inl (hstands.successors_within h.length hlo hhi hins ht))

/-- Control comes to the first jump of a block, and to the code from its entry to its return. -/
theorem covers_of_reached (h : b.LaidOut program table) (hreached : Reached program t) :
    ∃ r ∈ b.regions 0 0 none 0, ∃ i : Nat, t = i ∧ (i = r.start ∨ r.entry ≤ i ∧ i ≤ r.exit) := by
  induction hreached with
  | refl =>
    obtain ⟨r, hr, hstart⟩ := h.exists_main
    exact ⟨r, hr, 0, rfl, .inl hstart.symm⟩
  | tail _ hflows ih =>
    obtain ⟨r, hr, i, rfl, hi⟩ := ih
    rcases h.flows_cases hr hi hflows with ⟨-, rfl⟩ | ⟨i', rfl, hlo, hhi⟩ | ⟨r', hr', rfl⟩
    · exact ⟨r, hr, r.entry, rfl, .inr ⟨Nat.le_refl _, Nat.le_of_lt r.entry_lt_exit⟩⟩
    · exact ⟨r, hr, i', rfl, .inr ⟨Nat.le_of_lt hlo, hhi⟩⟩
    · exact ⟨r', hr', r'.start, rfl, .inl rfl⟩

theorem fetch_of_reached (h : b.LaidOut program table) (hreached : Reached program t) :
    ∃ ins, fetch program t = some ins ∧ ins ≠ ⟨.inc, 0, 0, 1⟩ := by
  obtain ⟨r, hr, i, rfl, hi⟩ := h.covers_of_reached hreached
  have hstands := h.stands r hr
  rcases hi with rfl | ⟨hlo, hhi⟩
  · refine ⟨_, Block.jmp_at_start hstands.code, ?_⟩
    simp [refer, instruction]
  · have hexit := hstands.exit_lt
    have hi : i < program.length := by omega
    obtain ⟨ins, hins⟩ : ∃ ins, program[i]? = some ins := ⟨_, List.getElem?_eq_getElem hi⟩
    refine ⟨ins, hins, ?_⟩
    rintro rfl
    cases (hstands.eq_entry_of_inc hlo hhi hins rfl).2

/-- Control comes to the frame of a block from the first jump of the block only. -/
theorem opens_of_flows (h : b.LaidOut program table) {a : Int} (hreached : Reached program a)
    (hflows : Flows program a t) (hframe : fetch program t = some ⟨.inc, 0, 0, 4⟩) :
    ∃ scope, Opens program table scope a t := by
  obtain ⟨r, hr, i, rfl, hi⟩ := h.covers_of_reached hreached
  rcases h.flows_cases hr hi hflows with ⟨rfl, rfl⟩ | ⟨i', rfl, hlo, hhi⟩ | ⟨r', hr', rfl⟩
  · exact ⟨r.scope, (h.stands r hr).opens h.length⟩
  · have := ((h.stands r hr).eq_entry_of_inc (Nat.le_of_lt hlo) hhi hframe rfl).1
    omega
  · cases (h.stands r' hr').eq_skip hframe

end Block.LaidOut

/-! ### Runs of the machine -/

/-- The address of the first jump of a block, or that of its frame. -/
def Block.Entering (b : Block) (a : Nat) : Prop :=
  ∃ r ∈ b.regions 0 0 none 0, a = r.start ∨ a = r.entry

/-- An address in the statement of a block, or that of its return. -/
def Block.Inside (b : Block) (a : Nat) : Prop :=
  ∃ r ∈ b.regions 0 0 none 0, r.entry < a ∧ a ≤ r.exit

/-- The activations from the caller of an activation on, if this caller goes on at `a`: they are inside their blocks,
and each of them has reserved its frame. -/
def Block.Suspends (b : Block) : (a : Nat) → List (Nat × Int) → Prop
  | _, [] => True
  | a, (a', n) :: outer => b.Inside a ∧ n = 4 ∧ b.Suspends a' outer

theorem Block.Suspends.reserved {b : Block} {a : Nat} {outer : List (Nat × Int)} (h : b.Suspends a outer) :
    ∀ activation ∈ outer, activation.2 = 4 := by
  induction outer generalizing a with
  | nil => simp
  | cons activation outer ih =>
    obtain ⟨-, hfour, houter⟩ := h
    rintro activation' (_ | ⟨_, hmem⟩)
    · exact hfour
    · exact ih houter activation' hmem

/-- An activation at the address `a` has reserved nothing as long as it enters its block, and its frame from there
on. -/
def Block.Reserves (b : Block) (a : Nat) (n : Int) : Prop :=
  n = 0 ∧ b.Entering a ∨ n = 4 ∧ b.Inside a

/-- All activations have reserved what they should have at their addresses. -/
def Machine.Framed (b : Block) (s : Machine) : Prop :=
  ∃ a n outer, s.activations = (a, n) :: outer ∧ b.Suspends a outer ∧ b.Reserves s.pc n

namespace Block.LaidOut

open Machine

variable {program : List Instruction} {table : SymbolTable} {b : Block} {a : Nat} {n : Int} {ins : Instruction}
  {ops : Arithmetic} {s s' : Machine}

theorem entering_cases (h : b.LaidOut program table) (ha : b.Entering a) (hins : program[a]? = some ins) :
    (∃ r ∈ b.regions 0 0 none 0, ins.op = .jmp ∧ ins.successors a = [(r.entry : Int)]) ∨
      ins = instruction .inc 4 ∧ b.Inside (a + 1) := by
  obtain ⟨r, hr, rfl | rfl⟩ := ha
  · have hstands := h.stands r hr
    refine .inl ⟨r, hr, ?_, hstands.successors_start h.length hins⟩
    rw [hstands.eq_skip hins]
    rfl
  · have hentry := r.entry_lt_exit
    have hframe := (Block.placed_entry (h.stands r hr).code).head
    exact .inr ⟨Option.some.inj (hins.symm.trans hframe), r, hr, by omega, by omega⟩

theorem inside_of_successors (h : b.LaidOut program table) (ha : b.Inside a) (hins : program[a]? = some ins) {t : Nat}
    (ht : (t : Int) ∈ ins.successors a) : b.Inside t := by
  obtain ⟨r, hr, hlo, hhi⟩ := ha
  obtain ⟨i, hi, hlo', hhi'⟩ := (h.stands r hr).successors_within h.length (Nat.le_of_lt hlo) hhi hins ht
  exact ⟨r, hr, by omega, by omega⟩

/-- Only an activation that has reserved nothing reserves something, and it reserves the frame of its block. -/
theorem reserves_of_inc (h : b.LaidOut program table) (ha : b.Reserves a n) (hins : program[a]? = some ins)
    (hinc : ins.op = .inc) : n = 0 ∧ ins = instruction .inc 4 ∧ b.Inside (a + 1) := by
  rcases ha with ⟨hzero, hentering⟩ | ⟨-, r, hr, hlo, hhi⟩
  · rcases h.entering_cases hentering hins with ⟨r, -, hjmp, -⟩ | hframe
    · rw [hjmp] at hinc
      cases hinc
    · exact ⟨hzero, hframe⟩
  · have := ((h.stands r hr).eq_entry_of_inc (Nat.le_of_lt hlo) hhi hins hinc).1
    omega

/-- An activation that calls or returns has reserved its frame. -/
theorem reserves_of_leaving (h : b.LaidOut program table) (ha : b.Reserves a n) (hins : program[a]? = some ins)
    (hop : ins.op = .cal ∨ ins.op = .rtn) : n = 4 ∧ b.Inside a := by
  rcases ha with ⟨-, hentering⟩ | hinside
  · rcases h.entering_cases hentering hins with ⟨r, -, hjmp, -⟩ | ⟨rfl, -⟩
    · rw [hjmp] at hop
      rcases hop with hop | hop <;> cases hop
    · rcases hop with hop | hop <;> cases hop
  · exact hinside

theorem framed_start (h : b.LaidOut program table) (input : List Int) : (Machine.start input).Framed b := by
  obtain ⟨r, hr, hstart⟩ := h.exists_main
  exact ⟨0, 0, [], rfl, trivial, .inl ⟨rfl, r, hr, .inl hstart.symm⟩⟩

theorem framed_step (h : b.LaidOut program table) (hs : s.Framed b) (hstep : step ops program s = some s') :
    s'.Framed b := by
  obtain ⟨ins, hins, hexecute⟩ := Option.bind_eq_some_iff.1 hstep
  obtain ⟨a, n, outer, hactivations, houter, hn⟩ := hs
  rcases (execute_effect hexecute).2 with ⟨hop, hsame, hpc⟩ | ⟨hinc, hpc, a', n', outer', hbefore, hafter⟩ |
    ⟨hcal, hpc, hafter⟩ | ⟨hrtn, hne, n', hbefore⟩
  · refine ⟨a, n, outer, hsame.trans hactivations, houter, ?_⟩
    rcases hn with ⟨rfl, hentering⟩ | ⟨rfl, hinside⟩
    · rcases h.entering_cases hentering hins with ⟨r, hr, -, hsuccessors⟩ | ⟨rfl, -⟩
      · rw [hsuccessors, List.mem_singleton] at hpc
        exact .inl ⟨rfl, r, hr, .inr (by omega)⟩
      · exact absurd rfl hop
    · exact .inr ⟨rfl, h.inside_of_successors hinside hins hpc⟩
  · rw [hactivations] at hbefore
    cases hbefore
    obtain ⟨rfl, rfl, hinside⟩ := h.reserves_of_inc hn hins hinc
    exact ⟨a, 4, outer, hafter, houter, .inr ⟨rfl, hpc ▸ hinside⟩⟩
  · -- the caller waits at the next address, and the callee is at the start of its block
    obtain ⟨rfl, hinside⟩ := h.reserves_of_leaving hn hins (.inl hcal)
    have hnext : b.Inside (s.pc + 1) := h.inside_of_successors hinside hins (by simp [Instruction.successors, hcal])
    obtain ⟨r, hr, hlo, hhi⟩ := hinside
    obtain ⟨r', hr', hm⟩ := h.target_of_call hr (Nat.le_of_lt hlo) hhi hins hcal
    refine ⟨s.pc + 1, 0, (a, 4) :: outer, by rw [hafter, hactivations], ⟨hnext, rfl, houter⟩, ?_⟩
    exact .inl ⟨rfl, r', hr', .inl (by omega)⟩
  · rw [hactivations] at hbefore
    obtain ⟨⟨⟩, rfl⟩ := List.cons_eq_cons.1 hbefore
    cases hcallers : s'.activations with
    | nil => exact absurd hcallers hne
    | cons caller outer =>
      rw [hcallers] at houter
      obtain ⟨hinside, hfour, houter⟩ := houter
      exact ⟨caller.1, caller.2, outer, hcallers, houter, .inr ⟨hfour, hinside⟩⟩

theorem framed_of_runs (h : b.LaidOut program table) (hruns : Runs ops program s s') (hs : s.Framed b) :
    s'.Framed b := by
  induction hruns with
  | refl => exact hs
  | head hstep _ ih => exact ih (h.framed_step hs hstep)

theorem frame_of_inc (h : b.LaidOut program table) (hs : s.Framed b) (hins : program[s.pc]? = some ins)
    (hinc : ins.op = .inc) : ins = instruction .inc 4 ∧ ∃ f outer, s.frames = f :: outer ∧ f.reserved = 0 := by
  obtain ⟨a, n, outer, hactivations, -, hn⟩ := hs
  obtain ⟨rfl, hframe, -⟩ := h.reserves_of_inc hn hins hinc
  obtain ⟨f, outer', hframes, hf, -⟩ := List.map_eq_cons_iff.1 hactivations
  exact ⟨hframe, f, outer', hframes, (Prod.mk.inj hf).2⟩

theorem reserved_of_rtn (h : b.LaidOut program table) (hs : s.Framed b) (hins : program[s.pc]? = some ins)
    (hrtn : ins.op = .rtn) : ∀ f ∈ s.frames, f.reserved = 4 := by
  obtain ⟨a, n, outer, hactivations, houter, hn⟩ := hs
  obtain ⟨rfl, -⟩ := h.reserves_of_leaving hn hins (.inr hrtn)
  intro f hf
  have hmem : (f.returnTo, f.reserved) ∈ s.activations := List.mem_map.2 ⟨f, hf, rfl⟩
  rw [hactivations] at hmem
  rcases List.mem_cons.1 hmem with hf | hf
  · exact (Prod.mk.inj hf).2
  · exact houter.reserved _ hf

end Block.LaidOut

/-! ### Compilations -/

/-- The way of the control through a compiled program.  Control only comes to addresses of the program, and never to a
reservation of a single cell.  Wherever an activation starts, it is at the start of a block: every way from there on
begins with the first jump of the block and goes to its frame, and of the instructions that the activation executes this
is the only one that reserves cells.  Control comes to the frame of a block from the first jump of this block only.  So,
when a machine runs the program, an activation reserves four cells when it has none, and has four cells when it
returns. -/
theorem single_cells_unreached {tokens : List Token} {capacity : Nat} {compiled : CompiledProgram}
    (hcapacity : capacity ≤ 2 ^ 31) (h : (compile tokens capacity).outcome = .ok compiled) :
    (∀ a, Reached compiled.program.instructions.toList a →
      ∃ ins, fetch compiled.program.instructions.toList a = some ins ∧ ins ≠ ⟨.inc, 0, 0, 1⟩) ∧
    (∀ a, IsEntrance compiled.program.instructions.toList a →
      ∃ scope lo, Opens compiled.program.instructions.toList compiled.symbols scope a lo ∧
        (∀ t path, (a :: t :: path).IsChain (Flows compiled.program.instructions.toList) → t = lo) ∧
        ∀ t path, (a :: t :: path).IsChain (Proceeds compiled.program.instructions.toList) →
          ((a :: t :: path).filterMap (fetch compiled.program.instructions.toList)).filter (·.op = .inc) =
            [⟨.inc, 0, 0, 4⟩]) ∧
    (∀ a t, Reached compiled.program.instructions.toList a → Flows compiled.program.instructions.toList a t →
      fetch compiled.program.instructions.toList t = some ⟨.inc, 0, 0, 4⟩ →
        ∃ scope, Opens compiled.program.instructions.toList compiled.symbols scope a t) ∧
    ∀ (ops : Arithmetic) (input : List Int) (s : Machine) (ins : Instruction),
      Machine.Runs ops compiled.program.instructions.toList (.start input) s →
        compiled.program.instructions[s.pc]? = some ins →
          (ins.op = .inc → ins = ⟨.inc, 0, 0, 4⟩ ∧ ∃ f outer, s.frames = f :: outer ∧ f.reserved = 0) ∧
          (ins.op = .rtn → ∀ f ∈ s.frames, f.reserved = 4) := by
  obtain ⟨b, hb⟩ := exists_tree_of_ok h
  obtain ⟨hscoped, htranslates, hfits⟩ := translates_of_ok hb h
  have hlaid := htranslates.laidOut hscoped (by omega)
  have hdiscipline := htranslates.stackDiscipline hscoped (by omega)
  refine ⟨fun a => hlaid.fetch_of_reached, fun a ha => ?_, fun a t => hlaid.opens_of_flows,
    fun ops input s ins hruns hins => ?_⟩
  · obtain ⟨r, hr, rfl⟩ : ∃ r ∈ b.regions 0 0 none 0, a = r.start := by
      rcases ha with rfl | ⟨ins, hmem, hcal, rfl⟩
      · obtain ⟨r, hr, hstart⟩ := hlaid.exists_main
        exact ⟨r, hr, by rw [hstart]; rfl⟩
      · obtain ⟨i, hi⟩ := List.mem_iff_getElem?.1 hmem
        obtain ⟨-, j, start, hstart, hm⟩ := hdiscipline.call i ins hi hcal
        obtain ⟨r, hr, rfl⟩ := hlaid.exists_start hstart
        exact ⟨r, hr, hm⟩
    have hstands := hlaid.stands r hr
    refine ⟨r.scope, r.entry, hstands.opens hlaid.length, fun t path hpath => ?_, fun t path hpath => ?_⟩
    · exact hstands.flows_start hlaid.length (List.isChain_cons_cons.1 hpath).1
    · exact hstands.incs_along hlaid.length hpath
  · have hframed := hlaid.framed_of_runs hruns (hlaid.framed_start input)
    rw [← Array.getElem?_toList] at hins
    exact ⟨hlaid.frame_of_inc hframed hins, hlaid.reserved_of_rtn hframed hins⟩

/-- A procedure with a variable, called from a main block with a variable.  The cells at 1 and 3 are not reserved; the
procedure goes from 2 to its frame at 4 and returns at 5, when both activations have four cells. -/
theorem single_cells_unreached_call :
    ∃ compiled, (compile [.varSym, .ident "x", .semicolon, .procSym, .ident "p", .semicolon, .varSym, .ident "y",
        .semicolon, .semicolon, .callSym, .ident "p", .period] 20).outcome = .ok compiled ∧
      compiled.program.instructions[3]? = some ⟨.inc, 0, 0, 1⟩ ∧
      ¬Reached compiled.program.instructions.toList 3 ∧
      Reached compiled.program.instructions.toList 2 ∧
      (∃ scope, Opens compiled.program.instructions.toList compiled.symbols scope 2 4) ∧
      [2, 4, 5].IsChain (Proceeds compiled.program.instructions.toList) ∧
      ([2, 4, 5].filterMap (fetch compiled.program.instructions.toList)).filter (·.op = .inc) = [⟨.inc, 0, 0, 4⟩] ∧
      ∀ ops : Arithmetic, ∃ s : Machine, Machine.Runs ops compiled.program.instructions.toList (.start []) s ∧
        s.pc = 5 ∧ s.frames.length = 2 ∧ ∀ f ∈ s.frames, f.reserved = 4 := by
  let tree : Block := .mk [] ["x"] (.cons "p" (.mk [] ["y"] .nil .empty) .nil) (.call "p")
  have htree : tree.IsTreeOf [.varSym, .ident "x", .semicolon, .procSym, .ident "p", .semicolon, .varSym, .ident "y",
      .semicolon, .semicolon, .callSym, .ident "p", .period] := ⟨rfl, [], rfl⟩
  obtain ⟨compiled, hok⟩ := ok_of_scoped htree (by decide) (not_outOfRoom (by decide : _ ≤ 20))
  let program := [refer .jmp 6, instruction .inc 1, refer .jmp 4, instruction .inc 1, instruction .inc 4,
    instruction .rtn 0, instruction .inc 4, refer .cal 2, instruction .rtn 0, instruction .halt 3]
  have hprogram : compiled.program.instructions.toList = program := (translates_of_ok htree hok).2.1.program
  obtain ⟨hreached, hentrance, hframe, hruns⟩ := single_cells_unreached (by decide) hok
  refine ⟨compiled, hok, ?_⟩
  simp only [← Array.getElem?_toList] at hruns ⊢
  rw [hprogram] at hreached hentrance hframe hruns ⊢
  refine ⟨rfl, fun h => ?_, ?_⟩
  · obtain ⟨ins, hins, hne⟩ := hreached 3 h
    exact hne (Option.some.inj hins).symm
  have hstart : Relation.ReflTransGen (Flows program) 0 2 :=
    .tail (.tail (.tail .refl ⟨0, refer .jmp 6, rfl, rfl, by decide⟩) ⟨6, instruction .inc 4, rfl, rfl, by decide⟩)
      ⟨7, refer .cal 2, rfl, rfl, by decide⟩
  refine ⟨hstart, hframe 2 4 hstart ⟨2, refer .jmp 4, rfl, rfl, by decide⟩ rfl, ?_⟩
  have hpath : [2, 4, 5].IsChain (Proceeds program) := .cons_cons ⟨2, refer .jmp 4, rfl, rfl, by decide⟩
    (.cons_cons ⟨4, instruction .inc 4, rfl, rfl, by decide⟩ (.singleton 5))
  obtain ⟨scope, lo, -, -, hincs⟩ := hentrance 2 (.inr ⟨refer .cal 2, by simp [program], rfl, rfl⟩)
  refine ⟨hpath, hincs 4 [5] hpath, fun ops => ?_⟩
  have hrun : Machine.Runs ops program (.start []) _ :=
    (Machine.runs_jmp (by decide : 6 < _) rfl).trans <| (Machine.runs_inc rfl).trans <|
      (Machine.runs_cal (by decide : 2 < _) rfl).trans <| (Machine.runs_jmp (by decide : 4 < _) rfl).trans <|
        Machine.runs_inc rfl
  exact ⟨_, hrun, rfl, rfl, (hruns ops [] _ _ hrun rfl).2 rfl⟩

end PL0
