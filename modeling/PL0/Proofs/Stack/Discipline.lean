import PL0.Proofs.Language
import PL0.Proofs.Semantics.Machine
import PL0.Proofs.Stack.Depth

/-!
# The discipline of the operand stack

In a compiled program every address has a fixed number of operands, whichever way the control comes there.  There are
none at the start of a block, at a call and at a return, and for every instruction there are enough operands
(`StackDiscipline`).  So the machine that runs the program never lacks an operand (`StackDiscipline.balanced_of_runs`).
-/

namespace PL0

/-! ### Control flow -/

/-- Where control can go after the instruction at `a`.  A call goes on after its return. -/
def Instruction.successors (ins : Instruction) (a : Nat) : List Int :=
  match ins.op with
  | .jmp => [ins.m.toInt]
  | .jpc => [(a + 1 : Nat), ins.m.toInt]
  | .rtn | .halt => []
  | _ => [(a + 1 : Nat)]

/-- The number of operands at each address of a program with the given symbols. -/
structure StackDiscipline (program : List Instruction) (table : SymbolTable) (d : Nat → Nat) : Prop where
  start : ∀ scope, table.IsBlock scope → ∃ a, table.StartsAt scope a ∧ a < program.length ∧ d a = 0
  rtn : ∀ a ins, program[a]? = some ins → ins.op = .rtn → d a = 0
  call : ∀ a ins, program[a]? = some ins → ins.op = .cal →
    d a = 0 ∧ ∃ (j start : Nat), table.StartsAt (some j) start ∧ ins.m.toInt = (start : Int)
  pops : ∀ a ins, program[a]? = some ins → ins.op.pops ≤ d a
  successor : ∀ a ins, program[a]? = some ins → ∀ t : Int, t ∈ ins.successors a →
    ∃ a' : Nat, t = (a' : Int) ∧ a' < program.length ∧ d a' = d a - ins.op.pops + ins.op.pushes

theorem Instruction.mem_successors {ins : Instruction} {a : Nat} {t : Int} (h : t ∈ ins.successors a) :
    t = (a + 1 : Nat) ∨ ins.op.isJump ∧ t = ins.m.toInt := by
  obtain ⟨op, r, l, m⟩ := ins
  cases op <;> simp [successors, Opcode.isJump] at h ⊢ <;> omega

/-! ### Compiled programs are disciplined -/

section

variable {program : List Instruction} {table : SymbolTable} {r : Region} {a : Nat} {ins : Instruction}

/-- A jump stands and goes where the stack is empty, once its own operand is gone. -/
private theorem Region.Stands.jump (h : r.Stands program table) (hlength : program.length ≤ 2 ^ 31)
    (hground : Grounded program r.start (r.block.code r.start)) (hins : program[a]? = some ins) (hr : r.Holds a ins)
    (hjump : ins.op.isJump) :
    depthAt program (a + 1) = 0 ∧ ∃ m : Nat, ins.m.toInt = m ∧ m < program.length ∧ depthAt program m = 0 := by
  have hexit := h.exit_lt
  cases hr with
  | skip =>
    have hentry := r.entry_lt_exit
    refine ⟨?_, r.entry, Int32.toInt_ofNat_of_lt (by omega), by omega, Region.depthAt_entry hground⟩
    rw [depthAt_succ hins, hground.2]
    rfl
  | cell i => cases hjump
  | frame => cases hjump
  | body i ins hi =>
    obtain ⟨hnext, m, hm, hborder⟩ := (h.belongs_body i ins hi).jump hjump
    have hbody := Region.grounded_body hground
    have hwithin := Statement.border_within hborder
    have hle : m ≤ r.exit := by
      unfold Region.exit Block.exit
      exact hwithin.2
    refine ⟨Statement.depthAt_border hbody hnext, m, ?_, by omega, Statement.depthAt_border hbody hborder⟩
    rw [hm, Int32.toInt_ofNat_of_lt (by omega)]
  | ret => cases hjump

private theorem Region.Stands.depthAt_rtn (h : r.Stands program table)
    (hground : Grounded program r.start (r.block.code r.start)) (hr : r.Holds a ins) (hrtn : ins.op = .rtn) :
    depthAt program a = 0 := by
  cases hr with
  | skip => cases hrtn
  | cell i => cases hrtn
  | frame => cases hrtn
  | body i ins hi => exact absurd hrtn (h.belongs_body i ins hi).ne_rtn
  | ret => exact Region.depthAt_exit hground

private theorem Region.Stands.call (h : r.Stands program table) (hlength : program.length ≤ 2 ^ 31)
    (hground : Grounded program r.start (r.block.code r.start)) (hr : r.Holds a ins) (hcal : ins.op = .cal) :
    depthAt program a = 0 ∧ ∃ (j start : Nat), table.StartsAt (some j) start ∧ ins.m.toInt = (start : Int) := by
  cases hr with
  | skip => cases hcal
  | cell i => cases hcal
  | frame => cases hcal
  | body i ins hi =>
    obtain ⟨hborder, p, hp⟩ := (h.belongs_body i ins hi).call hcal
    obtain ⟨j, -, r', -, hscope, hstands, hm⟩ := h.callee hlength hp
    have hstart := hstands.startsAt
    rw [hscope] at hstart
    exact ⟨Statement.depthAt_border (Region.grounded_body hground) hborder, j, r'.start, hstart, hm⟩
  | ret => cases hcal

end

/-- In a translated program the number of operands is that of the code before the address. -/
theorem CompiledProgram.Translates.stackDiscipline {compiled : CompiledProgram} {b : Block} (h : compiled.Translates b)
    (hscoped : b.scoped) (hlength : b.program.length ≤ 2 ^ 31) :
    StackDiscipline compiled.program.instructions.toList compiled.symbols
      (depthAt compiled.program.instructions.toList) := by
  have hlaid := h.laidOut hscoped hlength
  rw [h.program] at hlaid ⊢
  have hground : Grounded b.program 0 (b.code 0) := ⟨⟨[], _, rfl, rfl⟩, rfl⟩
  have hregions := Block.grounded_regions hground 0 none 0
  have hsize : b.program.length = b.size + 1 := by simp [Block.program]
  constructor
  · intro scope hscope
    obtain ⟨r, hr, rfl⟩ := hlaid.exists_region scope hscope
    have hexit := (hlaid.stands r hr).exit_lt
    have hentry := r.start_lt_entry
    have hlt := r.entry_lt_exit
    exact ⟨r.start, (hlaid.stands r hr).startsAt, by omega, (hregions r hr).2⟩
  · intro a ins hins hrtn
    rcases b.holds_program hins with ⟨-, rfl⟩ | ⟨-, r, hr, hholds⟩
    · cases hrtn
    · exact (hlaid.stands r hr).depthAt_rtn (hregions r hr) hholds hrtn
  · intro a ins hins hcal
    rcases b.holds_program hins with ⟨-, rfl⟩ | ⟨-, r, hr, hholds⟩
    · cases hcal
    · exact (hlaid.stands r hr).call hlength (hregions r hr) hholds hcal
  · intro a ins hins
    exact b.lifts_program.pops_le hins
  · intro a ins hins t ht
    rcases b.holds_program hins with ⟨-, rfl⟩ | ⟨ha, r, hr, hholds⟩
    · cases ht
    rcases Instruction.mem_successors ht with rfl | ⟨hjump, rfl⟩
    · exact ⟨a + 1, rfl, by omega, depthAt_succ hins⟩
    · obtain ⟨hnext, m, hm, hlt, hzero⟩ := (hlaid.stands r hr).jump hlength (hregions r hr) hins hholds hjump
      rw [depthAt_succ hins] at hnext
      exact ⟨m, hm, hlt, hzero.trans hnext.symm⟩

/-! ### Runs of the machine -/

namespace Machine

variable {ops : Arithmetic} {program : List Instruction} {s s' : Machine} {ins : Instruction}

/-- Where the callers of the open activations go on, and how many cells these have reserved. -/
def activations (s : Machine) : List (Nat × Int) :=
  s.frames.map fun f => (f.returnTo, f.reserved)

/-- Where the open activations go on. -/
def returns (s : Machine) : List Nat :=
  s.frames.map (·.returnTo)

theorem returns_eq (s : Machine) : s.returns = s.activations.map Prod.fst := by
  simp [returns, activations]

theorem ancestors_suffix (n : Nat) (frames : List Frame) : ancestors n frames <:+ frames := by
  induction n generalizing frames with
  | zero => exact List.suffix_refl _
  | succ n ih =>
    cases frames with
    | nil => exact List.suffix_refl _
    | cons f frames => exact ((ih _).trans (List.drop_suffix _ _)).trans (List.suffix_cons f frames)

/-- A store changes the cells of a frame and nothing else. -/
theorem map_storeAt {l a : Int32} {v : Int} {frames frames' : List Frame} (h : storeAt l a v frames = some frames') :
    frames'.map (fun f => (f.returnTo, f.reserved)) = frames.map fun f => (f.returnTo, f.reserved) := by
  have hsuffix : reach l frames <:+ frames := by
    unfold reach
    split
    · exact ancestors_suffix _ _
    · exact List.nil_suffix
  unfold storeAt at h
  split at h
  · cases h
  · rename_i f outer hreach
    rw [hreach] at hsuffix
    obtain ⟨inner, rfl⟩ := hsuffix
    cases h
    simp [Frame.store]

private theorem unary?_pops {op : Opcode} {f : Int → Int} (h : unary? ops op = some f) :
    op.pops = 1 ∧ op.pushes = 1 := by
  cases op <;> cases h <;> exact ⟨rfl, rfl⟩

private theorem binary?_pops {op : Opcode} {f : Int → Int → Option Int} (h : binary? ops op = some f) :
    op.pops = 2 ∧ op.pushes = 1 := by
  cases op <;> cases h <;> exact ⟨rfl, rfl⟩

private theorem length_calculate {op : Opcode} {operands operands' : List Int}
    (h : calculate ops op operands = some operands') :
    op.pops ≤ operands.length ∧ operands'.length = op.lift operands.length := by
  unfold calculate at h
  unfold Opcode.lift
  split at h
  · rename_i hf
    obtain ⟨hpops, hpushes⟩ := unary?_pops hf
    cases h
    simp [hpops, hpushes]
  · rename_i hf
    obtain ⟨hpops, hpushes⟩ := binary?_pops hf
    obtain ⟨c, -, rfl⟩ := Option.map_eq_some_iff.1 h
    simp [hpops, hpushes]
  · cases h

/-- What an instruction does to the operands, the activations and the control. -/
theorem execute_effect (h : execute ops ins s = some s') :
    (ins.op.pops ≤ s.operands.length ∧ s'.operands.length = ins.op.lift s.operands.length) ∧
    (ins.op ≠ .inc ∧ s'.activations = s.activations ∧ (s'.pc : Int) ∈ ins.successors s.pc ∨
      ins.op = .inc ∧ s'.pc = s.pc + 1 ∧ (∃ a n outer, s.activations = (a, n) :: outer ∧
        s'.activations = (a, n + ins.m.toInt) :: outer) ∨
      ins.op = .cal ∧ ins.m.toInt = s'.pc ∧ s'.activations = (s.pc + 1, 0) :: s.activations ∨
      ins.op = .rtn ∧ s'.activations ≠ [] ∧ ∃ n, s.activations = (s'.pc, n) :: s'.activations) := by
  obtain ⟨op, r, l, m⟩ := ins
  obtain ⟨pc, operands, frames, input, output⟩ := s
  have htarget : ∀ {a : Nat}, target? m = some a → m.toInt = a := by
    intro a ha
    unfold target? at ha
    split at ha
    · cases ha
      omega
    · cases ha
  cases op with
  | lit =>
    cases h
    exact ⟨⟨Nat.zero_le _, rfl⟩, .inl ⟨by simp, rfl, List.mem_singleton.2 rfl⟩⟩
  | lod =>
    obtain ⟨f, -, rfl⟩ := Option.map_eq_some_iff.1 h
    exact ⟨⟨Nat.zero_le _, rfl⟩, .inl ⟨by simp, rfl, List.mem_singleton.2 rfl⟩⟩
  | sto =>
    cases operands with
    | nil => cases h
    | cons v rest =>
      obtain ⟨frames', hstore, rfl⟩ := Option.map_eq_some_iff.1 h
      exact ⟨⟨Nat.le_add_left _ _, rfl⟩, .inl ⟨by simp, map_storeAt hstore, List.mem_singleton.2 rfl⟩⟩
  | cal =>
    simp only [execute] at h
    split at h
    · rename_i around f outer a hreach ha
      cases h
      exact ⟨⟨Nat.zero_le _, rfl⟩, .inr (.inr (.inl ⟨rfl, htarget ha, rfl⟩))⟩
    · cases h
  | rtn =>
    rcases frames with _ | ⟨f, _ | ⟨g, outer⟩⟩
    · cases h
    · cases h
    · cases h
      exact ⟨⟨Nat.zero_le _, rfl⟩, .inr (.inr (.inr ⟨rfl, List.cons_ne_nil _ _, f.reserved, rfl⟩))⟩
  | inc =>
    cases frames with
    | nil => cases h
    | cons f outer =>
      cases h
      exact ⟨⟨Nat.zero_le _, rfl⟩, .inr (.inl ⟨rfl, rfl, _, _, _, rfl, rfl⟩)⟩
  | jmp =>
    obtain ⟨a, ha, rfl⟩ := Option.map_eq_some_iff.1 h
    exact ⟨⟨Nat.zero_le _, rfl⟩, .inl ⟨by simp, rfl, List.mem_singleton.2 (htarget ha).symm⟩⟩
  | jpc =>
    cases operands with
    | nil => cases h
    | cons v rest =>
      simp only [execute] at h
      split at h
      · obtain ⟨a, ha, rfl⟩ := Option.map_eq_some_iff.1 h
        refine ⟨⟨Nat.le_add_left _ _, rfl⟩, .inl ⟨by simp, rfl, ?_⟩⟩
        exact List.mem_cons_of_mem _ (List.mem_singleton.2 (htarget ha).symm)
      · cases h
        exact ⟨⟨Nat.le_add_left _ _, rfl⟩, .inl ⟨by simp, rfl, List.mem_cons_self⟩⟩
  | read =>
    cases input with
    | nil => cases h
    | cons v rest =>
      cases h
      exact ⟨⟨Nat.zero_le _, rfl⟩, .inl ⟨by simp, rfl, List.mem_singleton.2 rfl⟩⟩
  | write =>
    cases operands with
    | nil => cases h
    | cons v rest =>
      cases h
      exact ⟨⟨Nat.le_add_left _ _, rfl⟩, .inl ⟨by simp, rfl, List.mem_singleton.2 rfl⟩⟩
  | halt => cases h
  | neg | add | sub | mul | div | odd | eql | neq | lss | leq | gtr | geq =>
    obtain ⟨operands', hcalculate, rfl⟩ := Option.map_eq_some_iff.1 h
    exact ⟨length_calculate hcalculate, .inl ⟨by simp, rfl, List.mem_singleton.2 rfl⟩⟩

/-- What an instruction does to the operands and to the control. -/
theorem execute_cases (h : execute ops ins s = some s') :
    (ins.op.pops ≤ s.operands.length ∧ s'.operands.length = ins.op.lift s.operands.length) ∧
    (s'.returns = s.returns ∧ (s'.pc : Int) ∈ ins.successors s.pc ∨
      ins.op = .cal ∧ ins.m.toInt = s'.pc ∧ s'.returns = (s.pc + 1) :: s.returns ∨
      ins.op = .rtn ∧ s.returns = s'.pc :: s'.returns) := by
  obtain ⟨hoperands, hcontrol⟩ := execute_effect h
  refine ⟨hoperands, ?_⟩
  simp only [returns_eq]
  rcases hcontrol with ⟨-, hsame, hpc⟩ | ⟨hinc, hpc, a, n, outer, hbefore, hafter⟩ | ⟨hcal, hpc, hafter⟩ |
    ⟨hrtn, -, n, hbefore⟩
  · exact .inl ⟨by rw [hsame], hpc⟩
  · refine .inl ⟨by rw [hbefore, hafter]; rfl, ?_⟩
    simp [Instruction.successors, hinc, hpc]
  · exact .inr (.inl ⟨hcal, hpc, by rw [hafter]; rfl⟩)
  · exact .inr (.inr ⟨hrtn, by rw [hbefore]; rfl⟩)

/-- The operands are those of the address, and the open activations go on where there are none. -/
structure Balanced (d : Nat → Nat) (s : Machine) : Prop where
  operands : s.operands.length = d s.pc
  returns : ∀ a ∈ s.returns, d a = 0

end Machine

namespace StackDiscipline

open Machine

variable {program : List Instruction} {table : SymbolTable} {d : Nat → Nat} {ops : Arithmetic} {s s' : Machine}

theorem balanced_start (h : StackDiscipline program table d) (input : List Int) : (Machine.start input).Balanced d := by
  obtain ⟨a, ha, -, hzero⟩ := h.start none trivial
  obtain rfl : a = 0 := ha
  refine ⟨hzero.symm, fun a ha => ?_⟩
  obtain rfl := List.mem_singleton.1 ha
  exact hzero

theorem balanced_step (h : StackDiscipline program table d) (hs : s.Balanced d)
    (hstep : step ops program s = some s') : s'.Balanced d := by
  obtain ⟨ins, hins, hexecute⟩ := Option.bind_eq_some_iff.1 hstep
  obtain ⟨⟨hpops, hlength⟩, hcontrol⟩ := execute_cases hexecute
  rcases hcontrol with ⟨hreturns, hpc⟩ | ⟨hcal, hpc, hreturns⟩ | ⟨hrtn, hreturns⟩
  · obtain ⟨a, ha, -, hd⟩ := h.successor s.pc ins hins _ hpc
    obtain rfl : s'.pc = a := by omega
    refine ⟨?_, by rw [hreturns]; exact hs.returns⟩
    rw [hlength, hd, hs.operands]
    rfl
  · -- the callee starts without operands, and so does the caller when it goes on
    obtain ⟨hzero, j, start, hstart, hm⟩ := h.call s.pc ins hins hcal
    obtain ⟨a, ha, -, hd⟩ := h.start (some j) hstart.isBlock
    obtain rfl := ha.unique hstart
    obtain rfl : s'.pc = a := by omega
    have hmem : ((s.pc + 1 : Nat) : Int) ∈ ins.successors s.pc := by simp [Instruction.successors, hcal]
    obtain ⟨next, hnext, -, hdnext⟩ := h.successor s.pc ins hins _ hmem
    obtain rfl : s.pc + 1 = next := by omega
    rw [hs.operands, hzero, hcal] at hlength
    rw [hzero, hcal] at hdnext
    refine ⟨by rw [hlength, hd]; rfl, fun a ha => ?_⟩
    rw [hreturns] at ha
    rcases List.mem_cons.1 ha with rfl | ha
    · exact hdnext
    · exact hs.returns a ha
  · have hzero := h.rtn s.pc ins hins hrtn
    rw [hs.operands, hzero, hrtn] at hlength
    have hreturn : ∀ a ∈ s'.pc :: s'.returns, d a = 0 := by
      rw [← hreturns]
      exact hs.returns
    refine ⟨?_, fun a ha => hreturn a (List.mem_cons_of_mem _ ha)⟩
    rw [hlength, hreturn _ List.mem_cons_self]
    rfl

/-- Along every run the number of operands is that of the address, so no instruction lacks an operand. -/
theorem balanced_of_runs (h : StackDiscipline program table d) (hruns : Runs ops program s s') (hs : s.Balanced d) :
    s'.Balanced d := by
  induction hruns with
  | refl => exact hs
  | head hstep _ ih => exact ih (h.balanced_step hs hstep)

end StackDiscipline

/-! ### Compilations -/

/-- In a compiled program there is a number of operands for each address, with none at the start of a block and at a
return, which every instruction respects.  A machine that runs the program has this number of operands whenever it comes
to an address, so it always has the operands it needs.  At the start and at the end of the code of each statement there
are none. -/
theorem stack_discipline {tokens : List Token} {capacity : Nat} {compiled : CompiledProgram}
    (hcapacity : capacity ≤ 2 ^ 31) (h : (compile tokens capacity).outcome = .ok compiled) :
    ∃ d, StackDiscipline compiled.program.instructions.toList compiled.symbols d ∧
      (∀ (ops : Arithmetic) (input : List Int) (s : Machine),
        Machine.Runs ops compiled.program.instructions.toList (.start input) s → s.operands.length = d s.pc ∧
          ∀ ins, compiled.program.instructions[s.pc]? = some ins → ins.op.pops ≤ s.operands.length) ∧
      ∃ b : Block, b.IsTreeOf tokens ∧ ∀ r ∈ b.regions 0 0 none 0, ∀ site ∈ r.sites,
        Placed compiled.program.instructions.toList site.start (site.statement.code r.env site.start) ∧
          d site.start = 0 ∧ d site.finish = 0 := by
  obtain ⟨b, hb⟩ := exists_tree_of_ok h
  obtain ⟨hscoped, htranslates, hfits⟩ := translates_of_ok hb h
  have hdiscipline := htranslates.stackDiscipline hscoped (by omega)
  refine ⟨_, hdiscipline, fun ops input s hruns => ?_, b, hb, fun r hr site hsite => ?_⟩
  · have hbalanced := hdiscipline.balanced_of_runs hruns (hdiscipline.balanced_start input)
    refine ⟨hbalanced.operands, fun ins hins => ?_⟩
    rw [hbalanced.operands]
    exact hdiscipline.pops s.pc ins (by rwa [Array.getElem?_toList])
  · have hground : Grounded compiled.program.instructions.toList 0 (b.code 0) := by
      rw [htranslates.program]
      exact ⟨⟨[], _, rfl, rfl⟩, rfl⟩
    have hbody := Region.grounded_body (Block.grounded_regions hground 0 none 0 r hr)
    have hsite' := Statement.grounded_sites hbody site hsite
    exact ⟨hsite'.1, hsite'.2, Statement.depthAt_finish hsite'⟩

/-- A loop that calls a procedure.  Its test leaves one operand for the conditional jump at 8, which goes to 13. -/
theorem stack_discipline_loop :
    ∃ compiled d, (compile [.varSym, .ident "x", .semicolon, .procSym, .ident "p", .semicolon, .semicolon, .whileSym,
        .oddSym, .ident "x", .doSym, .beginSym, .callSym, .ident "p", .semicolon, .readSym, .ident "x", .endSym,
        .period] 30).outcome = .ok compiled ∧
      StackDiscipline compiled.program.instructions.toList compiled.symbols d ∧
      compiled.program.instructions[8]? = some ⟨.jpc, 0, 0, 13⟩ ∧ d 8 = 1 ∧ d 13 = 0 := by
  let tree : Block := .mk [] ["x"] (.cons "p" (.mk [] [] .nil .empty) .nil)
    (.whileDo (.odd (.mk none (.mk (.name "x") .nil) .nil)) (.compound (.call "p") (.cons (.read "x") .nil)))
  have htree : tree.IsTreeOf [.varSym, .ident "x", .semicolon, .procSym, .ident "p", .semicolon, .semicolon, .whileSym,
      .oddSym, .ident "x", .doSym, .beginSym, .callSym, .ident "p", .semicolon, .readSym, .ident "x", .endSym,
      .period] := ⟨rfl, [], rfl⟩
  obtain ⟨compiled, hok⟩ := ok_of_scoped htree (by decide) (not_outOfRoom (by decide : _ ≤ 30))
  have hprogram := (translates_of_ok htree hok).2.1.program
  obtain ⟨d, hdiscipline, -⟩ := stack_discipline (by decide) hok
  have hjpc : compiled.program.instructions.toList[8]? = some ⟨.jpc, 0, 0, 13⟩ := by
    rw [hprogram]
    decide
  have hrtn : compiled.program.instructions.toList[13]? = some ⟨.rtn, 0, 0, 0⟩ := by
    rw [hprogram]
    decide
  have hzero : d 13 = 0 := hdiscipline.rtn 13 _ hrtn rfl
  have hpops : 1 ≤ d 8 := hdiscipline.pops 8 _ hjpc
  obtain ⟨a, ha, -, hd⟩ := hdiscipline.successor 8 _ hjpc 13 (by decide)
  obtain rfl : 13 = a := by omega
  have hd' : d 13 = d 8 - 1 + 0 := hd
  exact ⟨compiled, d, hok, hdiscipline, by rwa [Array.getElem?_toList] at hjpc, by omega, hzero⟩

end PL0
