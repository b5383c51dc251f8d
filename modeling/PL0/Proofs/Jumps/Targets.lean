import Mathlib.Algebra.Group.Nat.Defs
import PL0.Proofs.Placement
import PL0.Proofs.Opcodes
import PL0.Proofs.Language
import PL0.Proofs.Jumps.Backpatching

/-!
# Where jumps go

The jumps in the code of a statement go forward, at most to the first address after the code, or they are the last
instruction of a loop and go back to the test of this loop (`Statement.jumps_code`).  In a block the last instruction
is no jump, so no jump leaves the block (`Block.jumps_code`).
-/

namespace PL0

/-! ### Loops -/

/-- A loop in the code: where its test starts, the code of the test, and where the jump back to the test is. -/
structure Loop where
  top : Nat
  test : List Instruction
  closing : Nat

/-- The test of a loop and the jump back to it stand where the loop says. -/
structure Loop.Stands (loop : Loop) (program : List Instruction) : Prop where
  test : Placed program loop.top loop.test
  closing : program[loop.closing]? = some (refer .jmp loop.top)
  lt : loop.top < loop.closing

section

variable (env : Env)

mutual

/-- The loops in a statement whose code starts at a given address. -/
def Statement.loops : Statement → Nat → List Loop
  | .compound first rest, start => first.loops start ++ rest.loops (start + first.size)
  | .ifThen c s, start => s.loops (start + c.size + 1)
  | .ifElse c s t, start =>
    s.loops (start + c.size + 1) ++ t.loops (start + c.size + 1 + s.size + 1)
  | .whileDo c s, start =>
    ⟨start, c.code env, start + c.size + 1 + s.size⟩ :: s.loops (start + c.size + 1)
  | _, _ => []

def StatementTail.loops : StatementTail → Nat → List Loop
  | .nil, _ => []
  | .cons s rest, start => s.loops start ++ rest.loops (start + s.size)

end

end

mutual

/-- The loops in a block and in its procedures. -/
def Block.loops : Block → Nat → List Loop
  | .mk consts vars procs body, start =>
    let b := Block.mk consts vars procs body
    procs.loops (b.procsStart start) ++ body.loops (b.env start) (b.entry start + 1)

def Procedures.loops : Procedures → Nat → List Loop
  | .nil, _ => []
  | .cons _ block rest, start => block.loops start ++ rest.loops (start + block.size)

end

/-! ### Jumps in a piece of code -/

/-- The jumps of `code`, which starts at `a`, stay between `lo` and `hi`: they go forward, or they close one of the
loops. -/
def JumpsWithin (loops : List Loop) (lo hi a : Nat) (code : List Instruction) : Prop :=
  ∀ i ins, code[i]? = some ins → ins.op.isJump → ∃ m, ins.m = Int32.ofNat m ∧
    (a + i < m ∧ m ≤ hi ∨ ins.op = .jmp ∧ lo ≤ m ∧ m < a + i ∧ ∃ loop ∈ loops, loop.closing = a + i ∧ loop.top = m)

namespace JumpsWithin

variable {loops loops' : List Loop} {lo lo' hi hi' a : Nat} {code code' : List Instruction} {ins : Instruction}

theorem append {n : Nat} (hn : code.length = n) (h : JumpsWithin loops lo hi a code)
    (h' : JumpsWithin loops lo hi (a + n) code') : JumpsWithin loops lo hi a (code ++ code') := by
  subst hn
  intro i ins hi hjump
  by_cases hlt : i < code.length
  · rw [List.getElem?_append_left hlt] at hi
    exact h i ins hi hjump
  · rw [List.getElem?_append_right (by omega)] at hi
    have := h' _ ins hi hjump
    rwa [show a + code.length + (i - code.length) = a + i by omega] at this

theorem nil : JumpsWithin loops lo hi a [] := by
  intro i ins hi
  simp at hi

private theorem single (h : ins.op.isJump → ∃ m, ins.m = Int32.ofNat m ∧
    (a < m ∧ m ≤ hi ∨ ins.op = .jmp ∧ lo ≤ m ∧ m < a ∧ ∃ loop ∈ loops, loop.closing = a ∧ loop.top = m)) :
    JumpsWithin loops lo hi a [ins] := by
  intro i ins' hi hjump
  cases i with
  | zero =>
    obtain rfl : ins = ins' := by simpa using hi
    exact h hjump
  | succ i => simp at hi

/-- An instruction that is no jump. -/
theorem cons (hins : ins.op.isJump = false) (h : JumpsWithin loops lo hi (a + 1) code) :
    JumpsWithin loops lo hi a (ins :: code) := by
  refine (show JumpsWithin loops lo hi a ([ins] ++ code) from append rfl (single ?_) h)
  intro hjump
  rw [hins] at hjump
  cases hjump

theorem forward {op : Opcode} {m : Nat} (hm : a < m) (hhi : m ≤ hi)
    (h : JumpsWithin loops lo hi (a + 1) code) : JumpsWithin loops lo hi a (refer op m :: code) := by
  refine (show JumpsWithin loops lo hi a ([refer op m] ++ code) from append rfl (single ?_) h)
  exact fun _ => ⟨m, rfl, .inl ⟨hm, hhi⟩⟩

theorem closing (loop : Loop) (hloop : loop ∈ loops) (ha : loop.closing = a) (hlo : lo ≤ loop.top)
    (htop : loop.top < a) : JumpsWithin loops lo hi a [refer .jmp loop.top] :=
  single fun _ => ⟨loop.top, rfl, .inr ⟨rfl, hlo, htop, loop, hloop, ha, rfl⟩⟩

theorem mono (h : JumpsWithin loops lo hi a code) (hloops : ∀ loop ∈ loops, loop ∈ loops') (hlo : lo' ≤ lo)
    (hhi : hi ≤ hi') : JumpsWithin loops' lo' hi' a code := by
  intro i ins hi hjump
  obtain ⟨m, hm, ⟨hlt, hle⟩ | ⟨hop, hle, hlt, loop, hloop, hclosing⟩⟩ := h i ins hi hjump
  · exact ⟨m, hm, .inl ⟨hlt, by omega⟩⟩
  · exact ⟨m, hm, .inr ⟨hop, by omega, hlt, loop, hloops loop hloop, hclosing⟩⟩

theorem of_no_jump (h : ∀ ins ∈ code, ins.op.isJump = false) : JumpsWithin loops lo hi a code := by
  intro i ins hi hjump
  have := h ins (List.mem_of_getElem? hi)
  simp [this] at hjump

end JumpsWithin

/-! ### Expressions have no jumps -/

theorem Env.load_no_jump (env : Env) (x : String) : (env.load x).op.isJump = false :=
  Opcode.isJump_of_isCalculation (Env.calculates_load x)

section

variable {env : Env}

theorem Expression.no_jump (e : Expression) : ∀ ins ∈ e.code env, ins.op.isJump = false :=
  fun ins h => Opcode.isJump_of_isCalculation (e.calculates ins h)

theorem Condition.no_jump (c : Condition) : ∀ ins ∈ c.code env, ins.op.isJump = false :=
  fun ins h => Opcode.isJump_of_isCalculation (c.calculates ins h)

end

/-! ### Statements and blocks -/

section

variable {env : Env}

mutual

theorem Statement.jumps_code : ∀ (s : Statement) (start : Nat),
    JumpsWithin (s.loops env start) start (start + s.size) start (s.code env start)
  | .empty, start => .nil
  | .assign x e, start => by
    exact .append (Expression.length_code _) (.of_no_jump e.no_jump) (.cons rfl .nil)
  | .call p, start => .cons rfl .nil
  | .read x, start => .cons rfl (.cons rfl .nil)
  | .write x, start => .cons (env.load_no_jump x) (.cons rfl .nil)
  | .compound first rest, start => by
    simp only [Statement.code, Statement.loops, Statement.size]
    refine .append (Statement.length_code _ _) ?_ ?_
    · refine (first.jumps_code start).mono ?_ (Nat.le_refl _) (by omega)
      exact fun loop h => List.mem_append_left _ h
    · refine (rest.jumps_code (start + first.size)).mono ?_ (by omega) (by omega)
      exact fun loop h => List.mem_append_right _ h
  | .ifThen c s, start => by
    simp only [Statement.code, Statement.loops, Statement.size]
    refine .append (Condition.length_code _) (.of_no_jump c.no_jump) ?_
    refine .forward (by omega) (by omega) ?_
    exact (s.jumps_code _).mono (fun _ h => h) (by omega) (by omega)
  | .ifElse c s t, start => by
    simp only [Statement.code, Statement.loops, Statement.size]
    refine .append (Condition.length_code _) (.of_no_jump c.no_jump) ?_
    refine .forward (by omega) (by omega) (.append (Statement.length_code _ _) ?_ ?_)
    · refine (s.jumps_code _).mono ?_ (by omega) (by omega)
      exact fun loop h => List.mem_append_left _ h
    · refine .forward (by omega) (by omega) ?_
      refine (t.jumps_code _).mono ?_ (by omega) (by omega)
      exact fun loop h => List.mem_append_right _ h
  | .whileDo c s, start => by
    simp only [Statement.code, Statement.loops, Statement.size]
    refine .append (Condition.length_code _) (.of_no_jump c.no_jump) ?_
    refine .forward (by omega) (by omega) (.append (Statement.length_code _ _) ?_ ?_)
    · refine (s.jumps_code _).mono ?_ (by omega) (by omega)
      exact fun loop h => List.mem_cons_of_mem _ h
    · refine .closing ⟨start, c.code env, start + c.size + 1 + s.size⟩ List.mem_cons_self rfl ?_ ?_
      · exact Nat.le_refl _
      · show start < _
        omega

theorem StatementTail.jumps_code : ∀ (l : StatementTail) (start : Nat),
    JumpsWithin (l.loops env start) start (start + l.size) start (l.code env start)
  | .nil, start => .nil
  | .cons s rest, start => by
    simp only [StatementTail.code, StatementTail.loops, StatementTail.size]
    refine .append (Statement.length_code _ _) ?_ ?_
    · refine (s.jumps_code start).mono ?_ (Nat.le_refl _) (by omega)
      exact fun loop h => List.mem_append_left _ h
    · refine (rest.jumps_code (start + s.size)).mono ?_ (by omega) (by omega)
      exact fun loop h => List.mem_append_right _ h

end

mutual

/-- The loops of a statement stand in its code. -/
theorem Statement.placed_loops {program : List Instruction} : ∀ (s : Statement) (start : Nat),
    Placed program start (s.code env start) → ∀ loop ∈ s.loops env start, loop.Stands program
  | .empty, _, _, _, h | .assign _ _, _, _, _, h | .call _, _, _, _, h | .read _, _, _, _, h
  | .write _, _, _, _, h => by cases h
  | .compound first rest, start, hp, loop, h => by
    rcases List.mem_append.1 h with h | h
    · exact first.placed_loops start hp.left loop h
    · have hp' := hp.right (Statement.length_code _ _)
      exact rest.placed_loops _ hp' loop h
  | .ifThen c s, start, hp, loop, h => by
    have hp' := (hp.right (Condition.length_code _)).tail
    exact s.placed_loops _ hp' loop h
  | .ifElse c s t, start, hp, loop, h => by
    have hp' := (hp.right (Condition.length_code _)).tail
    rcases List.mem_append.1 h with h | h
    · exact s.placed_loops _ hp'.left loop h
    · have hp'' := (hp'.right (Statement.length_code _ _)).tail
      exact t.placed_loops _ hp'' loop h
  | .whileDo c s, start, hp, loop, h => by
    rcases List.mem_cons.1 h with rfl | h
    · have hp' := (hp.right (Condition.length_code _)).tail
      refine ⟨hp.left, (hp'.right (Statement.length_code _ _)).head, ?_⟩
      show start < start + c.size + 1 + s.size
      omega
    · have hp' := (hp.right (Condition.length_code _)).tail
      exact s.placed_loops _ hp'.left loop h

theorem StatementTail.placed_loops {program : List Instruction} : ∀ (l : StatementTail) (start : Nat),
    Placed program start (l.code env start) → ∀ loop ∈ l.loops env start, loop.Stands program
  | .nil, _, _, _, h => by cases h
  | .cons s rest, start, hp, loop, h => by
    rcases List.mem_append.1 h with h | h
    · exact s.placed_loops start hp.left loop h
    · have hp' := hp.right (Statement.length_code _ _)
      exact rest.placed_loops _ hp' loop h

end

end

mutual

theorem Block.jumps_code : ∀ (b : Block) (start : Nat),
    JumpsWithin (b.loops start) (start + 1) (start + b.size - 1) start (b.code start)
  | .mk consts vars procs body, start => by
    simp only [Block.code, Block.loops, Block.size, Block.entry, Block.procsStart, Block.vars, Block.procs]
    -- the first jump of the block goes over the code of the procedures
    refine .forward (by omega) (by omega) (.append (List.length_map _) (.of_no_jump ?_) ?_)
    · intro ins h
      obtain ⟨x, -, rfl⟩ := List.mem_map.1 h
      rfl
    refine .append (Procedures.length_code _ _) ?_ ?_
    · refine (procs.jumps_code _).mono ?_ (by omega) (by omega)
      exact fun loop h => List.mem_append_left _ h
    refine .cons rfl (.append rfl ?_ (.cons rfl .nil))
    refine (body.jumps_code _).mono ?_ (by omega) (by omega)
    exact fun loop h => List.mem_append_right _ h

theorem Procedures.jumps_code : ∀ (l : Procedures) (start : Nat),
    JumpsWithin (l.loops start) start (start + l.size) start (l.code start)
  | .nil, start => .nil
  | .cons name block rest, start => by
    simp only [Procedures.code, Procedures.loops, Procedures.size]
    refine .append (Block.length_code _ _) ?_ ?_
    · refine (block.jumps_code start).mono ?_ (by omega) (by omega)
      exact fun loop h => List.mem_append_left _ h
    · refine (rest.jumps_code _).mono ?_ (by omega) (by omega)
      exact fun loop h => List.mem_append_right _ h

end

mutual

theorem Block.placed_loops {program : List Instruction} : ∀ (b : Block) (start : Nat),
    Placed program start (b.code start) → ∀ loop ∈ b.loops start, loop.Stands program
  | .mk consts vars procs body, start, hp, loop, h => by
    have hp' := hp.tail.right (List.length_map _)
    rcases List.mem_append.1 h with h | h
    · exact procs.placed_loops _ hp'.left loop h
    · have hp'' := (hp'.right (Procedures.length_code _ _)).tail.left
      exact body.placed_loops _ hp'' loop h

theorem Procedures.placed_loops {program : List Instruction} : ∀ (l : Procedures) (start : Nat),
    Placed program start (l.code start) → ∀ loop ∈ l.loops start, loop.Stands program
  | .nil, _, _, _, h => by cases h
  | .cons name block rest, start, hp, loop, h => by
    rcases List.mem_append.1 h with h | h
    · exact block.placed_loops start hp.left loop h
    · have hp' := hp.right (Block.length_code _ _)
      exact rest.placed_loops _ hp' loop h

end

/-! ### Compiled programs -/

/-- A jump at the address `a` of a program stays in the program and does not go to itself, a conditional jump goes
forward, and a jump back closes a loop and goes to the test of this loop. -/
structure Instruction.JumpsSoundly (ins : Instruction) (program : List Instruction) (loops : List Loop) (a : Nat) :
    Prop where
  pos : 1 ≤ ins.m.toInt
  lt : ins.m.toInt < program.length
  ne : ins.m.toInt ≠ a
  conditional : ins.op = .jpc → a < ins.m.toInt
  back : ins.m.toInt < a → ∃ loop ∈ loops, loop.closing = a ∧ loop.top = ins.m.toInt ∧
    Placed program loop.top loop.test

/-- The addresses of a program of at most `2 ^ 31` instructions are the same numbers as fields of an instruction. -/
theorem Block.jumpsSoundly_program {b : Block} (hsize : b.program.length ≤ 2 ^ 31) {a : Nat} {ins : Instruction}
    (hins : b.program[a]? = some ins) (hjump : ins.op.isJump) : ins.JumpsSoundly b.program (b.loops 0) a := by
  have hlength : b.program.length = b.size + 1 := by
    simp [Block.program]
  have hplaced : Placed b.program 0 (b.code 0) := ⟨[], _, rfl, rfl⟩
  have hjumps : JumpsWithin (b.loops 0) 1 (b.size - 1) 0 b.program := by
    refine .append (Block.length_code _ _) ?_ (.cons rfl .nil)
    have h := b.jumps_code 0
    rwa [Nat.zero_add, Nat.zero_add] at h
  have hpos : 1 ≤ b.size := by
    cases b
    simp only [Block.size]
    omega
  obtain ⟨m, hm, hcases⟩ := hjumps a ins hins hjump
  rw [Nat.zero_add] at hcases
  -- also a jump to the end of the block has the final instruction to go to
  have hlt : m < b.program.length := by
    have := (List.getElem?_eq_some_iff.1 hins).1
    rcases hcases with ⟨-, hle⟩ | ⟨-, -, hlt, -⟩ <;> omega
  have htoInt : ins.m.toInt = m := by
    rw [hm, Int32.toInt_ofNat_of_lt (by omega)]
  rcases hcases with ⟨hlt', hle⟩ | ⟨hop, hle, hlt', loop, hloop, hclosing, htop⟩
  · exact ⟨by omega, by omega, by omega, fun _ => by omega, fun h => by omega⟩
  · refine ⟨by omega, by omega, by omega, ?_, fun _ => ⟨loop, hloop, hclosing, by rw [htop, htoInt], ?_⟩⟩
    · rw [hop]
      intro h
      cases h
    · exact (b.placed_loops 0 hplaced loop hloop).test

/-- No jump is open when the productions succeed, and the check at the end never fails.  In every compilation each jump
is closed at most once and only opened jumps are closed.  When the compilation succeeds, all opened jumps have been
closed, and the jumps of the program go where they should. -/
theorem jump_integrity (tokens : List Token) (capacity : Nat) (hcapacity : capacity ≤ 2 ^ 31) :
    (∀ c, Gen.program tokens.length (.start tokens capacity) = .ok () c → c.buffer.openJumps = 0) ∧
    (∀ count, (compile tokens capacity).outcome ≠ .error (.fault (.jumpsLeftOpen count))) ∧
    (openedJumps (compile tokens capacity).log).Nodup ∧ (closedJumps (compile tokens capacity).log).Nodup ∧
    (∀ a ∈ closedJumps (compile tokens capacity).log, a ∈ openedJumps (compile tokens capacity).log) ∧
    ∀ compiled, (compile tokens capacity).outcome = .ok compiled →
      (∀ a ∈ openedJumps (compile tokens capacity).log, a ∈ closedJumps (compile tokens capacity).log) ∧
      ∃ b : Block, b.IsTreeOf tokens ∧ ∀ (a : Nat) (ins : Instruction), compiled.program.instructions[a]? = some ins →
        ins.op.isJump → ins.JumpsSoundly compiled.program.instructions.toList (b.loops 0) a := by
  obtain ⟨hok, herror⟩ := compile_pending tokens capacity
  have hpending : ∃ p, Context.Pending p (compile tokens capacity).final := by
    cases hout : (compile tokens capacity).outcome with
    | ok compiled => exact ⟨[], hok compiled hout⟩
    | error stop => exact (herror stop hout).2
  obtain ⟨p, hp⟩ := hpending
  refine ⟨?_, ?_, hp.nodup, hp.closed_nodup, fun a => hp.opened_of_closed, ?_⟩
  · intro c hc
    exact (Gen.wp_of_ok (program_pending tokens capacity) hc).count
  · intro count hout
    rcases (herror _ hout).1 with ⟨e, h⟩ | ⟨capacity', h⟩ <;> cases h
  · intro compiled hout
    obtain ⟨b, hb⟩ := exists_tree_of_ok hout
    obtain ⟨-, htranslates, hfits⟩ := translates_of_ok hb hout
    refine ⟨fun a ha => ?_, b, hb, ?_⟩
    · rcases (hok compiled hout).closed_or_open ha with h | h
      · exact h
      · cases h
    · intro a ins hins hjump
      rw [← Array.getElem?_toList, htranslates.program] at hins
      rw [htranslates.program]
      exact b.jumpsSoundly_program (by omega) hins hjump

/-- The jump back of a loop. -/
theorem jump_integrity_loop :
    ∃ compiled, (compile [.whileSym, .oddSym, .number 1, .doSym, .period] 8).outcome = .ok compiled ∧
      compiled.program.instructions[5]? = some ⟨.jmp, 0, 0, 2⟩ ∧
      ∃ b : Block, ∃ loop ∈ b.loops 0, loop.closing = 5 ∧ loop.top = 2 ∧
        Placed compiled.program.instructions.toList loop.top loop.test := by
  have htree : (Block.mk [] [] .nil (.whileDo (.odd (.mk none (.mk (.number 1) .nil) .nil)) .empty)).IsTreeOf
      [.whileSym, .oddSym, .number 1, .doSym, .period] := ⟨rfl, [], rfl⟩
  obtain ⟨compiled, hok⟩ := ok_of_scoped htree (by decide) (not_outOfRoom (by decide : _ ≤ 8))
  have hins : compiled.program.instructions[5]? = some ⟨.jmp, 0, 0, 2⟩ := by
    rw [← Array.getElem?_toList, (translates_of_ok htree hok).2.1.program]
    decide
  obtain ⟨-, b, -, hjumps⟩ := (jump_integrity _ 8 (by decide)).2.2.2.2.2 compiled hok
  obtain ⟨loop, hloop, hclosing, htop, hplaced⟩ := (hjumps 5 _ hins rfl).back (by decide)
  exact ⟨compiled, hok, hins, b, loop, hloop, hclosing, Int.ofNat.inj htop, hplaced⟩

end PL0
