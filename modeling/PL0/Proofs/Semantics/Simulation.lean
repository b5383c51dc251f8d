import PL0.Proofs.Language
import PL0.Proofs.Semantics.Machine
import PL0.Proofs.Semantics.Layout

/-!
# Compiled programs do what their trees mean

The code of an expression pushes its value (`Expression.runs`), the code of a condition pushes its truth value
(`Condition.runs`), and the code of a statement that ends in a world takes the machine to a state with this world
(`Exec.passes`).  The values of the variables are in the innermost frame, at the addresses of the variables
(`Frame.Holds`); the frames below it and the operands are the same before and after.
-/

namespace PL0

open Machine

variable {ops : Arithmetic} {program : List Instruction}

/-! ### Expressions -/

section

variable {env : Env} {value : String → Option Int} {frames : List Frame} {input output : List Int}

/-- The instruction for a name pushes its value. -/
def Loads (ops : Arithmetic) (program : List Instruction) (env : Env) (value : String → Option Int)
    (frames : List Frame) (input output : List Int) : Prop :=
  ∀ {x : String} {v : Int} {pc : Nat} {operands : List Int}, value x = some v → program[pc]? = some (env.load x) →
    Runs ops program ⟨pc, operands, frames, input, output⟩ ⟨pc + 1, v :: operands, frames, input, output⟩

theorem AddOp.binary?_opcode (op : AddOp) :
    binary? ops op.opcode = some fun a b => some (op.apply ops a b) := by
  cases op <;> rfl

theorem MulOp.binary?_opcode (op : MulOp) : binary? ops op.opcode = some (op.apply ops) := by
  cases op <;> rfl

theorem RelOp.binary?_opcode (op : RelOp) :
    binary? ops op.opcode = some fun a b => some (truth (op.holds a b)) := by
  cases op <;> simp [binary?, RelOp.opcode, RelOp.holds, truth]

private theorem runs_sign {sign : Option AddOp} {pc : Nat} {operands : List Int} {a : Int}
    (hp : Placed program pc (signCode sign)) :
    Runs ops program ⟨pc, a :: operands, frames, input, output⟩
      ⟨pc + (signCode sign).length, applySign ops sign a :: operands, frames, input, output⟩ := by
  rcases sign with _ | (_ | _)
  · exact .refl _
  · exact .refl _
  · exact runs_unary rfl hp.head

mutual

theorem Expression.runs (hload : Loads ops program env value frames input output) :
    ∀ (e : Expression) (operands : List Int) {pc : Nat} {v : Int},
    Placed program pc (e.code env) → e.eval ops value = some v →
    Runs ops program ⟨pc, operands, frames, input, output⟩ ⟨pc + e.size, v :: operands, frames, input, output⟩
  | .mk sign first rest, operands, pc, v, hp, hv => by
    simp only [Expression.eval, Option.bind_eq_some_iff] at hv
    obtain ⟨a, ha, hrest⟩ := hv
    have hp₁ := hp.right (Term.length_code _)
    have h := (first.runs hload operands hp.left ha).trans
      ((runs_sign hp₁.left).trans (rest.runs hload operands (hp₁.right rfl) hrest))
    simpa [Expression.size, Nat.add_assoc] using h

theorem TermTail.runs (hload : Loads ops program env value frames input output) :
    ∀ (l : TermTail) (operands : List Int) {pc : Nat} {a v : Int},
    Placed program pc (l.code env) → l.eval ops value a = some v →
    Runs ops program ⟨pc, a :: operands, frames, input, output⟩ ⟨pc + l.size, v :: operands, frames, input, output⟩
  | .nil, operands, pc, a, v, _, hv => by
    obtain rfl : a = v := by simpa [TermTail.eval] using hv
    exact .refl _
  | .cons op term rest, operands, pc, a, v, hp, hv => by
    simp only [TermTail.eval, Option.bind_eq_some_iff] at hv
    obtain ⟨b, hb, hrest⟩ := hv
    have hp₁ := hp.right (Term.length_code _)
    have h := (term.runs hload (a :: operands) hp.left hb).trans
      ((runs_binary op.binary?_opcode rfl hp₁.head).trans (rest.runs hload operands hp₁.tail hrest))
    simpa [TermTail.size, Nat.add_assoc] using h

theorem Term.runs (hload : Loads ops program env value frames input output) :
    ∀ (t : Term) (operands : List Int) {pc : Nat} {v : Int},
    Placed program pc (t.code env) → t.eval ops value = some v →
    Runs ops program ⟨pc, operands, frames, input, output⟩ ⟨pc + t.size, v :: operands, frames, input, output⟩
  | .mk first rest, operands, pc, v, hp, hv => by
    simp only [Term.eval, Option.bind_eq_some_iff] at hv
    obtain ⟨a, ha, hrest⟩ := hv
    have hp₁ := hp.right (Factor.length_code _)
    have h := (first.runs hload operands hp.left ha).trans (rest.runs hload operands hp₁ hrest)
    simpa [Term.size, Nat.add_assoc] using h

theorem FactorTail.runs (hload : Loads ops program env value frames input output) :
    ∀ (l : FactorTail) (operands : List Int) {pc : Nat} {a v : Int},
    Placed program pc (l.code env) → l.eval ops value a = some v →
    Runs ops program ⟨pc, a :: operands, frames, input, output⟩ ⟨pc + l.size, v :: operands, frames, input, output⟩
  | .nil, operands, pc, a, v, _, hv => by
    obtain rfl : a = v := by simpa [FactorTail.eval] using hv
    exact .refl _
  | .cons op factor rest, operands, pc, a, v, hp, hv => by
    simp only [FactorTail.eval, Option.bind_eq_some_iff] at hv
    obtain ⟨b, hb, c, hc, hrest⟩ := hv
    have hp₁ := hp.right (Factor.length_code _)
    have h := (factor.runs hload (a :: operands) hp.left hb).trans
      ((runs_binary op.binary?_opcode hc hp₁.head).trans (rest.runs hload operands hp₁.tail hrest))
    simpa [FactorTail.size, Nat.add_assoc] using h

theorem Factor.runs (hload : Loads ops program env value frames input output) :
    ∀ (f : Factor) (operands : List Int) {pc : Nat} {v : Int},
    Placed program pc (f.code env) → f.eval ops value = some v →
    Runs ops program ⟨pc, operands, frames, input, output⟩ ⟨pc + f.size, v :: operands, frames, input, output⟩
  | .name x, operands, pc, v, hp, hv => hload hv hp.head
  | .number u, operands, pc, v, hp, hv => by
    obtain rfl : u.toInt = v := by simpa [Factor.eval] using hv
    exact runs_lit hp.head
  | .paren inner, operands, pc, v, hp, hv => inner.runs hload operands hp hv

end

theorem Condition.runs (hload : Loads ops program env value frames input output) (c : Condition)
    (operands : List Int) {pc : Nat} {holds : Bool} (hp : Placed program pc (c.code env))
    (hc : c.eval ops value = some holds) :
    Runs ops program ⟨pc, operands, frames, input, output⟩
      ⟨pc + c.size, truth holds :: operands, frames, input, output⟩ := by
  cases c with
  | odd e =>
    simp only [Condition.eval, Option.map_eq_some_iff] at hc
    obtain ⟨a, ha, rfl⟩ := hc
    have hp₁ := hp.right (Expression.length_code _)
    have h := (e.runs hload operands hp.left ha).trans (runs_unary rfl hp₁.head)
    simpa [Condition.size, truth, Nat.add_assoc] using h
  | compare left op right =>
    simp only [Condition.eval, Option.bind_eq_some_iff, Option.map_eq_some_iff] at hc
    obtain ⟨a, ha, b, hb, rfl⟩ := hc
    have hp₁ := hp.right (Expression.length_code _)
    have hp₂ := hp₁.right (Expression.length_code _)
    have h := (left.runs hload operands hp.left ha).trans ((right.runs hload (a :: operands) hp₁.left hb).trans
      (runs_binary op.binary?_opcode rfl hp₂.head))
    simpa [Condition.size, Nat.add_assoc] using h

end

/-! ### Frames -/

/-- The frame has the values of the variables of the block, whose code starts at `start`. -/
def Frame.Holds (f : Frame) (b : Block) (start : Nat) (store : String → Int) : Prop :=
  ∀ x a, b.meaning x = some .var → b.env start x = some (.var a) → f.cells a = store x

namespace Frame.Holds

variable {f : Frame} {b : Block} {start : Nat} {values : String → Int}

/-- The variables of a new activation are zero. -/
theorem fresh (b : Block) (start link returnTo : Nat) : (Frame.fresh link returnTo).Holds b start fun _ => 0 :=
  fun _ _ _ _ => rfl

theorem store (h : f.Holds b start values) (hsize : start + b.size ≤ 2 ^ 31) {x : String} {a : Int32}
    (hx : b.meaning x = some .var) (ha : b.env start x = some (.var a)) (v : Int) :
    (f.store a v).Holds b start fun y => if y = x then v else values y := by
  intro y a' hy ha'
  show (if a' = a then v else f.cells a') = if y = x then v else values y
  by_cases hyx : y = x
  · subst hyx
    obtain rfl : a = a' := by simpa [ha] using ha'
    simp
  · have hne : a' ≠ a := by
      rintro rfl
      exact hyx (Block.eq_of_env_eq hsize hy hx ha' ha)
    simp [hyx, hne, h y a' hy ha']

theorem loads (h : f.Holds b start values) (frames : List Frame) (input output : List Int) :
    Loads ops program (b.env start) (b.value values) (f :: frames) input output := by
  intro x v pc operands hv hins
  unfold Block.value at hv
  split at hv
  · rename_i u hu
    obtain rfl : u.toInt = v := by simpa using hv
    simp only [Env.load, Block.env_of_const hu] at hins
    exact runs_lit hins
  · rename_i hx
    obtain rfl : values x = v := by simpa using hv
    obtain ⟨i, -, hi⟩ := Block.env_of_var hx start
    simp only [Env.load, hi, Env.value, Option.map_some, Option.getD_some, SymbolKind.value] at hins
    rw [← h x _ hx hi]
    exact runs_lod hins
  · cases hv

end Frame.Holds

/-! ### Blocks -/

namespace Block

variable {b : Block} {start : Nat}

/-- The first jump of a block goes over its declarations to the reservation of the frame. -/
theorem runs_entry (hp : Placed program start (b.code start)) (hlength : program.length ≤ 2 ^ 31)
    (operands : List Int) (f : Frame) (frames : List Frame) (input output : List Int) :
    Runs ops program ⟨start, operands, f :: frames, input, output⟩
      ⟨b.entry start + 1, operands, { f with reserved := f.reserved + 4 } :: frames, input, output⟩ := by
  have hlt := exit_lt hp hlength
  refine (runs_jmp ?_ (jmp_at_start hp)).trans (runs_inc (placed_entry hp).head)
  unfold exit at hlt
  omega

end Block

/-! ### Statements -/

/-- The machine gets from `pc` to `pc'` and from the world `w` to the world `w'`, in the activation of the block `b`
whose code starts at `start`. -/
def Passes (ops : Arithmetic) (program : List Instruction) (b : Block) (start pc pc' : Nat) (w w' : World) : Prop :=
  ∀ (operands : List Int) (f : Frame) (frames : List Frame), f.Holds b start w.store →
    ∃ f' : Frame, f'.Holds b start w'.store ∧ f'.returnTo = f.returnTo ∧
      Runs ops program ⟨pc, operands, f :: frames, w.input, w.output⟩ ⟨pc', operands, f' :: frames, w'.input, w'.output⟩

namespace Passes

variable {b : Block} {start pc pc' pc'' : Nat} {w w' w'' : World}

theorem refl : Passes ops program b start pc pc w w :=
  fun _ f _ hf => ⟨f, hf, rfl, .refl _⟩

theorem trans (h : Passes ops program b start pc pc' w w') (h' : Passes ops program b start pc' pc'' w' w'') :
    Passes ops program b start pc pc'' w w'' := by
  intro operands f frames hf
  obtain ⟨f', hf', hreturn, hruns⟩ := h operands f frames hf
  obtain ⟨f'', hf'', hreturn', hruns'⟩ := h' operands f' frames hf'
  exact ⟨f'', hf'', hreturn'.trans hreturn, hruns.trans hruns'⟩

theorem ends_at (h : Passes ops program b start pc pc' w w') (heq : pc' = pc'') :
    Passes ops program b start pc pc'' w w' :=
  heq ▸ h

/-- A part of the code that changes no variable. -/
theorem of_runs (h : ∀ (operands : List Int) (f : Frame) (frames : List Frame), f.Holds b start w.store →
    Runs ops program ⟨pc, operands, f :: frames, w.input, w.output⟩
      ⟨pc', operands, f :: frames, w.input, w.output⟩) : Passes ops program b start pc pc' w w :=
  fun operands f frames hf => ⟨f, hf, rfl, h operands f frames hf⟩

theorem jmp (hpc' : pc' < 2 ^ 31) (h : program[pc]? = some (refer .jmp pc')) :
    Passes ops program b start pc pc' w w :=
  of_runs fun _ _ _ _ => runs_jmp hpc' h

/-- A test and the conditional jump after it. -/
private theorem test {c : Condition} {holds : Bool} (hp : Placed program pc (c.code (b.env start)))
    (hpc' : pc' < 2 ^ 31) (h : program[pc + c.size]? = some (refer .jpc pc'))
    (hc : c.eval ops (b.value w.store) = some holds) :
    Passes ops program b start pc (if holds then pc + c.size + 1 else pc') w w :=
  of_runs fun operands _ frames hf =>
    (c.runs (hf.loads frames w.input w.output) operands hp hc).trans (runs_jpc hpc' h)

theorem test_true {c : Condition} (hp : Placed program pc (c.code (b.env start))) (hpc' : pc' < 2 ^ 31)
    (h : program[pc + c.size]? = some (refer .jpc pc')) (hc : c.eval ops (b.value w.store) = some true) :
    Passes ops program b start pc (pc + c.size + 1) w w :=
  test hp hpc' h hc

theorem test_false {c : Condition} (hp : Placed program pc (c.code (b.env start))) (hpc' : pc' < 2 ^ 31)
    (h : program[pc + c.size]? = some (refer .jpc pc')) (hc : c.eval ops (b.value w.store) = some false) :
    Passes ops program b start pc pc' w w :=
  test hp hpc' h hc

/-- The code of a block up to the return, if the statement of the block passes. -/
theorem block (hp : Placed program start (b.code start)) (hlength : program.length ≤ 2 ^ 31)
    (hbody : Passes ops program b start (b.entry start + 1) (b.exit start) w w') :
    Passes ops program b start start (b.exit start) w w' := by
  intro operands f frames hf
  have hentry : Runs ops program ⟨start, operands, f :: frames, w.input, w.output⟩ _ :=
    Block.runs_entry hp hlength operands f frames w.input w.output
  obtain ⟨f', hf', hreturn, hruns⟩ := hbody operands { f with reserved := f.reserved + 4 } frames hf
  exact ⟨f', hf', hreturn, hentry.trans hruns⟩

/-- A call: the code of the procedure is run in a frame of its own, and the return removes this frame. -/
theorem call {q : Block} {p : String} (hp : Placed program start (b.code start)) (hlength : program.length ≤ 2 ^ 31)
    (hmeaning : b.meaning p = some (.proc q)) (hins : program[pc]? = some (instruction .cal ((b.env start).value p)))
    (hbody : ∀ a, Placed program a (q.code a) → Passes ops program q a a (q.exit a) w.entered w') :
    Passes ops program b start pc (pc + 1) w { w' with store := w.store } := by
  intro operands f frames hf
  obtain ⟨a, henv, hq⟩ := Block.env_of_proc hmeaning hp
  have hlt := Block.exit_lt hq hlength
  have hcal : program[pc]? = some (refer .cal a) := by
    rw [hins]
    simp [Env.value, henv, SymbolKind.value, refer]
  have halt : a < 2 ^ 31 := by
    unfold Block.exit Block.entry Block.procsStart at hlt
    omega
  obtain ⟨g, -, hreturn, hruns⟩ := hbody a hq operands (.fresh (frames.length + 1) (pc + 1)) (f :: frames)
    (Frame.Holds.fresh q a _ _)
  -- whatever the procedure did with its own frame, the frame of the caller is as before
  refine ⟨f, hf, rfl, (runs_cal halt hcal).trans (hruns.trans ?_)⟩
  have hrtn : Runs ops program ⟨q.exit a, operands, g :: f :: frames, w'.input, w'.output⟩
      ⟨g.returnTo, operands, f :: frames, w'.input, w'.output⟩ := runs_rtn (Block.rtn_at_exit hq)
  rwa [hreturn] at hrtn

end Passes

/-- The store instruction of a variable. -/
private theorem store_at {b : Block} {start pc : Nat} {x : String} {a : Int32} (ha : b.env start x = some (.var a))
    (h : program[pc]? = some (instruction .sto ((b.env start).value x))) :
    program[pc]? = some (instruction .sto a) := by
  rw [h]
  simp [Env.value, ha, SymbolKind.value]

/-- The code of a statement does what the statement means. -/
theorem Exec.passes (hlength : program.length ≤ 2 ^ 31) {b : Block} {s : Statement} {w w' : World}
    (h : Exec ops b s w w') : ∀ {start pc : Nat}, Placed program start (b.code start) →
    Placed program pc (s.code (b.env start) pc) → pc + s.size < 2 ^ 31 →
    Passes ops program b start pc (pc + s.size) w w' := by
  -- induction on the evaluation, because a loop and a recursive procedure evaluate the same code again
  induction h with
  | empty b w => exact fun _ _ _ => .refl
  | @assign b x e w v hx hv =>
    intro start pc hb hp _ operands f frames hf
    obtain ⟨i, -, ha⟩ := Block.env_of_var hx start
    have hp₁ := hp.right (Expression.length_code _)
    refine ⟨_, hf.store (Block.size_le hb hlength) hx ha v, rfl, ?_⟩
    exact (e.runs (hf.loads frames w.input w.output) operands hp.left hv).trans (runs_sto (store_at ha hp₁.head))
  | @call b q p w w' hmeaning _ ih =>
    intro start pc hb hp _
    refine .call hb hlength hmeaning hp.head ?_
    intro a hq
    exact .block hq hlength (ih hq (Block.placed_body hq) (Block.exit_lt hq hlength))
  | @last b s w w' _ ih =>
    intro start pc hb hp hend
    exact ih hb hp.left hend
  | @sequence b s t rest w w' w'' _ _ ih ih' =>
    intro start pc hb hp hend
    simp only [Statement.size, StatementTail.size] at hend ⊢
    have hp₁ := hp.right (Statement.length_code _ _)
    have h' := ih' hb hp₁ (by simp only [Statement.size]; omega)
    rw [Statement.size, Nat.add_assoc] at h'
    exact (ih hb hp.left (by omega)).trans h'
  | @ifThen b c s w w' hc _ ih =>
    intro start pc hb hp hend
    simp only [Statement.size] at hend ⊢
    have hp₁ := hp.right (Condition.length_code _)
    have htest := Passes.test_true hp.left (by omega) hp₁.head hc
    have hthen := ih hb hp₁.tail (by omega)
    exact (htest.trans hthen).ends_at (by omega)
  | @ifNot b c s w hc =>
    intro start pc hb hp hend
    simp only [Statement.size] at hend ⊢
    have hp₁ := hp.right (Condition.length_code _)
    exact (Passes.test_false hp.left (by omega) hp₁.head hc).ends_at (by omega)
  | @thenBranch b c s t w w' hc _ ih =>
    intro start pc hb hp hend
    simp only [Statement.size] at hend ⊢
    have hp₁ := hp.right (Condition.length_code _)
    have hp₂ := hp₁.tail.right (Statement.length_code _ _)
    have htest := Passes.test_true hp.left (by omega) hp₁.head hc
    have hthen := ih hb hp₁.tail.left (by omega)
    exact (htest.trans (hthen.trans (.jmp (by omega) hp₂.head))).ends_at (by omega)
  | @elseBranch b c s t w w' hc _ ih =>
    intro start pc hb hp hend
    simp only [Statement.size] at hend ⊢
    have hp₁ := hp.right (Condition.length_code _)
    have hp₂ := hp₁.tail.right (Statement.length_code _ _)
    have htest := Passes.test_false hp.left (by omega) hp₁.head hc
    exact (htest.trans (ih hb hp₂.tail (by omega))).ends_at (by omega)
  | @whileDone b c s w hc =>
    intro start pc hb hp hend
    simp only [Statement.size] at hend ⊢
    have hp₁ := hp.right (Condition.length_code _)
    exact (Passes.test_false hp.left (by omega) hp₁.head hc).ends_at (by omega)
  | @whileTurn b c s w w' w'' hc _ _ ih ih' =>
    intro start pc hb hp hend
    have hagain := ih' hb hp hend
    simp only [Statement.size] at hend
    have hp₁ := hp.right (Condition.length_code _)
    have hp₂ := hp₁.tail.right (Statement.length_code _ _)
    have htest := Passes.test_true hp.left (by omega) hp₁.head hc
    have hbody := ih hb hp₁.tail.left (by omega)
    -- after one turn the machine is at the test again
    exact htest.trans (hbody.trans ((Passes.jmp (by omega) hp₂.head).trans hagain))
  | @read b x w v rest hx hinput =>
    intro start pc hb hp _ operands f frames hf
    obtain ⟨i, -, ha⟩ := Block.env_of_var hx start
    refine ⟨_, hf.store (Block.size_le hb hlength) hx ha v, rfl, ?_⟩
    rw [hinput]
    exact (runs_read hp.head).trans (runs_sto (store_at ha hp.tail.head))
  | @write b x w v hv =>
    intro start pc hb hp _ operands f frames hf
    refine ⟨f, hf, rfl, ?_⟩
    exact (hf.loads frames w.input w.output hv hp.head).trans (runs_write hp.tail.head)

/-! ### Compiled programs -/

/-- If the evaluation of a program ends, the machine gets to the return at the end of the program, which is followed by
`HALT` only; it has read the same integers and written the same ones, and no operands are left. -/
theorem Block.Evaluates.runs {b : Block} (hlength : b.program.length ≤ 2 ^ 31) {input rest output : List Int}
    (h : b.Evaluates ops input rest output) :
    ∃ f, Runs ops b.program (.start input) ⟨b.exit 0, [], [f], rest, output⟩ := by
  obtain ⟨store, hexec⟩ := h
  have hp : Placed b.program 0 (b.code 0) := ⟨[], _, rfl, rfl⟩
  have hbody := hexec.passes hlength hp (Block.placed_body hp) (Block.exit_lt hp hlength)
  obtain ⟨f, -, -, hruns⟩ := hbody.block hp hlength [] (.fresh 0 0) [] (Frame.Holds.fresh b 0 0 0)
  exact ⟨f, hruns⟩

/-- A compiled program does what its syntax tree means.  If the evaluation of the tree on an input ends, the machine gets
to the return of the main block, with the same rest of the input, the same output and no operands. -/
theorem compile_preserves_evaluation {tokens : List Token} {capacity : Nat} {compiled : CompiledProgram}
    (hcapacity : capacity ≤ 2 ^ 31) (h : (compile tokens capacity).outcome = .ok compiled) :
    ∃ b : Block, b.IsTreeOf tokens ∧ (∀ b' : Block, b'.IsTreeOf tokens → b' = b) ∧
      ∀ (ops : Arithmetic) (input rest output : List Int), b.Evaluates ops input rest output →
        ∃ pc f, pc + 2 = compiled.program.size ∧ compiled.program.instructions[pc]? = some ⟨.rtn, 0, 0, 0⟩ ∧
          Runs ops compiled.program.instructions.toList (.start input) ⟨pc, [], [f], rest, output⟩ := by
  obtain ⟨b, hb⟩ := exists_tree_of_ok h
  obtain ⟨-, htranslates, hfits⟩ := translates_of_ok hb h
  refine ⟨b, hb, fun b' hb' => hb'.unique hb, ?_⟩
  intro ops input rest output heval
  obtain ⟨f, hruns⟩ := heval.runs (by omega)
  have hp : Placed b.program 0 (b.code 0) := ⟨[], _, rfl, rfl⟩
  have hexit := b.exit_eq 0
  refine ⟨b.exit 0, f, ?_, ?_, ?_⟩
  · have hsize := congrArg List.length htranslates.program
    simp only [Array.length_toList, Block.program, List.length_append, Block.length_code,
      List.length_singleton] at hsize
    unfold Program.size
    omega
  · rw [← Array.getElem?_toList, htranslates.program]
    exact Block.rtn_at_exit hp
  · rw [htranslates.program]
    exact hruns

/-- A loop over a variable that is read and written. -/
theorem compile_preserves_loop :
    ∃ compiled pc f, (compile [.varSym, .ident "x", .semicolon, .beginSym, .readSym, .ident "x", .semicolon, .whileSym,
        .oddSym, .ident "x", .doSym, .ident "x", .becomes, .ident "x", .minus, .number 1, .semicolon, .writeSym,
        .ident "x", .endSym, .period] 500).outcome = .ok compiled ∧ pc + 2 = compiled.program.size ∧
      Runs ⟨fun a => -a, (· + ·), (· - ·), (· * ·), fun a b => if b = 0 then none else some (a.tdiv b)⟩
        compiled.program.instructions.toList (.start [3, 7]) ⟨pc, [], [f], [7], [2]⟩ := by
  let x : Expression := .mk none (.mk (.name "x") .nil) .nil
  let tree : Block := .mk [] ["x"] .nil (.compound (.read "x") (.cons
    (.whileDo (.odd x) (.assign "x" (.mk none (.mk (.name "x") .nil) (.cons .minus (.mk (.number 1) .nil) .nil))))
    (.cons (.write "x") .nil)))
  have htree : tree.IsTreeOf [.varSym, .ident "x", .semicolon, .beginSym, .readSym, .ident "x", .semicolon, .whileSym,
      .oddSym, .ident "x", .doSym, .ident "x", .becomes, .ident "x", .minus, .number 1, .semicolon, .writeSym,
      .ident "x", .endSym, .period] := ⟨rfl, [], rfl⟩
  obtain ⟨compiled, hok⟩ := ok_of_scoped htree (by decide) (not_outOfRoom (by decide : _ ≤ 500))
  obtain ⟨b, -, hunique, hruns⟩ := compile_preserves_evaluation (by decide) hok
  obtain rfl := hunique tree htree
  let ops : Arithmetic :=
    ⟨fun a => -a, (· + ·), (· - ·), (· * ·), fun a b => if b = 0 then none else some (a.tdiv b)⟩
  have heval : tree.Evaluates ops [3, 7] [7] [2] := ⟨_, .sequence (.read rfl rfl)
    (.sequence (.whileTurn rfl (.assign rfl rfl) (.whileDone rfl)) (.last (.write rfl)))⟩
  obtain ⟨pc, f, hpc, -, h⟩ := hruns ops [3, 7] [7] [2] heval
  exact ⟨compiled, pc, f, hok, hpc, h⟩

end PL0
