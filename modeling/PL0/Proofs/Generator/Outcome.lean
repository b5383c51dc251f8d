import PL0.Compilation

/-!
# Outcomes of compilation steps

`Gen.wp g c Q E` says of the step `g`, started in the state `c`, that it ends with a result and a state for which `Q`
holds, or stops in a state for which `E` holds.  It is read off the parts of a step (`wp_bind`) and off the elementary
actions, each of which is described here once: by the state that it leaves (`Context.advanced`, `Context.emitted`, …)
and by when it stops.  No later module opens the definition of an elementary action.
-/

namespace PL0

/-! ### States after an elementary action -/

namespace Context

def advanced (c : Context) : Context :=
  { c with tokens := c.tokens.advance }

def declared (c : Context) (name : String) (kind : SymbolKind) : Context :=
  { c with symbols := c.symbols.insert ⟨name, kind, c.level, c.scope⟩ }.record
    (.declared ⟨name, kind, c.level, c.scope⟩)

def emitted (c : Context) (ins : Instruction) : Context :=
  { c with buffer := { c.buffer with code := c.buffer.code.push ins } }.record (.appended c.buffer.size ins)

def jumpOpened (c : Context) (op : Opcode) : Context :=
  { c with buffer := { c.buffer with code := c.buffer.code.push ⟨op, 0, 0, 0⟩, openJumps := c.buffer.openJumps + 1 }
  }.record (.jumpOpened c.buffer.size op)

/-- The state after the jump at `address` is pointed to the next instruction.  The log has a line for it if there is
such a jump. -/
def jumpClosed (c : Context) (address : Nat) : Context :=
  { c with
    buffer := c.buffer.closeJump address c.buffer.size
    log := c.log ++ (c.buffer.closeJumpEvents address c.buffer.size).toArray }

/-- The state when the code buffer takes no further instruction. -/
def overflowed (c : Context) : Context :=
  c.record (.full c.buffer.capacity)

@[simp] theorem tokens_emitted (c : Context) (ins : Instruction) : (c.emitted ins).tokens = c.tokens := rfl

@[simp] theorem tokens_jumpOpened (c : Context) (op : Opcode) : (c.jumpOpened op).tokens = c.tokens := rfl

@[simp] theorem tokens_jumpClosed (c : Context) (address : Nat) : (c.jumpClosed address).tokens = c.tokens := rfl

end Context

namespace Gen

variable {α β : Type}

def wp (g : Gen α) (c : Context) (Q : α → Context → Prop) (E : Stop → Context → Prop) : Prop :=
  match g c with
  | .ok a c' => Q a c'
  | .error stop c' => E stop c'

variable {c : Context} {Q : α → Context → Prop} {E : Stop → Context → Prop}

theorem wp_of_ok {g : Gen α} {a : α} {c' : Context} (h : wp g c Q E) (hg : g c = .ok a c') : Q a c' := by
  simpa [wp, hg] using h

theorem wp_self (g : Gen α) (c : Context) :
    wp g c (fun a c' => g c = .ok a c') fun stop c' => g c = .error stop c' := by
  unfold wp
  cases g c <;> rfl

theorem wp_mono {g : Gen α} {Q' : α → Context → Prop} {E' : Stop → Context → Prop} (h : wp g c Q E)
    (hQ : ∀ a c', Q a c' → Q' a c') (hE : ∀ stop c', E stop c' → E' stop c') : wp g c Q' E' := by
  unfold wp at *
  split at h
  · exact hQ _ _ h
  · exact hE _ _ h

theorem wp_congr {g : Gen α} {Q' : α → Context → Prop} (h : ∀ a c', Q a c' ↔ Q' a c') :
    wp g c Q E ↔ wp g c Q' E := by
  constructor <;> intro hg <;> refine wp_mono hg ?_ (fun _ _ hE => hE)
  · exact fun a c' => (h a c').1
  · exact fun a c' => (h a c').2

/-! ### Composition -/

@[simp] theorem wp_pure (a : α) : wp (pure a) c Q E ↔ Q a c := Iff.rfl

@[simp] theorem wp_get {Q : Context → Context → Prop} : wp get c Q E ↔ Q c c := Iff.rfl

@[simp] theorem wp_bind {Q : β → Context → Prop} (g : Gen α) (f : α → Gen β) :
    wp (g >>= f) c Q E ↔ wp g c (fun a c' => wp (f a) c' Q E) E := by
  show (match EStateM.bind g f c with | .ok a c' => Q a c' | .error stop c' => E stop c') ↔ _
  unfold wp EStateM.bind
  cases g c <;> rfl

@[simp] theorem wp_ite (p : Prop) [Decidable p] (g g' : Gen α) :
    wp (if p then g else g') c Q E ↔ (p → wp g c Q E) ∧ (¬p → wp g' c Q E) := by
  by_cases h : p <;> simp [h]

/-! ### Tokens -/

@[simp] theorem wp_reject (e : CompileError) : wp (reject e : Gen α) c Q E ↔ E (.rejected e) c := Iff.rfl

@[simp] theorem wp_peek {Q : Token → Context → Prop} : wp peek c Q E ↔ Q c.tokens.current c := Iff.rfl

@[simp] theorem wp_advance {Q : Unit → Context → Prop} : wp advance c Q E ↔ Q () c.advanced := Iff.rfl

@[simp] theorem wp_expect {Q : Unit → Context → Prop} (t : Token) (e : CompileError) :
    wp (expect t e) c Q E ↔ (c.tokens.current = t → Q () c.advanced) ∧
      (c.tokens.current ≠ t → E (.rejected e) c) := by
  simp [expect]

@[simp] theorem wp_peekName {Q : String → Context → Prop} (e : CompileError) :
    wp (peekName e) c Q E ↔ (∀ x, c.tokens.current = .ident x → Q x c) ∧
      ((∀ x, c.tokens.current ≠ .ident x) → E (.rejected e) c) := by
  unfold peekName
  rw [wp_bind, wp_peek]
  cases c.tokens.current <;> simp

@[simp] theorem wp_takeName {Q : String → Context → Prop} (e : CompileError) :
    wp (takeName e) c Q E ↔ (∀ x, c.tokens.current = .ident x → Q x c.advanced) ∧
      ((∀ x, c.tokens.current ≠ .ident x) → E (.rejected e) c) := by
  simp only [takeName, wp_bind, wp_peekName, wp_advance, wp_pure]

@[simp] theorem wp_takeNumber {Q : Int32 → Context → Prop} (e : CompileError) :
    wp (takeNumber e) c Q E ↔ (∀ v, c.tokens.current = .number v → Q v c.advanced) ∧
      ((∀ v, c.tokens.current ≠ .number v) → E (.rejected e) c) := by
  unfold takeNumber
  rw [wp_bind, wp_peek]
  cases c.tokens.current <;> simp only [wp_bind, wp_advance, wp_pure, wp_reject] <;> simp

/-! ### Names and code -/

@[simp] theorem wp_declare {Q : Nat → Context → Prop} (name : String) (kind : SymbolKind) :
    wp (declare name kind) c Q E ↔ Q c.symbols.size (c.declared name kind) := Iff.rfl

@[simp] theorem wp_nextAddress {Q : Nat → Context → Prop} : wp nextAddress c Q E ↔ Q c.buffer.size c := Iff.rfl

@[simp] theorem wp_emit {Q : Unit → Context → Prop} (op : Opcode) (l m : Int32) :
    wp (emit op l m) c Q E ↔ (c.buffer.isFull = false → Q () (c.emitted ⟨op, 0, l, m⟩)) ∧
      (c.buffer.isFull = true → E (.fault (.full c.buffer.capacity)) c.overflowed) := by
  unfold wp emit
  cases h : c.buffer.isFull with
  | true => simp [CodeBuffer.appendEvent, CodeBuffer.append, Context.record, h, Context.overflowed]
  | false => simp [CodeBuffer.appendEvent, CodeBuffer.append, Context.record, h, Context.emitted]

theorem wp_openJump {Q : Nat → Context → Prop} {op : Opcode} (hop : op.isJump) :
    wp (openJump op) c Q E ↔ (c.buffer.isFull = false → Q c.buffer.size (c.jumpOpened op)) ∧
      (c.buffer.isFull = true → E (.fault (.full c.buffer.capacity)) c.overflowed) := by
  unfold wp openJump
  cases h : c.buffer.isFull with
  | true =>
    simp [CodeBuffer.openJumpEvents, CodeBuffer.openJump, CodeBuffer.append, Context.record, hop, h,
      Context.overflowed]
  | false =>
    simp [CodeBuffer.openJumpEvents, CodeBuffer.openJump, CodeBuffer.append, Context.record, hop, h,
      Context.jumpOpened]

@[simp] theorem wp_openJmp {Q : Nat → Context → Prop} :
    wp (openJump .jmp) c Q E ↔ (c.buffer.isFull = false → Q c.buffer.size (c.jumpOpened .jmp)) ∧
      (c.buffer.isFull = true → E (.fault (.full c.buffer.capacity)) c.overflowed) :=
  wp_openJump rfl

@[simp] theorem wp_openJpc {Q : Nat → Context → Prop} :
    wp (openJump .jpc) c Q E ↔ (c.buffer.isFull = false → Q c.buffer.size (c.jumpOpened .jpc)) ∧
      (c.buffer.isFull = true → E (.fault (.full c.buffer.capacity)) c.overflowed) :=
  wp_openJump rfl

@[simp] theorem wp_closeJump {Q : Unit → Context → Prop} (address : Nat) :
    wp (closeJump address) c Q E ↔ Q () (c.jumpClosed address) := by
  have hlog : (c.buffer.closeJumpEvents address c.buffer.size).foldl Context.record c =
      { c with log := c.log ++ (c.buffer.closeJumpEvents address c.buffer.size).toArray } := by
    unfold CodeBuffer.closeJumpEvents
    split <;> simp [Context.record]
  have hc : closeJump address c = .ok () (c.jumpClosed address) := by
    show EStateM.Result.ok () _ = _
    simp only [hlog, Context.jumpClosed]
  simp only [wp, hc]

/-! ### Procedure bodies -/

theorem wp_inBody {Q : Unit → Context → Prop} (name : String) (id : Nat) (body : Gen Unit) :
    wp (inBody name id body) c Q E ↔
      wp body (c.enter name id) (fun _ c' => Q () (c'.leave name c.level c.scope)) (fun stop c' =>
        match stop with
        | .rejected e => E (.rejected e) (c'.leave name c.level c.scope)
        | .fault f => E (.fault f) c') := by
  unfold wp inBody
  cases body (c.enter name id) with
  | ok a c' => rfl
  | error stop c' => cases stop <;> rfl

/-! ### Results of runs -/

/-- The state in which a step ended. -/
def lastState : EStateM.Result Stop Context α → Context
  | .ok _ c => c
  | .error _ c => c

/-- A property of the state alone. -/
theorem wp_lastState {g : Gen α} {I : Context → Prop} : wp g c (fun _ => I) (fun _ => I) ↔ I (lastState (g c)) := by
  unfold wp
  cases g c <;> rfl

theorem run_bind (g : Gen α) (f : α → Gen β) (c : Context) :
    (g >>= f) c = match g c with
      | .ok a c' => f a c'
      | .error stop c' => .error stop c' := by
  show EStateM.bind g f c = _
  unfold EStateM.bind
  cases g c <;> rfl

theorem run_peek_bind (f : Token → Gen β) (c : Context) : (peek >>= f) c = f c.tokens.current c := rfl

theorem run_emit (op : Opcode) (l m : Int32) (c : Context) :
    (c.buffer.isFull = false → emit op l m c = .ok () (c.emitted ⟨op, 0, l, m⟩)) ∧
      (c.buffer.isFull = true → emit op l m c = .error (.fault (.full c.buffer.capacity)) c.overflowed) :=
  (wp_emit op l m).1 (wp_self _ c)

theorem run_openJump {op : Opcode} (hop : op.isJump) (c : Context) :
    (c.buffer.isFull = false → openJump op c = .ok c.buffer.size (c.jumpOpened op)) ∧
      (c.buffer.isFull = true → openJump op c = .error (.fault (.full c.buffer.capacity)) c.overflowed) :=
  (wp_openJump hop).1 (wp_self _ c)

theorem run_closeJump (address : Nat) (c : Context) : closeJump address c = .ok () (c.jumpClosed address) :=
  (wp_closeJump address).1 (wp_self _ c)

/-- The end of a procedure body, when the level and the scope around it come back. -/
def leaving (name : String) (level : Nat) (scope : Scope) :
    EStateM.Result Stop Context Unit → EStateM.Result Stop Context Unit
  | .ok _ c => .ok () (c.leave name level scope)
  | .error (.rejected e) c => .error (.rejected e) (c.leave name level scope)
  | .error (.fault f) c => .error (.fault f) c

theorem run_inBody (name : String) (id : Nat) (body : Gen Unit) (c : Context) :
    inBody name id body c = leaving name c.level c.scope (body (c.enter name id)) := by
  unfold inBody
  rcases body (c.enter name id) with ⟨_, c'⟩ | ⟨_ | _, c'⟩ <;> rfl

theorem buffer_leaving (name : String) (level : Nat) (scope : Scope) (r : EStateM.Result Stop Context Unit) :
    (lastState (leaving name level scope r)).buffer = (lastState r).buffer := by
  rcases r with ⟨_, c⟩ | ⟨_ | _, c⟩ <;> rfl

theorem tokens_leaving (name : String) (level : Nat) (scope : Scope) (r : EStateM.Result Stop Context Unit) :
    (lastState (leaving name level scope r)).tokens = (lastState r).tokens := by
  rcases r with ⟨_, c⟩ | ⟨_ | _, c⟩ <;> rfl

/-- The last step of a compilation takes the program out of the code buffer. -/
def finish : Gen CompiledProgram := do
  let context ← get
  match context.buffer.toProgram with
  | .ok program => return ⟨program, context.symbols⟩
  | .error fault => throw (.fault fault)

theorem wholeProgram_eq (n : Nat) : wholeProgram n = program n >>= fun _ => finish := rfl

theorem run_finish (c : Context) :
    finish c = match c.buffer.toProgram with
      | .ok program => .ok ⟨program, c.symbols⟩ c
      | .error fault => .error (.fault fault) c := by
  show (match c.buffer.toProgram with
    | .ok program => pure ⟨program, c.symbols⟩
    | .error fault => throw (.fault fault) : Gen CompiledProgram) c = _
  cases c.buffer.toProgram <;> rfl

/-! ### Whole programs -/

/-- A program is finished if no jump is open at its end. -/
theorem wp_wholeProgram {Q : CompiledProgram → Context → Prop} (n : Nat) :
    wp (wholeProgram n) c Q E ↔ wp (program n) c (fun _ c' =>
      (c'.buffer.openJumps = 0 → Q ⟨⟨c'.buffer.code⟩, c'.symbols⟩ c') ∧
      (c'.buffer.openJumps ≠ 0 → E (.fault (.jumpsLeftOpen c'.buffer.openJumps)) c')) E := by
  unfold wholeProgram
  rw [wp_bind]
  refine wp_congr fun _ c' => ?_
  unfold CodeBuffer.toProgram
  rw [wp_bind]
  show wp _ c' Q E ↔ _
  by_cases h : c'.buffer.openJumps = 0
  · simp only [h, ↓reduceIte, wp_pure, true_implies, ne_eq, not_true_eq_false, false_implies, and_true]
  · simp only [h, ↓reduceIte, false_implies, ne_eq, not_false_eq_true, true_implies, true_and]
    rfl

/-- The outcome of a compilation is that of its last step. -/
theorem outcome_of_wp {tokens : List Token} {capacity : Nat} {Q : CompiledProgram → Context → Prop}
    {E : Stop → Context → Prop} (h : wp (wholeProgram tokens.length) (.start tokens capacity) Q E) :
    (∀ compiled, (compile tokens capacity).outcome = .ok compiled → Q compiled (compile tokens capacity).final) ∧
    (∀ stop, (compile tokens capacity).outcome = .error stop → E stop (compile tokens capacity).final) := by
  unfold wp at h
  unfold compile
  split at h <;> rename_i hg <;> simp only [hg, Except.ok.injEq, reduceCtorEq, false_implies, implies_true, and_true,
    true_and, forall_eq', Except.error.injEq] <;> exact h

/-- What holds in the last state of the productions, whether they succeed or not, holds at the end of a compilation. -/
theorem final_of_wp {tokens : List Token} {capacity : Nat} {I : Context → Prop}
    (h : wp (program tokens.length) (.start tokens capacity) (fun _ => I) fun _ => I) :
    I (compile tokens capacity).final := by
  have hwp : wp (wholeProgram tokens.length) (.start tokens capacity) (fun _ => I) fun _ => I :=
    (wp_wholeProgram tokens.length).2 (wp_mono h (fun _ _ hI => ⟨fun _ => hI, fun _ => hI⟩) fun _ _ hI => hI)
  obtain ⟨hok, herror⟩ := outcome_of_wp hwp
  cases h : (compile tokens capacity).outcome with
  | ok compiled => exact hok compiled h
  | error stop => exact herror stop h

end Gen

end PL0
