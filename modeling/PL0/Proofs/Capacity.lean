import PL0.Proofs.Parsing

/-!
# How much room a compilation needs

No production emits more instructions than it reads tokens, except that a block also emits its first jump, the
reservation of its frame and its return.  `Context.Room c k` says that the code buffer takes one instruction for every
token that is left and `k` more.  Every production of statements keeps this number if it is not zero, a block uses up
three of it, and a buffer with room is not full.  So a capacity of three more than the number of tokens is never
reached (`not_outOfRoom`).
-/

namespace PL0

/-- The code did not fit. -/
def Compilation.OutOfRoom (compilation : Compilation) : Prop :=
  ∃ capacity, compilation.outcome = .error (.fault (.full capacity))

namespace Context

def Room (c : Context) (k : Nat) : Prop :=
  c.buffer.size + c.tokens.rest.length + k ≤ c.buffer.capacity

namespace Room

variable {c : Context} {k : Nat}

theorem mono {j : Nat} (h : c.Room k) (hj : j ≤ k) : c.Room j := by
  unfold Room at *
  omega

theorem not_isFull (h : c.Room (k + 1)) : c.buffer.isFull = false := by
  rw [CodeBuffer.isFull_eq_false]
  unfold Room at h
  omega

theorem emitted (h : c.Room (k + 1)) (ins : Instruction) : (c.emitted ins).Room k := by
  have hsize : (c.emitted ins).buffer.size = c.buffer.size + 1 := Array.size_push _
  unfold Room at *
  rw [hsize]
  show c.buffer.size + 1 + c.tokens.rest.length + k ≤ c.buffer.capacity
  omega

theorem jumpOpened (h : c.Room (k + 1)) (op : Opcode) : (c.jumpOpened op).Room k := by
  have hsize : (c.jumpOpened op).buffer.size = c.buffer.size + 1 := Array.size_push _
  unfold Room at *
  rw [hsize]
  show c.buffer.size + 1 + c.tokens.rest.length + k ≤ c.buffer.capacity
  omega

theorem jumpClosed (h : c.Room k) (address : Nat) : (c.jumpClosed address).Room k := by
  have hsize : (c.jumpClosed address).buffer.size = c.buffer.size := CodeBuffer.size_closeJump _ _ _
  unfold Room at *
  rw [hsize]
  exact h

theorem advanced (h : c.Room k) : c.advanced.Room k := by
  have hlen : c.advanced.tokens.rest.length ≤ c.tokens.rest.length := by
    rw [Gen.tail_rest, List.length_tail]
    omega
  unfold Room at *
  show c.buffer.size + _ + k ≤ c.buffer.capacity
  omega

/-- Every token that is read makes room for one more instruction. -/
theorem read (h : c.Room k) {t : Token} (hcur : c.tokens.current = t) (ht : t ≠ .nul) : c.advanced.Room (k + 1) := by
  have hlen := congrArg List.length (Gen.rest_of_current hcur ht)
  rw [List.length_cons] at hlen
  unfold Room at *
  show c.buffer.size + _ + (k + 1) ≤ c.buffer.capacity
  omega

end Room

end Context

namespace Gen

/-- A compilation stops for another reason than a full code buffer. -/
def NotFull (stop : Stop) (_ : Context) : Prop :=
  ∀ capacity, stop ≠ .fault (.full capacity)

@[simp] theorem notFull_rejected (e : CompileError) (c : Context) : NotFull (.rejected e) c := by
  intro capacity h
  cases h

/-- With `k` instructions of room before there are `k'` after, and the code buffer does not get full. -/
def Spends (g : Gen Unit) (c : Context) (k k' : Nat) : Prop :=
  c.Room k → wp g c (fun _ c' => c'.Room k') NotFull

variable {c : Context} {k : Nat} {g : Gen Unit} {Q : Unit → Context → Prop}

theorem Spends.part {k' : Nat} (h : Spends g c k k') (hc : c.Room k) (hQ : ∀ c', c'.Room k' → Q () c') :
    wp g c Q NotFull :=
  wp_mono (h hc) (fun _ c' => hQ c') (fun _ _ h => h)

private theorem emit_part {op : Opcode} {l m : Int32} (hc : c.Room (k + 1))
    (hQ : (c.emitted ⟨op, 0, l, m⟩).Room k → Q () (c.emitted ⟨op, 0, l, m⟩)) : wp (emit op l m) c Q NotFull := by
  rw [wp_emit]
  exact ⟨fun _ => hQ (hc.emitted _), fun hfull => by simp [hc.not_isFull] at hfull⟩

private theorem openJump_part {op : Opcode} (hop : op.isJump) {Q : Nat → Context → Prop} (hc : c.Room (k + 1))
    (hQ : (c.jumpOpened op).Room k → Q c.buffer.size (c.jumpOpened op)) : wp (openJump op) c Q NotFull := by
  rw [wp_openJump hop]
  exact ⟨fun _ => hQ (hc.jumpOpened _), fun hfull => by simp [hc.not_isFull] at hfull⟩

/-! ### Expressions and conditions -/

private theorem chain_spends (op? : Token → Option Opcode) (hnul : op? .nul = none)
    (hoperand : ∀ c k, Spends g c (k + 1) (k + 1)) (n : Nat) : ∀ c k, Spends (chain op? g n) c (k + 1) (k + 1) := by
  intro c k
  refine wp_chain (I := fun c => c.Room (k + 1)) (T := fun _ c' => c'.Room (k + 1)) hnul (fun _ h => h) ?_ n c
  intro c op hc _ hne
  -- the operator makes room for the operation
  refine (hoperand _ _).part (hc.read rfl hne) fun c₁ h₁ => emit_part h₁ fun h₂ => ?_
  exact ⟨h₂, fun _ h => h⟩

private theorem load_part {x : String} {e : CompileError} (hc : c.Room (k + 1))
    (hQ : ∀ c', c'.Room k → c'.tokens = c.tokens → Q () c') :
    wp (lookUp x) c (fun binding c' => wp (load binding e) c' Q NotFull) NotFull := by
  rw [wp_lookUp]
  refine ⟨fun s _ => ?_, fun _ => notFull_rejected _ _⟩
  cases hkind : s.kind with
  | proc address => exact notFull_rejected _ c
  | _ => exact emit_part hc fun h => hQ _ h rfl

private theorem expressionOf_spends (hfactor : ∀ c k, Spends g c (k + 1) (k + 1)) (n : Nat) :
    ∀ c k, Spends (expressionOf g n) c (k + 1) (k + 1) := by
  have hterm : ∀ c k, Spends (termOf g n) c (k + 1) (k + 1) := by
    intro c k hc
    unfold termOf
    rw [wp_bind]
    exact (hfactor c k).part hc fun c₁ h₁ => chain_spends mulOp? rfl hfactor n c₁ k h₁
  have htail := chain_spends addOp? rfl hterm n
  intro c k hc
  rw [wp_expressionOf]
  refine ⟨fun hplus => ?_, fun hminus => ?_, fun _ => ?_⟩
  · exact (hterm _ k).part hc.advanced fun c₁ h₁ => htail c₁ k h₁
  · exact (hterm _ _).part (hc.read hminus (by simp)) fun c₁ h₁ => emit_part h₁ fun h₂ => htail _ _ h₂
  · exact (hterm c k).part hc fun c₁ h₁ => htail c₁ k h₁

private theorem factor_spends (n : Nat) : ∀ c k, Spends (factor n) c (k + 1) (k + 1) := by
  induction n with
  | zero => exact fun c k _ => notFull_rejected _ c
  | succ n ih =>
    intro c k hc
    rw [wp_factor]
    refine ⟨fun x hcur => ?_, fun value hcur => ?_, fun hcur => ?_, fun _ _ _ => notFull_rejected _ _⟩
    · refine load_part hc fun c₁ h₁ htokens => ?_
      rw [← htokens] at hcur
      exact h₁.read hcur (by simp)
    · exact emit_part hc fun h₁ => h₁.read hcur (by simp)
    · refine (expressionOf_spends ih n _ k).part hc.advanced fun c₁ h₁ => ?_
      simp only [wp_expect, notFull_rejected, implies_true, and_true]
      exact fun _ => h₁.advanced

private theorem expression_spends (n : Nat) : ∀ c k, Spends (expression n) c (k + 1) (k + 1) :=
  expressionOf_spends (factor_spends n) n

private theorem condition_spends (n : Nat) (c : Context) (k : Nat) : Spends (condition n) c (k + 1) (k + 1) := by
  intro hc
  unfold condition
  simp only [wp_bind, wp_peek, wp_ite, wp_advance]
  constructor
  · intro hodd
    exact (expression_spends n _ _).part (hc.read hodd (by simp)) fun c₁ h₁ => emit_part h₁ fun h₂ => h₂
  · intro _
    refine (expression_spends n _ _).part hc fun c₁ h₁ => ?_
    cases hop : relOp? c₁.tokens.current with
    | none => exact notFull_rejected _ c
    | some op =>
      have hne : c₁.tokens.current ≠ .nul := by
        intro h
        rw [h] at hop
        cases hop
      simp only [wp_bind, wp_advance]
      exact (expression_spends n _ _).part (h₁.read rfl hne) fun c₂ h₂ => emit_part h₂ fun h₃ => h₃

/-! ### Statements -/

private theorem assignment_spends (n : Nat) (x : String) (c : Context) (k : Nat) :
    Spends (assignment n x) c (k + 1) (k + 1) := by
  intro hc
  unfold assignment
  rw [wp_bind, wp_lookUp]
  refine ⟨fun s _ => ?_, fun _ => notFull_rejected _ _⟩
  cases hkind : s.kind with
  | var address =>
    simp only [wp_bind, wp_advance, wp_expect, notFull_rejected, implies_true, and_true]
    intro hbecomes
    refine (expression_spends n _ _).part (hc.advanced.read hbecomes (by simp)) fun c₁ h₁ => ?_
    exact emit_part h₁ fun h₂ => h₂
  | _ => exact notFull_rejected _ c

private theorem call_spends (c : Context) (k : Nat) : Spends call c (k + 1) (k + 1) := by
  intro hc
  unfold call
  simp only [wp_bind, wp_advance, wp_peekName, wp_lookUp, notFull_rejected, implies_true, and_true]
  intro p hp s _
  cases hkind : s.kind with
  | proc address =>
    rw [wp_bind]
    exact emit_part hc.advanced fun h₁ => h₁.read hp (by simp)
  | _ => exact notFull_rejected _ c

private theorem read_spends (c : Context) (k : Nat) (hcur : c.tokens.current = .readSym) :
    Spends read c (k + 1) (k + 1) := by
  intro hc
  unfold read
  simp only [wp_bind, wp_advance, wp_peekName, wp_lookUp, notFull_rejected, implies_true, and_true]
  intro x hx s _
  cases hkind : s.kind with
  | var address =>
    simp only [wp_bind, wp_advance]
    -- two tokens for two instructions
    have hc₁ := (hc.read hcur (by simp)).read hx (by simp)
    exact emit_part hc₁ fun h₂ => emit_part h₂ fun h₃ => h₃
  | _ => exact notFull_rejected _ c

private theorem write_spends (c : Context) (k : Nat) (hcur : c.tokens.current = .writeSym) :
    Spends write c (k + 1) (k + 1) := by
  intro hc
  unfold write
  simp only [wp_bind, wp_advance, wp_peekName, notFull_rejected, implies_true, and_true]
  intro x hx
  refine load_part (hc.read hcur (by simp)) fun c₁ h₁ htokens => emit_part h₁ fun h₂ => ?_
  rw [← htokens] at hx
  exact h₂.read hx (by simp)

section

variable (hstatement : ∀ c k, Spends g c (k + 1) (k + 1))

include hstatement

private theorem statementTail_spends (n : Nat) : ∀ c k, Spends (statementTail g n) c (k + 1) (k + 1) := by
  induction n with
  | zero => exact fun c k hc => hc
  | succ n ih =>
    intro c k hc
    unfold statementTail
    simp only [wp_bind, wp_peek, wp_ite, wp_advance, wp_pure]
    refine ⟨fun _ => ?_, fun _ => hc⟩
    exact (hstatement _ k).part hc.advanced fun c₁ h₁ => ih c₁ k h₁

private theorem compound_spends (n : Nat) (c : Context) (k : Nat) : Spends (compound g n) c (k + 1) (k + 1) := by
  intro hc
  unfold compound
  simp only [wp_bind, wp_advance, wp_expect, notFull_rejected, implies_true, and_true]
  refine (hstatement _ k).part hc.advanced fun c₁ h₁ => ?_
  exact (statementTail_spends hstatement n c₁ k).part h₁ fun c₂ h₂ _ => h₂.advanced

private theorem ifStatement_spends (n : Nat) (c : Context) (k : Nat) (hcur : c.tokens.current = .ifSym) :
    Spends (ifStatement g n) c (k + 1) (k + 1) := by
  intro hc
  unfold ifStatement
  simp only [wp_bind, wp_advance, wp_expect, notFull_rejected, implies_true, and_true]
  -- `if` makes room for the jump over the second branch, also if there is none, and `then` for the other jump
  refine (condition_spends n _ _).part (hc.read hcur (by simp)) fun c₁ h₁ hthen => ?_
  refine openJump_part rfl (h₁.read hthen (by simp)) fun h₂ => ?_
  refine (hstatement _ _).part h₂ fun c₃ h₃ => ?_
  simp only [wp_peek, wp_ite, wp_bind, wp_closeJump, wp_advance]
  refine ⟨fun _ => openJump_part rfl h₃ fun h₄ => ?_, fun _ => (h₃.jumpClosed _).mono (by omega)⟩
  exact (hstatement _ _).part (h₄.jumpClosed _).advanced fun c₅ h₅ => h₅.jumpClosed _

private theorem whileStatement_spends (n : Nat) (c : Context) (k : Nat) (hcur : c.tokens.current = .whileSym) :
    Spends (whileStatement g n) c (k + 1) (k + 1) := by
  intro hc
  unfold whileStatement
  simp only [wp_bind, wp_nextAddress, wp_advance, wp_expect, wp_closeJump, notFull_rejected, implies_true, and_true]
  refine (condition_spends n _ _).part (hc.read hcur (by simp)) fun c₁ h₁ => openJump_part rfl h₁ fun h₂ hdo => ?_
  refine (hstatement _ _).part (h₂.read hdo (by simp)) fun c₃ h₃ => emit_part h₃ fun h₄ => ?_
  exact h₄.jumpClosed _

end

private theorem statement_spends (n : Nat) : ∀ c k, Spends (statement n) c (k + 1) (k + 1) := by
  induction n with
  | zero => exact fun c k hc => hc
  | succ n ih =>
    intro c k hc
    unfold statement
    rw [wp_bind, wp_peek]
    cases hcur : c.tokens.current with
    | ident x => exact assignment_spends n x c k hc
    | callSym => exact call_spends c k hc
    | beginSym => exact compound_spends ih n c k hc
    | ifSym => exact ifStatement_spends ih n c k hcur hc
    | whileSym => exact whileStatement_spends ih n c k hcur hc
    | writeSym => exact write_spends c k hcur hc
    | readSym => exact read_spends c k hcur hc
    | _ => exact hc

/-! ### Declarations and blocks -/

private theorem commaTail_spends (hitem : ∀ c k, Spends g c (k + 1) (k + 1)) (n : Nat) :
    ∀ c k, Spends (commaTail g n) c (k + 1) (k + 1) := by
  induction n with
  | zero => exact fun c k hc => hc
  | succ n ih =>
    intro c k hc
    unfold commaTail
    simp only [wp_bind, wp_peek, wp_ite, wp_pure]
    exact ⟨fun _ => (hitem c k).part hc fun c₁ h₁ => ih c₁ k h₁, fun _ => hc⟩

private theorem declaration_spends (hitem : ∀ c k, Spends g c (k + 1) (k + 1)) (keyword : Token) (e : CompileError)
    (n : Nat) (c : Context) (k : Nat) :
    Spends (do
      if (← peek) = keyword then
        g
        commaTail g n
        expect .semicolon e) c (k + 1) (k + 1) := by
  intro hc
  simp only [wp_bind, wp_peek, wp_ite, wp_pure, wp_expect, notFull_rejected, implies_true, and_true]
  refine ⟨fun _ => (hitem c k).part hc fun c₁ h₁ => ?_, fun _ => hc⟩
  exact (commaTail_spends hitem n c₁ k).part h₁ fun c₂ h₂ _ => h₂.advanced

private theorem constItem_spends (c : Context) (k : Nat) : Spends constItem c (k + 1) (k + 1) := by
  intro hc
  unfold constItem
  simp only [wp_bind, wp_advance, wp_takeName, wp_expect, wp_takeNumber, wp_declare, wp_pure, notFull_rejected,
    implies_true, and_true]
  intro x _ _ v _
  exact hc.advanced.advanced.advanced.advanced

private theorem varItem_spends (c : Context) (k : Nat) : Spends varItem c (k + 1) (k + 1) := by
  intro hc
  unfold varItem
  simp only [wp_bind, wp_advance, wp_nextAddress, wp_takeName, wp_declare, notFull_rejected, implies_true, and_true]
  intro x hx
  refine emit_part (k := k + 1) ?_ fun h => h
  exact hc.advanced.read hx (by simp)

private theorem procedures_spends (hblock : ∀ c k, Spends g c (k + 3) k) (n : Nat) :
    ∀ c k, Spends (procedures g n) c (k + 1) (k + 1) := by
  induction n with
  | zero => exact fun c k hc => hc
  | succ n ih =>
    intro c k hc
    unfold procedures procedure
    simp only [wp_bind, wp_peek, wp_ite, wp_nextAddress, wp_advance, wp_takeName, wp_declare, wp_expect, wp_inBody,
      wp_pure, notFull_rejected, implies_true, and_true]
    refine ⟨fun hcur x hx hsemicolon => ?_, fun _ => hc⟩
    -- the three tokens before the body make up for what the block uses
    have hc₁ : c.advanced.advanced.Room (k + 3) := (hc.read hcur (by simp)).read hx (by simp)
    have hc₂ : (c.advanced.advanced.declared x (.proc (Int32.ofNat c.buffer.size))).advanced.Room (k + 4) :=
      Context.Room.read hc₁ hsemicolon (by simp)
    refine wp_mono (hblock _ (k + 1) hc₂) ?_ ?_
    · intro _ c₃ h₃ _
      exact ih _ k (Context.Room.advanced h₃)
    · intro stop c₃ hstop
      cases stop with
      | rejected e => trivial
      | fault f => exact hstop

private theorem blockOf_spends (hprocs : ∀ c k, Spends g c (k + 1) (k + 1)) (n : Nat) (c : Context) (k : Nat) :
    Spends (blockOf g n) c (k + 3) k := by
  intro hc
  unfold blockOf
  simp only [wp_bind, wp_closeJump]
  refine openJump_part rfl hc fun h₁ => ?_
  refine (declaration_spends constItem_spends .constSym _ n _ _).part h₁ fun c₂ h₂ => ?_
  refine (declaration_spends varItem_spends .varSym _ n _ _).part h₂ fun c₃ h₃ => ?_
  refine (hprocs _ _).part h₃ fun c₄ h₄ => emit_part (h₄.jumpClosed _) fun h₅ => ?_
  exact (statement_spends n _ _).part h₅ fun c₆ h₆ => emit_part h₆ fun h₇ => h₇

private theorem block_spends (n : Nat) : ∀ c k, Spends (block n) c (k + 3) k := by
  induction n with
  | zero => exact blockOf_spends (g := pure ()) (fun c k hc => hc) 0
  | succ n ih => exact blockOf_spends (procedures_spends ih (n + 1)) (n + 1)

private theorem program_spends (n : Nat) (c : Context) : Spends (program n) c 3 0 := by
  intro hc
  unfold program
  simp only [wp_bind, wp_expect, notFull_rejected, implies_true, and_true]
  refine (block_spends n c 0).part hc fun c₁ h₁ hperiod => ?_
  exact emit_part (h₁.read hperiod (by simp)) fun h₂ => h₂

end Gen

/-- A capacity of three more than the number of tokens is never reached. -/
theorem not_outOfRoom {tokens : List Token} {capacity : Nat} (h : tokens.length + 3 ≤ capacity) :
    ¬(compile tokens capacity).OutOfRoom := by
  have hroom : (Context.start tokens capacity).Room 3 := by
    show 0 + tokens.length + 3 ≤ capacity
    omega
  have hwp : Gen.wp (Gen.wholeProgram tokens.length) (.start tokens capacity) (fun _ _ => True) Gen.NotFull := by
    rw [Gen.wp_wholeProgram]
    refine (Gen.program_spends _ _).part hroom fun c' _ => ⟨fun _ => trivial, ?_⟩
    intro _ capacity' hstop
    cases hstop
  rintro ⟨capacity', hfull⟩
  exact (Gen.outcome_of_wp hwp).2 _ hfull capacity' rfl

end PL0
