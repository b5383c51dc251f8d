import PL0.Proofs.Emission.Expression

/-!
# What a successful production has read

A production that succeeds has read the tokens of a syntax tree: `Gen.Reads g c R` says that, if `g` succeeds in the
state `c`, the relation `R` holds between the tokens before and after.  No assumption about names or code is needed, and
none about the bound of the production.  Every tree that is read is else-bound, because after `then` a statement that
could be continued by an `else` is read together with this `else`.
-/

namespace PL0.Gen

def Reads (g : Gen Unit) (c : Context) (R : List Token → List Token → Prop) : Prop :=
  wp g c (fun _ c' => R c.tokens.rest c'.tokens.rest) (fun _ _ => True)

variable {c : Context} {g : Gen Unit} {R T : List Token → List Token → Prop}

/-- The first part of a larger step. -/
theorem Reads.part {Q : Unit → Context → Prop} (h : Reads g c R)
    (hQ : ∀ c', R c.tokens.rest c'.tokens.rest → Q () c') : wp g c Q (fun _ _ => True) :=
  wp_mono h (fun _ c' => hQ c') (fun _ _ _ => trivial)

/-! ### Single tokens -/

theorem tail_rest : c.advanced.tokens.rest = c.tokens.rest.tail := by
  show c.tokens.advance.rest = _
  unfold TokenStream.advance
  split <;> rename_i h <;> simp [h]

theorem rest_of_current {t : Token} (h : c.tokens.current = t) (ht : t ≠ .nul) :
    c.tokens.rest = t :: c.advanced.tokens.rest := by
  rw [tail_rest]
  cases hr : c.tokens.rest with
  | nil => simp [current_eq, hr, lookahead] at h; exact absurd h.symm ht
  | cons u rest => simp [current_eq, hr] at h; simp [h]

/-! ### Expressions and conditions -/

/-- A chain of operators and operands. -/
private theorem chain_reads (op? : Token → Option Opcode) (hnul : op? .nul = none) (hoperand : ∀ c, Reads g c R)
    (hnil : ∀ r, T r r)
    (hcons : ∀ t op r r' r'', op? t = some op → R r r' → T r' r'' → T (t :: r) r'') (n : Nat) :
    ∀ c, Reads (chain op? g n) c T := by
  intro c
  refine wp_chain (I := fun _ => True) (T := fun c c' => T c.tokens.rest c'.tokens.rest) hnul (fun _ _ => hnil _) ?_ n
    c trivial
  intro c op _ hop hne
  refine (hoperand c.advanced).part fun c₁ h₁ => ?_
  rw [wp_emit]
  refine ⟨fun _ => ⟨trivial, fun c' h' => ?_⟩, fun _ => trivial⟩
  rw [rest_of_current rfl hne]
  exact hcons _ op _ _ _ hop h₁ h'

theorem exists_mulOp {t : Token} {op : Opcode} (h : mulOp? t = some op) : ∃ o : MulOp, t = o.token := by
  cases t <;> first | exact ⟨.times, rfl⟩ | exact ⟨.slash, rfl⟩ | cases h

theorem exists_addOp {t : Token} {op : Opcode} (h : addOp? t = some op) : ∃ o : AddOp, t = o.token := by
  cases t <;> first | exact ⟨.plus, rfl⟩ | exact ⟨.minus, rfl⟩ | cases h

theorem exists_relOp {t : Token} {op : Opcode} (h : relOp? t = some op) : ∃ o : RelOp, t = o.token := by
  cases t <;> first
    | exact ⟨.eql, rfl⟩ | exact ⟨.neq, rfl⟩ | exact ⟨.lss, rfl⟩ | exact ⟨.leq, rfl⟩ | exact ⟨.gtr, rfl⟩
    | exact ⟨.geq, rfl⟩ | cases h

private theorem termOf_reads (hfactor : ∀ c, Reads g c fun r r' => ∃ f : Factor, r = f.tokens ++ r') (n : Nat)
    (c : Context) : Reads (termOf g n) c fun r r' => ∃ t : Term, r = t.tokens ++ r' := by
  have htail := chain_reads (T := fun r r' => ∃ l : FactorTail, r = l.tokens ++ r') mulOp? rfl hfactor
    (fun r => ⟨.nil, rfl⟩) (by
      rintro t op r r' r'' hop ⟨f, rfl⟩ ⟨l, rfl⟩
      obtain ⟨o, rfl⟩ := exists_mulOp hop
      exact ⟨.cons o f l, by simp [FactorTail.tokens]⟩) n
  unfold Reads termOf
  rw [wp_bind]
  refine (hfactor c).part ?_
  rintro c₁ ⟨f, h₁⟩
  refine (htail c₁).part ?_
  rintro c₂ ⟨l, h₂⟩
  exact ⟨.mk f l, by rw [h₁, h₂, Term.tokens, List.append_assoc]⟩

private theorem expressionOf_reads (hfactor : ∀ c, Reads g c fun r r' => ∃ f : Factor, r = f.tokens ++ r') (n : Nat)
    (c : Context) : Reads (expressionOf g n) c fun r r' => ∃ e : Expression, r = e.tokens ++ r' := by
  have hterm := termOf_reads hfactor n
  have htail := chain_reads (T := fun r r' => ∃ l : TermTail, r = l.tokens ++ r') addOp? rfl hterm
    (fun r => ⟨.nil, rfl⟩) (by
      rintro t op r r' r'' hop ⟨f, rfl⟩ ⟨l, rfl⟩
      obtain ⟨o, rfl⟩ := exists_addOp hop
      exact ⟨.cons o f l, by simp [TermTail.tokens]⟩) n
  have htree : ∀ (sign : Option AddOp) (c₁ c₂ c₃ : Context), c.tokens.rest = (sign.map AddOp.token).toList ++
      c₁.tokens.rest → (∃ t : Term, c₁.tokens.rest = t.tokens ++ c₂.tokens.rest) →
      (∃ l : TermTail, c₂.tokens.rest = l.tokens ++ c₃.tokens.rest) →
      ∃ e : Expression, c.tokens.rest = e.tokens ++ c₃.tokens.rest := by
    rintro sign c₁ c₂ c₃ h₁ ⟨t, h₂⟩ ⟨l, h₃⟩
    exact ⟨.mk sign t l, by rw [h₁, h₂, h₃, Expression.tokens, List.append_assoc, List.append_assoc]⟩
  unfold Reads
  rw [wp_expressionOf]
  refine ⟨fun hplus => ?_, fun hminus => ?_, fun _ => ?_⟩
  · refine (hterm _).part fun c₂ h₂ => (htail _).part fun c₃ h₃ => ?_
    exact htree (some .plus) _ _ _ (rest_of_current hplus (by decide)) h₂ h₃
  · refine (hterm _).part fun c₂ h₂ => ?_
    rw [wp_emit]
    refine ⟨fun _ => (htail _).part fun c₃ h₃ => ?_, fun _ => trivial⟩
    exact htree (some .minus) _ _ _ (rest_of_current hminus (by decide)) h₂ h₃
  · refine (hterm _).part fun c₂ h₂ => (htail _).part fun c₃ h₃ => ?_
    exact htree none _ _ _ rfl h₂ h₃

private theorem load_reads (binding : Binding) (e : CompileError) (c : Context) :
    Reads (load binding e) c fun r r' => r' = r := by
  unfold Reads load
  split <;> simp only [wp_emit, wp_reject, implies_true, and_true] <;> exact fun _ => rfl

private theorem factor_reads (n : Nat) : ∀ c, Reads (factor n) c fun r r' => ∃ f : Factor, r = f.tokens ++ r' := by
  induction n with
  | zero => exact fun c => trivial
  | succ n ih =>
    intro c
    unfold Reads
    rw [wp_factor]
    refine ⟨fun x hcur => ?_, fun value hcur => ?_, fun hcur => ?_, fun _ _ _ => trivial⟩
    · simp only [wp_lookUp, implies_true, and_true]
      intro s _
      refine (load_reads _ _ c).part fun c₁ h₁ => ?_
      refine ⟨.name x, ?_⟩
      rw [tail_rest, h₁, ← tail_rest]
      exact rest_of_current hcur (by simp)
    · simp only [wp_emit, implies_true, and_true]
      intro _
      exact ⟨.number value, rest_of_current hcur (by simp)⟩
    · refine (expressionOf_reads ih n _).part ?_
      rintro c₁ ⟨e, h₁⟩
      simp only [wp_expect, implies_true, and_true]
      intro hparen
      refine ⟨.paren e, ?_⟩
      rw [rest_of_current hcur (by simp), h₁, rest_of_current hparen (by simp)]
      simp [Factor.tokens]

theorem expression_reads (n : Nat) (c : Context) :
    Reads (expression n) c fun r r' => ∃ e : Expression, r = e.tokens ++ r' :=
  expressionOf_reads (factor_reads n) n c

theorem condition_reads (n : Nat) (c : Context) :
    Reads (condition n) c fun r r' => ∃ k : Condition, r = k.tokens ++ r' := by
  unfold Reads condition
  simp only [wp_bind, wp_peek, wp_ite, wp_advance]
  constructor
  · intro hodd
    refine (expression_reads n _).part ?_
    rintro c₁ ⟨e, h₁⟩
    simp only [wp_emit, implies_true, and_true]
    intro _
    exact ⟨.odd e, by rw [rest_of_current hodd (by simp), h₁]; rfl⟩
  · intro _
    refine (expression_reads n _).part ?_
    rintro c₁ ⟨left, h₁⟩
    cases hop : relOp? c₁.tokens.current with
    | none => exact trivial
    | some op =>
      obtain ⟨o, ho⟩ := exists_relOp hop
      simp only [wp_bind, wp_advance, wp_emit, implies_true, and_true]
      refine (expression_reads n _).part ?_
      rintro c₂ ⟨right, h₂⟩ _
      refine ⟨.compare left o right, ?_⟩
      rw [h₁, rest_of_current ho (by cases o <;> simp [RelOp.token]), h₂]
      simp [Condition.tokens]

/-! ### Statements -/

/-- The tokens of a statement that the next token does not continue. -/
def ReadsStatement (r r' : List Token) : Prop :=
  ∃ s : Statement, s.elseBound ∧ (s.endsOpen → lookahead r' ≠ .elseSym) ∧ r = s.tokens ++ r'

private theorem ReadsStatement.of_closed {r r' : List Token} (s : Statement) (hs : s.elseBound)
    (hclosed : s.endsOpen = false) (h : r = s.tokens ++ r') : ReadsStatement r r' := by
  refine ⟨s, hs, ?_, h⟩
  rw [hclosed]
  exact fun h => absurd h Bool.false_ne_true

private theorem assignment_reads {n : Nat} {x : String} (hcur : c.tokens.current = .ident x) :
    Reads (assignment n x) c ReadsStatement := by
  unfold Reads assignment
  rw [wp_bind, wp_lookUp]
  refine ⟨fun s _ => ?_, fun _ => trivial⟩
  cases hkind : s.kind with
  | var address =>
    simp only [wp_bind, wp_advance, wp_expect, wp_emit, implies_true, and_true]
    intro hbecomes
    refine (expression_reads n _).part ?_
    rintro c₁ ⟨e, h₁⟩ _
    refine .of_closed (.assign x e) rfl rfl ?_
    rw [rest_of_current hcur (by simp), rest_of_current hbecomes (by simp), h₁]
    rfl
  | _ => exact trivial

private theorem call_reads (hcur : c.tokens.current = .callSym) : Reads call c ReadsStatement := by
  unfold Reads call
  simp only [wp_bind, wp_advance, wp_peekName, wp_lookUp, implies_true, and_true]
  intro p hp s _
  cases hkind : s.kind with
  | proc address =>
    simp only [wp_bind, wp_advance, wp_emit, implies_true, and_true]
    intro _
    refine .of_closed (.call p) rfl rfl ?_
    rw [rest_of_current hcur (by simp), rest_of_current hp (by simp)]
    rfl
  | _ => exact trivial

private theorem read_reads (hcur : c.tokens.current = .readSym) : Reads read c ReadsStatement := by
  unfold Reads read
  simp only [wp_bind, wp_advance, wp_peekName, wp_lookUp, implies_true, and_true]
  intro x hx s _
  cases hkind : s.kind with
  | var address =>
    simp only [wp_bind, wp_advance, wp_emit, implies_true, and_true]
    intro _ _
    refine .of_closed (.read x) rfl rfl ?_
    rw [rest_of_current hcur (by simp), rest_of_current hx (by simp)]
    rfl
  | _ => exact trivial

private theorem write_reads (hcur : c.tokens.current = .writeSym) : Reads write c ReadsStatement := by
  unfold Reads write
  simp only [wp_bind, wp_advance, wp_peekName, wp_lookUp, implies_true, and_true]
  intro x hx s _
  refine (load_reads _ _ _).part fun c₁ h₁ => ?_
  simp only [wp_emit, implies_true, and_true]
  intro _
  refine .of_closed (.write x) rfl rfl ?_
  rw [rest_of_current hcur (by simp), rest_of_current hx (by simp), tail_rest, ← h₁]
  exact congrArg _ (congrArg _ tail_rest.symm)

section

variable (hstatement : ∀ c, Reads g c ReadsStatement)

include hstatement

private theorem statementTail_reads (n : Nat) :
    ∀ c, Reads (statementTail g n) c fun r r' => ∃ l : StatementTail, l.elseBound ∧ r = l.tokens ++ r' := by
  induction n with
  | zero => exact fun c => ⟨.nil, rfl, rfl⟩
  | succ n ih =>
    intro c
    unfold Reads statementTail
    simp only [wp_bind, wp_peek, wp_ite, wp_advance, wp_pure]
    constructor
    · intro hcur
      refine (hstatement _).part ?_
      rintro c₁ ⟨s, hs, _, h₁⟩
      refine (ih c₁).part ?_
      rintro c₂ ⟨l, hl, h₂⟩
      refine ⟨.cons s l, by simp [StatementTail.elseBound, hs, hl], ?_⟩
      rw [rest_of_current hcur (by simp), h₁, h₂]
      simp [StatementTail.tokens]
    · exact fun _ => ⟨.nil, rfl, rfl⟩

private theorem compound_reads {n : Nat} (hcur : c.tokens.current = .beginSym) :
    Reads (compound g n) c ReadsStatement := by
  unfold Reads compound
  simp only [wp_bind, wp_advance, wp_expect, implies_true, and_true]
  refine (hstatement _).part ?_
  rintro c₁ ⟨s, hs, _, h₁⟩
  refine (statementTail_reads hstatement n c₁).part ?_
  rintro c₂ ⟨l, hl, h₂⟩ hend
  refine .of_closed (.compound s l) (by simp [Statement.elseBound, hs, hl]) rfl ?_
  rw [rest_of_current hcur (by simp), h₁, h₂, rest_of_current hend (by simp)]
  simp [Statement.tokens]

private theorem ifStatement_reads {n : Nat} (hcur : c.tokens.current = .ifSym) :
    Reads (ifStatement g n) c ReadsStatement := by
  unfold Reads ifStatement
  simp only [wp_bind, wp_advance, wp_expect, wp_openJpc, implies_true, and_true]
  refine (condition_reads n _).part ?_
  rintro c₁ ⟨k, h₁⟩ hthen _
  refine (hstatement _).part ?_
  rintro c₂ ⟨s, hs, hopen, h₂⟩
  have hread : c.tokens.rest = .ifSym :: (k.tokens ++ .thenSym :: (s.tokens ++ c₂.tokens.rest)) := by
    rw [rest_of_current hcur (by simp), h₁, rest_of_current hthen (by simp)]
    exact congrArg (fun r => .ifSym :: (k.tokens ++ .thenSym :: r)) h₂
  simp only [wp_peek, wp_ite, wp_bind, wp_openJmp, wp_closeJump, wp_advance, implies_true, and_true]
  constructor
  · intro helse _
    -- an open `if` in the first branch would have taken the `else`
    have hclosed : s.endsOpen = false := by
      rw [← Bool.not_eq_true]
      exact fun h => hopen h helse
    refine (hstatement _).part ?_
    rintro c₃ ⟨t, ht, hopen', h₃⟩
    refine ⟨.ifElse k s t, by simp [Statement.elseBound, hs, hclosed, ht], hopen', ?_⟩
    have h₃ : c₂.advanced.tokens.rest = t.tokens ++ c₃.tokens.rest := h₃
    rw [hread, rest_of_current helse (by simp), h₃]
    simp [Statement.tokens]
  · intro hne
    exact ⟨.ifThen k s, hs, fun _ => hne, by simpa [Statement.tokens] using hread⟩

private theorem whileStatement_reads {n : Nat} (hcur : c.tokens.current = .whileSym) :
    Reads (whileStatement g n) c ReadsStatement := by
  unfold Reads whileStatement
  simp only [wp_bind, wp_nextAddress, wp_advance, wp_expect, wp_openJpc, wp_emit, wp_closeJump, implies_true, and_true]
  refine (condition_reads n _).part ?_
  rintro c₁ ⟨k, h₁⟩ _ hdo
  refine (hstatement _).part ?_
  rintro c₂ ⟨s, hs, hopen, h₂⟩ _
  refine ⟨.whileDo k s, hs, hopen, ?_⟩
  have hdo : c₁.tokens.rest = .doSym :: (c₁.jumpOpened .jpc).advanced.tokens.rest := rest_of_current hdo (by simp)
  rw [rest_of_current hcur (by simp), h₁, hdo, h₂]
  simp [Statement.tokens]

end

theorem statement_reads (n : Nat) : ∀ c, Reads (statement n) c ReadsStatement := by
  induction n with
  | zero => exact fun c => .of_closed .empty rfl rfl rfl
  | succ n ih =>
    intro c
    unfold Reads statement
    rw [wp_bind, wp_peek]
    cases hcur : c.tokens.current with
    | ident x => exact assignment_reads hcur
    | callSym => exact call_reads hcur
    | beginSym => exact compound_reads ih hcur
    | ifSym => exact ifStatement_reads ih hcur
    | whileSym => exact whileStatement_reads ih hcur
    | writeSym => exact write_reads hcur
    | readSym => exact read_reads hcur
    | _ => exact .of_closed .empty rfl rfl rfl

/-! ### Declarations and blocks -/

section

variable {α : Type} {item : α → List Token} (hitem : ∀ c, Reads g c fun r r' => ∃ a, r.tail = item a ++ r')

include hitem

private theorem commaTail_reads (n : Nat) :
    ∀ c, Reads (commaTail g n) c fun r r' => ∃ l : List α, r = l.flatMap (fun a => .comma :: item a) ++ r' := by
  induction n with
  | zero => exact fun c => ⟨[], rfl⟩
  | succ n ih =>
    intro c
    unfold Reads commaTail
    simp only [wp_bind, wp_peek, wp_ite, wp_pure]
    constructor
    · intro hcur
      refine (hitem c).part ?_
      rintro c₁ ⟨a, h₁⟩
      refine (ih c₁).part ?_
      rintro c₂ ⟨l, h₂⟩
      refine ⟨a :: l, ?_⟩
      rw [rest_of_current hcur (by simp), tail_rest, h₁, h₂]
      simp
    · exact fun _ => ⟨[], rfl⟩

/-- A declaration that starts with `keyword`. -/
private theorem declaration_reads {keyword : Token} (hkeyword : keyword ≠ .nul) (e : CompileError) (n : Nat)
    (c : Context) :
    Reads (do
      if (← peek) = keyword then
        g
        commaTail g n
        expect .semicolon e) c fun r r' => ∃ l : List α, r = listTokens keyword item l ++ r' := by
  unfold Reads
  simp only [wp_bind, wp_peek, wp_ite, wp_pure, wp_expect, implies_true, and_true]
  constructor
  · intro hcur
    refine (hitem c).part ?_
    rintro c₁ ⟨a, h₁⟩
    refine (commaTail_reads hitem n c₁).part ?_
    rintro c₂ ⟨l, h₂⟩ hend
    refine ⟨a :: l, ?_⟩
    rw [rest_of_current hcur hkeyword, tail_rest, h₁, h₂, rest_of_current hend (by simp)]
    simp [listTokens]
  · exact fun _ => ⟨[], rfl⟩

end

private theorem constItem_reads (c : Context) :
    Reads constItem c fun r r' => ∃ a, r.tail = constTokens a ++ r' := by
  unfold Reads constItem
  simp only [wp_bind, wp_advance, wp_takeName, wp_expect, wp_takeNumber, wp_declare, wp_pure, implies_true, and_true]
  intro x hx heql v hv
  refine ⟨(x, v), ?_⟩
  rw [← tail_rest, rest_of_current hx (by simp), rest_of_current heql (by simp), rest_of_current hv (by simp)]
  rfl

private theorem varItem_reads (c : Context) : Reads varItem c fun r r' => ∃ x, r.tail = varTokens x ++ r' := by
  unfold Reads varItem
  simp only [wp_bind, wp_advance, wp_nextAddress, wp_takeName, wp_declare, wp_emit, implies_true, and_true]
  intro x hx _
  refine ⟨x, ?_⟩
  rw [← tail_rest, rest_of_current hx (by simp)]
  rfl

private theorem constDeclaration_reads (n : Nat) (c : Context) :
    Reads (constDeclaration n) c fun r r' => ∃ l, r = listTokens .constSym constTokens l ++ r' :=
  declaration_reads constItem_reads (by decide : Token.constSym ≠ .nul) _ n c

private theorem varDeclaration_reads (n : Nat) (c : Context) :
    Reads (varDeclaration n) c fun r r' => ∃ l, r = listTokens .varSym varTokens l ++ r' :=
  declaration_reads varItem_reads (by decide : Token.varSym ≠ .nul) _ n c

/-- The tokens of a block. -/
def ReadsBlock (r r' : List Token) : Prop :=
  ∃ b : Block, b.elseBound ∧ r = b.tokens ++ r'

private theorem procedures_reads (hblock : ∀ c, Reads g c ReadsBlock) (n : Nat) :
    ∀ c, Reads (procedures g n) c fun r r' => ∃ l : Procedures, l.elseBound ∧ r = l.tokens ++ r' := by
  induction n with
  | zero => exact fun c => ⟨.nil, rfl, rfl⟩
  | succ n ih =>
    intro c
    unfold Reads procedures procedure
    simp only [wp_bind, wp_peek, wp_ite, wp_nextAddress, wp_advance, wp_takeName, wp_declare, wp_expect, wp_inBody,
      wp_pure, implies_true, and_true]
    constructor
    · intro hcur x hx hsemicolon
      refine wp_mono (hblock _) ?_ ?_
      · rintro - c₁ ⟨b, hb, h₁⟩ hsemicolon'
        refine (ih _).part ?_
        rintro c₂ ⟨l, hl, h₂⟩
        refine ⟨.cons x b l, by simp [Procedures.elseBound, hb, hl], ?_⟩
        have h₁ : (c.advanced.advanced.declared x (.proc (Int32.ofNat c.buffer.size))).advanced.tokens.rest =
          b.tokens ++ c₁.tokens.rest := h₁
        have hend : c₁.tokens.rest = .semicolon :: (l.tokens ++ c₂.tokens.rest) := by
          rw [← h₂]
          exact rest_of_current hsemicolon' (by simp)
        have hbody : c.advanced.advanced.tokens.rest = .semicolon :: (b.tokens ++ c₁.tokens.rest) := by
          rw [← h₁]
          exact rest_of_current hsemicolon (by simp)
        rw [rest_of_current hcur (by simp), rest_of_current hx (by simp), hbody, hend]
        simp [Procedures.tokens]
      · intro stop c' _
        cases stop <;> trivial
    · exact fun _ => ⟨.nil, rfl, rfl⟩

private theorem blockOf_reads (hprocs : ∀ c, Reads g c fun r r' => ∃ l : Procedures, l.elseBound ∧ r = l.tokens ++ r')
    (n : Nat) (c : Context) : Reads (blockOf g n) c ReadsBlock := by
  unfold Reads blockOf
  simp only [wp_bind, wp_openJmp, wp_closeJump, wp_emit, implies_true, and_true]
  intro _
  refine (constDeclaration_reads n _).part ?_
  rintro c₁ ⟨consts, h₁⟩
  refine (varDeclaration_reads n _).part ?_
  rintro c₂ ⟨vars, h₂⟩
  refine (hprocs _).part ?_
  rintro c₃ ⟨procs, hp, h₃⟩ _
  refine (statement_reads n _).part ?_
  rintro c₄ ⟨body, hbody, _, h₄⟩ _
  refine ⟨.mk consts vars procs body, by simp [Block.elseBound, hp, hbody], ?_⟩
  simp only [Context.tokens_jumpOpened, Context.tokens_emitted, Context.tokens_jumpClosed] at h₁ h₂ h₃ h₄ ⊢
  rw [h₁, h₂, h₃, h₄]
  simp [Block.tokens]

theorem block_reads (n : Nat) : ∀ c, Reads (block n) c ReadsBlock := by
  induction n with
  | zero =>
    refine blockOf_reads (g := pure ()) ?_ 0
    exact fun c => (wp_pure ()).2 ⟨.nil, rfl, rfl⟩
  | succ n ih => exact blockOf_reads (procedures_reads ih (n + 1)) (n + 1)

/-- A token sequence for which the productions succeed has a syntax tree. -/
theorem program_reads (n : Nat) (c : Context) :
    Reads (program n) c fun r _ => ∃ b : Block, b.IsTreeOf r := by
  unfold Reads program
  simp only [wp_bind, wp_expect, wp_emit, implies_true, and_true]
  refine (block_reads n c).part ?_
  rintro c₁ ⟨b, hb, h₁⟩ hperiod _
  refine ⟨b, hb, c₁.advanced.tokens.rest, ?_⟩
  rw [h₁, rest_of_current hperiod (by simp)]

end PL0.Gen
