import PL0.Proofs.Parsing

/-!
# What an accepted expression has emitted

An expression or a condition that is accepted has read the tokens of a tree whose names are used rightly, and has
emitted the translation of this tree: `expression_accepted`, `condition_accepted`.  Unlike in `expression_ends` the tree
is not given beforehand, and nothing is assumed about the bound of the production or about the tokens that follow.
-/

namespace PL0.Gen

variable {env : Env} {c : Context} {g : Gen Unit}

/-- If `g` succeeds where `env` is seen, it has read tokens and emitted code of which `R` holds, and nothing else. -/
def Accepts (g : Gen Unit) (env : Env) (R : List Token → List Instruction → Prop) : Prop :=
  ∀ c, c.Sees env →
    wp g c (fun _ c' => ∃ tokens code, R tokens code ∧ c.Extends c' tokens code [] 0) fun _ _ => True

/-- The tokens and the code of a tree whose names are used rightly. -/
def OfTree {Tree : Type} (isScoped : Tree → Bool) (tokensOf : Tree → List Token) (codeOf : Tree → List Instruction)
    (tokens : List Token) (code : List Instruction) : Prop :=
  ∃ tree, isScoped tree ∧ tokensOf tree = tokens ∧ codeOf tree = code

abbrev IsExpression (env : Env) : List Token → List Instruction → Prop :=
  OfTree (Expression.scoped env.sortOf) Expression.tokens (Expression.code env)

abbrev IsTermTail (env : Env) : List Token → List Instruction → Prop :=
  OfTree (TermTail.scoped env.sortOf) TermTail.tokens (TermTail.code env)

abbrev IsTerm (env : Env) : List Token → List Instruction → Prop :=
  OfTree (Term.scoped env.sortOf) Term.tokens (Term.code env)

abbrev IsFactorTail (env : Env) : List Token → List Instruction → Prop :=
  OfTree (FactorTail.scoped env.sortOf) FactorTail.tokens (FactorTail.code env)

abbrev IsFactor (env : Env) : List Token → List Instruction → Prop :=
  OfTree (Factor.scoped env.sortOf) Factor.tokens (Factor.code env)

abbrev IsCondition (env : Env) : List Token → List Instruction → Prop :=
  OfTree (Condition.scoped env.sortOf) Condition.tokens (Condition.code env)

variable {R T : List Token → List Instruction → Prop}

/-- The first part of a larger step. -/
theorem Accepts.part {Q : Unit → Context → Prop} (h : Accepts g env R) (hs : c.Sees env)
    (hQ : ∀ c' tokens code, R tokens code → c.Extends c' tokens code [] 0 → Q () c') :
    wp g c Q fun _ _ => True := by
  refine wp_mono (h c hs) ?_ (fun _ _ _ => trivial)
  rintro _ c' ⟨tokens, code, hR, hc'⟩
  exact hQ c' tokens code hR hc'

/-- Reading the current token. -/
private theorem extends_advanced {t : Token} (h : c.tokens.current = t) (ht : t ≠ .nul) :
    c.Extends c.advanced [t] [] [] 0 :=
  .advanced (rest_of_current h ht)

/-- Emitting one instruction at the end of a step. -/
private theorem wp_emit_last {op : Opcode} {m : Int32} {Q : Unit → Context → Prop}
    (hQ : ∀ c', c.Extends c' [] [instruction op m] [] 0 → Q () c') : wp (emit op 0 m) c Q fun _ _ => True := by
  rw [wp_emit]
  exact ⟨fun hroom => hQ _ (.emitted _ hroom), fun _ => trivial⟩

/-- A chain of operators and operands. -/
private theorem chain_accepted (op? : Token → Option Opcode) (hnul : op? .nul = none) (hoperand : Accepts g env R)
    (hnil : T [] [])
    (hcons : ∀ t op tokens code tokens' code', op? t = some op → R tokens code → T tokens' code' →
      T (t :: (tokens ++ tokens')) (code ++ instruction op 0 :: code')) (n : Nat) :
    Accepts (chain op? g n) env T := by
  refine wp_chain (I := fun c => c.Sees env)
    (T := fun c c' => ∃ tokens code, T tokens code ∧ c.Extends c' tokens code [] 0) hnul
    (fun c _ => ⟨[], [], hnil, .refl c⟩) ?_ n
  intro c op hs hop hne
  have h₀ := extends_advanced rfl hne
  refine hoperand.part (h₀.sees hs) fun c₁ tokens code hR h₁ => wp_emit_last fun c₂ h₂ => ?_
  have h := h₀.trans (h₁.trans h₂)
  refine ⟨h.sees hs, ?_⟩
  rintro c₃ ⟨tokens', code', hT, h₃⟩
  exact ⟨_, _, hcons _ op _ _ _ _ hop hR hT, by simpa using h.trans h₃⟩

private theorem termOf_accepted (hfactor : Accepts g env (IsFactor env)) (n : Nat) :
    Accepts (termOf g n) env (IsTerm env) := by
  have htail : Accepts (chain mulOp? g n) env (IsFactorTail env) := by
    refine chain_accepted mulOp? rfl hfactor ⟨.nil, rfl, rfl, rfl⟩ ?_ n
    rintro t op _ _ _ _ hop ⟨f, hf, rfl, rfl⟩ ⟨l, hl, rfl, rfl⟩
    obtain ⟨o, rfl⟩ := exists_mulOp hop
    obtain rfl : o.opcode = op := by cases o <;> exact Option.some.inj hop
    exact ⟨.cons o f l, by simp [FactorTail.scoped, hf, hl], rfl, rfl⟩
  intro c hs
  unfold termOf
  rw [wp_bind]
  refine hfactor.part hs fun c₁ _ _ hf h₁ => ?_
  refine htail.part (h₁.sees hs) fun c₂ _ _ hl h₂ => ?_
  obtain ⟨f, hf, rfl, rfl⟩ := hf
  obtain ⟨l, hl, rfl, rfl⟩ := hl
  exact ⟨_, _, ⟨.mk f l, by simp [Term.scoped, hf, hl], rfl, rfl⟩, h₁.trans h₂⟩

private theorem expressionOf_accepted (hfactor : Accepts g env (IsFactor env)) (n : Nat) :
    Accepts (expressionOf g n) env (IsExpression env) := by
  have hterm := termOf_accepted hfactor n
  have htail : Accepts (chain addOp? (termOf g n) n) env (IsTermTail env) := by
    refine chain_accepted addOp? rfl hterm ⟨.nil, rfl, rfl, rfl⟩ ?_ n
    rintro t op _ _ _ _ hop ⟨f, hf, rfl, rfl⟩ ⟨l, hl, rfl, rfl⟩
    obtain ⟨o, rfl⟩ := exists_addOp hop
    obtain rfl : o.opcode = op := by cases o <;> exact Option.some.inj hop
    exact ⟨.cons o f l, by simp [TermTail.scoped, hf, hl], rfl, rfl⟩
  intro c hs
  -- the terms that follow the first one and its sign
  have hrest : ∀ (sign : Option AddOp) (t : Term) (c₁ : Context), t.scoped env.sortOf →
      c.Extends c₁ ((sign.map AddOp.token).toList ++ t.tokens) (t.code env ++ signCode sign) [] 0 →
      wp (chain addOp? (termOf g n) n) c₁ (fun _ c' => ∃ tokens code, IsExpression env tokens code ∧
        c.Extends c' tokens code [] 0) fun _ _ => True := by
    intro sign t c₁ ht h₁
    refine htail.part (h₁.sees hs) fun c₂ _ _ hl h₂ => ?_
    obtain ⟨l, hl, rfl, rfl⟩ := hl
    have h := h₁.trans h₂
    rw [List.append_assoc, List.append_assoc] at h
    exact ⟨_, _, ⟨.mk sign t l, by simp [Expression.scoped, ht, hl], rfl, rfl⟩, h⟩
  rw [wp_expressionOf]
  refine ⟨fun hplus => ?_, fun hminus => ?_, fun _ => ?_⟩
  · have h₀ := extends_advanced hplus (by decide)
    refine hterm.part (h₀.sees hs) fun c₁ _ _ ht h₁ => ?_
    obtain ⟨t, ht, rfl, rfl⟩ := ht
    exact hrest (some .plus) t c₁ ht (by simpa [signCode, AddOp.token] using h₀.trans h₁)
  · have h₀ := extends_advanced hminus (by decide)
    refine hterm.part (h₀.sees hs) fun c₁ _ _ ht h₁ => ?_
    obtain ⟨t, ht, rfl, rfl⟩ := ht
    refine wp_emit_last fun c₂ h₂ => ?_
    exact hrest (some .minus) t c₂ ht (by simpa [signCode, AddOp.token] using h₀.trans (h₁.trans h₂))
  · refine hterm.part hs fun c₁ _ _ ht h₁ => ?_
    obtain ⟨t, ht, rfl, rfl⟩ := ht
    exact hrest none t c₁ ht (by simpa [signCode] using h₁)

private theorem factor_accepted (n : Nat) : Accepts (factor n) env (IsFactor env) := by
  induction n with
  | zero => exact fun c _ => trivial
  | succ n ih =>
    intro c hs
    rw [wp_factor]
    refine ⟨fun x hcur => ?_, fun value hcur => ?_, fun hcur => ?_, fun _ _ _ => trivial⟩
    · have hrest := rest_of_current hcur (by simp)
      have hload : wp (lookUp x) c (fun binding c' => wp (load binding .procedureInExpression) c' (fun _ c'' =>
          ∃ tokens code, IsFactor env tokens code ∧ c.Extends c''.advanced tokens code [] 0) (Refused False))
          (Refused False) := by
        refine wp_load hs rfl False.elim fun hx c₁ h₁ => ?_
        exact ⟨_, _, ⟨.name x, hx, rfl, rfl⟩, h₁.trans (.advanced (h₁.rest_eq hrest))⟩
      exact wp_mono hload (fun _ _ h => wp_mono h (fun _ _ h => h) fun _ _ _ => trivial) fun _ _ _ => trivial
    · refine wp_emit_last fun c₁ h₁ => ?_
      have hrest := rest_of_current hcur (by simp)
      exact ⟨_, _, ⟨.number value, rfl, rfl, rfl⟩, h₁.trans (.advanced (h₁.rest_eq hrest))⟩
    · have h₀ := extends_advanced hcur (by decide)
      refine (expressionOf_accepted ih n).part (h₀.sees hs) fun c₁ _ _ he h₁ => ?_
      obtain ⟨e, he, rfl, rfl⟩ := he
      simp only [wp_expect, implies_true, and_true]
      intro hparen
      have h := h₀.trans (h₁.trans (extends_advanced hparen (by decide)))
      exact ⟨_, _, ⟨.paren e, he, rfl, rfl⟩, by simpa [Factor.tokens, Factor.code] using h⟩

theorem expression_accepted (n : Nat) : Accepts (expression n) env (IsExpression env) :=
  expressionOf_accepted (factor_accepted n) n

theorem condition_accepted (n : Nat) : Accepts (condition n) env (IsCondition env) := by
  intro c hs
  unfold condition
  simp only [wp_bind, wp_peek, wp_ite, wp_advance]
  constructor
  · intro hodd
    have h₀ := extends_advanced hodd (by decide)
    refine (expression_accepted n).part (h₀.sees hs) fun c₁ _ _ he h₁ => ?_
    obtain ⟨e, he, rfl, rfl⟩ := he
    refine wp_emit_last fun c₂ h₂ => ?_
    exact ⟨_, _, ⟨.odd e, he, rfl, rfl⟩, by simpa [Condition.tokens, Condition.code] using h₀.trans (h₁.trans h₂)⟩
  · intro _
    refine (expression_accepted n).part hs fun c₁ _ _ hleft h₁ => ?_
    obtain ⟨left, hleft, rfl, rfl⟩ := hleft
    cases hop : relOp? c₁.tokens.current with
    | none => exact trivial
    | some op =>
      obtain ⟨o, ho⟩ := exists_relOp hop
      obtain rfl : o.opcode = op := by
        rw [ho] at hop
        cases o <;> exact Option.some.inj hop
      have h₂ := extends_advanced ho (by cases o <;> decide)
      simp only [wp_bind, wp_advance]
      refine (expression_accepted n).part (h₂.sees (h₁.sees hs)) fun c₃ _ _ hright h₃ => ?_
      obtain ⟨right, hright, rfl, rfl⟩ := hright
      refine wp_emit_last fun c₄ h₄ => ?_
      have hscoped : (Condition.compare left o right).scoped env.sortOf := by
        simp [Condition.scoped, hleft, hright]
      exact ⟨_, _, ⟨.compare left o right, hscoped, rfl, rfl⟩,
        by simpa [Condition.tokens, Condition.code] using h₁.trans (h₂.trans (h₃.trans h₄))⟩

end PL0.Gen
