import PL0.Generator.Expression
import PL0.Proofs.Syntax.Tree

/-!
# A sentence has one else-bound tree

Two trees of the same kind whose sentences start the same token sequence are equal and leave the same rest, if what is
left cannot continue either of them (`Block.IsTreeOf.unique` for whole programs).  Where a repetition ends is decided by
the next token: an expression goes on as long as an operator follows, and a statement ends at one of the tokens that
`endsStatement` lists.  An `else` ends only a statement that has no open `if` at its end; this is where being
else-bound is used.
-/

namespace PL0

open Gen (addOp? mulOp? relOp?)

/-- The next token of a sequence. -/
def lookahead (tokens : List Token) : Token :=
  tokens.headD .nul

@[simp] theorem lookahead_cons (t : Token) (rest : List Token) : lookahead (t :: rest) = t := rfl

/-- The next token is no operator on factors, so a term is not continued. -/
def EndsTerm (rest : List Token) : Prop :=
  mulOp? (lookahead rest) = none

/-- The next token is no arithmetic operator, so an expression is not continued. -/
def EndsExpression (rest : List Token) : Prop :=
  addOp? (lookahead rest) = none ∧ EndsTerm rest

/-- The tokens that may follow a statement. -/
def endsStatement : Token → Bool
  | .semicolon | .endSym | .elseSym | .period => true
  | _ => false

/-- The tokens with which a factor starts. -/
def startsFactor : Token → Bool
  | .ident _ | .number _ | .lparen => true
  | _ => false

/-! ### First tokens -/

theorem mulOp?_addToken (op : AddOp) : mulOp? op.token = none := by
  cases op <;> rfl

theorem startsFactor_addToken (op : AddOp) : startsFactor op.token = false := by
  cases op <;> rfl

theorem endsExpression_relToken (op : RelOp) (rest : List Token) : EndsExpression (op.token :: rest) := by
  cases op <;> exact ⟨rfl, rfl⟩

theorem EndsExpression.of_endsStatement {rest : List Token} (h : endsStatement (lookahead rest)) :
    EndsExpression rest := by
  unfold EndsExpression EndsTerm
  cases ht : lookahead rest <;> simp_all [endsStatement, addOp?, mulOp?]

theorem Factor.head_tokens (f : Factor) : ∃ t ts, f.tokens = t :: ts ∧ startsFactor t := by
  cases f <;> exact ⟨_, _, rfl, rfl⟩

theorem Term.head_tokens (t : Term) : ∃ u us, t.tokens = u :: us ∧ startsFactor u := by
  obtain ⟨first, rest⟩ := t
  obtain ⟨u, us, hu, h⟩ := first.head_tokens
  exact ⟨u, us ++ rest.tokens, by simp [Term.tokens, hu], h⟩

/-- An expression starts with a sign or with a factor. -/
theorem Expression.head_tokens (e : Expression) :
    ∃ u us, e.tokens = u :: us ∧ ((addOp? u).isSome || startsFactor u) := by
  obtain ⟨sign, first, rest⟩ := e
  obtain ⟨u, us, hu, h⟩ := first.head_tokens
  cases sign with
  | none => exact ⟨u, us ++ rest.tokens, by simp [Expression.tokens, hu], by simp [h]⟩
  | some op =>
    refine ⟨op.token, first.tokens ++ rest.tokens, by simp [Expression.tokens], ?_⟩
    cases op <;> rfl

theorem TermTail.endsTerm {rest : TermTail} {r : List Token} (h : EndsTerm r) : EndsTerm (rest.tokens ++ r) := by
  cases rest with
  | nil => exact h
  | cons op term rest => exact mulOp?_addToken op

/-! ### Expressions -/

mutual

theorem Expression.unique : ∀ (e e' : Expression) {r r' : List Token}, e.tokens ++ r = e'.tokens ++ r' →
    EndsExpression r → EndsExpression r' → e = e' ∧ r = r'
  | .mk sign first rest, .mk sign' first' rest', r, r', h, hr, hr' => by
    simp only [Expression.tokens, List.append_assoc] at h
    have key : sign = sign' ∧ first.tokens ++ (rest.tokens ++ r) = first'.tokens ++ (rest'.tokens ++ r') := by
      -- a term does not start with a sign
      obtain ⟨u, us, hu, hs⟩ := first.head_tokens
      obtain ⟨u', us', hu', hs'⟩ := first'.head_tokens
      cases sign with
      | none =>
        cases sign' with
        | none => exact ⟨rfl, by simpa using h⟩
        | some op =>
          simp only [hu, Option.map_none, Option.toList_none, Option.map_some, Option.toList_some, List.nil_append,
            List.cons_append, List.cons.injEq] at h
          rw [h.1, startsFactor_addToken] at hs
          contradiction
      | some op =>
        cases sign' with
        | none =>
          simp only [hu', Option.map_none, Option.toList_none, Option.map_some, Option.toList_some, List.nil_append,
            List.cons_append, List.cons.injEq] at h
          rw [← h.1, startsFactor_addToken] at hs'
          contradiction
        | some op' =>
          simp only [Option.map_some, Option.toList_some, List.cons_append, List.nil_append, List.cons.injEq] at h
          refine ⟨?_, h.2⟩
          cases op <;> cases op' <;> simp_all [AddOp.token]
    obtain ⟨rfl, h₁⟩ := key
    obtain ⟨rfl, h₂⟩ := Term.unique first first' h₁ (TermTail.endsTerm hr.2) (TermTail.endsTerm hr'.2)
    obtain ⟨rfl, h₃⟩ := TermTail.unique rest rest' h₂ hr hr'
    exact ⟨rfl, h₃⟩

theorem TermTail.unique : ∀ (l l' : TermTail) {r r' : List Token}, l.tokens ++ r = l'.tokens ++ r' →
    EndsExpression r → EndsExpression r' → l = l' ∧ r = r'
  | .nil, .nil, r, r', h, _, _ => ⟨rfl, by simpa [TermTail.tokens] using h⟩
  | .nil, .cons op t l', r, r', h, hr, _ => by
    have : r = op.token :: (t.tokens ++ l'.tokens ++ r') := by simpa [TermTail.tokens] using h
    cases op <;> simp [EndsExpression, this, AddOp.token, addOp?] at hr
  | .cons op t l, .nil, r, r', h, _, hr' => by
    have : r' = op.token :: (t.tokens ++ l.tokens ++ r) := by simpa [TermTail.tokens] using h.symm
    cases op <;> simp [EndsExpression, this, AddOp.token, addOp?] at hr'
  | .cons op t l, .cons op' t' l', r, r', h, hr, hr' => by
    simp only [TermTail.tokens, List.cons_append, List.append_assoc, List.cons.injEq] at h
    obtain ⟨hop, h₁⟩ := h
    obtain rfl : op = op' := by cases op <;> cases op' <;> simp_all [AddOp.token]
    obtain ⟨rfl, h₂⟩ := Term.unique t t' h₁ (TermTail.endsTerm hr.2) (TermTail.endsTerm hr'.2)
    obtain ⟨rfl, h₃⟩ := TermTail.unique l l' h₂ hr hr'
    exact ⟨rfl, h₃⟩

theorem Term.unique : ∀ (t t' : Term) {r r' : List Token}, t.tokens ++ r = t'.tokens ++ r' →
    EndsTerm r → EndsTerm r' → t = t' ∧ r = r'
  | .mk first rest, .mk first' rest', r, r', h, hr, hr' => by
    simp only [Term.tokens, List.append_assoc] at h
    obtain ⟨rfl, h₁⟩ := Factor.unique first first' h
    obtain ⟨rfl, h₂⟩ := FactorTail.unique rest rest' h₁ hr hr'
    exact ⟨rfl, h₂⟩

theorem FactorTail.unique : ∀ (l l' : FactorTail) {r r' : List Token}, l.tokens ++ r = l'.tokens ++ r' →
    EndsTerm r → EndsTerm r' → l = l' ∧ r = r'
  | .nil, .nil, r, r', h, _, _ => ⟨rfl, by simpa [FactorTail.tokens] using h⟩
  | .nil, .cons op f l', r, r', h, hr, _ => by
    have : r = op.token :: (f.tokens ++ l'.tokens ++ r') := by simpa [FactorTail.tokens] using h
    cases op <;> simp [EndsTerm, this, MulOp.token, mulOp?] at hr
  | .cons op f l, .nil, r, r', h, _, hr' => by
    have : r' = op.token :: (f.tokens ++ l.tokens ++ r) := by simpa [FactorTail.tokens] using h.symm
    cases op <;> simp [EndsTerm, this, MulOp.token, mulOp?] at hr'
  | .cons op f l, .cons op' f' l', r, r', h, hr, hr' => by
    simp only [FactorTail.tokens, List.cons_append, List.append_assoc, List.cons.injEq] at h
    obtain ⟨hop, h₁⟩ := h
    obtain rfl : op = op' := by cases op <;> cases op' <;> simp_all [MulOp.token]
    obtain ⟨rfl, h₂⟩ := Factor.unique f f' h₁
    obtain ⟨rfl, h₃⟩ := FactorTail.unique l l' h₂ hr hr'
    exact ⟨rfl, h₃⟩

theorem Factor.unique : ∀ (f f' : Factor) {r r' : List Token}, f.tokens ++ r = f'.tokens ++ r' → f = f' ∧ r = r'
  | .name x, .name x', r, r', h => by simpa [Factor.tokens] using h
  | .number v, .number v', r, r', h => by simpa [Factor.tokens] using h
  | .paren e, .paren e', r, r', h => by
    simp only [Factor.tokens, List.cons_append, List.append_assoc, List.nil_append, List.cons.injEq, true_and] at h
    obtain ⟨rfl, h₁⟩ := Expression.unique e e' h ⟨rfl, rfl⟩ ⟨rfl, rfl⟩
    exact ⟨rfl, by simpa using h₁⟩
  | .name _, .number _, _, _, h | .name _, .paren _, _, _, h | .number _, .name _, _, _, h
  | .number _, .paren _, _, _, h | .paren _, .name _, _, _, h | .paren _, .number _, _, _, h => by
    simp [Factor.tokens] at h

end

theorem Condition.unique (c c' : Condition) {r r' : List Token} (h : c.tokens ++ r = c'.tokens ++ r')
    (hr : EndsExpression r) (hr' : EndsExpression r') : c = c' ∧ r = r' := by
  cases c with
  | odd e =>
    cases c' with
    | odd e' =>
      simp only [Condition.tokens, List.cons_append, List.cons.injEq, true_and] at h
      obtain ⟨rfl, h₁⟩ := Expression.unique e e' h hr hr'
      exact ⟨rfl, h₁⟩
    | compare left op right =>
      obtain ⟨u, us, hu, hs⟩ := left.head_tokens
      simp only [Condition.tokens, hu, List.cons_append, List.cons.injEq] at h
      rw [← h.1] at hs
      cases hs
  | compare left op right =>
    cases c' with
    | odd e =>
      obtain ⟨u, us, hu, hs⟩ := left.head_tokens
      simp only [Condition.tokens, hu, List.cons_append, List.cons.injEq] at h
      rw [h.1] at hs
      cases hs
    | compare left' op' right' =>
      simp only [Condition.tokens, List.append_assoc, List.cons_append] at h
      obtain ⟨rfl, h₁⟩ := Expression.unique left left' h (endsExpression_relToken op _) (endsExpression_relToken op' _)
      obtain ⟨hop, h₂⟩ := List.cons.inj h₁
      obtain rfl : op = op' := by cases op <;> cases op' <;> simp [RelOp.token] at hop ⊢
      obtain ⟨rfl, h₃⟩ := Expression.unique right right' h₂ hr hr'
      exact ⟨rfl, h₃⟩

/-! ### Statements -/

/-- The rest may follow the statement: it does not continue it. -/
def Statement.EndsBefore (s : Statement) (rest : List Token) : Prop :=
  endsStatement (lookahead rest) ∧ (s.endsOpen → lookahead rest ≠ .elseSym)

theorem StatementTail.endsBefore {s : Statement} (rest : StatementTail) (r : List Token) :
    s.EndsBefore (rest.tokens ++ .endSym :: r) := by
  cases rest <;> exact ⟨rfl, fun _ => by simp [StatementTail.tokens]⟩

theorem Statement.EndsBefore.of_closed {s : Statement} (h : s.endsOpen = false) (r : List Token) :
    s.EndsBefore (.elseSym :: r) :=
  ⟨rfl, by simp [h]⟩

/-- A token that starts a statement other than the empty one. -/
private theorem not_endsStatement_of_tokens {s : Statement} (hs : s ≠ .empty) {r r' : List Token}
    (h : r = s.tokens ++ r') : endsStatement (lookahead r) = false := by
  cases s <;> first | exact absurd rfl hs | simp [h, Statement.tokens, endsStatement]

mutual

theorem Statement.unique : ∀ (s s' : Statement) {r r' : List Token}, s.tokens ++ r = s'.tokens ++ r' →
    s.elseBound → s'.elseBound → s.EndsBefore r → s'.EndsBefore r' → s = s' ∧ r = r'
  | .empty, s', r, r', h, _, _, hr, _ => by
    by_cases hs : s' = .empty
    · subst hs
      exact ⟨rfl, by simpa [Statement.tokens] using h⟩
    · have := not_endsStatement_of_tokens hs (by simpa [Statement.tokens] using h)
      simp [this, Statement.EndsBefore] at hr
  | s, .empty, r, r', h, _, _, _, hr' => by
    by_cases hs : s = .empty
    · subst hs
      exact ⟨rfl, by simpa [Statement.tokens] using h⟩
    · have := not_endsStatement_of_tokens hs (by simpa [Statement.tokens] using h.symm)
      simp [this, Statement.EndsBefore] at hr'
  | .assign x e, .assign x' e', r, r', h, _, _, hr, hr' => by
    simp only [Statement.tokens, List.cons_append, List.cons.injEq, Token.ident.injEq, true_and] at h
    obtain ⟨rfl, h₁⟩ := h
    obtain ⟨rfl, h₂⟩ := Expression.unique e e' h₁ (.of_endsStatement hr.1) (.of_endsStatement hr'.1)
    exact ⟨rfl, h₂⟩
  | .call p, .call p', r, r', h, _, _, _, _ => by simpa [Statement.tokens] using h
  | .read x, .read x', r, r', h, _, _, _, _ => by simpa [Statement.tokens] using h
  | .write x, .write x', r, r', h, _, _, _, _ => by simpa [Statement.tokens] using h
  | .compound s l, .compound s' l', r, r', h, hb, hb', _, _ => by
    simp only [Statement.elseBound, Bool.and_eq_true] at hb hb'
    simp only [Statement.tokens, List.cons_append, List.append_assoc, List.nil_append, List.cons.injEq, true_and] at h
    obtain ⟨rfl, h₁⟩ := Statement.unique s s' h hb.1 hb'.1 (l.endsBefore r) (l'.endsBefore r')
    obtain ⟨rfl, h₂⟩ := StatementTail.unique l l' h₁ hb.2 hb'.2
    exact ⟨rfl, h₂⟩
  | .ifThen c s, .ifThen c' s', r, r', h, hb, hb', hr, hr' => by
    simp only [Statement.elseBound] at hb hb'
    simp only [Statement.tokens, List.cons_append, List.append_assoc, List.cons.injEq, true_and] at h
    obtain ⟨rfl, h₁⟩ := Condition.unique c c' h ⟨rfl, rfl⟩ ⟨rfl, rfl⟩
    obtain ⟨rfl, h₂⟩ := Statement.unique s s' (List.cons.inj h₁).2 hb hb' ⟨hr.1, fun _ => hr.2 rfl⟩
      ⟨hr'.1, fun _ => hr'.2 rfl⟩
    exact ⟨rfl, h₂⟩
  | .ifElse c s t, .ifElse c' s' t', r, r', h, hb, hb', hr, hr' => by
    simp only [Statement.elseBound, Bool.and_eq_true, Bool.not_eq_true'] at hb hb'
    simp only [Statement.tokens, List.cons_append, List.append_assoc, List.cons.injEq, true_and] at h
    obtain ⟨rfl, h₁⟩ := Condition.unique c c' h ⟨rfl, rfl⟩ ⟨rfl, rfl⟩
    obtain ⟨rfl, h₂⟩ := Statement.unique s s' (List.cons.inj h₁).2 hb.1.1 hb'.1.1 (.of_closed hb.1.2 _)
      (.of_closed hb'.1.2 _)
    obtain ⟨rfl, h₃⟩ := Statement.unique t t' (List.cons.inj h₂).2 hb.2 hb'.2 hr hr'
    exact ⟨rfl, h₃⟩
  | .ifThen c s, .ifElse c' s' t', r, r', h, hb, hb', hr, _ => by
    -- the `else` would follow a statement that it continues
    simp only [Statement.elseBound, Bool.and_eq_true, Bool.not_eq_true'] at hb hb'
    simp only [Statement.tokens, List.cons_append, List.append_assoc, List.cons.injEq, true_and] at h
    obtain ⟨rfl, h₁⟩ := Condition.unique c c' h ⟨rfl, rfl⟩ ⟨rfl, rfl⟩
    obtain ⟨rfl, h₂⟩ := Statement.unique s s' (List.cons.inj h₁).2 hb hb'.1.1 ⟨hr.1, fun _ => hr.2 rfl⟩
      (.of_closed hb'.1.2 _)
    exact absurd (by rw [h₂]; rfl) (hr.2 rfl)
  | .ifElse c s t, .ifThen c' s', r, r', h, hb, hb', _, hr' => by
    simp only [Statement.elseBound, Bool.and_eq_true, Bool.not_eq_true'] at hb hb'
    simp only [Statement.tokens, List.cons_append, List.append_assoc, List.cons.injEq, true_and] at h
    obtain ⟨rfl, h₁⟩ := Condition.unique c c' h ⟨rfl, rfl⟩ ⟨rfl, rfl⟩
    obtain ⟨rfl, h₂⟩ := Statement.unique s s' (List.cons.inj h₁).2 hb.1.1 hb' (.of_closed hb.1.2 _)
      ⟨hr'.1, fun _ => hr'.2 rfl⟩
    exact absurd (by rw [← h₂]; rfl) (hr'.2 rfl)
  | .whileDo c s, .whileDo c' s', r, r', h, hb, hb', hr, hr' => by
    simp only [Statement.elseBound] at hb hb'
    simp only [Statement.tokens, List.cons_append, List.append_assoc, List.cons.injEq, true_and] at h
    obtain ⟨rfl, h₁⟩ := Condition.unique c c' h ⟨rfl, rfl⟩ ⟨rfl, rfl⟩
    obtain ⟨rfl, h₂⟩ := Statement.unique s s' (List.cons.inj h₁).2 hb hb' hr hr'
    exact ⟨rfl, h₂⟩

theorem StatementTail.unique : ∀ (l l' : StatementTail) {r r' : List Token},
    l.tokens ++ .endSym :: r = l'.tokens ++ .endSym :: r' → l.elseBound → l'.elseBound → l = l' ∧ r = r'
  | .nil, .nil, r, r', h, _, _ => ⟨rfl, by simpa [StatementTail.tokens] using h⟩
  | .nil, .cons .., _, _, h, _, _ | .cons .., .nil, _, _, h, _, _ => by simp [StatementTail.tokens] at h
  | .cons s l, .cons s' l', r, r', h, hb, hb' => by
    simp only [StatementTail.elseBound, Bool.and_eq_true] at hb hb'
    simp only [StatementTail.tokens, List.cons_append, List.append_assoc, List.cons.injEq, true_and] at h
    obtain ⟨rfl, h₁⟩ := Statement.unique s s' h hb.1 hb'.1 (l.endsBefore r) (l'.endsBefore r')
    obtain ⟨rfl, h₂⟩ := StatementTail.unique l l' h₁ hb.2 hb'.2
    exact ⟨rfl, h₂⟩

end

/-! ### Blocks -/

/-- The keywords in front of declarations. -/
def startsDeclaration : Token → Bool
  | .constSym | .varSym | .procSym => true
  | _ => false

theorem Statement.lookahead_tokens (s : Statement) {r : List Token} (hr : endsStatement (lookahead r)) :
    startsDeclaration (lookahead (s.tokens ++ r)) = false := by
  cases s with
  | empty =>
    simp only [Statement.tokens, List.nil_append]
    cases ht : lookahead r <;> simp_all [endsStatement, startsDeclaration]
  | _ => simp [Statement.tokens, startsDeclaration]

theorem Procedures.lookahead_tokens (procs : Procedures) (s : Statement) {r : List Token}
    (hr : endsStatement (lookahead r)) :
    lookahead (procs.tokens ++ (s.tokens ++ r)) ≠ .constSym ∧
      lookahead (procs.tokens ++ (s.tokens ++ r)) ≠ .varSym := by
  cases procs with
  | nil =>
    have := s.lookahead_tokens hr
    constructor <;> intro h <;> simp [Procedures.tokens] at h <;> simp [h, startsDeclaration] at this
  | cons name block rest => simp [Procedures.tokens]

theorem lookahead_vars (vars : List String) {r : List Token} (hr : lookahead r ≠ .constSym) :
    lookahead (listTokens .varSym varTokens vars ++ r) ≠ .constSym := by
  cases vars with
  | nil => exact hr
  | cons x vars => simp [listTokens]

section

variable {α : Type} {item : α → List Token}

private theorem items_unique (hitem : ∀ a a' r r', item a ++ r = item a' ++ r' → a = a' ∧ r = r') :
    ∀ (l l' : List α) {r r' : List Token}, l.flatMap (fun a => .comma :: item a) ++ .semicolon :: r =
      l'.flatMap (fun a => .comma :: item a) ++ .semicolon :: r' → l = l' ∧ r = r'
  | [], [], r, r', h => ⟨rfl, by simpa using h⟩
  | [], _ :: _, _, _, h | _ :: _, [], _, _, h => by simp at h
  | a :: l, a' :: l', r, r', h => by
    simp only [List.flatMap_cons, List.cons_append, List.append_assoc, List.cons.injEq, true_and] at h
    obtain ⟨rfl, h₁⟩ := hitem a a' _ _ h
    obtain ⟨rfl, h₂⟩ := items_unique hitem l l' h₁
    exact ⟨rfl, h₂⟩

private theorem listTokens_unique {keyword : Token}
    (hitem : ∀ a a' r r', item a ++ r = item a' ++ r' → a = a' ∧ r = r') :
    ∀ (l l' : List α) {r r' : List Token}, listTokens keyword item l ++ r = listTokens keyword item l' ++ r' →
      lookahead r ≠ keyword → lookahead r' ≠ keyword → l = l' ∧ r = r'
  | [], [], r, r', h, _, _ => ⟨rfl, by simpa [listTokens] using h⟩
  | [], _ :: _, r, r', h, hr, _ => by
    simp only [listTokens, List.nil_append, List.cons_append] at h
    exact absurd (by rw [h, lookahead_cons]) hr
  | _ :: _, [], r, r', h, _, hr' => by
    simp only [listTokens, List.nil_append, List.cons_append] at h
    exact absurd (by rw [← h, lookahead_cons]) hr'
  | a :: l, a' :: l', r, r', h, _, _ => by
    simp only [listTokens, List.cons_append, List.append_assoc, List.nil_append, List.cons.injEq, true_and] at h
    obtain ⟨rfl, h₁⟩ := hitem a a' _ _ h
    obtain ⟨rfl, h₂⟩ := items_unique hitem l l' h₁
    exact ⟨rfl, h₂⟩

end

private theorem constTokens_unique (a a' : String × Int32) (r r' : List Token)
    (h : constTokens a ++ r = constTokens a' ++ r') : a = a' ∧ r = r' := by
  obtain ⟨x, v⟩ := a
  obtain ⟨x', v'⟩ := a'
  simpa [constTokens, and_assoc] using h

private theorem varTokens_unique (a a' : String) (r r' : List Token) (h : varTokens a ++ r = varTokens a' ++ r') :
    a = a' ∧ r = r' := by
  simpa [varTokens] using h

/-- The rest may follow a block. -/
def EndsBlock (rest : List Token) : Prop :=
  lookahead rest = .semicolon ∨ lookahead rest = .period

theorem EndsBlock.endsBefore {rest : List Token} (h : EndsBlock rest) (s : Statement) : s.EndsBefore rest := by
  rcases h with h | h <;> simp [Statement.EndsBefore, h, endsStatement]

mutual

theorem Block.unique : ∀ (b b' : Block) {r r' : List Token}, b.tokens ++ r = b'.tokens ++ r' →
    b.elseBound → b'.elseBound → EndsBlock r → EndsBlock r' → b = b' ∧ r = r'
  | .mk consts vars procs body, .mk consts' vars' procs' body', r, r', h, hb, hb', hr, hr' => by
    simp only [Block.elseBound, Bool.and_eq_true] at hb hb'
    simp only [Block.tokens, List.append_assoc] at h
    have hbody := hr.endsBefore body
    have hbody' := hr'.endsBefore body'
    obtain ⟨hp, hv⟩ := procs.lookahead_tokens body hbody.1
    obtain ⟨hp', hv'⟩ := procs'.lookahead_tokens body' hbody'.1
    obtain ⟨rfl, h₁⟩ := listTokens_unique constTokens_unique consts consts' h (lookahead_vars vars hp)
      (lookahead_vars vars' hp')
    obtain ⟨rfl, h₂⟩ := listTokens_unique varTokens_unique vars vars' h₁ hv hv'
    obtain ⟨rfl, h₃⟩ := Procedures.unique procs procs' h₂ hb.1 hb'.1 (body.lookahead_tokens hbody.1)
      (body'.lookahead_tokens hbody'.1)
    obtain ⟨rfl, h₄⟩ := Statement.unique body body' h₃ hb.2 hb'.2 hbody hbody'
    exact ⟨rfl, h₄⟩

theorem Procedures.unique : ∀ (l l' : Procedures) {r r' : List Token}, l.tokens ++ r = l'.tokens ++ r' →
    l.elseBound → l'.elseBound → startsDeclaration (lookahead r) = false → startsDeclaration (lookahead r') = false →
    l = l' ∧ r = r'
  | .nil, .nil, r, r', h, _, _, _, _ => ⟨rfl, by simpa [Procedures.tokens] using h⟩
  | .nil, .cons .., r, r', h, _, _, hr, _ => by
    simp only [Procedures.tokens, List.nil_append, List.cons_append] at h
    simp [h, startsDeclaration] at hr
  | .cons .., .nil, r, r', h, _, _, _, hr' => by
    simp only [Procedures.tokens, List.nil_append, List.cons_append] at h
    simp [← h, startsDeclaration] at hr'
  | .cons name b l, .cons name' b' l', r, r', h, hb, hb', hr, hr' => by
    simp only [Procedures.elseBound, Bool.and_eq_true] at hb hb'
    simp only [Procedures.tokens, List.cons_append, List.append_assoc, List.cons.injEq, Token.ident.injEq,
      true_and] at h
    obtain ⟨rfl, h₁⟩ := h
    obtain ⟨rfl, h₂⟩ := Block.unique b b' h₁ hb.1 hb'.1 (.inl rfl) (.inl rfl)
    obtain ⟨rfl, h₃⟩ := Procedures.unique l l' (List.cons.inj h₂).2 hb.2 hb'.2 hr hr'
    exact ⟨rfl, h₃⟩

end

/-- A program has only one syntax tree. -/
theorem Block.IsTreeOf.unique {b b' : Block} {tokens : List Token} (h : b.IsTreeOf tokens) (h' : b'.IsTreeOf tokens) :
    b = b' := by
  obtain ⟨hb, rest, rfl⟩ := h
  obtain ⟨hb', rest', h⟩ := h'
  exact (Block.unique b b' h hb hb' (.inr rfl) (.inr rfl)).1

end PL0
