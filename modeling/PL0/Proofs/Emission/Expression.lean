import PL0.Proofs.Generator.Extension

/-!
# The code of expressions and conditions

On the tokens of a syntax tree a production reads exactly these tokens and emits exactly the translation of the tree,
or reports an error about a name if the tree is not scoped: `factor_ends`, `term_ends`, `expression_ends`,
`condition_ends`.  The bound of a production only has to be as large as the number of tokens that are left, and the
tokens after the tree must not continue it.
-/

namespace PL0.Gen

variable {env : Env} {c : Context} {ok : Prop}

theorem current_eq : c.tokens.current = lookahead c.tokens.rest := rfl

theorem current_of_rest {t : Token} {rest : List Token} (h : c.tokens.rest = t :: rest) : c.tokens.current = t := by
  simp [TokenStream.current, h]

theorem rest_advanced {t : Token} {rest : List Token} (h : c.tokens.rest = t :: rest) : c.advanced.tokens.rest = rest :=
  (Context.Extends.advanced h).rest_eq h

theorem exists_succ_of_rest {n : Nat} {t : Token} {rest : List Token} (h : c.tokens.rest = t :: rest)
    (hn : c.tokens.rest.length ≤ n) : ∃ m, n = m + 1 ∧ rest.length ≤ m := by
  rw [h, List.length_cons] at hn
  exact ⟨n - 1, by omega, by omega⟩

/-! ### Expressions -/

/-- An expression starts with a sign or not. -/
theorem wp_expressionOf {factor : Gen Unit} {n : Nat} {Q : Unit → Context → Prop} {E : Stop → Context → Prop} :
    wp (expressionOf factor n) c Q E ↔
      (c.tokens.current = .plus → wp (termOf factor n) c.advanced (fun _ c' =>
        wp (chain addOp? (termOf factor n) n) c' Q E) E) ∧
      (c.tokens.current = .minus → wp (termOf factor n) c.advanced (fun _ c' =>
        wp (emit .neg 0 0) c' (fun _ c'' => wp (chain addOp? (termOf factor n) n) c'' Q E) E) E) ∧
      (addOp? c.tokens.current = none → wp (termOf factor n) c (fun _ c' =>
        wp (chain addOp? (termOf factor n) n) c' Q E) E) := by
  unfold expressionOf
  rw [wp_bind, wp_peek]
  cases c.tokens.current <;> simp only [wp_bind, wp_advance, addOp?, reduceCtorEq, false_implies, true_implies,
    true_and, and_true]

theorem wp_expression {n : Nat} {Q : Unit → Context → Prop} {E : Stop → Context → Prop} :
    wp (expression n) c Q E ↔
      (c.tokens.current = .plus → wp (term n) c.advanced (fun _ c' => wp (chain addOp? (term n) n) c' Q E) E) ∧
      (c.tokens.current = .minus → wp (term n) c.advanced (fun _ c' =>
        wp (emit .neg 0 0) c' (fun _ c'' => wp (chain addOp? (term n) n) c'' Q E) E) E) ∧
      (addOp? c.tokens.current = none → wp (term n) c (fun _ c' => wp (chain addOp? (term n) n) c' Q E) E) :=
  wp_expressionOf

/-- What a chain does, if every operator with its operand is one turn of it. -/
theorem wp_chain {op? : Token → Option Opcode} {operand : Gen Unit} {I : Context → Prop} {T : Context → Context → Prop}
    {E : Stop → Context → Prop} (hnul : op? .nul = none) (hnil : ∀ c, I c → T c c)
    (hturn : ∀ c op, I c → op? c.tokens.current = some op → c.tokens.current ≠ .nul →
      wp operand c.advanced (fun _ c₁ => wp (emit op 0 0) c₁ (fun _ c₂ => I c₂ ∧ ∀ c', T c₂ c' → T c c') E) E)
    (n : Nat) : ∀ c, I c → wp (chain op? operand n) c (fun _ c' => T c c') E := by
  induction n with
  | zero => exact hnil
  | succ n ih =>
    intro c hc
    unfold chain
    rw [wp_bind, wp_peek]
    cases hop : op? c.tokens.current with
    | none => exact hnil c hc
    | some op =>
      have hne : c.tokens.current ≠ .nul := by
        intro h
        rw [h, hnul] at hop
        cases hop
      simp only [wp_bind, wp_advance]
      refine wp_mono (hturn c op hc hop hne) (fun _ c₁ h₁ => wp_mono h₁ ?_ fun _ _ h => h) fun _ _ h => h
      rintro _ c₂ ⟨hc₂, hT⟩
      exact wp_mono (ih c₂ hc₂) (fun _ c' => hT c') fun _ _ h => h

/-- A factor is a name, a number or an expression in parentheses. -/
theorem wp_factor {n : Nat} {Q : Unit → Context → Prop} {E : Stop → Context → Prop} :
    wp (factor (n + 1)) c Q E ↔
      (∀ x, c.tokens.current = .ident x → wp (lookUp x) c (fun binding c' =>
        wp (load binding .procedureInExpression) c' (fun _ c'' => Q () c''.advanced) E) E) ∧
      (∀ value, c.tokens.current = .number value → wp (emit .lit 0 value) c (fun _ c' => Q () c'.advanced) E) ∧
      (c.tokens.current = .lparen → wp (expression n) c.advanced (fun _ c' =>
        wp (expect .rparen .rightParenMissing) c' Q E) E) ∧
      ((∀ x, c.tokens.current ≠ .ident x) → (∀ value, c.tokens.current ≠ .number value) →
        c.tokens.current ≠ .lparen → E (.rejected .illegalFactor) c) := by
  rw [show factor (n + 1) = peek >>= _ from rfl, wp_bind, wp_peek]
  cases c.tokens.current <;> simp [expression]

/-- The use of a name as a value. -/
theorem wp_load {x : String} {e : CompileError} {Q : Unit → Context → Prop} (hs : c.Sees env) (he : e.concernsName)
    (hok : ok → isValue env.sortOf x)
    (hQ : isValue env.sortOf x → ∀ c', c.Extends c' [] [env.load x] [] 0 → Q () c') :
    wp (lookUp x) c (fun binding c' => wp (load binding e) c' Q (Refused ok)) (Refused ok) := by
  rw [wp_lookUp_of_sees hs]
  constructor
  · intro kind hkind
    cases kind with
    | const value =>
      have hv : isValue env.sortOf x := by simp [isValue, Env.sortOf, hkind, SymbolKind.sort]
      have hload : env.load x = ⟨.lit, 0, 0, value⟩ := by simp [Env.load, hkind, instruction]
      simp only [load, wp_emit, refused_full, implies_true, and_true]
      intro hroom
      exact hQ hv _ (hload ▸ .emitted _ hroom)
    | var address =>
      have hv : isValue env.sortOf x := by simp [isValue, Env.sortOf, hkind, SymbolKind.sort]
      have hload : env.load x = ⟨.lod, 0, 0, address⟩ := by
        simp [Env.load, Env.value, hkind, instruction, SymbolKind.value]
      simp only [load, wp_emit, refused_full, implies_true, and_true]
      intro hroom
      exact hQ hv _ (hload ▸ .emitted _ hroom)
    | proc address =>
      simp only [load, wp_reject, refused_rejected, he, true_and]
      intro h
      simpa [isValue, Env.sortOf, hkind, SymbolKind.sort] using hok h
  · intro hnone
    refine ⟨c.concernsName_missing x, ?_⟩
    intro h
    simpa [isValue, Env.sortOf, hnone] using hok h

/-- The operation at the end of one turn of a chain. -/
private theorem chain_turn {op? : Token → Option Opcode} {operand : Gen Unit} {n : Nat} {t : Token} {op : Opcode}
    {rest : List Token} {tokens : List Token} {code : List Instruction} {ok₁ : Prop} {Q : Unit → Context → Prop}
    (hc : c.tokens.rest = t :: rest) (ht : op? t = some op)
    (hoperand : Ends operand c.advanced ok₁ fun _ c' => c.advanced.Extends c' tokens code [] 0) (hok : ok → ok₁)
    (hQ : ok₁ → ∀ c', c.Extends c' (t :: tokens) (code ++ [instruction op 0]) [] 0 →
      wp (chain op? operand n) c' Q (Refused ok)) :
    wp (chain op? operand (n + 1)) c Q (Refused ok) := by
  simp only [chain, wp_bind, wp_peek, current_of_rest hc, ht, wp_advance]
  refine hoperand.part hok fun h₁ _ c₁ hc₁ => ?_
  simp only [wp_emit, refused_full, implies_true, and_true]
  intro hroom
  exact hQ h₁ _ (by simpa [instruction] using (Context.Extends.advanced hc).trans (hc₁.trans (.emitted _ hroom)))

private theorem addOp?_token (op : AddOp) : addOp? op.token = some op.opcode := by
  cases op <;> rfl

private theorem mulOp?_token (op : MulOp) : mulOp? op.token = some op.opcode := by
  cases op <;> rfl

private theorem relOp?_token (op : RelOp) : relOp? op.token = some op.opcode := by
  cases op <;> rfl

/-- A chain ends where no operator follows. -/
private theorem chain_stops {op? : Token → Option Opcode} {operand : Gen Unit} {n : Nat} {Q : Unit → Context → Prop}
    (hc : op? c.tokens.current = none) (hQ : Q () c) : wp (chain op? operand n) c Q (Refused ok) := by
  cases n with
  | zero => exact hQ
  | succ n => simpa [chain, hc] using hQ

mutual

theorem factor_ends : ∀ (f : Factor) {n : Nat} {c : Context} {rest : List Token}, c.tokens.rest = f.tokens ++ rest →
    c.tokens.rest.length ≤ n → c.Sees env →
    Ends (factor n) c (f.scoped env.sortOf) fun _ c' => c.Extends c' f.tokens (f.code env) [] 0
  | .name x, n, c, rest, hc, hn, hs => by
    obtain ⟨m, rfl, -⟩ := exists_succ_of_rest hc hn
    unfold Ends
    rw [wp_factor, current_of_rest hc]
    simp only [Token.ident.injEq, reduceCtorEq, forall_eq', ne_eq, not_false_eq_true, false_implies, implies_true,
      and_true]
    refine wp_load hs rfl id fun hok c₁ h₁ => ?_
    exact ⟨hok, by simpa [Factor.tokens, Factor.code] using h₁.trans (.advanced (h₁.rest_eq hc))⟩
  | .number value, n, c, rest, hc, hn, hs => by
    obtain ⟨m, rfl, -⟩ := exists_succ_of_rest hc hn
    unfold Ends
    rw [wp_factor, current_of_rest hc]
    simp only [Token.number.injEq, reduceCtorEq, forall_eq', ne_eq, not_false_eq_true, false_implies, implies_true,
      and_true, true_and, wp_emit, refused_full]
    intro hroom
    have h₁ := Context.Extends.emitted ⟨.lit, 0, 0, value⟩ hroom
    exact ⟨rfl, by simpa [Factor.tokens, Factor.code, instruction] using h₁.trans (.advanced (h₁.rest_eq hc))⟩
  | .paren inner, n, c, rest, hc, hn, hs => by
    simp only [Factor.tokens, List.cons_append, List.append_assoc, List.nil_append] at hc
    obtain ⟨m, rfl, hm⟩ := exists_succ_of_rest hc hn
    unfold Ends
    rw [wp_factor, current_of_rest hc]
    simp only [reduceCtorEq, ne_eq, not_true_eq_false, false_implies, implies_true, true_implies, and_true, true_and]
    have h₀ := Context.Extends.advanced hc
    refine (expression_ends inner (rest_advanced hc) (by rw [rest_advanced hc]; exact hm) ⟨rfl, rfl⟩ (h₀.sees hs)).part
      (by simp [Factor.scoped]) fun hok _ c₁ h₁ => ?_
    have hc₁ := h₁.rest_eq (rest_advanced hc)
    simp only [wp_expect, current_of_rest hc₁, true_implies, ne_eq, not_true_eq_false, false_implies, and_true]
    exact ⟨hok, by simpa [Factor.tokens, Factor.code] using h₀.trans (h₁.trans (.advanced hc₁))⟩

theorem factorTail_ends : ∀ (l : FactorTail) {n m : Nat} {c : Context} {rest : List Token},
    c.tokens.rest = l.tokens ++ rest → c.tokens.rest.length ≤ n → n ≤ m → EndsTerm rest → c.Sees env →
    Ends (chain mulOp? (factor m) n) c (l.scoped env.sortOf) fun _ c' => c.Extends c' l.tokens (l.code env) [] 0
  | .nil, n, m, c, rest, hc, hn, hm, hrest, hs => by
    refine chain_stops ?_ ⟨rfl, .refl c⟩
    rw [current_eq, hc]
    exact hrest
  | .cons op f l, n, m, c, rest, hc, hn, hm, hrest, hs => by
    simp only [FactorTail.tokens, List.cons_append, List.append_assoc] at hc
    obtain ⟨n, rfl, hn'⟩ := exists_succ_of_rest hc hn
    have h₀ := Context.Extends.advanced hc
    refine chain_turn hc (mulOp?_token op)
      (factor_ends f (rest_advanced hc) (by rw [rest_advanced hc]; omega) (h₀.sees hs)) ?_ ?_
    · intro h
      simp only [FactorTail.scoped, Bool.and_eq_true] at h
      exact h.1
    · intro hf c₁ h₁
      have hc₁ : c₁.tokens.rest = l.tokens ++ rest := h₁.rest_eq (by simpa using hc)
      refine (factorTail_ends l hc₁ ?_ (by omega) hrest (h₁.sees hs)).part ?_ fun hl _ c₂ h₂ => ?_
      · rw [hc₁]
        rw [List.length_append] at hn'
        omega
      · intro h
        simp only [FactorTail.scoped, Bool.and_eq_true] at h
        exact h.2
      · refine ⟨by simp [FactorTail.scoped, hf, hl], ?_⟩
        simpa [FactorTail.tokens, FactorTail.code] using h₁.trans h₂

theorem term_ends : ∀ (t : Term) {n : Nat} {c : Context} {rest : List Token}, c.tokens.rest = t.tokens ++ rest →
    c.tokens.rest.length ≤ n → EndsTerm rest → c.Sees env →
    Ends (term n) c (t.scoped env.sortOf) fun _ c' => c.Extends c' t.tokens (t.code env) [] 0
  | .mk f l, n, c, rest, hc, hn, hrest, hs => by
    simp only [Term.tokens, List.append_assoc] at hc
    unfold Ends
    simp only [term, termOf, wp_bind]
    refine (factor_ends f hc hn hs).part ?_ fun hf _ c₁ h₁ => ?_
    · intro h
      simp only [Term.scoped, Bool.and_eq_true] at h
      exact h.1
    · have hc₁ := h₁.rest_eq hc
      have hlen := h₁.length_rest
      refine (factorTail_ends l hc₁ (by omega) (Nat.le_refl n) hrest (h₁.sees hs)).part ?_ fun hl _ c₂ h₂ => ?_
      · intro h
        simp only [Term.scoped, Bool.and_eq_true] at h
        exact h.2
      · exact ⟨by simp [Term.scoped, hf, hl], by simpa [Term.tokens, Term.code] using h₁.trans h₂⟩

theorem termTail_ends : ∀ (l : TermTail) {n m : Nat} {c : Context} {rest : List Token},
    c.tokens.rest = l.tokens ++ rest → c.tokens.rest.length ≤ n → n ≤ m → EndsExpression rest → c.Sees env →
    Ends (chain addOp? (term m) n) c (l.scoped env.sortOf) fun _ c' => c.Extends c' l.tokens (l.code env) [] 0
  | .nil, n, m, c, rest, hc, hn, hm, hrest, hs => by
    refine chain_stops ?_ ⟨rfl, .refl c⟩
    rw [current_eq, hc]
    exact hrest.1
  | .cons op t l, n, m, c, rest, hc, hn, hm, hrest, hs => by
    simp only [TermTail.tokens, List.cons_append, List.append_assoc] at hc
    obtain ⟨n, rfl, hn'⟩ := exists_succ_of_rest hc hn
    have h₀ := Context.Extends.advanced hc
    refine chain_turn hc (addOp?_token op)
      (term_ends t (rest_advanced hc) (by rw [rest_advanced hc]; omega) (TermTail.endsTerm hrest.2) (h₀.sees hs)) ?_ ?_
    · intro h
      simp only [TermTail.scoped, Bool.and_eq_true] at h
      exact h.1
    · intro ht c₁ h₁
      have hc₁ : c₁.tokens.rest = l.tokens ++ rest := h₁.rest_eq (by simpa using hc)
      refine (termTail_ends l hc₁ ?_ (by omega) hrest (h₁.sees hs)).part ?_ fun hl _ c₂ h₂ => ?_
      · rw [hc₁]
        rw [List.length_append] at hn'
        omega
      · intro h
        simp only [TermTail.scoped, Bool.and_eq_true] at h
        exact h.2
      · refine ⟨by simp [TermTail.scoped, ht, hl], ?_⟩
        simpa [TermTail.tokens, TermTail.code] using h₁.trans h₂

theorem expression_ends : ∀ (e : Expression) {n : Nat} {c : Context} {rest : List Token},
    c.tokens.rest = e.tokens ++ rest → c.tokens.rest.length ≤ n → EndsExpression rest → c.Sees env →
    Ends (expression n) c (e.scoped env.sortOf) fun _ c' => c.Extends c' e.tokens (e.code env) [] 0
  | .mk sign t l, n, c, rest, hc, hn, hrest, hs => by
    have ht : (Expression.mk sign t l).scoped env.sortOf → t.scoped env.sortOf := by
      intro h
      simp only [Expression.scoped, Bool.and_eq_true] at h
      exact h.1
    -- what comes after the first term and its sign
    have htail : t.scoped env.sortOf → ∀ c₁, c.Extends c₁ ((sign.map AddOp.token).toList ++ t.tokens)
        (t.code env ++ signCode sign) [] 0 → wp (chain addOp? (term n) n) c₁ (fun _ c' =>
          (Expression.mk sign t l).scoped env.sortOf ∧
            c.Extends c' (Expression.mk sign t l).tokens ((Expression.mk sign t l).code env) [] 0)
          (Refused ((Expression.mk sign t l).scoped env.sortOf)) := by
      intro hok c₁ h₁
      have hc₁ : c₁.tokens.rest = l.tokens ++ rest := h₁.rest_eq (by simpa [Expression.tokens] using hc)
      have hlen := h₁.length_rest
      refine (termTail_ends l hc₁ (by omega) (Nat.le_refl n) hrest (h₁.sees hs)).part ?_ fun hl _ c₂ h₂ => ?_
      · intro h
        simp only [Expression.scoped, Bool.and_eq_true] at h
        exact h.2
      · exact ⟨by simp [Expression.scoped, hok, hl], by simpa [Expression.tokens, Expression.code] using h₁.trans h₂⟩
    simp only [Expression.tokens, List.append_assoc] at hc
    unfold Ends
    rw [wp_expression]
    cases sign with
    | none =>
      obtain ⟨u, us, hu, hstart⟩ := t.head_tokens
      have hcur : c.tokens.current = u := current_of_rest (by rw [hc, hu]; rfl)
      refine ⟨?_, ?_, fun _ => ?_⟩
      · intro hplus
        rw [← hcur, hplus] at hstart
        cases hstart
      · intro hminus
        rw [← hcur, hminus] at hstart
        cases hstart
      · refine (term_ends t hc hn (TermTail.endsTerm hrest.2) hs).part ht fun hok _ c₁ h₁ => ?_
        exact htail hok c₁ (by simpa [signCode] using h₁)
    | some op =>
      simp only [Option.map_some, Option.toList_some, List.cons_append, List.nil_append] at hc
      have hcur := current_of_rest hc
      have h₀ := Context.Extends.advanced hc
      have hlen := h₀.length_rest
      have hterm := term_ends t (rest_advanced hc) (n := n) (by omega) (TermTail.endsTerm hrest.2) (h₀.sees hs)
      cases op with
      | plus =>
        refine ⟨fun _ => ?_, by simp [hcur, AddOp.token], by simp [hcur, AddOp.token, addOp?]⟩
        refine hterm.part ht fun hok _ c₁ h₁ => ?_
        exact htail hok c₁ (by simpa [signCode] using h₀.trans h₁)
      | minus =>
        refine ⟨by simp [hcur, AddOp.token], fun _ => ?_, by simp [hcur, AddOp.token, addOp?]⟩
        refine hterm.part ht fun hok _ c₁ h₁ => ?_
        simp only [wp_emit, refused_full, implies_true, and_true]
        intro hroom
        exact htail hok _ (by simpa [signCode, instruction] using h₀.trans (h₁.trans (.emitted _ hroom)))

end

theorem condition_ends (k : Condition) {n : Nat} {rest : List Token} (hc : c.tokens.rest = k.tokens ++ rest)
    (hn : c.tokens.rest.length ≤ n) (hrest : EndsExpression rest) (hs : c.Sees env) :
    Ends (condition n) c (k.scoped env.sortOf) fun _ c' => c.Extends c' k.tokens (k.code env) [] 0 := by
  unfold Ends
  cases k with
  | odd e =>
    simp only [Condition.tokens, List.cons_append] at hc
    have h₀ := Context.Extends.advanced hc
    have hc₀ := rest_advanced hc
    have hlen := h₀.length_rest
    simp only [condition, wp_bind, wp_peek, current_of_rest hc, ↓reduceIte, wp_advance]
    refine (expression_ends e hc₀ (by omega) hrest (h₀.sees hs)).part (by simp [Condition.scoped])
      fun hok _ c₁ h₁ => ?_
    simp only [wp_emit, refused_full, implies_true, and_true]
    intro hroom
    refine ⟨by simpa [Condition.scoped] using hok, ?_⟩
    simpa [Condition.tokens, Condition.code, instruction] using h₀.trans (h₁.trans (.emitted _ hroom))
  | compare left op right =>
    simp only [Condition.tokens, List.append_assoc, List.cons_append] at hc
    obtain ⟨u, us, hu, hstart⟩ := left.head_tokens
    have hodd : c.tokens.current ≠ .oddSym := by
      rw [current_of_rest (t := u) (by rw [hc, hu]; rfl)]
      intro h
      rw [h] at hstart
      cases hstart
    simp only [condition, wp_bind, wp_peek, hodd, ↓reduceIte]
    refine (expression_ends left hc hn (endsExpression_relToken op _) hs).part ?_ fun hleft _ c₁ h₁ => ?_
    · intro h
      simp only [Condition.scoped, Bool.and_eq_true] at h
      exact h.1
    have hc₁ := h₁.rest_eq hc
    have h₂ := h₁.trans (.advanced hc₁)
    have hc₂ := rest_advanced hc₁
    have hlen := h₂.length_rest
    simp only [wp_bind, current_of_rest hc₁, relOp?_token, wp_advance]
    refine (expression_ends right hc₂ (by omega) hrest (h₂.sees hs)).part ?_ fun hright _ c₃ h₃ => ?_
    · intro h
      simp only [Condition.scoped, Bool.and_eq_true] at h
      exact h.2
    simp only [wp_emit, refused_full, implies_true, and_true]
    intro hroom
    refine ⟨by simp [Condition.scoped, hleft, hright], ?_⟩
    simpa [Condition.tokens, Condition.code, instruction] using h₂.trans (h₃.trans (.emitted _ hroom))

end PL0.Gen
