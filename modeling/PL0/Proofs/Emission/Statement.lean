import PL0.Proofs.Emission.Expression

/-!
# The code of statements

On the tokens of an else-bound statement the production `statement` reads exactly these tokens and emits exactly the
translation of the statement at the current address, or reports an error about a name (`statement_ends`).  A jump that
is open while the parts of a statement are compiled gets the target that the translation computes from their sizes.
-/

namespace PL0.Gen

variable {env : Env} {c : Context} {ok : Prop}

/-- The use of a name of a sort that may not stand there. -/
private theorem refused_of_lookUp {x : String} {Q : Binding → Context → Prop} {E : Stop → Context → Prop}
    (hs : c.Sees env) (hE : ∀ e : CompileError, e.concernsName → env x = none → E (.rejected e) c)
    (hQ : ∀ kind, env x = some kind → Q ⟨kind, 0⟩ c) : wp (lookUp x) c Q E :=
  (wp_lookUp_of_sees hs).2 ⟨hQ, hE _ (c.concernsName_missing x)⟩

private theorem assignment_ends (x : String) (e : Expression) {n : Nat} {rest : List Token}
    (hc : c.tokens.rest = .ident x :: .becomes :: (e.tokens ++ rest)) (hn : c.tokens.rest.length ≤ n + 1)
    (hrest : EndsExpression rest) (hs : c.Sees env) :
    Ends (assignment n x) c ((Statement.assign x e).scoped env.sortOf) fun _ c' =>
      c.Extends c' (Statement.assign x e).tokens ((Statement.assign x e).code env c.buffer.size) [] 0 := by
  unfold Ends
  simp only [assignment, wp_bind]
  refine refused_of_lookUp hs ?_ ?_
  · intro e he hnone
    exact ⟨he, by simp [Statement.scoped, Env.sortOf, hnone]⟩
  · intro kind hkind
    cases kind with
    | var address =>
      have h₁ := Context.Extends.advanced hc
      have hc₁ := rest_advanced hc
      have h₂ := h₁.trans (.advanced hc₁)
      have hc₂ := rest_advanced hc₁
      have hlen := h₂.length_rest
      simp only [wp_bind, wp_advance, wp_expect, current_of_rest hc₁, true_implies, ne_eq, not_true_eq_false,
        false_implies, and_true]
      refine (expression_ends e hc₂ (by simp at hlen; omega) hrest (h₂.sees hs)).part ?_ fun hok _ c₃ h₃ => ?_
      · intro h
        simp only [Statement.scoped, Bool.and_eq_true] at h
        exact h.2
      simp only [wp_emit, refused_full, implies_true, and_true]
      intro hroom
      refine ⟨by simp [Statement.scoped, hok, Env.sortOf, hkind, SymbolKind.sort], ?_⟩
      simpa [Statement.tokens, Statement.code, instruction, Env.value, hkind, SymbolKind.value] using
        h₂.trans (h₃.trans (.emitted _ hroom))
    | _ => exact ⟨rfl, by simp [Statement.scoped, Env.sortOf, hkind, SymbolKind.sort]⟩

private theorem call_ends (p : String) {rest : List Token} (hc : c.tokens.rest = .callSym :: .ident p :: rest)
    (hs : c.Sees env) :
    Ends call c ((Statement.call p).scoped env.sortOf) fun _ c' =>
      c.Extends c' (Statement.call p).tokens ((Statement.call p).code env c.buffer.size) [] 0 := by
  have h₁ := Context.Extends.advanced hc
  have hc₁ := rest_advanced hc
  unfold Ends
  simp only [call, wp_bind, wp_advance, wp_peekName, current_of_rest hc₁, Token.ident.injEq, forall_eq']
  refine ⟨refused_of_lookUp (h₁.sees hs) ?_ ?_, fun h => absurd rfl (h p)⟩
  · intro e he hnone
    exact ⟨he, by simp [Statement.scoped, Env.sortOf, hnone]⟩
  · intro kind hkind
    cases kind with
    | proc address =>
      simp only [wp_bind, wp_emit, wp_advance, refused_full, implies_true, and_true]
      intro hroom
      have h₂ := h₁.trans (.emitted ⟨.cal, 0, 0, address⟩ hroom)
      have hc₂ := h₂.rest_eq hc
      refine ⟨by simp [Statement.scoped, Env.sortOf, hkind, SymbolKind.sort], ?_⟩
      simpa [Statement.tokens, Statement.code, instruction, Env.value, hkind, SymbolKind.value] using
        h₂.trans (.advanced hc₂)
    | _ => exact ⟨rfl, by simp [Statement.scoped, Env.sortOf, hkind, SymbolKind.sort]⟩

private theorem read_ends (x : String) {rest : List Token} (hc : c.tokens.rest = .readSym :: .ident x :: rest)
    (hs : c.Sees env) :
    Ends read c ((Statement.read x).scoped env.sortOf) fun _ c' =>
      c.Extends c' (Statement.read x).tokens ((Statement.read x).code env c.buffer.size) [] 0 := by
  have h₁ := Context.Extends.advanced hc
  have hc₁ := rest_advanced hc
  unfold Ends
  simp only [read, wp_bind, wp_advance, wp_peekName, current_of_rest hc₁, Token.ident.injEq, forall_eq']
  refine ⟨refused_of_lookUp (h₁.sees hs) ?_ ?_, fun h => absurd rfl (h x)⟩
  · intro e he hnone
    exact ⟨he, by simp [Statement.scoped, Env.sortOf, hnone]⟩
  · intro kind hkind
    cases kind with
    | var address =>
      simp only [wp_bind, wp_emit, wp_advance, refused_full, implies_true, and_true]
      intro hroom hroom'
      have h₂ := h₁.trans ((Context.Extends.advanced hc₁).trans (.emitted ⟨.read, 0, 0, 0⟩ hroom))
      refine ⟨by simp [Statement.scoped, Env.sortOf, hkind, SymbolKind.sort], ?_⟩
      simpa [Statement.tokens, Statement.code, instruction, Env.value, hkind, SymbolKind.value] using
        h₂.trans (.emitted _ hroom')
    | _ => exact ⟨rfl, by simp [Statement.scoped, Env.sortOf, hkind, SymbolKind.sort]⟩

private theorem write_ends (x : String) {rest : List Token} (hc : c.tokens.rest = .writeSym :: .ident x :: rest)
    (hs : c.Sees env) :
    Ends write c ((Statement.write x).scoped env.sortOf) fun _ c' =>
      c.Extends c' (Statement.write x).tokens ((Statement.write x).code env c.buffer.size) [] 0 := by
  have h₁ := Context.Extends.advanced hc
  have hc₁ := rest_advanced hc
  unfold Ends
  simp only [write, wp_bind, wp_advance, wp_peekName, current_of_rest hc₁, Token.ident.injEq, forall_eq']
  refine ⟨wp_load (h₁.sees hs) rfl (by simp [Statement.scoped]) fun hok c₂ h₂ => ?_, fun h => absurd rfl (h x)⟩
  simp only [wp_emit, refused_full, implies_true, and_true]
  intro hroom
  have h₃ := h₁.trans (h₂.trans (.emitted ⟨.write, 0, 0, 0⟩ hroom))
  have hc₃ := h₃.rest_eq hc
  refine ⟨by simpa [Statement.scoped] using hok, ?_⟩
  simpa [Statement.tokens, Statement.code, instruction] using h₃.trans (.advanced hc₃)

/-- A statement is empty where no other statement starts. -/
private theorem statement_stops {n : Nat} {Q : Unit → Context → Prop} {E : Stop → Context → Prop}
    (hc : endsStatement c.tokens.current) (hQ : Q () c) : wp (statement n) c Q E := by
  cases n with
  | zero => exact hQ
  | succ n =>
    simp only [statement, wp_bind, wp_peek]
    cases h : c.tokens.current <;> first | exact hQ | simp [h, endsStatement] at hc

private theorem statementTail_stops {n : Nat} {statement : Gen Unit} {Q : Unit → Context → Prop}
    {E : Stop → Context → Prop} (hc : c.tokens.current ≠ .semicolon) (hQ : Q () c) :
    wp (statementTail statement n) c Q E := by
  cases n with
  | zero => exact hQ
  | succ n => simpa [statementTail, hc] using hQ

/-- The beginning of an `if`, up to the statement that is jumped over. -/
private theorem wp_ifStatement {k : Condition} {n : Nat} {g : Gen Unit} {rest : List Token}
    {Q : Unit → Context → Prop} (hc : c.tokens.rest = .ifSym :: (k.tokens ++ .thenSym :: rest))
    (hn : c.tokens.rest.length ≤ n + 1) (hs : c.Sees env) (hok : ok → k.scoped env.sortOf)
    (hQ : k.scoped env.sortOf → ∀ c₁,
      c.Extends c₁ (.ifSym :: (k.tokens ++ [.thenSym])) (k.code env ++ [⟨.jpc, 0, 0, 0⟩]) [] 1 →
      wp g c₁ (fun _ c₂ =>
        (c₂.tokens.current = .elseSym → wp (openJump .jmp) c₂ (fun toEnd c₃ =>
          wp g (c₃.jumpClosed (c.buffer.size + k.size)).advanced (fun _ c₄ => Q () (c₄.jumpClosed toEnd))
            (Refused ok)) (Refused ok)) ∧
        (c₂.tokens.current ≠ .elseSym → Q () (c₂.jumpClosed (c.buffer.size + k.size)))) (Refused ok)) :
    wp (ifStatement g n) c Q (Refused ok) := by
  have h₀ := Context.Extends.advanced hc
  have hc₀ := rest_advanced hc
  have hlen := h₀.length_rest
  simp only [ifStatement, wp_bind, wp_advance]
  refine (condition_ends k hc₀ (by simp at hlen; omega) ⟨rfl, rfl⟩ (h₀.sees hs)).part hok fun hk _ c₁ h₁ => ?_
  have hc₁ := h₁.rest_eq hc₀
  have hsize : c₁.advanced.buffer.size = c.buffer.size + k.size := h₁.size.trans (by rw [k.length_code]; rfl)
  simp only [wp_expect, current_of_rest hc₁, true_implies, ne_eq, not_true_eq_false, false_implies, and_true,
    wp_openJpc, refused_full, implies_true, hsize]
  intro hroom
  have h₂ := h₀.trans (h₁.trans ((Context.Extends.advanced hc₁).trans (.jumpOpened .jpc hroom)))
  simpa only [wp_peek, wp_ite, wp_bind, wp_closeJump, wp_advance] using hQ hk _ (by simpa using h₂)

private theorem append_last (code code' code'' : List Instruction) (i j : Instruction) :
    code ++ i :: (code' ++ [j]) ++ code'' = (code ++ i :: code') ++ j :: code'' := by
  simp

mutual

theorem statement_ends : ∀ (s : Statement) {n : Nat} {c : Context} {rest : List Token},
    c.tokens.rest = s.tokens ++ rest → c.tokens.rest.length ≤ n → s.elseBound → s.EndsBefore rest → c.Sees env →
    Ends (statement n) c (s.scoped env.sortOf) fun _ c' =>
      c.Extends c' s.tokens (s.code env c.buffer.size) [] 0
  | .empty, n, c, rest, hc, _, _, hrest, _ => by
    refine statement_stops ?_ ⟨rfl, .refl c⟩
    rw [current_eq, hc]
    exact hrest.1
  | .assign x e, n, c, rest, hc, hn, _, hrest, hs => by
    simp only [Statement.tokens, List.cons_append] at hc
    obtain ⟨m, rfl, -⟩ := exists_succ_of_rest hc hn
    unfold Ends
    simp only [statement, wp_bind, wp_peek, current_of_rest hc]
    exact assignment_ends x e hc hn (.of_endsStatement hrest.1) hs
  | .call p, n, c, rest, hc, hn, _, _, hs => by
    simp only [Statement.tokens, List.cons_append, List.nil_append] at hc
    obtain ⟨m, rfl, -⟩ := exists_succ_of_rest hc hn
    unfold Ends
    simp only [statement, wp_bind, wp_peek, current_of_rest hc]
    exact call_ends p hc hs
  | .read x, n, c, rest, hc, hn, _, _, hs => by
    simp only [Statement.tokens, List.cons_append, List.nil_append] at hc
    obtain ⟨m, rfl, -⟩ := exists_succ_of_rest hc hn
    unfold Ends
    simp only [statement, wp_bind, wp_peek, current_of_rest hc]
    exact read_ends x hc hs
  | .write x, n, c, rest, hc, hn, _, _, hs => by
    simp only [Statement.tokens, List.cons_append, List.nil_append] at hc
    obtain ⟨m, rfl, -⟩ := exists_succ_of_rest hc hn
    unfold Ends
    simp only [statement, wp_bind, wp_peek, current_of_rest hc]
    exact write_ends x hc hs
  | .compound s l, n, c, rest, hc, hn, hb, _, hs => by
    simp only [Statement.tokens, List.cons_append, List.append_assoc, List.nil_append] at hc
    simp only [Statement.elseBound, Bool.and_eq_true] at hb
    obtain ⟨m, rfl, hm⟩ := exists_succ_of_rest hc hn
    have h₁ := Context.Extends.advanced hc
    have hc₁ := rest_advanced hc
    unfold Ends
    simp only [statement, compound, wp_bind, wp_peek, current_of_rest hc, wp_advance]
    refine (statement_ends s hc₁ (by rw [hc₁]; exact hm) hb.1 (l.endsBefore rest) (h₁.sees hs)).part ?_
      fun hok _ c₂ h₂ => ?_
    · intro h
      simp only [Statement.scoped, Bool.and_eq_true] at h
      exact h.1
    have hc₂ := h₂.rest_eq hc₁
    have hlen := h₂.length_rest
    refine (statementTail_ends l hc₂ (by rw [hc₁] at hlen; omega) (Nat.le_refl m) hb.2 ((h₁.trans h₂).sees hs)).part ?_
      fun hok' _ c₃ h₃ => ?_
    · intro h
      simp only [Statement.scoped, Bool.and_eq_true] at h
      exact h.2
    have hc₃ := h₃.rest_eq hc₂
    simp only [wp_expect, current_of_rest hc₃, true_implies, ne_eq, not_true_eq_false, false_implies, and_true]
    refine ⟨by simp [Statement.scoped, hok, hok'], ?_⟩
    have h := h₁.trans (h₂.trans (h₃.trans (.advanced hc₃)))
    have hsize := h₁.size
    simpa [Statement.tokens, Statement.code, h₂.size, hsize] using h
  | .ifThen k s, n, c, rest, hc, hn, hb, hrest, hs => by
    simp only [Statement.tokens, List.cons_append, List.append_assoc] at hc
    simp only [Statement.elseBound] at hb
    obtain ⟨m, rfl, hm⟩ := exists_succ_of_rest hc hn
    unfold Ends
    simp only [statement, wp_bind, wp_peek, current_of_rest hc]
    refine wp_ifStatement hc hn hs ?_ fun hk c₁ h₁ => ?_
    · intro h
      simp only [Statement.scoped, Bool.and_eq_true] at h
      exact h.1
    have hc₁ : c₁.tokens.rest = s.tokens ++ rest := h₁.rest_eq (by simpa using hc)
    have hsize : c₁.buffer.size = c.buffer.size + k.size + 1 := h₁.size.trans (by simp; omega)
    have hlen := h₁.length_rest
    rw [List.length_cons] at hlen
    refine (statement_ends s hc₁ (by omega) hb ⟨hrest.1, fun _ => hrest.2 rfl⟩ (h₁.sees hs)).part ?_
      fun hok _ c₂ h₂ => ⟨?_, ?_⟩
    · intro h
      simp only [Statement.scoped, Bool.and_eq_true] at h
      exact h.2
    · intro helse
      rw [current_eq, h₂.rest_eq hc₁] at helse
      exact absurd helse (hrest.2 rfl)
    · intro _
      refine ⟨by simp [Statement.scoped, hk, hok], ?_⟩
      rw [hsize] at h₂
      have h := h₁.trans h₂
      simp only [List.append_nil, List.append_assoc, List.cons_append, List.nil_append] at h
      have h := h.jumpClosed (show c.buffer.size + k.size = _ by rw [k.length_code])
      simpa only [Statement.tokens, Statement.code, refer, instruction, Statement.length_code] using h
  | .ifElse k s t, n, c, rest, hc, hn, hb, hrest, hs => by
    simp only [Statement.tokens, List.cons_append, List.append_assoc] at hc
    simp only [Statement.elseBound, Bool.and_eq_true, Bool.not_eq_true'] at hb
    obtain ⟨m, rfl, hm⟩ := exists_succ_of_rest hc hn
    unfold Ends
    simp only [statement, wp_bind, wp_peek, current_of_rest hc]
    refine wp_ifStatement hc hn hs ?_ fun hk c₁ h₁ => ?_
    · intro h
      simp only [Statement.scoped, Bool.and_eq_true] at h
      exact h.1
    have hc₁ : c₁.tokens.rest = s.tokens ++ .elseSym :: (t.tokens ++ rest) := h₁.rest_eq (by simpa using hc)
    have hsize : c₁.buffer.size = c.buffer.size + k.size + 1 := h₁.size.trans (by simp; omega)
    have hlen := h₁.length_rest
    rw [List.length_cons] at hlen
    refine (statement_ends s hc₁ (by omega) hb.1.1 (.of_closed hb.1.2 _) (h₁.sees hs)).part ?_
      fun hok _ c₂ h₂ => ⟨fun _ => ?_, fun hne => absurd (current_of_rest (h₂.rest_eq hc₁)) hne⟩
    · intro h
      simp only [Statement.scoped, Bool.and_eq_true] at h
      exact h.2.1
    have hc₂ := h₂.rest_eq hc₁
    simp only [wp_openJmp, refused_full, implies_true, and_true]
    intro hroom
    have hend : c₂.buffer.size = c.buffer.size + k.size + 1 + s.size := by
      rw [h₂.size, hsize, Statement.length_code]
    -- the jump over the first branch is closed while the jump over the second is open
    rw [hsize] at h₂
    have h₃ := h₁.trans (h₂.trans (.jumpOpened .jmp hroom))
    simp only [List.append_nil, List.append_assoc, List.cons_append, List.nil_append] at h₃
    have h₄ := h₃.jumpClosed (show c.buffer.size + k.size = _ by rw [k.length_code])
    have hc₄ : ((c₂.jumpOpened .jmp).jumpClosed (c.buffer.size + k.size)).tokens.rest =
        .elseSym :: (t.tokens ++ rest) := hc₂
    have h₅ := h₄.trans (.advanced hc₄)
    have hlen' := h₅.length_rest
    have hstart : ((c₂.jumpOpened .jmp).jumpClosed (c.buffer.size + k.size)).advanced.buffer.size =
        c.buffer.size + k.size + 1 + s.size + 1 := h₅.size.trans (by simp; omega)
    refine (statement_ends t (rest_advanced hc₄) (by simp at hlen'; omega) hb.2 hrest (h₅.sees hs)).part ?_
      fun hok' _ c₆ h₆ => ?_
    · intro h
      simp only [Statement.scoped, Bool.and_eq_true] at h
      exact h.2.2
    refine ⟨by simp [Statement.scoped, hk, hok, hok'], ?_⟩
    rw [hstart] at h₆
    have h := h₅.trans h₆
    simp only [List.append_nil] at h
    rw [append_last] at h
    have h := h.jumpClosed (hend.trans (by simp; omega))
    simpa only [Statement.tokens, Statement.code, refer, instruction, hend, Statement.length_code, List.length_append,
      List.length_cons, List.length_nil, List.append_assoc, List.cons_append, List.nil_append, Nat.add_assoc] using h
  | .whileDo k s, n, c, rest, hc, hn, hb, hrest, hs => by
    simp only [Statement.tokens, List.cons_append, List.append_assoc] at hc
    simp only [Statement.elseBound] at hb
    obtain ⟨m, rfl, hm⟩ := exists_succ_of_rest hc hn
    have h₀ := Context.Extends.advanced hc
    have hc₀ := rest_advanced hc
    unfold Ends
    simp only [statement, whileStatement, wp_bind, wp_peek, current_of_rest hc, wp_nextAddress, wp_advance]
    refine (condition_ends k hc₀ (by rw [hc₀]; exact hm) ⟨rfl, rfl⟩ (h₀.sees hs)).part ?_ fun hk _ c₁ h₁ => ?_
    · intro h
      simp only [Statement.scoped, Bool.and_eq_true] at h
      exact h.1
    have hc₁ := h₁.rest_eq hc₀
    simp only [wp_openJpc, refused_full, implies_true, and_true]
    intro hroom
    have hc₂ : (c₁.jumpOpened .jpc).tokens.rest = .doSym :: (s.tokens ++ rest) := hc₁
    simp only [wp_expect, current_of_rest hc₂, true_implies, ne_eq, not_true_eq_false, false_implies, and_true]
    have h₃ := h₀.trans (h₁.trans ((Context.Extends.jumpOpened .jpc hroom).trans (.advanced hc₂)))
    have hc₃ := rest_advanced hc₂
    have hlen := h₃.length_rest
    refine (statement_ends s hc₃ (by simp at hlen; omega) hb hrest (h₃.sees hs)).part ?_ fun hok _ c₄ h₄ => ?_
    · intro h
      simp only [Statement.scoped, Bool.and_eq_true] at h
      exact h.2
    simp only [wp_emit, wp_closeJump, refused_full, implies_true, and_true]
    intro hroom'
    refine ⟨by simp [Statement.scoped, hk, hok], ?_⟩
    have hsize : c₁.buffer.size = c.buffer.size + (k.code env).length := h₁.size
    -- the jump back was emitted before the jump out of the loop is closed
    have h := h₃.trans (h₄.trans (.emitted ⟨.jmp, 0, 0, Int32.ofNat c.buffer.size⟩ hroom'))
    simp only [List.append_nil, List.nil_append, List.append_assoc, List.cons_append] at h
    simpa [Statement.tokens, Statement.code, refer, instruction, h₃.size, hsize, Nat.add_assoc] using
      h.jumpClosed hsize

theorem statementTail_ends : ∀ (l : StatementTail) {n m : Nat} {c : Context} {rest : List Token},
    c.tokens.rest = l.tokens ++ .endSym :: rest → c.tokens.rest.length ≤ n → n ≤ m → l.elseBound → c.Sees env →
    Ends (statementTail (statement m) n) c (l.scoped env.sortOf) fun _ c' =>
      c.Extends c' l.tokens (l.code env c.buffer.size) [] 0
  | .nil, n, m, c, rest, hc, _, _, _, _ => by
    refine statementTail_stops ?_ ⟨rfl, .refl c⟩
    simp [current_eq, hc, StatementTail.tokens]
  | .cons s l, n, m, c, rest, hc, hn, hm, hb, hs => by
    simp only [StatementTail.tokens, List.cons_append, List.append_assoc] at hc
    simp only [StatementTail.elseBound, Bool.and_eq_true] at hb
    obtain ⟨n, rfl, hn'⟩ := exists_succ_of_rest hc hn
    have h₁ := Context.Extends.advanced hc
    have hc₁ := rest_advanced hc
    unfold Ends
    simp only [statementTail, wp_bind, wp_peek, current_of_rest hc, ↓reduceIte, wp_advance]
    refine (statement_ends s hc₁ (by rw [hc₁]; omega) hb.1 (l.endsBefore rest) (h₁.sees hs)).part ?_
      fun hok _ c₂ h₂ => ?_
    · intro h
      simp only [StatementTail.scoped, Bool.and_eq_true] at h
      exact h.1
    have hc₂ := h₂.rest_eq hc₁
    have hlen := h₂.length_rest
    refine (statementTail_ends l hc₂ (by rw [hc₁] at hlen; omega) (by omega) hb.2 ((h₁.trans h₂).sees hs)).part ?_
      fun hok' _ c₃ h₃ => ?_
    · intro h
      simp only [StatementTail.scoped, Bool.and_eq_true] at h
      exact h.2
    refine ⟨by simp [StatementTail.scoped, hok, hok'], ?_⟩
    have hsize := h₁.size
    simpa [StatementTail.tokens, StatementTail.code, h₂.size, hsize] using h₁.trans (h₂.trans h₃)

end

end PL0.Gen
