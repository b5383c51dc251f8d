import PL0.Proofs.Generator.Lockstep
import PL0.Proofs.Generator.Reading

/-!
# What a compilation looks at

A compilation looks at no token after the current one, and it never reads past the end of the input.  So two token
sequences with a common start are compiled in the same way as long as the current token is one of the common ones
(`CommonStart.Mirrors`).  Past its end a token sequence reads as `nul`, which makes a `nul` among the tokens the same as
their end.

The bounds of the productions depend on the number of tokens and differ in the two compilations.  A production that has
used up its bound is at the end of the tokens, where it does what it does with every bound
(`CommonStart.MirrorsFrom.of_end`).
-/

namespace PL0

/-- Two token sequences that read the same at the positions below `length`. -/
structure CommonStart where
  first : List Token
  second : List Token
  length : Nat
  agree : ∀ i < length, second.getD i .nul = first.getD i .nul

namespace CommonStart

open Gen

variable {α β : Type} (S : CommonStart)

/-- How a step ends on the first token sequence, at the position `q` or later, and how on the second one.  Once the
first compilation is past the common start nothing is said about the second one. -/
inductive Repeats (q : Nat) : EStateM.Result Stop Context α → EStateM.Result Stop Context α → Prop
  | ok (a : α) (c : Context) : q ≤ c.tokens.position → Repeats q (.ok a c) (.ok a (c.onto S.second))
  | stopped (stop : Stop) (c : Context) : Repeats q (.error stop c) (.error stop (c.onto S.second))
  | passed {r r' : EStateM.Result Stop Context α} : S.length ≤ (lastState r).tokens.position → Repeats q r r'

/-- From the position `p` on, and when the current token satisfies `K`, the step `g` does on the first token sequence
what `g'` does on the second one. -/
structure Mirrors (K : Token → Prop) (p q : Nat) (g g' : Gen α) : Prop extends Onward S.first g where
  repeats : ∀ c, c.tokens.On S.first → K c.tokens.current → p ≤ c.tokens.position → c.tokens.position < S.length →
    S.Repeats q (g c) (g' (c.onto S.second))

/-- From the position `p` on the two steps correspond, whatever the current token is and however far they read. -/
structure MirrorsFrom (p : Nat) (g g' : Gen α) : Prop where
  mirrors : ∀ {K : Token → Prop} {p' q : Nat}, p ≤ p' → q ≤ p' → S.Mirrors K p' q g g'

/-- The bounds `n` and `n'` are enough for the tokens after the position `p`. -/
structure Enough (n n' p : Nat) : Prop where
  first : S.first.length ≤ n + p
  second : S.second.length ≤ n' + p

variable {S}

theorem Enough.mono {n n' p q : Nat} (h : S.Enough n n' p) (hpq : p ≤ q) : S.Enough n n' q := by
  have h₁ := h.first
  have h₂ := h.second
  exact ⟨by omega, by omega⟩

/-- Reading a token makes up for a smaller bound. -/
theorem Enough.read {n n' p : Nat} (h : S.Enough (n + 1) (n' + 1) p) : S.Enough n n' (p + 1) := by
  have h₁ := h.first
  have h₂ := h.second
  exact ⟨by omega, by omega⟩

/-- In the common start the current token is the same. -/
theorem current_onto {c : Context} (hon : c.tokens.On S.first) (hlt : c.tokens.position < S.length) :
    (c.onto S.second).tokens.current = c.tokens.current := by
  have hcurrent : (c.onto S.second).tokens.current = S.second.getD c.tokens.position .nul :=
    TokenStream.current_skip _ _
  rw [hcurrent, S.agree _ hlt, hon.current_eq]

namespace Mirrors

variable {K : Token → Prop} {p q r : Nat}

/-! ### Composition -/

theorem bind {g g' : Gen α} {f f' : α → Gen β} (hg : S.Mirrors K p q g g')
    (hf : ∀ a, S.Mirrors (fun _ => True) q r (f a) (f' a)) : S.Mirrors K p r (g >>= f) (g' >>= f') := by
  refine ⟨hg.toOnward.bind fun a => (hf a).toOnward, fun c hon hc hp hlt => ?_⟩
  have hrepeats := hg.repeats c hon hc hp hlt
  have hon' := hg.on c hon
  rw [run_bind, run_bind]
  generalize g c = r₁, g' (c.onto S.second) = r₂ at hrepeats hon'
  cases hrepeats with
  | ok a d hd =>
    rcases Nat.lt_or_ge d.tokens.position S.length with hlt' | hge
    · exact (hf a).repeats d hon' trivial hd hlt'
    · exact .passed (Nat.le_trans hge ((hf a).le d))
  | stopped stop d => exact .stopped stop d
  | passed hge =>
    apply Repeats.passed
    cases r₁ with
    | ok a d => exact Nat.le_trans hge ((hf a).le d)
    | error stop d => exact hge

theorem of_still {g : Gen α} (hg : Still g) (hq : q ≤ p) : S.Mirrors K p q g g := by
  refine ⟨hg.onward _, fun c hon hc hp hlt => ?_⟩
  have htokens := hg.tokens c
  have hsame : g (c.onto S.second) = _ := hg.same c _
  rw [hsame]
  cases hd : g c with
  | ok a d =>
    rw [hd] at htokens
    have htokens : d.tokens = c.tokens := htokens
    rw [← htokens] at hp ⊢
    exact .ok a d (Nat.le_trans hq hp)
  | error stop d =>
    rw [hd] at htokens
    have htokens : d.tokens = c.tokens := htokens
    rw [← htokens]
    exact .stopped stop d

/-- After a step that reads nothing the current token is the same as before. -/
theorem still_bind {g : Gen α} {f f' : α → Gen β} (hg : Still g) (hf : ∀ a, S.Mirrors K p q (f a) (f' a)) :
    S.Mirrors K p q (g >>= f) (g >>= f') := by
  refine ⟨(hg.onward _).bind fun a => (hf a).toOnward, fun c hon hc hp hlt => ?_⟩
  have htokens := hg.tokens c
  have hsame : g (c.onto S.second) = _ := hg.same c _
  rw [run_bind, run_bind, hsame]
  cases hd : g c with
  | ok a d =>
    rw [hd] at htokens
    have htokens : d.tokens = c.tokens := htokens
    rw [← htokens] at hon hc hp hlt ⊢
    exact (hf a).repeats d hon hc hp hlt
  | error stop d =>
    rw [hd] at htokens
    have htokens : d.tokens = c.tokens := htokens
    rw [← htokens]
    exact .stopped stop d

theorem peek_bind {f f' : Token → Gen β} (hf : ∀ t, S.Mirrors (· = t) p q (f t) (f' t)) :
    S.Mirrors K p q (peek >>= f) (peek >>= f') := by
  refine ⟨Onward.peek.bind fun t => (hf t).toOnward, fun c hon _ hp hlt => ?_⟩
  show S.Repeats q (f c.tokens.current c) (f' (c.onto S.second).tokens.current (c.onto S.second))
  rw [current_onto hon hlt]
  exact (hf _).repeats c hon rfl hp hlt

theorem peek_ite {t : Token} {g g' h h' : Gen β} (hg : S.Mirrors (· = t) p q g g')
    (hh : S.Mirrors (fun _ => True) p q h h') :
    S.Mirrors K p q (peek >>= fun u => if u = t then g else h) (peek >>= fun u => if u = t then g' else h') := by
  refine peek_bind fun u => ?_
  by_cases hu : u = t
  · subst hu
    simp only [↓reduceIte]
    exact hg
  · simp only [hu, ↓reduceIte]
    exact ⟨hh.toOnward, fun c hon _ hp hlt => hh.repeats c hon trivial hp hlt⟩

/-- Only a token other than `nul` is read, and then both token sequences go on. -/
theorem advance (hK : ¬K .nul) (hq : q ≤ p + 1) : S.Mirrors K p q Gen.advance Gen.advance := by
  refine ⟨.advance, fun c hon hc hp hlt => ?_⟩
  have hne : c.tokens.current ≠ .nul := by
    intro h
    rw [h] at hc
    exact hK hc
  have hfirst : c.tokens.advance = .skip S.first (c.tokens.position + 1) := by
    rw [hon.eq_skip] at hne ⊢
    exact TokenStream.advance_skip (TokenStream.lt_length_of_current hne)
  have hsecond : (c.onto S.second).tokens.advance = .skip S.second (c.tokens.position + 1) := by
    rw [← current_onto hon hlt] at hne
    exact TokenStream.advance_skip (TokenStream.lt_length_of_current hne)
  have honto : (c.onto S.second).advanced = c.advanced.onto S.second := by
    show (c.onto S.second).withTokens (c.onto S.second).tokens.advance =
      c.advanced.withTokens (.skip S.second c.tokens.advance.position)
    rw [hsecond, hfirst]
    rfl
  show S.Repeats q (.ok () c.advanced) (.ok () (c.onto S.second).advanced)
  rw [honto]
  refine .ok () c.advanced ?_
  show q ≤ c.tokens.advance.position
  rw [hfirst]
  exact Nat.le_trans hq (Nat.succ_le_succ hp)

theorem inBody {body body' : Gen Unit} (h : S.Mirrors (fun _ => True) p q body body') (name : String) (id : Nat) :
    S.Mirrors K p q (inBody name id body) (inBody name id body') := by
  refine ⟨h.toOnward.inBody name id, fun c hon _ hp hlt => ?_⟩
  have hrepeats := h.repeats (c.enter name id) hon trivial hp hlt
  rw [run_inBody, run_inBody]
  show S.Repeats q _ (leaving name c.level c.scope (body' ((c.enter name id).onto S.second)))
  generalize body (c.enter name id) = r, body' ((c.enter name id).onto S.second) = r' at hrepeats
  cases hrepeats with
  | ok a d hd => exact .ok () (d.leave name c.level c.scope) hd
  | stopped stop d =>
    cases stop with
    | rejected e => exact .stopped (.rejected e) (d.leave name c.level c.scope)
    | fault f => exact .stopped (.fault f) d
  | passed hge => exact .passed (by rwa [tokens_leaving])

theorem reject (e : CompileError) : S.Mirrors K p q (Gen.reject e : Gen α) (Gen.reject e) :=
  ⟨(Still.reject e).onward _, fun c _ _ _ _ => .stopped (.rejected e) c⟩

/-! ### Single tokens -/

theorem expect {t : Token} (ht : t ≠ .nul) (e : CompileError) (hq : q ≤ p + 1) :
    S.Mirrors K p q (Gen.expect t e) (Gen.expect t e) :=
  peek_ite (advance (fun h => ht h.symm) hq) (reject e)

theorem peekName_bind {f f' : String → Gen β} (e : CompileError)
    (hf : ∀ x, S.Mirrors (· = .ident x) p q (f x) (f' x)) :
    S.Mirrors K p q (peekName e >>= f) (peekName e >>= f') := by
  unfold peekName
  rw [bind_assoc, bind_assoc]
  refine peek_bind fun t => ?_
  cases t with
  | ident x => exact hf x
  | _ => exact reject e

theorem takeName (e : CompileError) (hq : q ≤ p + 1) : S.Mirrors K p q (Gen.takeName e) (Gen.takeName e) :=
  peekName_bind e fun x => (advance (by simp) (Nat.le_refl _)).bind fun _ => of_still (.pure x) hq

theorem takeNumber (e : CompileError) (hq : q ≤ p + 1) : S.Mirrors K p q (Gen.takeNumber e) (Gen.takeNumber e) := by
  refine peek_bind fun t => ?_
  cases t with
  | number v => exact (advance (by simp) (Nat.le_refl _)).bind fun _ => of_still (.pure v) hq
  | _ => exact reject e

end Mirrors

namespace MirrorsFrom

open Mirrors

variable {p n n' : Nat}

theorem mono {g g' : Gen α} {q : Nat} (h : S.MirrorsFrom p g g') (hpq : p ≤ q) : S.MirrorsFrom q g g' :=
  ⟨fun hp hq => h.mirrors (Nat.le_trans hpq hp) hq⟩

theorem onward {g g' : Gen α} (h : S.MirrorsFrom p g g') : Onward S.first g :=
  (h.mirrors (K := fun _ => True) (Nat.le_refl p) (Nat.le_refl p)).toOnward

/-- Where one of the token sequences ends the other one reads as `nul`. -/
theorem of_end {g g' h : Gen α} (hend : S.first.length ≤ p ∨ S.second.length ≤ p) (hg : Onward S.first g) (hh : Still h)
    (heq : ∀ c, c.tokens.current = .nul → g c = h c) (heq' : ∀ c, c.tokens.current = .nul → g' c = h c) :
    S.MirrorsFrom p g g' := by
  refine ⟨fun hp' hq => ⟨hg, fun c hon hc hp hlt => ?_⟩⟩
  have hnul : c.tokens.current = .nul := by
    rcases hend with hend | hend
    · rw [hon.eq_skip]
      exact TokenStream.current_skip_of_le (by omega)
    · rw [← current_onto hon hlt]
      exact TokenStream.current_skip_of_le (Nat.le_trans hend (Nat.le_trans hp' hp))
  rw [heq c hnul, heq' _ ((current_onto hon hlt).trans hnul)]
  exact (of_still hh hq).repeats c hon hc hp hlt

/-- Steps with a bound correspond, by induction on the bounds in the two compilations.  When one of them is used up,
both steps do what `h` does. -/
theorem of_bound {G G' : Nat → Gen α} {h : Gen α} (hG : ∀ n, Onward S.first (G n)) (hh : Still h)
    (hend : ∀ n c, c.tokens.current = .nul → G n c = h c) (hend' : ∀ n c, c.tokens.current = .nul → G' n c = h c)
    (hstep : ∀ {p' n n'}, p ≤ p' → S.Enough n n' (p' + 1) → S.MirrorsFrom (p' + 1) (G n) (G' n') →
      ∀ {K q}, q ≤ p' → S.Mirrors K p' q (G (n + 1)) (G' (n' + 1))) (hn : S.Enough n n' p) :
    S.MirrorsFrom p (G n) (G' n') := by
  suffices key : ∀ p₁, p ≤ p₁ → S.Enough n n' p₁ → S.MirrorsFrom p₁ (G n) (G' n') from key p (Nat.le_refl p) hn
  clear hn
  induction n generalizing n' with
  | zero =>
    intro p₁ _ hn
    have hfirst := hn.first
    exact of_end (.inl (by omega)) (hG 0) hh (hend 0) (hend' n')
  | succ n ih =>
    intro p₁ hp₁ hn
    cases n' with
    | zero =>
      have hsecond := hn.second
      exact of_end (.inr (by omega)) (hG (n + 1)) hh (hend (n + 1)) (hend' 0)
    | succ n' =>
      refine ⟨fun {K p' q} hp' hq => ?_⟩
      have hn' := (hn.mono hp').read
      exact hstep (by omega) hn' (ih (p' + 1) (by omega) hn') hq

/-- At the end of the tokens no keyword comes. -/
private theorem peek_ite_end {t : Token} (ht : t ≠ .nul) {g h : Gen α} (c : Context) (hc : c.tokens.current = .nul) :
    (peek >>= fun u => if u = t then g else h) c = h c := by
  show (if c.tokens.current = t then g else h) c = h c
  rw [hc, if_neg ht.symm]

/-! ### Expressions and conditions -/

private theorem chain_end {op? : Token → Option Opcode} (hnul : op? .nul = none) (operand : Gen Unit) (n : Nat)
    (c : Context) (hc : c.tokens.current = .nul) : Gen.chain op? operand n c = (pure () : Gen Unit) c := by
  cases n with
  | zero => rfl
  | succ n =>
    show (peek >>= _) c = _
    rw [run_peek_bind, hc, hnul]

theorem chain (op? : Token → Option Opcode) (hnul : op? .nul = none) {operand operand' : Gen Unit}
    (hn : S.Enough n n' p) (h : S.MirrorsFrom p operand operand') :
    S.MirrorsFrom p (Gen.chain op? operand n) (Gen.chain op? operand' n') := by
  refine of_bound (fun n => (onward_rules S.first).flat.chain op? (fun _ => h.onward) n []) (.pure ())
    (chain_end hnul operand) (chain_end hnul operand') ?_ hn
  intro p' n n' hp' _ ih K q hq
  refine peek_bind fun t => ?_
  cases hop : op? t with
  | none => exact of_still (.pure ()) hq
  | some op =>
    have ht : ¬.nul = t := by
      rintro rfl
      rw [hnul] at hop
      cases hop
    exact (advance (K := (· = t)) ht (Nat.le_refl _)).bind fun _ =>
      (h.mirrors (by omega) (Nat.le_refl _)).bind fun _ => still_bind (.emit op 0 0) fun _ =>
        ih.mirrors (Nat.le_refl _) (by omega)

theorem termOf {factor factor' : Gen Unit} (hn : S.Enough n n' p) (h : S.MirrorsFrom p factor factor') :
    S.MirrorsFrom p (Gen.termOf factor n) (Gen.termOf factor' n') :=
  ⟨fun hp hq => (h.mirrors hp (Nat.le_refl _)).bind fun _ => (chain mulOp? rfl hn h).mirrors hp hq⟩

theorem expressionOf {factor factor' : Gen Unit} (hn : S.Enough n n' p) (h : S.MirrorsFrom p factor factor') :
    S.MirrorsFrom p (Gen.expressionOf factor n) (Gen.expressionOf factor' n') := by
  have hterm := termOf hn h
  have htail := chain addOp? rfl hn hterm
  refine ⟨fun hp hq => peek_bind fun t => ?_⟩
  cases t with
  | plus =>
    exact (advance (by simp) (Nat.le_refl _)).bind fun _ => (hterm.mirrors (by omega) (Nat.le_refl _)).bind fun _ =>
      htail.mirrors (by omega) (by omega)
  | minus =>
    exact (advance (by simp) (Nat.le_refl _)).bind fun _ => (hterm.mirrors (by omega) (Nat.le_refl _)).bind fun _ =>
      still_bind (.emit .neg 0 0) fun _ => htail.mirrors (by omega) (by omega)
  | _ => exact (hterm.mirrors hp (Nat.le_refl _)).bind fun _ => htail.mirrors hp hq

private theorem factor_end (n : Nat) (c : Context) (hc : c.tokens.current = .nul) :
    Gen.factor n c = (Gen.reject .illegalFactor : Gen Unit) c := by
  cases n with
  | zero => rfl
  | succ n =>
    show (peek >>= _) c = _
    rw [run_peek_bind, hc]

theorem factor (hn : S.Enough n n' p) : S.MirrorsFrom p (Gen.factor n) (Gen.factor n') := by
  refine of_bound (fun n => (onward_rules S.first).flat.factor n []) (.reject .illegalFactor) factor_end factor_end ?_ hn
  intro p' n n' _ hn ih K q hq
  refine peek_bind fun t => ?_
  cases t with
  | ident x =>
    exact still_bind (.lookUp x) fun b => still_bind (.load b _) fun _ => advance (by simp) (by omega)
  | number value => exact still_bind (.emit .lit 0 value) fun _ => advance (by simp) (by omega)
  | lparen =>
    exact (advance (by simp) (Nat.le_refl _)).bind fun _ =>
      ((expressionOf hn ih).mirrors (Nat.le_refl _) (Nat.le_refl _)).bind fun _ => expect (by simp) _ (by omega)
  | _ => exact reject _

theorem expression (hn : S.Enough n n' p) : S.MirrorsFrom p (Gen.expression n) (Gen.expression n') :=
  expressionOf hn (factor hn)

theorem condition (hn : S.Enough n n' p) : S.MirrorsFrom p (Gen.condition n) (Gen.condition n') := by
  have hexpression := expression hn
  refine ⟨fun hp hq => peek_ite ?_ ?_⟩
  · exact (advance (by simp) (Nat.le_refl _)).bind fun _ =>
      (hexpression.mirrors (by omega) (Nat.le_refl _)).bind fun _ => of_still (.emit .odd 0 0) (by omega)
  · refine (hexpression.mirrors hp (Nat.le_refl _)).bind fun _ => peek_bind fun u => ?_
    cases hop : relOp? u with
    | none => exact reject _
    | some op =>
      have hu : ¬.nul = u := by
        rintro rfl
        cases hop
      exact (advance (K := (· = u)) hu (Nat.le_refl _)).bind fun _ =>
        (hexpression.mirrors (by omega) (Nat.le_refl _)).bind fun _ => of_still (.emit op 0 0) (by omega)

/-! ### Statements -/

variable {q : Nat}

private theorem assignment (x : String) (hn : S.Enough n n' (p + 1)) (hq : q ≤ p) :
    S.Mirrors (· = .ident x) p q (Gen.assignment n x) (Gen.assignment n' x) := by
  refine still_bind (.lookUp x) fun b => ?_
  cases b.kind with
  | var address =>
    exact (advance (by simp) (Nat.le_refl _)).bind fun _ => (expect (by simp) _ (Nat.le_refl _)).bind fun _ =>
      ((expression hn).mirrors (by omega) (Nat.le_refl _)).bind fun _ => of_still (.emit _ _ _) (by omega)
  | _ => exact reject _

private theorem call (hq : q ≤ p) : S.Mirrors (· = .callSym) p q Gen.call Gen.call := by
  refine (advance (by simp) (Nat.le_refl _)).bind fun _ => peekName_bind _ fun x => ?_
  refine still_bind (.lookUp x) fun b => ?_
  cases b.kind with
  | proc address => exact still_bind (.emit _ _ _) fun _ => advance (by simp) (by omega)
  | _ => exact reject _

private theorem read (hq : q ≤ p) : S.Mirrors (· = .readSym) p q Gen.read Gen.read := by
  refine (advance (by simp) (Nat.le_refl _)).bind fun _ => peekName_bind _ fun x => ?_
  refine still_bind (.lookUp x) fun b => ?_
  cases b.kind with
  | var address =>
    exact (advance (by simp) (Nat.le_refl _)).bind fun _ => still_bind (.emit _ _ _) fun _ =>
      of_still (.emit _ _ _) (by omega)
  | _ => exact reject _

private theorem write (hq : q ≤ p) : S.Mirrors (· = .writeSym) p q Gen.write Gen.write :=
  (advance (by simp) (Nat.le_refl _)).bind fun _ => peekName_bind _ fun x => still_bind (.lookUp x) fun b =>
    still_bind (.load b _) fun _ => still_bind (.emit _ _ _) fun _ => advance (by simp) (by omega)

section

variable {statement statement' : Gen Unit}

private theorem statementTail_end (statement : Gen Unit) (n : Nat) (c : Context) (hc : c.tokens.current = .nul) :
    Gen.statementTail statement n c = (pure () : Gen Unit) c := by
  cases n with
  | zero => rfl
  | succ n => exact peek_ite_end (by simp) c hc

theorem statementTail (hn : S.Enough n n' p) (h : S.MirrorsFrom p statement statement') :
    S.MirrorsFrom p (Gen.statementTail statement n) (Gen.statementTail statement' n') := by
  refine of_bound (fun n => (onward_rules S.first).flat.statementTail (fun _ => h.onward) n []) (.pure ())
    (statementTail_end statement) (statementTail_end statement') ?_ hn
  intro p' n n' hp' _ ih K q hq
  refine peek_ite ?_ (of_still (.pure ()) hq)
  exact (advance (by simp) (Nat.le_refl _)).bind fun _ => (h.mirrors (by omega) (Nat.le_refl _)).bind fun _ =>
    ih.mirrors (Nat.le_refl _) (by omega)

variable (hn : S.Enough n n' (p + 1)) (h : S.MirrorsFrom (p + 1) statement statement') (hq : q ≤ p)

include hn h hq

private theorem compound :
    S.Mirrors (· = .beginSym) p q (Gen.compound statement n) (Gen.compound statement' n') :=
  (advance (by simp) (Nat.le_refl _)).bind fun _ => (h.mirrors (Nat.le_refl _) (Nat.le_refl _)).bind fun _ =>
    ((statementTail hn h).mirrors (Nat.le_refl _) (Nat.le_refl _)).bind fun _ => expect (by simp) _ (by omega)

private theorem ifStatement :
    S.Mirrors (· = .ifSym) p q (Gen.ifStatement statement n) (Gen.ifStatement statement' n') := by
  refine (advance (by simp) (Nat.le_refl _)).bind fun _ => ?_
  refine ((condition hn).mirrors (Nat.le_refl _) (Nat.le_refl _)).bind fun _ => ?_
  refine (expect (by simp) _ (Nat.le_refl _)).bind fun _ => still_bind (.openJump rfl) fun toElse => ?_
  refine (h.mirrors (by omega) (Nat.le_refl _)).bind fun _ => peek_ite ?_ (of_still (.closeJump toElse) (by omega))
  refine still_bind (.openJump rfl) fun toEnd => still_bind (.closeJump toElse) fun _ => ?_
  exact (advance (by simp) (Nat.le_refl _)).bind fun _ => (h.mirrors (by omega) (Nat.le_refl _)).bind fun _ =>
    of_still (.closeJump toEnd) (by omega)

private theorem whileStatement :
    S.Mirrors (· = .whileSym) p q (Gen.whileStatement statement n) (Gen.whileStatement statement' n') := by
  refine still_bind .nextAddress fun top => (advance (by simp) (Nat.le_refl _)).bind fun _ => ?_
  refine ((condition hn).mirrors (Nat.le_refl _) (Nat.le_refl _)).bind fun _ => still_bind (.openJump rfl) fun toEnd => ?_
  refine (expect (by simp) _ (Nat.le_refl _)).bind fun _ => (h.mirrors (by omega) (Nat.le_refl _)).bind fun _ => ?_
  exact still_bind (.emit _ _ _) fun _ => of_still (.closeJump toEnd) (by omega)

end

private theorem statement_end (n : Nat) (c : Context) (hc : c.tokens.current = .nul) :
    Gen.statement n c = (pure () : Gen Unit) c := by
  cases n with
  | zero => rfl
  | succ n =>
    show (peek >>= _) c = _
    rw [run_peek_bind, hc]

theorem statement (hn : S.Enough n n' p) : S.MirrorsFrom p (Gen.statement n) (Gen.statement n') := by
  refine of_bound (fun n => (onward_rules S.first).flat.statement n []) (.pure ()) statement_end statement_end ?_ hn
  intro p' n n' _ hn ih K q hq
  refine peek_bind fun t => ?_
  cases t with
  | ident x => exact assignment x hn hq
  | callSym => exact call hq
  | beginSym => exact compound hn ih hq
  | ifSym => exact ifStatement hn ih hq
  | whileSym => exact whileStatement hn ih hq
  | writeSym => exact write hq
  | readSym => exact read hq
  | _ => exact of_still (.pure ()) hq

/-! ### Declarations and blocks -/

private theorem commaTail_end (item : Gen Unit) (n : Nat) (c : Context) (hc : c.tokens.current = .nul) :
    Gen.commaTail item n c = (pure () : Gen Unit) c := by
  cases n with
  | zero => rfl
  | succ n => exact peek_ite_end (by simp) c hc

/-- The items of a declaration.  Each of them starts with its keyword or comma. -/
private theorem commaTail {item : Gen Unit} (hn : S.Enough n n' p)
    (h : ∀ {t p}, t ≠ .nul → S.Mirrors (· = t) p (p + 1) item item) :
    S.MirrorsFrom p (Gen.commaTail item n) (Gen.commaTail item n') := by
  have honward : Onward S.first item := (h (t := .comma) (p := p) (by simp)).toOnward
  refine of_bound (fun n => (onward_rules S.first).flat.commaTail (fun _ => honward) n []) (.pure ())
    (commaTail_end item) (commaTail_end item) ?_ hn
  intro p' n n' _ _ ih K q hq
  exact peek_ite ((h (by simp)).bind fun _ => ih.mirrors (Nat.le_refl _) (by omega)) (of_still (.pure ()) hq)

private theorem declaration {item : Gen Unit} (keyword : Token) (hkeyword : keyword ≠ .nul) (e : CompileError)
    (hn : S.Enough n n' p) (h : ∀ {t p}, t ≠ .nul → S.Mirrors (· = t) p (p + 1) item item) :
    S.MirrorsFrom p
      (do
        if (← peek) = keyword then
          item
          Gen.commaTail item n
          Gen.expect .semicolon e)
      (do
        if (← peek) = keyword then
          item
          Gen.commaTail item n'
          Gen.expect .semicolon e) := by
  refine ⟨fun hp hq => peek_ite ?_ (of_still (.pure ()) hq)⟩
  exact (h hkeyword).bind fun _ => ((commaTail hn h).mirrors (by omega) (Nat.le_refl _)).bind fun _ =>
    expect (by simp) _ (by omega)

private theorem constItem {t : Token} (ht : t ≠ .nul) : S.Mirrors (· = t) p (p + 1) Gen.constItem Gen.constItem :=
  (advance (fun h => ht h.symm) (Nat.le_refl _)).bind fun _ => (takeName _ (Nat.le_refl _)).bind fun x =>
    (expect (by simp) _ (Nat.le_refl _)).bind fun _ => (takeNumber _ (Nat.le_refl _)).bind fun v =>
      still_bind (.declare x (.const v)) fun _ => of_still (.pure ()) (by omega)

private theorem varItem {t : Token} (ht : t ≠ .nul) : S.Mirrors (· = t) p (p + 1) Gen.varItem Gen.varItem :=
  (advance (fun h => ht h.symm) (Nat.le_refl _)).bind fun _ => still_bind .nextAddress fun a =>
    (takeName _ (Nat.le_refl _)).bind fun x => still_bind (.declare x (.var (Int32.ofNat a))) fun _ =>
      of_still (.emit _ _ _) (by omega)

private theorem procedure {block block' : Gen Unit} (h : S.MirrorsFrom (p + 1) block block') :
    S.Mirrors (· = .procSym) p (p + 1) (Gen.procedure block) (Gen.procedure block') := by
  refine still_bind .nextAddress fun a => (advance (by simp) (Nat.le_refl _)).bind fun _ => ?_
  refine (takeName _ (Nat.le_refl _)).bind fun x => still_bind (.declare x (.proc (Int32.ofNat a))) fun id => ?_
  refine (expect (by simp) _ (Nat.le_refl _)).bind fun _ => ?_
  exact ((h.mirrors (by omega) (Nat.le_refl _)).inBody x id).bind fun _ => expect (by simp) _ (by omega)

private theorem procedures_end (block : Gen Unit) (n : Nat) (c : Context) (hc : c.tokens.current = .nul) :
    Gen.procedures block n c = (pure () : Gen Unit) c := by
  cases n with
  | zero => rfl
  | succ n => exact peek_ite_end (by simp) c hc

theorem procedures {block block' : Gen Unit} (hn : S.Enough n n' p) (h : S.MirrorsFrom (p + 1) block block') :
    S.MirrorsFrom p (Gen.procedures block n) (Gen.procedures block' n') := by
  refine of_bound (fun n => (onward_rules S.first).procedures (fun _ => h.onward) n []) (.pure ())
    (procedures_end block) (procedures_end block') ?_ hn
  intro p' n n' hp' _ ih K q hq
  have hprocedure := procedure (h.mono (Nat.succ_le_succ hp'))
  exact peek_ite (hprocedure.bind fun _ => ih.mirrors (Nat.le_refl _) (by omega)) (of_still (.pure ()) hq)

theorem blockOf {procs procs' : Gen Unit} (hn : S.Enough n n' p) (h : S.MirrorsFrom p procs procs') :
    S.MirrorsFrom p (Gen.blockOf procs n) (Gen.blockOf procs' n') := by
  have hconsts := declaration .constSym (by simp) .semicolonOrEndExpected hn constItem
  have hvars := declaration .varSym (by simp) .varSeparatorExpected hn varItem
  refine ⟨fun hp hq => still_bind (.openJump rfl) fun skip => ?_⟩
  refine (hconsts.mirrors hp (Nat.le_refl _)).bind fun _ => (hvars.mirrors hp (Nat.le_refl _)).bind fun _ => ?_
  refine (h.mirrors hp (Nat.le_refl _)).bind fun _ => still_bind (.closeJump skip) fun _ => ?_
  refine still_bind (.emit _ _ _) fun _ => ((statement hn).mirrors hp (Nat.le_refl _)).bind fun _ => ?_
  exact of_still (.emit _ _ _) hq

theorem block (hn : S.Enough n n' p) : S.MirrorsFrom p (Gen.block n) (Gen.block n') := by
  induction n generalizing n' p with
  | zero =>
    -- a block whose bound is used up has no procedures
    have hend := hn.first
    cases n' with
    | zero => exact blockOf hn ⟨fun _ hq => of_still (.pure ()) hq⟩
    | succ n' =>
      refine blockOf hn (of_end (.inl (by omega)) ?_ (.pure ()) (fun _ _ => rfl) (procedures_end _ _))
      exact (Still.pure ()).onward S.first
  | succ n ih =>
    cases n' with
    | zero =>
      have hend := hn.second
      refine blockOf hn (of_end (.inr (by omega)) ?_ (.pure ()) (procedures_end _ _) fun _ _ => rfl)
      exact (onward_rules S.first).procedures ((onward_rules S.first).block n) (n + 1) []
    | succ n' => exact blockOf hn (procedures hn (ih hn.read))

theorem wholeProgram (hn : S.Enough n n' p) : S.MirrorsFrom p (Gen.wholeProgram n) (Gen.wholeProgram n') := by
  have hprogram : S.MirrorsFrom p (Gen.program n) (Gen.program n') :=
    ⟨fun hp hq => ((block hn).mirrors hp (Nat.le_refl _)).bind fun _ =>
      (expect (by simp) _ (Nat.le_refl _)).bind fun _ => of_still (.emit _ _ _) (by omega)⟩
  refine ⟨fun hp hq => ?_⟩
  rw [wholeProgram_eq, wholeProgram_eq]
  exact (hprogram.mirrors hp (Nat.le_refl _)).bind fun _ => of_still .finish hq

end MirrorsFrom

end CommonStart

/-! ### Compilations -/

variable {tokens : List Token} {capacity : Nat}

/-- The position in the token sequence at which a compilation ended. -/
def Compilation.position (compilation : Compilation) : Nat :=
  compilation.final.tokens.position

/-- A compilation that ends in the common start of two token sequences ends in the same way on both of them. -/
theorem CommonStart.outcome_eq (S : CommonStart) (h : (compile S.first capacity).position < S.length) :
    (compile S.second capacity).outcome = (compile S.first capacity).outcome := by
  have hn : S.Enough S.first.length S.second.length 0 := ⟨Nat.le_refl _, Nat.le_refl _⟩
  have hmirrors := (MirrorsFrom.wholeProgram hn).mirrors (K := fun _ => True) (Nat.le_refl 0) (Nat.le_refl 0)
  have hrepeats := hmirrors.repeats (.start S.first capacity) (.start S.first) trivial (Nat.le_refl 0)
    (Nat.zero_lt_of_lt h)
  change S.Repeats 0 _ (Gen.wholeProgram S.second.length (.start S.second capacity)) at hrepeats
  unfold Compilation.position at h
  unfold compile at h ⊢
  generalize Gen.wholeProgram S.first.length (.start S.first capacity) = r,
    Gen.wholeProgram S.second.length (.start S.second capacity) = r' at hrepeats h
  cases hrepeats with
  | ok a c _ => rfl
  | stopped stop c => rfl
  | passed hge =>
    cases r with
    | ok a c => exact absurd h (Nat.not_lt.2 hge)
    | error stop c => exact absurd h (Nat.not_lt.2 hge)

/-- Two token sequences that read the same up to the position where the compilation of one of them ends. -/
theorem outcome_eq_of_agree {tokens' : List Token}
    (h : ∀ i ≤ (compile tokens capacity).position, tokens'.getD i .nul = tokens.getD i .nul) :
    (compile tokens' capacity).outcome = (compile tokens capacity).outcome := by
  let S : CommonStart :=
    ⟨tokens, tokens', (compile tokens capacity).position + 1, fun i hi => h i (Nat.le_of_lt_succ hi)⟩
  exact S.outcome_eq (Nat.lt_succ_self _)

/-- A compilation that succeeds ends after the period of the program. -/
theorem position_of_ok {b : Block} {compiled : CompiledProgram} (hb : b.IsTreeOf tokens)
    (h : (compile tokens capacity).outcome = .ok compiled) :
    (compile tokens capacity).position = b.tokens.length + 1 := by
  have hwp : Gen.wp (Gen.wholeProgram tokens.length) (.start tokens capacity)
      (fun _ c => c.tokens.position = b.tokens.length + 1) fun _ _ => True := by
    rw [Gen.wp_wholeProgram]
    refine Gen.wp_mono (Gen.program_ends hb capacity) ?_ fun _ _ _ => trivial
    rintro _ c ⟨-, hextends⟩
    have hposition := hextends.position
    rw [List.length_append] at hposition
    exact ⟨fun _ => hposition.trans (Nat.zero_add _), fun _ => trivial⟩
  exact (Gen.outcome_of_wp hwp).1 compiled h

/-- There is only one translation of a tree. -/
theorem CompiledProgram.Translates.unique {b : Block} {compiled compiled' : CompiledProgram}
    (h : compiled.Translates b) (h' : compiled'.Translates b) : compiled' = compiled := by
  obtain ⟨⟨instructions⟩, ⟨symbols⟩⟩ := compiled
  obtain ⟨⟨instructions'⟩, ⟨symbols'⟩⟩ := compiled'
  have hprogram : instructions' = instructions := Array.toList_inj.1 (h'.program.trans h.program.symm)
  have hsymbols : symbols' = symbols := Array.toList_inj.1 (h'.symbols.trans h.symbols.symm)
  rw [hprogram, hsymbols]

/-- The program of a compilation that succeeds depends only on the tokens up to its period. -/
theorem compile_ok_of_take {compiled : CompiledProgram} (h : (compile tokens capacity).outcome = .ok compiled)
    {tokens' : List Token}
    (htake : tokens'.take (compile tokens capacity).position = tokens.take (compile tokens capacity).position) :
    (compile tokens' capacity).outcome = .ok compiled := by
  obtain ⟨b, hb⟩ := exists_tree_of_ok h
  obtain ⟨hscoped, htranslates, hfits⟩ := translates_of_ok hb h
  rw [position_of_ok hb h] at htake
  obtain ⟨hbound, rest, hrest⟩ := hb
  have hread : tokens.take (b.tokens.length + 1) = b.tokens ++ [.period] := by
    rw [hrest, List.append_cons]
    exact List.take_left' (by simp)
  have hb' : b.IsTreeOf tokens' := by
    refine ⟨hbound, tokens'.drop (b.tokens.length + 1), ?_⟩
    have hsplit := List.take_append_drop (b.tokens.length + 1) tokens'
    rw [htake, hread] at hsplit
    rw [List.append_cons, hsplit]
  obtain ⟨compiled', hok⟩ := compile_ok_of_fits hb' hscoped hfits
  have htranslates' := (translates_of_ok hb' hok).2.1
  rw [hok, htranslates.unique htranslates']

/-- A compilation depends only on the tokens that it has reached.  If it succeeds, these are the ones that it has read,
and if it stops, also the one at which it stops.  A `nul` is the end of the tokens, whatever follows it. -/
theorem outcome_depends_on_tokens_reached (capacity : Nat) :
    (∀ tokens tokens' : List Token,
      (∀ compiled, (compile tokens capacity).outcome = .ok compiled →
        tokens'.take (compile tokens capacity).position = tokens.take (compile tokens capacity).position →
        (compile tokens' capacity).outcome = .ok compiled) ∧
      (∀ stop, (compile tokens capacity).outcome = .error stop →
        (∀ i ≤ (compile tokens capacity).position, tokens'.getD i .nul = tokens.getD i .nul) →
        (compile tokens' capacity).outcome = .error stop)) ∧
    (∀ a b : List Token, (compile (a ++ .nul :: b) capacity).outcome = (compile a capacity).outcome) := by
  constructor
  · intro tokens tokens'
    constructor
    · intro compiled hok htake
      exact compile_ok_of_take hok htake
    · intro stop herror hagree
      rw [← herror]
      exact outcome_eq_of_agree hagree
  · intro a b
    apply outcome_eq_of_agree
    intro i hi
    have hle : (compile a capacity).position ≤ a.length := (compile_on a capacity).position_le
    rcases Nat.lt_or_ge i a.length with hlt | hge
    · simp [List.getElem?_append_left hlt]
    · obtain rfl : i = a.length := by omega
      simp

/-- The tokens after the period do not matter, nor do those after a `nul`. -/
theorem outcome_depends_on_tokens_reached_read :
    (compile [.varSym, .ident "x", .semicolon, .readSym, .ident "x", .period, .comma, .nul] 8).outcome =
      .ok ⟨⟨#[⟨.jmp, 0, 0, 2⟩, ⟨.inc, 0, 0, 1⟩, ⟨.inc, 0, 0, 4⟩, ⟨.read, 0, 0, 0⟩, ⟨.sto, 0, 0, 1⟩, ⟨.rtn, 0, 0, 0⟩,
        ⟨.halt, 0, 0, 3⟩]⟩, ⟨#[⟨"x", .var 1, 0, none⟩]⟩⟩ ∧
    (compile [.callSym, .nul, .ident "x", .period] 8).outcome = .error (.rejected .callTargetExpected) := by
  obtain ⟨hreached, -⟩ := outcome_depends_on_tokens_reached 8
  constructor
  · exact (hreached [.varSym, .ident "x", .semicolon, .readSym, .ident "x", .period] _).1 _ rfl rfl
  · refine (hreached [.callSym] _).2 _ rfl ?_
    decide

end PL0
