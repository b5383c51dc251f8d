import Mathlib.Computability.Language
import PL0.Proofs.Locality

/-!
# Errors at the earliest token

A compilation that rejects its tokens has read the start of a sentence, so that no error could have been reported
earlier.  `Gen.Parses K g L` says so of a single step `g`, for the sentences `L` that the step reads when it succeeds
and for a current token that satisfies `K`: when the step rejects the program, what it has read can be completed to a
sentence in `L`, and if the error is about a name, then this name is the current token and can be read too.  The
sentence that completes a sequence of steps is put together from those of its parts (`Gen.Parses.bind`).

At a syntax error, no sentence goes on with the current token either: a compilation only looks at the tokens up to this
one, and on a token sequence that begins with a sentence it finds no syntax error (`error_at_earliest_token`).
-/

namespace PL0

/-- The sentences that a kind of syntax tree derives. -/
def sentences {β : Type} (tokens : β → List Token) : Language Token :=
  Set.range tokens

/-- The tokens `r` are rejected when `r'` is left: those before `r'` are the start of a sentence, and if the error is
about a name, this name comes next in the sentence as well. -/
def CompileError.StopsAt (e : CompileError) (L : Language Token) (r r' : List Token) : Prop :=
  ∃ w v, r = w ++ r' ∧ w ++ v ∈ L ∧ (e.concernsName → ∃ x s u, r' = .ident x :: s ∧ v = .ident x :: u)

namespace Gen

variable {α β : Type}

/-- At a token that satisfies `K`, the step `g` reads a sentence in `L` or stops in the middle of one. -/
structure Parses (K : Token → Prop) (g : Gen α) (L : Language Token) : Prop where
  nonempty : ∃ v, v ∈ L
  ends : ∀ c, K c.tokens.current →
    wp g c (fun _ c' => ∃ w ∈ L, c.tokens.rest = w ++ c'.tokens.rest) fun stop c' =>
      ∀ e, stop = .rejected e → e.StopsAt L c.tokens.rest c'.tokens.rest

/-- The step reads no token and rejects nothing. -/
def Quiet (g : Gen α) : Prop :=
  ∀ c, wp g c (fun _ c' => c'.tokens = c.tokens) fun stop _ => ∀ e, stop ≠ .rejected e

namespace Quiet

theorem pure (a : α) : Quiet (pure a) :=
  fun _ => rfl

theorem bind {g : Gen α} {f : α → Gen β} (hg : Quiet g) (hf : ∀ a, Quiet (f a)) : Quiet (g >>= f) := by
  intro c
  rw [wp_bind]
  refine wp_mono (hg c) ?_ fun _ _ hstop => hstop
  intro a c' htokens
  rw [← htokens]
  exact hf a c'

theorem nextAddress : Quiet nextAddress :=
  fun _ => rfl

theorem declare (name : String) (kind : SymbolKind) : Quiet (declare name kind) :=
  fun _ => rfl

theorem emit (op : Opcode) (l m : Int32) : Quiet (emit op l m) :=
  fun _ => (wp_emit op l m).2 ⟨fun _ => rfl, fun _ _ h => by cases h⟩

theorem openJump {op : Opcode} (hop : op.isJump) : Quiet (openJump op) :=
  fun _ => (wp_openJump hop).2 ⟨fun _ => rfl, fun _ _ h => by cases h⟩

theorem closeJump (address : Nat) : Quiet (closeJump address) :=
  fun _ => (wp_closeJump address).2 rfl

end Quiet

namespace Parses

variable {K : Token → Prop} {L M : Language Token}

/-! ### Composition -/

theorem mono {g : Gen α} (h : Parses K g L) (hLM : ∀ w ∈ L, w ∈ M) : Parses K g M := by
  obtain ⟨v, hv⟩ := h.nonempty
  refine ⟨⟨v, hLM v hv⟩, fun c hc => wp_mono (h.ends c hc) ?_ ?_⟩
  · rintro a c' ⟨w, hw, hrest⟩
    exact ⟨w, hLM w hw, hrest⟩
  · intro stop c' hstop e he
    obtain ⟨w, u, hrest, hu, hname⟩ := hstop e he
    exact ⟨w, u, hrest, hLM _ hu, hname⟩

/-- What holds at every token holds at some of them. -/
theorem restrict {g : Gen α} (h : Parses (fun _ => True) g L) : Parses K g L :=
  ⟨h.nonempty, fun c _ => h.ends c trivial⟩

/-- What completes the first part is followed by a sentence of the second one. -/
theorem bind [Nonempty α] {g : Gen α} {f : α → Gen β} (hg : Parses K g L)
    (hf : ∀ a, Parses (fun _ => True) (f a) M) : Parses K (g >>= f) (L * M) := by
  obtain ⟨u, hu⟩ := hg.nonempty
  obtain ⟨v, hv⟩ := (hf (Classical.arbitrary α)).nonempty
  refine ⟨⟨u ++ v, Language.append_mem_mul hu hv⟩, fun c hc => ?_⟩
  rw [wp_bind]
  refine wp_mono (hg.ends c hc) ?_ ?_
  · rintro a c₁ ⟨w₁, hw₁, h₁⟩
    refine wp_mono ((hf a).ends c₁ trivial) ?_ ?_
    · rintro b c₂ ⟨w₂, hw₂, h₂⟩
      exact ⟨w₁ ++ w₂, Language.append_mem_mul hw₁ hw₂, by rw [h₁, h₂, List.append_assoc]⟩
    · intro stop c₂ hstop e he
      obtain ⟨w₂, v₂, h₂, hv₂, hname⟩ := hstop e he
      refine ⟨w₁ ++ w₂, v₂, by rw [h₁, h₂, List.append_assoc], ?_, hname⟩
      rw [List.append_assoc]
      exact Language.append_mem_mul hw₁ hv₂
  · intro stop c₁ hstop e he
    obtain ⟨w₁, v₁, h₁, hv₁, hname⟩ := hstop e he
    refine ⟨w₁, v₁ ++ v, h₁, ?_, fun hn => ?_⟩
    · rw [← List.append_assoc]
      exact Language.append_mem_mul hv₁ hv
    · obtain ⟨x, s, u, hs, rfl⟩ := hname hn
      exact ⟨x, s, u ++ v, hs, rfl⟩

theorem pure (a : α) (hL : [] ∈ L) : Parses K (pure a) L :=
  ⟨⟨[], hL⟩, fun _ _ => ⟨[], hL, rfl⟩⟩

/-- After a step that reads nothing the current token is the same as before. -/
theorem quiet_bind [Nonempty α] {g : Gen α} {f : α → Gen β} (hg : Quiet g) (hf : ∀ a, Parses K (f a) L) :
    Parses K (g >>= f) L := by
  refine ⟨(hf (Classical.arbitrary α)).nonempty, fun c hc => ?_⟩
  rw [wp_bind]
  refine wp_mono (hg c) ?_ fun stop c' hstop e he => absurd he (hstop e)
  intro a c' htokens
  rw [← htokens] at hc ⊢
  exact (hf a).ends c' hc

theorem of_quiet [Nonempty α] {g : Gen α} (hg : Quiet g) (hL : [] ∈ L) : Parses K g L := by
  rw [← bind_pure g]
  exact quiet_bind hg fun a => pure a hL

theorem then_quiet [Nonempty α] {g : Gen α} {f : α → Gen β} [Nonempty β] (hg : Parses K g L) (hf : ∀ a, Quiet (f a)) :
    Parses K (g >>= f) L := by
  have h := hg.bind fun a => of_quiet (hf a) Language.nil_mem_one
  rwa [mul_one] at h

theorem peek_bind {f : Token → Gen β} (hf : ∀ t, Parses (· = t) (f t) L) : Parses K (peek >>= f) L :=
  ⟨(hf .nul).nonempty, fun c _ => (hf c.tokens.current).ends c rfl⟩

theorem peek_ite {t : Token} {g g' : Gen β} (hg : Parses (· = t) g L) (hg' : Parses (fun _ => True) g' L) :
    Parses K (peek >>= fun u => if u = t then g else g') L := by
  refine peek_bind fun u => ?_
  by_cases hu : u = t
  · subst hu
    simp only [↓reduceIte]
    exact hg
  · simp only [hu, ↓reduceIte]
    exact hg'.restrict

/-! ### Single tokens -/

theorem advance {t : Token} (ht : t ≠ .nul) : Parses (· = t) advance {[t]} :=
  ⟨⟨[t], rfl⟩, fun _ hc => ⟨[t], rfl, rest_of_current hc ht⟩⟩

/-- A syntax error comes where a sentence could begin. -/
theorem reject {e : CompileError} (he : e.concernsName = false) (hL : ∃ v, v ∈ L) :
    Parses K (reject e : Gen α) L := by
  obtain ⟨v, hv⟩ := hL
  refine ⟨⟨v, hv⟩, fun c _ e' h => ?_⟩
  obtain rfl : e = e' := Stop.rejected.inj h
  exact ⟨[], v, rfl, hv, fun hn => absurd (he.symm.trans hn) Bool.false_ne_true⟩

theorem expect {t : Token} (ht : t ≠ .nul) {e : CompileError} (he : e.concernsName = false) :
    Parses K (expect t e) {[t]} :=
  peek_ite (advance ht) (reject he ⟨[t], rfl⟩)

theorem peekName_bind {f : String → Gen β} {e : CompileError} (he : e.concernsName = false)
    (hf : ∀ x, Parses (· = .ident x) (f x) L) : Parses K (peekName e >>= f) L := by
  unfold peekName
  rw [bind_assoc]
  refine peek_bind fun t => ?_
  cases t with
  | ident x => exact hf x
  | _ => exact reject he (hf "").nonempty

theorem name_mem (x : String) : [.ident x] ∈ sentences varTokens :=
  ⟨x, rfl⟩

theorem advanceName (x : String) : Parses (· = .ident x) Gen.advance (sentences varTokens) := by
  refine (advance (by simp)).mono ?_
  rintro _ rfl
  exact name_mem x

theorem takeName {e : CompileError} (he : e.concernsName = false) : Parses K (takeName e) (sentences varTokens) :=
  peekName_bind he fun x => (advanceName x).then_quiet fun _ => .pure x

theorem takeNumber {e : CompileError} (he : e.concernsName = false) :
    Parses K (takeNumber e) (sentences fun v => [.number v]) := by
  refine peek_bind fun t => ?_
  cases t with
  | number v =>
    refine ((advance (by simp)).then_quiet fun _ => .pure v).mono ?_
    rintro _ rfl
    exact ⟨v, rfl⟩
  | _ => exact reject he ⟨_, 0, rfl⟩

/-! ### Names -/

/-- Where a sentence goes on with a name, any error about this name may be reported. -/
private theorem stopsAt_name {c : Context} {x : String} {v : List Token} (hc : c.tokens.current = .ident x)
    (hv : .ident x :: v ∈ L) (e : CompileError) : e.StopsAt L c.tokens.rest c.tokens.rest :=
  ⟨[], .ident x :: v, rfl, hv, fun _ => ⟨x, _, v, rest_of_current hc (by simp), rfl⟩⟩

theorem rejectName {x : String} {v : List Token} (hv : .ident x :: v ∈ L) (e : CompileError) :
    Parses (· = .ident x) (Gen.reject e : Gen α) L := by
  refine ⟨⟨_, hv⟩, fun c hc e' _ => ?_⟩
  exact stopsAt_name hc hv e'

theorem name_bind {x : String} {v : List Token} (hv : .ident x :: v ∈ L) {g : Gen α} {f : α → Gen β} (hg : Still g)
    (hf : ∀ a, Parses (· = .ident x) (f a) L) : Parses (· = .ident x) (g >>= f) L := by
  refine ⟨⟨_, hv⟩, fun c hc => ?_⟩
  have htokens := hg.tokens c
  rw [wp_bind]
  refine wp_mono (wp_self g c) ?_ ?_
  · intro a c' hok
    rw [hok] at htokens
    have htokens : c'.tokens = c.tokens := htokens
    rw [← htokens] at hc ⊢
    exact (hf a).ends c' hc
  · intro stop c' herror e _
    rw [herror] at htokens
    have htokens : c'.tokens = c.tokens := htokens
    rw [htokens]
    exact stopsAt_name hc hv e

/-! ### Procedure bodies -/

theorem inBody {body : Gen Unit} (h : Parses (fun _ => True) body L) (name : String) (id : Nat) :
    Parses K (inBody name id body) L := by
  refine ⟨h.nonempty, fun c _ => ?_⟩
  rw [wp_inBody]
  refine wp_mono (h.ends (c.enter name id) trivial) (fun _ _ hread => hread) ?_
  intro stop c' hstop
  cases stop with
  | rejected e => exact hstop
  | fault f =>
    intro e he
    cases he

/-! ### Expressions and conditions -/

theorem chain (op? : Token → Option Opcode) (n : Nat) {operand : Gen Unit} (hnul : op? .nul = none)
    (h : Parses (fun _ => True) operand L) (hnil : [] ∈ M)
    (hcons : ∀ t op, op? t = some op → ∀ w ∈ ({[t]} * (L * M) : Language Token), w ∈ M) :
    Parses K (chain op? operand n) M := by
  induction n generalizing K with
  | zero => exact pure () hnil
  | succ n ih =>
    refine peek_bind fun t => ?_
    cases hop : op? t with
    | none => exact pure () hnil
    | some op =>
      have ht : t ≠ .nul := by
        rintro rfl
        rw [hnul] at hop
        cases hop
      refine mono ?_ (hcons t op hop)
      exact (advance ht).bind fun _ => h.bind fun _ => quiet_bind (.emit op 0 0) fun _ => ih

theorem termOf {factor : Gen Unit} (h : Parses (fun _ => True) factor (sentences Factor.tokens)) (n : Nat) :
    Parses (fun _ => True) (termOf factor n) (sentences Term.tokens) := by
  have htail : Parses (fun _ => True) (Gen.chain mulOp? factor n) (sentences FactorTail.tokens) := by
    refine chain mulOp? n rfl h ⟨.nil, rfl⟩ ?_
    rintro t op hop _ ⟨_, rfl, _, ⟨_, ⟨f, rfl⟩, _, ⟨l, rfl⟩, rfl⟩, rfl⟩
    obtain ⟨o, rfl⟩ := exists_mulOp hop
    exact ⟨.cons o f l, rfl⟩
  refine (h.bind fun _ => htail).mono ?_
  rintro _ ⟨_, ⟨f, rfl⟩, _, ⟨l, rfl⟩, rfl⟩
  exact ⟨.mk f l, rfl⟩

theorem expressionOf {factor : Gen Unit} (h : Parses (fun _ => True) factor (sentences Factor.tokens)) (n : Nat) :
    Parses (fun _ => True) (expressionOf factor n) (sentences Expression.tokens) := by
  have hterm := termOf h n
  have htail : Parses (fun _ => True) (Gen.chain addOp? (Gen.termOf factor n) n) (sentences TermTail.tokens) := by
    refine chain addOp? n rfl hterm ⟨.nil, rfl⟩ ?_
    rintro t op hop _ ⟨_, rfl, _, ⟨_, ⟨f, rfl⟩, _, ⟨l, rfl⟩, rfl⟩, rfl⟩
    obtain ⟨o, rfl⟩ := exists_addOp hop
    exact ⟨.cons o f l, rfl⟩
  have hunsigned := hterm.bind fun _ => htail
  refine peek_bind fun t => ?_
  cases t with
  | plus =>
    refine ((advance (by simp)).bind fun _ => hunsigned).mono ?_
    rintro _ ⟨_, rfl, _, ⟨_, ⟨f, rfl⟩, _, ⟨l, rfl⟩, rfl⟩, rfl⟩
    exact ⟨.mk (some .plus) f l, rfl⟩
  | minus =>
    refine ((advance (by simp)).bind fun _ => hterm.bind fun _ => quiet_bind (.emit .neg 0 0) fun _ => htail).mono ?_
    rintro _ ⟨_, rfl, _, ⟨_, ⟨f, rfl⟩, _, ⟨l, rfl⟩, rfl⟩, rfl⟩
    exact ⟨.mk (some .minus) f l, rfl⟩
  | _ =>
    refine hunsigned.restrict.mono ?_
    rintro _ ⟨_, ⟨f, rfl⟩, _, ⟨l, rfl⟩, rfl⟩
    exact ⟨.mk none f l, rfl⟩

theorem factor (n : Nat) : Parses (fun _ => True) (factor n) (sentences Factor.tokens) := by
  induction n with
  | zero => exact reject rfl ⟨_, .number 0, rfl⟩
  | succ n ih =>
    refine peek_bind fun t => ?_
    cases t with
    | ident x =>
      have hname : [.ident x] ∈ sentences Factor.tokens := ⟨.name x, rfl⟩
      refine name_bind hname (.lookUp x) fun b => name_bind hname (.load b _) fun _ => (advance (by simp)).mono ?_
      rintro _ rfl
      exact hname
    | number value =>
      refine quiet_bind (.emit .lit 0 value) fun _ => (advance (by simp)).mono ?_
      rintro _ rfl
      exact ⟨.number value, rfl⟩
    | lparen =>
      refine ((advance (by simp)).bind fun _ => (expressionOf ih n).bind fun _ => expect (by simp) rfl).mono ?_
      rintro _ ⟨_, rfl, _, ⟨_, ⟨e, rfl⟩, _, rfl, rfl⟩, rfl⟩
      exact ⟨.paren e, rfl⟩
    | _ => exact reject rfl ⟨_, .number 0, rfl⟩

theorem expression (n : Nat) : Parses (fun _ => True) (expression n) (sentences Expression.tokens) :=
  expressionOf (factor n) n

theorem condition (n : Nat) : Parses (fun _ => True) (condition n) (sentences Condition.tokens) := by
  refine peek_ite ?_ ?_
  · refine ((advance (by simp)).bind fun _ => (expression n).then_quiet fun _ => .emit .odd 0 0).mono ?_
    rintro _ ⟨_, rfl, _, ⟨e, rfl⟩, rfl⟩
    exact ⟨.odd e, rfl⟩
  · let M : Language Token := (sentences fun o : RelOp => [o.token]) * sentences Expression.tokens
    obtain ⟨v, hv⟩ := (expression n).nonempty
    refine ((expression n).bind (M := M) fun _ => peek_bind fun u => ?_).mono ?_
    · cases hop : relOp? u with
      | none => exact reject rfl ⟨_, Language.append_mem_mul ⟨.eql, rfl⟩ hv⟩
      | some op =>
        obtain ⟨o, rfl⟩ := exists_relOp hop
        have ho : o.token ≠ .nul := by cases o <;> simp [RelOp.token]
        refine ((advance ho).bind fun _ => (expression n).then_quiet fun _ => .emit op 0 0).mono ?_
        rintro _ ⟨_, rfl, _, he, rfl⟩
        exact Language.append_mem_mul ⟨o, rfl⟩ he
    · rintro _ ⟨_, ⟨left, rfl⟩, _, ⟨_, ⟨o, rfl⟩, _, ⟨right, rfl⟩, rfl⟩, rfl⟩
      exact ⟨.compare left o right, rfl⟩

/-! ### Statements -/

private theorem assignment (n : Nat) (x : String) :
    Parses (· = .ident x) (assignment n x) (sentences Statement.tokens) := by
  have hname : .ident x :: [.becomes, .number 0] ∈ sentences Statement.tokens :=
    ⟨.assign x (.mk none (.mk (.number 0) .nil) .nil), rfl⟩
  refine name_bind hname (.lookUp x) fun b => ?_
  cases b.kind with
  | var address =>
    refine ((advance (by simp)).bind fun _ => (expect (by simp) rfl).bind fun _ =>
      (expression n).then_quiet fun _ => .emit _ _ _).mono ?_
    rintro _ ⟨_, rfl, _, ⟨_, rfl, _, ⟨e, rfl⟩, rfl⟩, rfl⟩
    exact ⟨.assign x e, rfl⟩
  | _ => exact rejectName hname _

private theorem call : Parses (· = .callSym) call (sentences Statement.tokens) := by
  refine ((advance (by simp)).bind (M := sentences varTokens) fun _ => peekName_bind rfl fun x =>
    name_bind (name_mem x) (.lookUp x) fun b => ?_).mono ?_
  · cases b.kind with
    | proc address => exact quiet_bind (.emit _ _ _) fun _ => advanceName x
    | _ => exact rejectName (name_mem x) _
  · rintro _ ⟨_, rfl, _, ⟨x, rfl⟩, rfl⟩
    exact ⟨.call x, rfl⟩

private theorem read : Parses (· = .readSym) read (sentences Statement.tokens) := by
  refine ((advance (by simp)).bind (M := sentences varTokens) fun _ => peekName_bind rfl fun x =>
    name_bind (name_mem x) (.lookUp x) fun b => ?_).mono ?_
  · cases b.kind with
    | var address =>
      exact (advanceName x).then_quiet fun _ => (Quiet.emit _ _ _).bind fun _ => .emit _ _ _
    | _ => exact rejectName (name_mem x) _
  · rintro _ ⟨_, rfl, _, ⟨x, rfl⟩, rfl⟩
    exact ⟨.read x, rfl⟩

private theorem write : Parses (· = .writeSym) write (sentences Statement.tokens) := by
  refine ((advance (by simp)).bind fun _ => peekName_bind rfl fun x => name_bind (name_mem x) (.lookUp x) fun b =>
    name_bind (name_mem x) (.load b _) fun _ => quiet_bind (.emit _ _ _) fun _ => advanceName x).mono ?_
  rintro _ ⟨_, rfl, _, ⟨x, rfl⟩, rfl⟩
  exact ⟨.write x, rfl⟩

section

variable {statement : Gen Unit} (h : Parses (fun _ => True) statement (sentences Statement.tokens)) (n : Nat)

include h

private theorem statementTail : Parses K (statementTail statement n) (sentences StatementTail.tokens) := by
  induction n generalizing K with
  | zero => exact pure () ⟨.nil, rfl⟩
  | succ n ih =>
    refine peek_ite ?_ (pure () ⟨.nil, rfl⟩)
    refine ((advance (by simp)).bind fun _ => h.bind fun _ => ih).mono ?_
    rintro _ ⟨_, rfl, _, ⟨_, ⟨s, rfl⟩, _, ⟨l, rfl⟩, rfl⟩, rfl⟩
    exact ⟨.cons s l, rfl⟩

private theorem compound : Parses (· = .beginSym) (compound statement n) (sentences Statement.tokens) := by
  refine ((advance (by simp)).bind fun _ => h.bind fun _ => (statementTail h n).bind fun _ =>
    expect (by simp) rfl).mono ?_
  rintro _ ⟨_, rfl, _, ⟨_, ⟨s, rfl⟩, _, ⟨_, ⟨l, rfl⟩, _, rfl, rfl⟩, rfl⟩, rfl⟩
  exact ⟨.compound s l, rfl⟩

private theorem ifStatement : Parses (· = .ifSym) (ifStatement statement n) (sentences Statement.tokens) := by
  let M : Language Token := 1 + {[.elseSym]} * sentences Statement.tokens
  refine ((advance (by simp)).bind fun _ => (condition n).bind fun _ => (expect (by simp) rfl).bind fun _ =>
    quiet_bind (.openJump rfl) fun toElse => h.bind (M := M) fun _ =>
    peek_ite ?_ (of_quiet (.closeJump toElse) (.inl rfl))).mono ?_
  · refine (quiet_bind (.openJump rfl) fun toEnd => quiet_bind (.closeJump toElse) fun _ =>
      (advance (by simp)).bind fun _ => h.then_quiet fun _ => .closeJump toEnd).mono ?_
    exact fun _ hw => .inr hw
  · rintro _ ⟨_, rfl, _, ⟨_, ⟨k, rfl⟩, _, ⟨_, rfl, _, ⟨_, ⟨s, rfl⟩, _, rfl | ⟨_, rfl, _, ⟨u, rfl⟩, rfl⟩, rfl⟩, rfl⟩,
      rfl⟩, rfl⟩
    · exact ⟨.ifThen k s, by simp [Statement.tokens]⟩
    · exact ⟨.ifElse k s u, rfl⟩

private theorem whileStatement : Parses (· = .whileSym) (whileStatement statement n) (sentences Statement.tokens) := by
  refine (quiet_bind .nextAddress fun top => (advance (by simp)).bind fun _ => (condition n).bind fun _ =>
    quiet_bind (.openJump rfl) fun toEnd => (expect (by simp) rfl).bind fun _ => h.then_quiet fun _ =>
    (Quiet.emit _ _ _).bind fun _ => .closeJump toEnd).mono ?_
  rintro _ ⟨_, rfl, _, ⟨_, ⟨k, rfl⟩, _, ⟨_, rfl, _, ⟨s, rfl⟩, rfl⟩, rfl⟩, rfl⟩
  exact ⟨.whileDo k s, rfl⟩

end

theorem statement (n : Nat) : Parses (fun _ => True) (statement n) (sentences Statement.tokens) := by
  induction n with
  | zero => exact pure () ⟨.empty, rfl⟩
  | succ n ih =>
    refine peek_bind fun t => ?_
    cases t with
    | ident x => exact assignment n x
    | callSym => exact call
    | beginSym => exact compound ih n
    | ifSym => exact ifStatement ih n
    | whileSym => exact whileStatement ih n
    | writeSym => exact write
    | readSym => exact read
    | _ => exact pure () ⟨.empty, rfl⟩

/-! ### Declarations and blocks -/

section

variable {β : Type} {item : β → List Token} {g : Gen Unit}
  (h : ∀ t, t ≠ .nul → Parses (· = t) g ({[t]} * sentences item)) (n : Nat)

include h

private theorem commaTail :
    Parses K (commaTail g n) (sentences fun l : List β => l.flatMap fun a => .comma :: item a) := by
  induction n generalizing K with
  | zero => exact pure () ⟨[], rfl⟩
  | succ n ih =>
    refine peek_ite ?_ (pure () ⟨[], rfl⟩)
    refine ((h .comma (by simp)).bind fun _ => ih).mono ?_
    rintro _ ⟨_, ⟨_, rfl, _, ⟨a, rfl⟩, rfl⟩, _, ⟨l, rfl⟩, rfl⟩
    exact ⟨a :: l, rfl⟩

/-- A declaration that starts with `keyword`. -/
private theorem declaration {keyword : Token} (hkeyword : keyword ≠ .nul) {e : CompileError}
    (he : e.concernsName = false) :
    Parses K (do
      if (← peek) = keyword then
        g
        Gen.commaTail g n
        Gen.expect .semicolon e) (sentences (listTokens keyword item)) := by
  refine peek_ite ?_ (pure () ⟨[], rfl⟩)
  refine ((h keyword hkeyword).bind fun _ => (commaTail h n).bind fun _ => expect (by simp) he).mono ?_
  rintro _ ⟨_, ⟨_, rfl, _, ⟨a, rfl⟩, rfl⟩, _, ⟨_, ⟨l, rfl⟩, _, rfl, rfl⟩, rfl⟩
  exact ⟨a :: l, by simp [listTokens]⟩

end

private theorem constItem (t : Token) (ht : t ≠ .nul) : Parses (· = t) constItem ({[t]} * sentences constTokens) := by
  refine (advance ht).bind fun _ => ((takeName rfl).bind fun x => (expect (by simp) rfl).bind fun _ =>
    (takeNumber rfl).then_quiet fun v => (Quiet.declare x (.const v)).bind fun _ => .pure ()).mono ?_
  rintro _ ⟨_, ⟨x, rfl⟩, _, ⟨_, rfl, _, ⟨v, rfl⟩, rfl⟩, rfl⟩
  exact ⟨(x, v), rfl⟩

private theorem varItem (t : Token) (ht : t ≠ .nul) : Parses (· = t) varItem ({[t]} * sentences varTokens) := by
  refine (advance ht).bind fun _ => quiet_bind .nextAddress fun a => (takeName rfl).then_quiet fun x => ?_
  exact (Quiet.declare x (.var (Int32.ofNat a))).bind fun _ => .emit _ _ _

private theorem procedure {block : Gen Unit} (h : Parses (fun _ => True) block (sentences Block.tokens)) :
    Parses (· = .procSym) (procedure block) ({[.procSym]} * (sentences varTokens * ({[.semicolon]} *
      (sentences Block.tokens * {[.semicolon]})))) := by
  refine quiet_bind .nextAddress fun a => (advance (by simp)).bind fun _ => (takeName rfl).bind fun x => ?_
  refine quiet_bind (.declare x (.proc (Int32.ofNat a))) fun id => (expect (by simp) rfl).bind fun _ => ?_
  exact (h.inBody x id).bind fun _ => expect (by simp) rfl

private theorem procedures {block : Gen Unit} (h : Parses (fun _ => True) block (sentences Block.tokens)) (n : Nat) :
    Parses K (procedures block n) (sentences Procedures.tokens) := by
  induction n generalizing K with
  | zero => exact pure () ⟨.nil, rfl⟩
  | succ n ih =>
    refine peek_ite ?_ (pure () ⟨.nil, rfl⟩)
    refine ((procedure h).bind fun _ => ih).mono ?_
    rintro _ ⟨_, ⟨_, rfl, _, ⟨_, ⟨x, rfl⟩, _, ⟨_, rfl, _, ⟨_, ⟨b, rfl⟩, _, rfl, rfl⟩, rfl⟩, rfl⟩, rfl⟩, _, ⟨l, rfl⟩, rfl⟩
    exact ⟨.cons x b l, by simp [Procedures.tokens, varTokens]⟩

private theorem blockOf {procs : Gen Unit} (h : Parses (fun _ => True) procs (sentences Procedures.tokens)) (n : Nat) :
    Parses (fun _ => True) (blockOf procs n) (sentences Block.tokens) := by
  refine (quiet_bind (.openJump rfl) fun skip => (declaration constItem n (by simp) rfl).bind fun _ =>
    (declaration varItem n (by simp) rfl).bind fun _ => h.bind fun _ => quiet_bind (.closeJump skip) fun _ =>
    quiet_bind (.emit _ _ _) fun _ => (statement n).then_quiet fun _ => .emit _ _ _).mono ?_
  rintro _ ⟨_, ⟨consts, rfl⟩, _, ⟨_, ⟨vars, rfl⟩, _, ⟨_, ⟨procs, rfl⟩, _, ⟨body, rfl⟩, rfl⟩, rfl⟩, rfl⟩
  exact ⟨.mk consts vars procs body, rfl⟩

theorem block (n : Nat) : Parses (fun _ => True) (block n) (sentences Block.tokens) := by
  induction n with
  | zero => exact blockOf (pure () ⟨.nil, rfl⟩) 0
  | succ n ih => exact blockOf (procedures ih (n + 1)) (n + 1)

theorem program (n : Nat) : Parses (fun _ => True) (program n) (sentences Block.tokens * {[.period]}) :=
  (block n).bind fun _ => (expect (by simp) rfl).then_quiet fun _ => .emit _ _ _

end Parses

end Gen

/-! ### Rejected token sequences -/

variable {tokens : List Token} {capacity : Nat}

/-- What is left when a compilation rejects its tokens. -/
private theorem stopsAt_of_rejected {e : CompileError} (h : (compile tokens capacity).outcome = .error (.rejected e)) :
    e.StopsAt (sentences Block.tokens * {[.period]}) tokens (tokens.drop (compile tokens capacity).position) := by
  have hwp : Gen.wp (Gen.wholeProgram tokens.length) (.start tokens capacity) (fun _ _ => True) fun stop c =>
      ∀ e, stop = .rejected e → e.StopsAt (sentences Block.tokens * {[.period]}) tokens c.tokens.rest := by
    rw [Gen.wp_wholeProgram]
    refine Gen.wp_mono ((Gen.Parses.program tokens.length).ends (.start tokens capacity) trivial) ?_ ?_
    · rintro _ c -
      refine ⟨fun _ => trivial, fun _ e he => ?_⟩
      cases he
    · exact fun _ _ hstop => hstop
  have hrest : (compile tokens capacity).final.tokens.rest = tokens.drop (compile tokens capacity).position :=
    congrArg TokenStream.rest (compile_on tokens capacity).eq_skip
  rw [← hrest]
  exact (Gen.outcome_of_wp hwp).2 _ h e rfl

/-- What a compilation has read when it rejects its tokens can be completed to a sentence.  If the error is about a
name, the sentence goes on with this name. -/
theorem exists_sentence_of_rejected {e : CompileError} (h : (compile tokens capacity).outcome = .error (.rejected e)) :
    ∃ (b : Block) (v : List Token), tokens.take (compile tokens capacity).position ++ v = b.tokens ++ [.period] ∧
      (e.concernsName → ∃ x u, tokens[(compile tokens capacity).position]? = some (.ident x) ∧ v = .ident x :: u) := by
  obtain ⟨w, v, hread, ⟨_, ⟨b, rfl⟩, _, rfl, hsentence⟩, hname⟩ := stopsAt_of_rejected h
  have hw : w = tokens.take (compile tokens capacity).position := by
    rw [← List.append_cancel_right_eq, ← hread, List.take_append_drop]
  rw [← hw]
  refine ⟨b, v, hsentence.symm, fun he => ?_⟩
  obtain ⟨x, s, u, hs, hu⟩ := hname he
  refine ⟨x, u, ?_, hu⟩
  rw [← List.head?_drop, hs]
  rfl

/-- A syntax error is found only where the tokens do not begin with a sentence. -/
theorem not_sentence_of_rejected {e : CompileError} (h : (compile tokens capacity).outcome = .error (.rejected e))
    (he : e.concernsName = false) (b : Block) (rest : List Token) : tokens ≠ b.tokens ++ .period :: rest := by
  intro htokens
  have htree : b.rebind.IsTreeOf tokens := ⟨elseBound_rebindBlock b, rest, by rw [tokens_rebindBlock, htokens]⟩
  have hrefused := (Gen.outcome_of_wp (Gen.wholeProgram_ends htree capacity)).2 _ h
  rw [Gen.refused_rejected, he] at hrefused
  exact Bool.false_ne_true hrefused.1

/-- The tokens that a compilation has read when it rejects them are the start of a sentence, of a block with a period
after it.  At a syntax error no sentence goes on with the current token.  An error about a name is reported at this
name, and there are sentences that go on with it. -/
theorem error_at_earliest_token {tokens : List Token} {capacity : Nat} {e : CompileError}
    (h : (compile tokens capacity).outcome = .error (.rejected e)) :
    (∃ b : Block, tokens.take (compile tokens capacity).position <+: b.tokens ++ [.period]) ∧
    (e.concernsName = false → ∀ tokens' : List Token,
      (∀ i ≤ (compile tokens capacity).position, tokens'.getD i .nul = tokens.getD i .nul) →
      ∀ (b : Block) (rest : List Token), tokens' ≠ b.tokens ++ .period :: rest) ∧
    (e.concernsName = true → ∃ x, tokens[(compile tokens capacity).position]? = some (.ident x) ∧
      ∃ b : Block, tokens.take ((compile tokens capacity).position + 1) <+: b.tokens ++ [.period]) := by
  obtain ⟨b, v, hsentence, hname⟩ := exists_sentence_of_rejected h
  refine ⟨⟨b, v, hsentence⟩, ?_, ?_⟩
  · intro he tokens' hagree b' rest
    have herror : (compile tokens' capacity).outcome = .error (.rejected e) := by
      rw [← h]
      exact outcome_eq_of_agree hagree
    exact not_sentence_of_rejected herror he b' rest
  · intro he
    obtain ⟨x, u, hx, rfl⟩ := hname he
    refine ⟨x, hx, b, u, ?_⟩
    rw [List.take_add_one, hx, ← hsentence]
    simp

/-- A variable of the program that a procedure uses, and a condition without an expression. -/
theorem error_at_earliest_token_procedure :
    ((compile [.varSym, .ident "x", .semicolon, .procSym, .ident "p", .semicolon, .ident "x", .becomes, .number 1,
        .semicolon, .period] 20).outcome = .error (.rejected .notInCurrentScope) ∧
      (compile [.varSym, .ident "x", .semicolon, .procSym, .ident "p", .semicolon, .ident "x", .becomes, .number 1,
        .semicolon, .period] 20).position = 6 ∧
      ∃ b : Block, [.varSym, .ident "x", .semicolon, .procSym, .ident "p", .semicolon, .ident "x"] <+:
        b.tokens ++ [.period]) ∧
    (compile [.whileSym, .oddSym, .doSym] 20).outcome = .error (.rejected .illegalFactor) ∧
    (compile [.whileSym, .oddSym, .doSym] 20).position = 2 ∧
    ∀ (b : Block) (rest rest' : List Token), [.whileSym, .oddSym, .doSym] ++ rest ≠ b.tokens ++ .period :: rest' := by
  refine ⟨?_, ?_⟩
  · let tokens : List Token := [.varSym, .ident "x", .semicolon, .procSym, .ident "p", .semicolon, .ident "x", .becomes,
      .number 1, .semicolon, .period]
    have h : (compile tokens 20).outcome = .error (.rejected .notInCurrentScope) := by decide +kernel
    have hposition : (compile tokens 20).position = 6 := by decide +kernel
    obtain ⟨x, -, hsentence⟩ := (error_at_earliest_token h).2.2 rfl
    rw [hposition] at hsentence
    exact ⟨h, hposition, hsentence⟩
  · have h : (compile [.whileSym, .oddSym, .doSym] 20).outcome = .error (.rejected .illegalFactor) := rfl
    have hposition : (compile [.whileSym, .oddSym, .doSym] 20).position = 2 := by decide +kernel
    refine ⟨h, hposition, fun b rest rest' => ?_⟩
    have hnone := (error_at_earliest_token h).2.1 rfl ([.whileSym, .oddSym, .doSym] ++ rest)
    rw [hposition] at hnone
    refine hnone (fun i hi => ?_) b rest'
    rw [List.getD_eq_getElem?_getD, List.getElem?_append_left (Nat.lt_succ_of_le hi), ← List.getD_eq_getElem?_getD]

end PL0
