import PL0.Proofs.Generator.Productions
import PL0.Proofs.Generator.Scope

/-!
# How a compilation reads its tokens

The tokens of a compilation are always what is left of its token sequence at the current position
(`TokenStream.On`), and no step goes back (`Gen.onward_rules`).  The steps that deal with names and code only neither
read tokens nor look at them (`Gen.Still`).

A procedure has a semicolon in front of its body, so the level is never greater than the number of tokens that were
read (`compile_shallow`).
-/

namespace PL0

/-! ### Positions in a token sequence -/

namespace TokenStream

/-- The token sequence from a position on. -/
def skip (tokens : List Token) (position : Nat) : TokenStream :=
  ⟨tokens.drop position, position⟩

/-- The stream is what is left of `tokens` at its position. -/
structure On (stream : TokenStream) (tokens : List Token) : Prop where
  position_le : stream.position ≤ tokens.length
  eq_skip : stream = skip tokens stream.position

theorem current_skip (tokens : List Token) (position : Nat) :
    (skip tokens position).current = tokens.getD position .nul := by
  simp [skip, current]

theorem current_skip_of_le {tokens : List Token} {position : Nat} (h : tokens.length ≤ position) :
    (skip tokens position).current = .nul := by
  rw [current_skip, List.getD_eq_getElem?_getD, List.getElem?_eq_none h]
  rfl

theorem lt_length_of_current {tokens : List Token} {position : Nat} (h : (skip tokens position).current ≠ .nul) :
    position < tokens.length := by
  rcases Nat.lt_or_ge position tokens.length with hlt | hge
  · exact hlt
  · exact absurd (current_skip_of_le hge) h

theorem advance_skip {tokens : List Token} {position : Nat} (h : position < tokens.length) :
    (skip tokens position).advance = skip tokens (position + 1) := by
  unfold skip
  rw [List.drop_eq_getElem_cons h]
  rfl

theorem position_le_advance (stream : TokenStream) : stream.position ≤ stream.advance.position := by
  obtain ⟨_ | ⟨t, rest⟩, n⟩ := stream
  · exact Nat.le_refl n
  · exact Nat.le_add_right n 1

theorem position_lt_advance {stream : TokenStream} (h : stream.current ≠ .nul) :
    stream.position < stream.advance.position := by
  obtain ⟨_ | ⟨t, rest⟩, n⟩ := stream
  · exact absurd rfl h
  · exact Nat.lt_succ_self n

namespace On

variable {stream : TokenStream} {tokens : List Token}

theorem start (tokens : List Token) : (ofList tokens).On tokens :=
  ⟨Nat.zero_le _, rfl⟩

theorem current_eq (h : stream.On tokens) : stream.current = tokens.getD stream.position .nul := by
  have hcurrent := current_skip tokens stream.position
  rwa [← h.eq_skip] at hcurrent

theorem advance (h : stream.On tokens) : stream.advance.On tokens := by
  rcases Nat.lt_or_ge stream.position tokens.length with hlt | hge
  · rw [h.eq_skip, advance_skip hlt]
    exact ⟨hlt, rfl⟩
  · have hrest : stream.rest = [] := by
      rw [h.eq_skip]
      exact List.drop_eq_nil_of_le hge
    obtain ⟨rest, n⟩ := stream
    subst hrest
    exact h

end On

end TokenStream

/-- The state with other tokens. -/
def Context.withTokens (c : Context) (stream : TokenStream) : Context :=
  { c with tokens := stream }

/-- The state at the same position of another token sequence. -/
def Context.onto (c : Context) (tokens : List Token) : Context :=
  c.withTokens (.skip tokens c.tokens.position)

namespace Gen

variable {α β : Type}

/-- The same result with the state changed. -/
def onState (f : Context → Context) : EStateM.Result Stop Context α → EStateM.Result Stop Context α
  | .ok a c => .ok a (f c)
  | .error stop c => .error stop (f c)

/-- The step goes on in the token sequence from where it starts. -/
structure Onward (tokens : List Token) (g : Gen α) : Prop where
  on : ∀ c, c.tokens.On tokens → (lastState (g c)).tokens.On tokens
  le : ∀ c, c.tokens.position ≤ (lastState (g c)).tokens.position

/-- The step neither reads tokens nor looks at them. -/
structure Still (g : Gen α) : Prop where
  tokens : ∀ c, (lastState (g c)).tokens = c.tokens
  same : ∀ c stream, g (c.withTokens stream) = onState (·.withTokens stream) (g c)

/-! ### Steps that read no token -/

namespace Still

theorem pure (a : α) : Still (pure a) :=
  ⟨fun _ => rfl, fun _ _ => rfl⟩

theorem reject (e : CompileError) : Still (reject e : Gen α) :=
  ⟨fun _ => rfl, fun _ _ => rfl⟩

theorem nextAddress : Still nextAddress :=
  ⟨fun _ => rfl, fun _ _ => rfl⟩

theorem declare (name : String) (kind : SymbolKind) : Still (declare name kind) :=
  ⟨fun _ => rfl, fun _ _ => rfl⟩

theorem closeJump (address : Nat) : Still (closeJump address) := by
  constructor
  · intro c
    rw [run_closeJump]
    rfl
  · intro c stream
    rw [run_closeJump, run_closeJump]
    rfl

/-- A step that emits one instruction. -/
private theorem of_emission {g : Gen α} (a : Context → α) (next : Context → Context)
    (hg : ∀ c, (c.buffer.isFull = false → g c = .ok (a c) (next c)) ∧
      (c.buffer.isFull = true → g c = .error (.fault (.full c.buffer.capacity)) c.overflowed))
    (htokens : ∀ c, (next c).tokens = c.tokens) (ha : ∀ c stream, a (c.withTokens stream) = a c)
    (hnext : ∀ c stream, next (c.withTokens stream) = (next c).withTokens stream) : Still g := by
  constructor
  · intro c
    cases hc : c.buffer.isFull with
    | true =>
      rw [(hg c).2 hc]
      rfl
    | false =>
      rw [(hg c).1 hc]
      exact htokens c
  · intro c stream
    cases hc : c.buffer.isFull with
    | true =>
      rw [(hg c).2 hc, (hg (c.withTokens stream)).2 hc]
      rfl
    | false =>
      rw [(hg c).1 hc, (hg (c.withTokens stream)).1 hc, ha, hnext]
      rfl

theorem emit (op : Opcode) (l m : Int32) : Still (emit op l m) :=
  of_emission (fun _ => ()) (·.emitted ⟨op, 0, l, m⟩) (run_emit op l m) (fun _ => rfl) (fun _ _ => rfl) fun _ _ => rfl

theorem openJump {op : Opcode} (hop : op.isJump) : Still (openJump op) :=
  of_emission (·.buffer.size) (·.jumpOpened op) (run_openJump hop) (fun _ => rfl) (fun _ _ => rfl) fun _ _ => rfl

theorem lookUp (x : String) : Still (lookUp x) := by
  constructor
  · intro c
    cases hown : c.own x with
    | some s =>
      rw [(run_lookUp x c).1 s hown]
      rfl
    | none =>
      rw [(run_lookUp x c).2 hown]
      rfl
  · intro c stream
    cases hown : c.own x with
    | some s =>
      rw [(run_lookUp x c).1 s hown, (run_lookUp x (c.withTokens stream)).1 s hown]
      rfl
    | none =>
      rw [(run_lookUp x c).2 hown, (run_lookUp x (c.withTokens stream)).2 hown]
      rfl

theorem load (binding : Binding) (e : CompileError) : Still (load binding e) := by
  unfold Gen.load
  cases binding.kind with
  | const value => exact .emit _ _ _
  | var address => exact .emit _ _ _
  | proc address => exact .reject e

theorem finish : Still finish := by
  constructor
  · intro c
    rw [run_finish]
    cases c.buffer.toProgram <;> rfl
  · intro c stream
    have hsame : (c.withTokens stream).buffer.toProgram = c.buffer.toProgram := rfl
    rw [run_finish, run_finish, hsame]
    cases c.buffer.toProgram <;> rfl

theorem onward {g : Gen α} (h : Still g) (tokens : List Token) : Onward tokens g :=
  ⟨fun c hc => by rwa [h.tokens c], fun c => Nat.le_of_eq (by rw [h.tokens c])⟩

end Still

/-! ### Steps that read on -/

namespace Onward

variable {tokens : List Token}

theorem bind {g : Gen α} {f : α → Gen β} (hg : Onward tokens g) (hf : ∀ a, Onward tokens (f a)) :
    Onward tokens (g >>= f) := by
  constructor
  · intro c hc
    have h := hg.on c hc
    rw [run_bind]
    cases hd : g c with
    | ok a d =>
      rw [hd] at h
      exact (hf a).on d h
    | error stop d =>
      rw [hd] at h
      exact h
  · intro c
    have h := hg.le c
    rw [run_bind]
    cases hd : g c with
    | ok a d =>
      rw [hd] at h
      exact Nat.le_trans h ((hf a).le d)
    | error stop d =>
      rw [hd] at h
      exact h

theorem peek : Onward tokens peek :=
  ⟨fun _ hc => hc, fun _ => Nat.le_refl _⟩

theorem advance : Onward tokens advance :=
  ⟨fun _ hc => hc.advance, fun c => c.tokens.position_le_advance⟩

theorem expect (t : Token) (e : CompileError) : Onward tokens (expect t e) := by
  refine peek.bind fun u => ?_
  split
  · exact advance
  · exact (Still.reject e).onward tokens

theorem inBody {body : Gen Unit} (h : Onward tokens body) (name : String) (id : Nat) :
    Onward tokens (inBody name id body) := by
  constructor
  · intro c hc
    rw [run_inBody, tokens_leaving]
    exact h.on (c.enter name id) hc
  · intro c
    rw [run_inBody, tokens_leaving]
    exact h.le (c.enter name id)

end Onward

theorem onward_rules (tokens : List Token) : Rules (fun _ _ g _ => Onward tokens g) fun _ => True where
  pure _ a := (Still.pure a).onward tokens
  bind := Onward.bind
  reject _ _ e := (Still.reject e).onward tokens
  peek _ := .peek
  advance _ := .advance
  nextAddress _ := Still.nextAddress.onward tokens
  declare _ name kind := (Still.declare name kind).onward tokens
  lookUp x hf := ((Still.lookUp x).onward tokens).bind fun b => hf b trivial
  emit _ op m := (Still.emit op 0 m).onward tokens
  emitFor _ op m _ := (Still.emit op _ m).onward tokens
  openJump _ hop := (Still.openJump hop).onward tokens
  closeJump _ := (Still.closeJump _).onward tokens
  body name address e hblock hnext :=
    ((Still.declare name (.proc address)).onward tokens).bind fun id => (Onward.expect _ e).bind fun _ =>
      ((hblock []).inBody name id).bind fun _ => hnext

end Gen

/-! ### Levels -/

namespace Context

/-- Every procedure body around the current position has taken a token, and so had those that were entered before. -/
structure Shallow (c : Context) : Prop where
  level : c.level ≤ c.tokens.position
  entered : ∀ name level, .entered name level ∈ c.log → level ≤ c.tokens.position

/-- The state `c'` is further on, and it is shallow if `c` is. -/
structure KeepsShallow (c c' : Context) : Prop where
  le : c.tokens.position ≤ c'.tokens.position
  shallow : c.Shallow → c'.Shallow

namespace KeepsShallow

variable {c c' c'' : Context}

theorem refl (c : Context) : c.KeepsShallow c :=
  ⟨Nat.le_refl _, id⟩

theorem trans (h : c.KeepsShallow c') (h' : c'.KeepsShallow c'') : c.KeepsShallow c'' :=
  ⟨Nat.le_trans h.le h'.le, fun hc => h'.shallow (h.shallow hc)⟩

/-- An action that does not change the level. -/
theorem of_level (hlevel : c'.level = c.level) (hle : c.tokens.position ≤ c'.tokens.position)
    (hlog : ∀ name level, .entered name level ∈ c'.log → .entered name level ∈ c.log) : c.KeepsShallow c' := by
  refine ⟨hle, fun hc => ⟨?_, fun name level hmem => ?_⟩⟩
  · rw [hlevel]
    exact Nat.le_trans hc.level hle
  · exact Nat.le_trans (hc.entered name level (hlog name level hmem)) hle

theorem advanced (c : Context) : c.KeepsShallow c.advanced :=
  of_level rfl c.tokens.position_le_advance fun _ _ h => h

theorem declared (c : Context) (name : String) (kind : SymbolKind) : c.KeepsShallow (c.declared name kind) :=
  of_level rfl (Nat.le_refl _) fun _ _ h => by simpa [Context.declared, record] using h

theorem emitted (c : Context) (ins : Instruction) : c.KeepsShallow (c.emitted ins) :=
  of_level rfl (Nat.le_refl _) fun _ _ h => by simpa [Context.emitted, record] using h

theorem jumpOpened (c : Context) (op : Opcode) : c.KeepsShallow (c.jumpOpened op) :=
  of_level rfl (Nat.le_refl _) fun _ _ h => by simpa [Context.jumpOpened, record] using h

theorem overflowed (c : Context) : c.KeepsShallow c.overflowed :=
  of_level rfl (Nat.le_refl _) fun _ _ h => by simpa [Context.overflowed, record] using h

theorem jumpClosed (c : Context) (address : Nat) : c.KeepsShallow (c.jumpClosed address) := by
  refine of_level rfl (Nat.le_refl _) fun name level h => ?_
  unfold Context.jumpClosed CodeBuffer.closeJumpEvents at h
  split at h <;> simpa using h

/-- A body is entered after a token has been read for it. -/
theorem enter (h : c.KeepsShallow c') (hlevel : c'.level = c.level) (hlt : c.tokens.position < c'.tokens.position)
    (name : String) (id : Nat) : c.KeepsShallow (c'.enter name id) := by
  refine ⟨h.le, fun hc => ?_⟩
  have hroom : c'.level + 1 ≤ c'.tokens.position := by
    have := hc.level
    omega
  refine ⟨hroom, fun name' level hmem => ?_⟩
  simp only [Context.enter, record, Array.mem_push, Event.entered.injEq] at hmem
  rcases hmem with hmem | ⟨-, rfl⟩
  · exact (h.shallow hc).entered name' level hmem
  · exact hroom

theorem leave (h : c.KeepsShallow c') (name : String) : c.KeepsShallow (c'.leave name c.level c.scope) := by
  refine ⟨h.le, fun hc => ⟨Nat.le_trans hc.level h.le, fun name' level hmem => ?_⟩⟩
  exact (h.shallow hc).entered name' level (by simpa [Context.leave, record] using hmem)

end KeepsShallow

end Context

namespace Gen

open Context

/-- The step goes on in the tokens at least as far as in the levels. -/
def StaysShallow {α : Type} (g : Gen α) : Prop :=
  ∀ c, wp g c (fun _ => c.KeepsShallow) fun _ => c.KeepsShallow

private theorem shallow_body {block next : Gen Unit} (name : String) (address : Int32) (e : CompileError)
    (hblock : StaysShallow block) (hnext : StaysShallow next) : StaysShallow (do
      let id ← declare name (.proc address)
      expect .semicolon e
      inBody name id block
      next) := by
  intro c
  have hdeclared := KeepsShallow.declared c name (.proc address)
  rw [wp_bind, wp_declare, wp_bind, wp_expect]
  refine ⟨fun hcurrent => ?_, fun _ => hdeclared⟩
  have hlt : c.tokens.position < c.tokens.advance.position := TokenStream.position_lt_advance (by
    have hcurrent : c.tokens.current = .semicolon := hcurrent
    simp [hcurrent])
  have hentered := (hdeclared.trans (.advanced _)).enter rfl hlt name c.symbols.size
  rw [wp_bind, wp_inBody]
  refine wp_mono (hblock _) ?_ ?_
  · intro _ c₁ h₁
    have hleft := (hentered.trans h₁).leave name
    exact wp_mono (hnext _) (fun _ _ h₂ => hleft.trans h₂) fun _ _ h₂ => hleft.trans h₂
  · intro stop c₁ h₁
    cases stop with
    | rejected e => exact (hentered.trans h₁).leave name
    | fault f => exact hentered.trans h₁

private theorem shallow_rules : Rules (fun _ _ g _ => StaysShallow g) fun _ => True where
  pure _ _ c := .refl c
  bind hg hf c := by
    rw [wp_bind]
    refine wp_mono (hg c) ?_ fun _ _ h => h
    exact fun a c₁ h₁ => wp_mono (hf a c₁) (fun _ _ h₂ => h₁.trans h₂) fun _ _ h₂ => h₁.trans h₂
  reject _ _ _ c := .refl c
  peek _ c := .refl c
  advance _ c := .advanced c
  nextAddress _ c := .refl c
  declare _ name kind c := .declared c name kind
  lookUp x hf c := by
    rw [wp_bind, wp_lookUp]
    exact ⟨fun _ _ => hf _ trivial c, fun _ => .refl c⟩
  emit _ op m c := (wp_emit op 0 m).2 ⟨fun _ => .emitted c _, fun _ => .overflowed c⟩
  emitFor _ op m _ c := (wp_emit op _ m).2 ⟨fun _ => .emitted c _, fun _ => .overflowed c⟩
  openJump _ hop c := (wp_openJump hop).2 ⟨fun _ => .jumpOpened c _, fun _ => .overflowed c⟩
  closeJump _ c := (wp_closeJump _).2 (.jumpClosed c _)
  body name address e hblock hnext := shallow_body name address e (hblock []) hnext

end Gen

/-! ### Compilations -/

/-- The last state of a compilation is at a position of its token sequence. -/
theorem compile_on (tokens : List Token) (capacity : Nat) : (compile tokens capacity).final.tokens.On tokens := by
  have honward := (Gen.onward_rules tokens).program tokens.length []
  have hon := honward.on (.start tokens capacity) (.start tokens)
  exact Gen.final_of_wp ((Gen.wp_lastState (I := fun c => c.tokens.On tokens)).2 hon)

/-- No level of a compilation is greater than the number of tokens that were read. -/
theorem compile_shallow (tokens : List Token) (capacity : Nat) : (compile tokens capacity).final.Shallow := by
  have hstart : (Context.start tokens capacity).Shallow := by
    refine ⟨Nat.le_refl 0, fun name level hmem => ?_⟩
    simp [Context.start] at hmem
  have hkeeps : (Context.start tokens capacity).KeepsShallow (compile tokens capacity).final :=
    Gen.final_of_wp (Gen.shallow_rules.program tokens.length [] _)
  exact hkeeps.shallow hstart

end PL0
