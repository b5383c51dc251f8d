import PL0.Proofs.Generator.Productions
import PL0.Proofs.Generator.Scope

/-!
# Compilations as runs of elementary actions

`Context.Step` lists the changes that an elementary action can make to the state of a compilation, together with the
addresses of the jumps that are open before and after, and `Context.Run` is a sequence of such changes.  Every
production is a run that closes the jumps that it opened and no other ones, and a production that stops has made a run
until then (`Gen.settles_program`).  So a property of the state that no elementary action can destroy holds at the end
of every compilation, whatever its outcome (`Context.Run.invariant`).
-/

namespace PL0

/-! ### Steps and runs -/

namespace Context

/-- `Step p c q c'`: one action leads from the state `c` with the open jumps `p` to the state `c'` with the open jumps
`q`. -/
inductive Step : List Nat → Context → List Nat → Context → Prop
  | advanced (p : List Nat) (c : Context) : Step p c p c.advanced
  | declared (p : List Nat) (c : Context) (name : String) (kind : SymbolKind) : Step p c p (c.declared name kind)
  | emitted (p : List Nat) (c : Context) (ins : Instruction) : c.buffer.isFull = false → Step p c p (c.emitted ins)
  | jumpOpened (p : List Nat) (c : Context) (op : Opcode) : c.buffer.isFull = false →
      Step p c (c.buffer.size :: p) (c.jumpOpened op)
  | jumpClosed (p : List Nat) (c : Context) (address : Nat) : address ∈ p →
      Step p c (p.erase address) (c.jumpClosed address)
  | overflowed (p : List Nat) (c : Context) : c.buffer.isFull = true → Step p c p c.overflowed
  | entered (p : List Nat) (c : Context) (name : String) (id : Nat) : Step p c p (c.enter name id)
  | left (p : List Nat) (c : Context) (name : String) (level : Nat) (scope : Scope) :
      Step p c p (c.leave name level scope)

inductive Run : List Nat → Context → List Nat → Context → Prop
  | refl (p : List Nat) (c : Context) : Run p c p c
  | tail {p q r : List Nat} {c c' c'' : Context} : Run p c q c' → Step q c' r c'' → Run p c r c''

namespace Run

variable {p q r : List Nat} {c c' c'' : Context}

theorem step (h : Step p c q c') : Run p c q c' :=
  .tail (.refl p c) h

theorem trans (h : Run p c q c') (h' : Run q c' r c'') : Run p c r c'' := by
  induction h' with
  | refl => exact h
  | tail _ hstep ih => exact .tail (ih h) hstep

/-- What no step can destroy holds at the end of a run. -/
theorem invariant {I : List Nat → Context → Prop} (hI : ∀ p c q c', Step p c q c' → I p c → I q c')
    (h : Run p c q c') (hc : I p c) : I q c' := by
  induction h with
  | refl => exact hc
  | tail _ hstep ih => exact hI _ _ _ _ hstep (ih hc)

end Run

end Context

namespace Gen

open Context

variable {α β : Type}

/-- A production stops because the program is wrong or because the code buffer is full, after a run. -/
def Stopped (p : List Nat) (c : Context) (stop : Stop) (c' : Context) : Prop :=
  ((∃ e, stop = .rejected e) ∨ ∃ capacity, stop = .fault (.full capacity)) ∧ ∃ r, Run p c r c'

/-- `g` is a run from the open jumps `p` to the open jumps `q`. -/
def Turns (g : Gen α) (p : List Nat) (q : α → List Nat) : Prop :=
  ∀ c, wp g c (fun a c' => Run p c (q a) c') (Stopped p c)

/-- `g` is a run that leaves no further jump open. -/
def Settles (g : Gen α) : Prop :=
  ∀ p, Turns g p (fun _ => p)

theorem Turns.bind {g : Gen α} {f : α → Gen β} {p : List Nat} {q : α → List Nat} {r : β → List Nat}
    (hg : Turns g p q) (hf : ∀ a, Turns (f a) (q a) r) : Turns (g >>= f) p r := by
  intro c
  rw [wp_bind]
  refine wp_mono (hg c) ?_ fun _ _ h => h
  intro a c' h
  refine wp_mono (hf a c') (fun _ _ h' => h.trans h') ?_
  rintro stop c'' ⟨hstop, s, h'⟩
  exact ⟨hstop, s, h.trans h'⟩

/-! ### Elementary actions -/

private theorem turns_emit (p : List Nat) (op : Opcode) (l m : Int32) : Turns (emit op l m) p (fun _ => p) := by
  intro c
  rw [wp_emit]
  exact ⟨fun hroom => .step (.emitted p c _ hroom), fun hfull => ⟨.inr ⟨_, rfl⟩, p, .step (.overflowed p c hfull)⟩⟩

private theorem turns_openJump {op : Opcode} (hop : op.isJump) (p : List Nat) :
    Turns (openJump op) p (fun a => a :: p) := by
  intro c
  rw [wp_openJump hop]
  exact ⟨fun hroom => .step (.jumpOpened p c op hroom), fun hfull => ⟨.inr ⟨_, rfl⟩, p, .step (.overflowed p c hfull)⟩⟩

private theorem turns_expect (p : List Nat) (t : Token) (e : CompileError) : Turns (expect t e) p (fun _ => p) := by
  intro c
  rw [wp_expect]
  exact ⟨fun _ => .step (.advanced p c), fun _ => ⟨.inl ⟨e, rfl⟩, p, .refl p c⟩⟩

private theorem turns_inBody (name : String) (id : Nat) {body : Gen Unit} (h : Settles body) (p : List Nat) :
    Turns (inBody name id body) p (fun _ => p) := by
  intro c
  rw [wp_inBody]
  have hin : Run p c p (c.enter name id) := .step (.entered p c name id)
  refine wp_mono (h p (c.enter name id)) ?_ ?_
  · intro _ c' h'
    exact (hin.trans h').tail (.left p c' name c.level c.scope)
  · rintro stop c' ⟨hstop, q, h'⟩
    cases stop with
    | rejected e => exact ⟨hstop, q, (hin.trans h').tail (.left q c' name c.level c.scope)⟩
    | fault f => exact ⟨hstop, q, hin.trans h'⟩

/-! ### Productions -/

private theorem turns_rules : Rules (fun _ p g q => Turns g p q) fun _ => True where
  pure p _ c := .refl p c
  bind := Turns.bind
  reject p _ e c := ⟨.inl ⟨e, rfl⟩, p, .refl p c⟩
  peek p c := .refl p c
  advance p c := .step (.advanced p c)
  nextAddress p c := .refl p c
  declare p name kind c := .step (.declared p c name kind)
  lookUp {_ p _ _} x hf c := by
    rw [wp_bind, wp_lookUp]
    exact ⟨fun _ _ => hf _ trivial c, fun _ => ⟨.inl ⟨_, rfl⟩, p, .refl p c⟩⟩
  emit p op m := turns_emit p op 0 m
  emitFor p op m _ := turns_emit p op _ m
  openJump p hop := turns_openJump hop p
  closeJump {p a} ha c := by
    rw [wp_closeJump]
    exact .step (.jumpClosed p c a ha)
  body {_ _ p} name address e hblock hnext := by
    have hdeclare : Turns (declare name (.proc address)) p (fun _ => p) :=
      fun c => .step (.declared p c name (.proc address))
    exact hdeclare.bind fun id => (turns_expect p _ e).bind fun _ => (turns_inBody name id hblock p).bind fun _ => hnext

theorem settles_program (n : Nat) : Settles (program n) :=
  turns_rules.program n

end Gen

end PL0
