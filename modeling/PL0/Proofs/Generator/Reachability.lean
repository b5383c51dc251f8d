import PL0.Proofs.Generator.Productions
import PL0.Proofs.Generator.Scope

/-!
# The states of a compilation

`Context.Reachable tokens capacity c` says that elementary actions lead from the start of a compilation to the state
`c`.  The actions have the arguments that the productions give them.  A difference of levels in an instruction is zero
or was found by looking up a name in a state of the compilation, the body of a procedure is entered from the level and
the scope in which the procedure was declared, and leaving a body leads back there.

Every production leads from a reachable state to a reachable state, also when it stops (`Gen.reaches_rules`); so the
last state of a compilation is reachable, whatever the outcome (`compile_reachable`).
-/

namespace PL0

namespace Context

inductive Reachable (tokens : List Token) (capacity : Nat) : Context → Prop
  | start : Reachable tokens capacity (.start tokens capacity)
  | advanced {c : Context} : Reachable tokens capacity c → Reachable tokens capacity c.advanced
  | declared {c : Context} (name : String) (kind : SymbolKind) :
      Reachable tokens capacity c → Reachable tokens capacity (c.declared name kind)
  | emitted {c : Context} (op : Opcode) (m : Int32) : Reachable tokens capacity c → c.buffer.isFull = false →
      Reachable tokens capacity (c.emitted ⟨op, 0, 0, m⟩)
  | emittedFor {c d d' : Context} {x : String} {b : Gen.Binding} (op : Opcode) (m : Int32) :
      Reachable tokens capacity c → c.buffer.isFull = false → Reachable tokens capacity d →
      Gen.lookUp x d = .ok b d' → Reachable tokens capacity (c.emitted ⟨op, 0, b.levelDiff, m⟩)
  | jumpOpened {c : Context} (op : Opcode) : Reachable tokens capacity c → c.buffer.isFull = false →
      Reachable tokens capacity (c.jumpOpened op)
  | jumpClosed {c : Context} (address : Nat) :
      Reachable tokens capacity c → Reachable tokens capacity (c.jumpClosed address)
  | overflowed {c : Context} : Reachable tokens capacity c → Reachable tokens capacity c.overflowed
  | entered {c : Context} {id : Nat} {s : Symbol} {a : Int32} (name : String) : Reachable tokens capacity c →
      c.symbols.get? id = some s → s.kind = .proc a → s.level = c.level → s.scope = c.scope →
      Reachable tokens capacity (c.enter name id)
  | left {c : Context} {id : Nat} {s : Symbol} (name : String) : Reachable tokens capacity c →
      c.scope = some id → c.symbols.get? id = some s → Reachable tokens capacity (c.leave name s.level s.scope)

/-- Level and scope are the same in `c'` as in `c`, and the symbols are still there. -/
structure Retains (c c' : Context) : Prop where
  level : c'.level = c.level
  scope : c'.scope = c.scope
  symbols : ∀ id s, c.symbols.get? id = some s → c'.symbols.get? id = some s

end Context

namespace SymbolTable

theorem get?_insert_of_some {table : SymbolTable} {id : Nat} {s : Symbol} (h : table.get? id = some s) (t : Symbol) :
    (table.insert t).get? id = some s := by
  have hlt : id < table.symbols.size := (Array.getElem?_eq_some_iff.1 h).1
  have hne : id ≠ table.symbols.size := by omega
  simp only [get?, insert, Array.getElem?_push, hne, ↓reduceIte]
  exact h

@[simp] theorem get?_insert_size (table : SymbolTable) (t : Symbol) : (table.insert t).get? table.size = some t := by
  simp [get?, insert, size]

@[simp] theorem size_insert (table : SymbolTable) (t : Symbol) : (table.insert t).size = table.size + 1 := by
  simp [size, insert]

/-- A symbol of the extended table is the new one or was there before. -/
theorem get?_insert_cases {table : SymbolTable} {id : Nat} {s t : Symbol} (h : (table.insert t).get? id = some s) :
    id = table.size ∧ s = t ∨ table.get? id = some s := by
  by_cases hid : id = table.size
  · subst hid
    rw [get?_insert_size, Option.some.injEq] at h
    exact .inl ⟨rfl, h.symm⟩
  · have hne : id ≠ table.symbols.size := hid
    simp only [get?, insert, Array.getElem?_push, hne, ↓reduceIte] at h
    exact .inr h

end SymbolTable

namespace Context.Retains

variable {c c' c'' : Context}

theorem of_eq (hlevel : c'.level = c.level) (hscope : c'.scope = c.scope) (hsymbols : c'.symbols = c.symbols) :
    c.Retains c' :=
  ⟨hlevel, hscope, fun _ _ h => hsymbols ▸ h⟩

theorem trans (h : c.Retains c') (h' : c'.Retains c'') : c.Retains c'' :=
  ⟨h'.level.trans h.level, h'.scope.trans h.scope, fun id s hs => h'.symbols id s (h.symbols id s hs)⟩

theorem declared (c : Context) (name : String) (kind : SymbolKind) : c.Retains (c.declared name kind) :=
  ⟨rfl, rfl, fun _ _ h => SymbolTable.get?_insert_of_some h _⟩

end Context.Retains

namespace Gen

open Context

variable {α β : Type} {tokens : List Token} {capacity : Nat}

/-- From the state `c` the step `g` gets to a reachable state.  Level, scope and symbols are retained, unless the code
buffer gets full in the body of a procedure. -/
def ReachesFrom (tokens : List Token) (capacity : Nat) (c : Context) (g : Gen α) : Prop :=
  wp g c (fun _ c' => Reachable tokens capacity c' ∧ c.Retains c') fun stop c' =>
    Reachable tokens capacity c' ∧ ((∃ e, stop = .rejected e) → c.Retains c')

def Reaches (tokens : List Token) (capacity : Nat) (g : Gen α) : Prop :=
  ∀ c, Reachable tokens capacity c → ReachesFrom tokens capacity c g

/-- The binding was found in a state of the compilation. -/
def Found (tokens : List Token) (capacity : Nat) (b : Binding) : Prop :=
  ∃ x c c', Reachable tokens capacity c ∧ lookUp x c = .ok b c'

theorem ReachesFrom.bind {c : Context} {g : Gen α} {f : α → Gen β} (hg : ReachesFrom tokens capacity c g)
    (hf : ∀ a, Reaches tokens capacity (f a)) : ReachesFrom tokens capacity c (g >>= f) := by
  unfold ReachesFrom
  rw [wp_bind]
  refine wp_mono hg ?_ fun _ _ h => h
  rintro a c₁ ⟨hc₁, hr₁⟩
  refine wp_mono (hf a c₁ hc₁) ?_ ?_
  · rintro b c₂ ⟨hc₂, hr₂⟩
    exact ⟨hc₂, hr₁.trans hr₂⟩
  · rintro stop c₂ ⟨hc₂, hr₂⟩
    exact ⟨hc₂, fun he => hr₁.trans (hr₂ he)⟩

private theorem reaches_emit {op : Opcode} {l m : Int32} (h : ∀ c, Reachable tokens capacity c →
    c.buffer.isFull = false → Reachable tokens capacity (c.emitted ⟨op, 0, l, m⟩)) :
    Reaches tokens capacity (emit op l m) := by
  intro c hc
  unfold ReachesFrom
  rw [wp_emit]
  exact ⟨fun hroom => ⟨h c hc hroom, .of_eq rfl rfl rfl⟩, fun _ => ⟨hc.overflowed, fun _ => .of_eq rfl rfl rfl⟩⟩

private theorem reaches_declare (name : String) (kind : SymbolKind) : Reaches tokens capacity (declare name kind) :=
  fun c hc => ⟨hc.declared name kind, .declared c name kind⟩

/-- The body of a procedure that was declared on the current level and in the current scope. -/
private theorem reaches_inBody {name : String} {id : Nat} {s : Symbol} {a : Int32} {body : Gen Unit}
    (hbody : Reaches tokens capacity body) {c : Context} (hc : Reachable tokens capacity c)
    (hs : c.symbols.get? id = some s) (hkind : s.kind = .proc a) (hlevel : s.level = c.level)
    (hscope : s.scope = c.scope) : ReachesFrom tokens capacity c (inBody name id body) := by
  have hleave : ∀ c', Reachable tokens capacity c' → (c.enter name id).Retains c' →
      Reachable tokens capacity (c'.leave name c.level c.scope) ∧ c.Retains (c'.leave name c.level c.scope) := by
    intro c' hc' hr
    have hleft := hc'.left name hr.scope (hr.symbols id s hs)
    rw [hlevel, hscope] at hleft
    exact ⟨hleft, rfl, rfl, hr.symbols⟩
  unfold ReachesFrom
  rw [wp_inBody]
  refine wp_mono (hbody _ (hc.entered name hs hkind hlevel hscope)) ?_ ?_
  · rintro _ c' ⟨hc', hr⟩
    exact hleave c' hc' hr
  · rintro stop c' ⟨hc', hr⟩
    cases stop with
    | rejected e =>
      obtain ⟨hleft, hr'⟩ := hleave c' hc' (hr ⟨e, rfl⟩)
      exact ⟨hleft, fun _ => hr'⟩
    | fault f =>
      refine ⟨hc', ?_⟩
      rintro ⟨e, he⟩
      cases he

/-- The declaration of a procedure and its body. -/
private theorem reaches_body {body next : Gen Unit} (name : String) (address : Int32) (e : CompileError)
    (hbody : Reaches tokens capacity body) (hnext : Reaches tokens capacity next) : Reaches tokens capacity (do
      let id ← declare name (.proc address)
      expect .semicolon e
      inBody name id body
      next) := by
  intro c hc
  have hr : c.Retains (c.declared name (.proc address)).advanced :=
    (Retains.declared c name (.proc address)).trans (.of_eq rfl rfl rfl)
  have hs : (c.declared name (.proc address)).advanced.symbols.get? c.symbols.size =
      some ⟨name, .proc address, c.level, c.scope⟩ := SymbolTable.get?_insert_size _ _
  have hadvanced := (hc.declared name (.proc address)).advanced
  unfold ReachesFrom
  rw [wp_bind, wp_declare, wp_bind, wp_expect]
  refine ⟨fun _ => ?_, fun _ => ⟨hc.declared _ _, fun _ => .declared c _ _⟩⟩
  refine wp_mono ((reaches_inBody hbody hadvanced hs rfl rfl rfl).bind fun _ => hnext) ?_ ?_
  · rintro _ c' ⟨hc', hr'⟩
    exact ⟨hc', hr.trans hr'⟩
  · rintro stop c' ⟨hc', hr'⟩
    exact ⟨hc', fun he => hr.trans (hr' he)⟩

/-- Every production keeps to reachable states. -/
theorem reaches_rules (tokens : List Token) (capacity : Nat) :
    Rules (fun _ _ g _ => Reaches tokens capacity g) (Found tokens capacity) where
  pure _ _ c hc := ⟨hc, .of_eq rfl rfl rfl⟩
  bind hg hf c hc := (hg c hc).bind hf
  reject _ _ _ c hc := ⟨hc, fun _ => .of_eq rfl rfl rfl⟩
  peek _ c hc := ⟨hc, .of_eq rfl rfl rfl⟩
  advance _ c hc := ⟨hc.advanced, .of_eq rfl rfl rfl⟩
  nextAddress _ c hc := ⟨hc, .of_eq rfl rfl rfl⟩
  declare _ name kind := reaches_declare name kind
  lookUp x hf c hc := by
    unfold ReachesFrom
    rw [wp_bind, wp_lookUp]
    exact ⟨fun s hs => hf _ ⟨x, c, c, hc, (run_lookUp x c).1 s hs⟩ c hc, fun _ => ⟨hc, fun _ => .of_eq rfl rfl rfl⟩⟩
  emit _ op m := reaches_emit fun _ hc hroom => hc.emitted op m hroom
  emitFor _ op m hb := by
    obtain ⟨x, d, d', hd, hlookUp⟩ := hb
    exact reaches_emit fun _ hc hroom => .emittedFor op m hc hroom hd hlookUp
  openJump _ hop c hc := by
    unfold ReachesFrom
    rw [wp_openJump hop]
    exact ⟨fun hroom => ⟨hc.jumpOpened _ hroom, .of_eq rfl rfl rfl⟩,
      fun _ => ⟨hc.overflowed, fun _ => .of_eq rfl rfl rfl⟩⟩
  closeJump {_ a} _ c hc := by
    unfold ReachesFrom
    rw [wp_closeJump]
    exact ⟨hc.jumpClosed a, .of_eq rfl rfl rfl⟩
  body name address e hbody hnext := reaches_body name address e (hbody []) hnext

end Gen

/-- The last state of a compilation is reachable. -/
theorem compile_reachable (tokens : List Token) (capacity : Nat) :
    Context.Reachable tokens capacity (compile tokens capacity).final := by
  refine Gen.final_of_wp (Gen.wp_mono ((Gen.reaches_rules tokens capacity).program tokens.length [] _ .start) ?_ ?_)
  · rintro _ c ⟨hc, -⟩
    exact hc
  · rintro stop c ⟨hc, -⟩
    exact hc

end PL0
