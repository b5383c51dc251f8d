import PL0.Proofs.Generator.Reachability
import PL0.Proofs.Generator.Reading

/-!
# What a production leaves as it was

A production may read tokens, declare names and emit code.  It changes nothing of what was there before: level and scope
are the same afterwards, also if it is rejected in the middle of a procedure body, no token is unread, the symbols and the
instructions that it found are still there (`Context.Frame`).

The instructions need care, since closing a jump rewrites one of them.  A production closes only jumps that it opened
itself, and it opened these at the end of the code.  So the invariant is about the open jumps: all those that a step knows
of stand above the code that was there when the production began (`Context.Owns`).
-/

namespace PL0

namespace Context

/-- The state `c'` is later than `c`, on the same level and in the same scope.  The symbols and the first `base`
instructions have not changed. -/
structure Frame (base : Nat) (c c' : Context) : Prop where
  level : c'.level = c.level
  scope : c'.scope = c.scope
  position : c.tokens.position ≤ c'.tokens.position
  symbols : c.symbols.symbols.toList <+: c'.symbols.symbols.toList
  code : ∀ i < base, c'.buffer.code[i]? = c.buffer.code[i]?

/-- The jumps `p` are open, and `others` more.  The code has at least `base` instructions, and none of the jumps `p` is
among the first `base` ones. -/
structure Owns (base others : Nat) (p : List Nat) (c : Context) : Prop where
  size : base ≤ c.buffer.size
  above : ∀ a ∈ p, base ≤ a
  count : c.buffer.openJumps = others + p.length

variable {base others : Nat} {p : List Nat} {c c' c'' : Context}

/-! ### Elementary actions -/

namespace Frame

theorem refl (base : Nat) (c : Context) : c.Frame base c :=
  ⟨rfl, rfl, Nat.le_refl _, List.prefix_refl _, fun _ _ => rfl⟩

theorem trans (h : c.Frame base c') (h' : c'.Frame base c'') : c.Frame base c'' where
  level := h'.level.trans h.level
  scope := h'.scope.trans h.scope
  position := Nat.le_trans h.position h'.position
  symbols := h.symbols.trans h'.symbols
  code i hi := (h'.code i hi).trans (h.code i hi)

theorem advanced (base : Nat) (c : Context) : c.Frame base c.advanced :=
  ⟨rfl, rfl, c.tokens.position_le_advance, List.prefix_refl _, fun _ _ => rfl⟩

theorem declared (base : Nat) (c : Context) (name : String) (kind : SymbolKind) :
    c.Frame base (c.declared name kind) := by
  refine ⟨rfl, rfl, Nat.le_refl _, ?_, fun _ _ => rfl⟩
  show _ <+: (c.symbols.symbols.push _).toList
  rw [Array.toList_push]
  exact List.prefix_append _ _

/-- What is appended to the code comes after the first instructions. -/
private theorem of_push (hlevel : c'.level = c.level) (hscope : c'.scope = c.scope) (htokens : c'.tokens = c.tokens)
    (hsymbols : c'.symbols = c.symbols) {ins : Instruction} (hcode : c'.buffer.code = c.buffer.code.push ins)
    (hbase : base ≤ c.buffer.size) : c.Frame base c' := by
  refine ⟨hlevel, hscope, by simp [htokens], by simp [hsymbols], ?_⟩
  intro i hi
  have hne : i ≠ c.buffer.code.size := by
    have : base ≤ c.buffer.code.size := hbase
    omega
  rw [hcode, Array.getElem?_push, if_neg hne]

theorem emitted (hbase : base ≤ c.buffer.size) (ins : Instruction) : c.Frame base (c.emitted ins) :=
  of_push rfl rfl rfl rfl rfl hbase

theorem jumpOpened (hbase : base ≤ c.buffer.size) (op : Opcode) : c.Frame base (c.jumpOpened op) :=
  of_push rfl rfl rfl rfl rfl hbase

theorem jumpClosed {a : Nat} (ha : base ≤ a) : c.Frame base (c.jumpClosed a) := by
  refine ⟨rfl, rfl, Nat.le_refl _, List.prefix_refl _, ?_⟩
  intro i hi
  have hne : a ≠ i := by omega
  show (c.buffer.code.modify a _)[i]? = _
  rw [Array.getElem?_modify, if_neg hne]

/-- After a procedure body the level and the scope come back. -/
theorem left {name : String} {id : Nat} (h : (c.enter name id).Frame base c') :
    c.Frame base (c'.leave name c.level c.scope) :=
  ⟨rfl, rfl, h.position, h.symbols, h.code⟩

end Frame

namespace Owns

theorem emitted (h : c.Owns base others p) (ins : Instruction) : (c.emitted ins).Owns base others p := by
  refine ⟨?_, h.above, h.count⟩
  show base ≤ (c.buffer.code.push ins).size
  have : base ≤ c.buffer.code.size := h.size
  rw [Array.size_push]
  omega

/-- A jump is opened at the end of the code. -/
theorem jumpOpened (h : c.Owns base others p) (op : Opcode) :
    (c.jumpOpened op).Owns base others (c.buffer.size :: p) := by
  have hbase : base ≤ c.buffer.code.size := h.size
  refine ⟨?_, ?_, ?_⟩
  · show base ≤ (c.buffer.code.push _).size
    rw [Array.size_push]
    omega
  · intro a ha
    rcases List.mem_cons.1 ha with rfl | ha
    · exact h.size
    · exact h.above a ha
  · show c.buffer.openJumps + 1 = others + (p.length + 1)
    rw [h.count]
    omega

theorem jumpClosed (h : c.Owns base others p) {a : Nat} (ha : a ∈ p) :
    (c.jumpClosed a).Owns base others (p.erase a) := by
  refine ⟨?_, fun b hb => h.above b (List.mem_of_mem_erase hb), ?_⟩
  · show base ≤ (c.buffer.closeJump a c.buffer.size).size
    rw [CodeBuffer.size_closeJump]
    exact h.size
  · show c.buffer.openJumps - 1 = others + (p.erase a).length
    have hpos : 0 < p.length := List.length_pos_of_mem ha
    rw [h.count, List.length_erase_of_mem ha]
    omega

end Owns

end Context

namespace Gen

open Context

variable {α β : Type}

/-! ### Steps -/

/-- How a step may stop.  Nothing is said of the state if the code buffer is full. -/
def StopsInFrame (base : Nat) (c : Context) (stop : Stop) (c' : Context) : Prop :=
  match stop with
  | .rejected _ => c.Frame base c'
  | .fault f => ∃ capacity, f = .full capacity

/-- From the open jumps `p` the step comes to the open jumps `q`, within the frame of any code below its own jumps. -/
def KeepsFrame (p : List Nat) (g : Gen α) (q : α → List Nat) : Prop :=
  ∀ base others c, c.Owns base others p →
    wp g c (fun a c' => c.Frame base c' ∧ c'.Owns base others (q a)) (StopsInFrame base c)

theorem KeepsFrame.bind {p : List Nat} {q : α → List Nat} {r : β → List Nat} {g : Gen α} {f : α → Gen β}
    (hg : KeepsFrame p g q) (hf : ∀ a, KeepsFrame (q a) (f a) r) : KeepsFrame p (g >>= f) r := by
  intro base others c hc
  rw [wp_bind]
  refine wp_mono (hg base others c hc) ?_ fun _ _ h => h
  rintro a c₁ ⟨hframe₁, hc₁⟩
  refine wp_mono (hf a base others c₁ hc₁) ?_ ?_
  · rintro b c₂ ⟨hframe₂, hc₂⟩
    exact ⟨hframe₁.trans hframe₂, hc₂⟩
  · intro stop c₂ hstop
    cases stop with
    | rejected e => exact hframe₁.trans hstop
    | fault f => exact hstop

private theorem keepsFrame_emit (p : List Nat) (op : Opcode) (l m : Int32) :
    KeepsFrame p (emit op l m) fun _ => p := by
  intro base others c hc
  rw [wp_emit]
  exact ⟨fun _ => ⟨.emitted hc.size _, hc.emitted _⟩, fun _ => ⟨_, rfl⟩⟩

private theorem keepsFrame_openJump {op : Opcode} (hop : op.isJump) (p : List Nat) :
    KeepsFrame p (openJump op) fun a => a :: p := by
  intro base others c hc
  rw [wp_openJump hop]
  exact ⟨fun _ => ⟨.jumpOpened hc.size op, hc.jumpOpened op⟩, fun _ => ⟨_, rfl⟩⟩

private theorem keepsFrame_expect (p : List Nat) (t : Token) (e : CompileError) :
    KeepsFrame p (expect t e) fun _ => p := by
  intro base others c hc
  rw [wp_expect]
  exact ⟨fun _ => ⟨.advanced base c, hc.size, hc.above, hc.count⟩, fun _ => Frame.refl base c⟩

private theorem keepsFrame_declare (p : List Nat) (name : String) (kind : SymbolKind) :
    KeepsFrame p (declare name kind) fun _ => p :=
  fun base _ c hc => ⟨.declared base c name kind, hc.size, hc.above, hc.count⟩

private theorem keepsFrame_inBody (p : List Nat) (name : String) (id : Nat) {body : Gen Unit}
    (h : KeepsFrame p body fun _ => p) : KeepsFrame p (inBody name id body) fun _ => p := by
  intro base others c hc
  have hentered : (c.enter name id).Owns base others p := ⟨hc.size, hc.above, hc.count⟩
  rw [wp_inBody]
  refine wp_mono (h base others _ hentered) ?_ ?_
  · rintro _ c' ⟨hframe, hc'⟩
    exact ⟨hframe.left, hc'.size, hc'.above, hc'.count⟩
  · intro stop c' hstop
    cases stop with
    | rejected e => exact Frame.left hstop
    | fault f => exact hstop

theorem keepsFrame_rules : Rules (fun _ p g q => KeepsFrame p g q) fun _ => True where
  pure _ _ base _ c hc := ⟨.refl base c, hc⟩
  bind := KeepsFrame.bind
  reject _ _ _ base _ c _ := Frame.refl base c
  peek _ base _ c hc := ⟨.refl base c, hc⟩
  advance _ base _ c hc := ⟨.advanced base c, hc.size, hc.above, hc.count⟩
  nextAddress _ base _ c hc := ⟨.refl base c, hc⟩
  declare p name kind := keepsFrame_declare p name kind
  lookUp x hf base others c hc := by
    rw [wp_bind, wp_lookUp]
    exact ⟨fun _ _ => hf _ trivial base others c hc, fun _ => Frame.refl base c⟩
  emit p op m := keepsFrame_emit p op 0 m
  emitFor p op m _ := keepsFrame_emit p op _ m
  openJump p hop := keepsFrame_openJump hop p
  closeJump ha base others c hc := by
    rw [wp_closeJump]
    exact ⟨.jumpClosed (hc.above _ ha), hc.jumpClosed ha⟩
  body {_ _ p} name address e hblock hnext :=
    (keepsFrame_declare p name _).bind fun id => (keepsFrame_expect p _ e).bind fun _ =>
      (keepsFrame_inBody p name id (hblock p)).bind fun _ => hnext

/-! ### Productions -/

/-- The productions of the grammar, with the bounds that they may be called with. -/
inductive Production : Gen Unit → Prop
  | program (n : Nat) : Production (program n)
  | block (n : Nat) : Production (block n)
  | constDeclaration (n : Nat) : Production (constDeclaration n)
  | varDeclaration (n : Nat) : Production (varDeclaration n)
  | procedures (n m : Nat) : Production (procedures (Gen.block n) m)
  | procedure (n : Nat) : Production (procedure (Gen.block n))
  | statement (n : Nat) : Production (statement n)
  | assignment (n : Nat) (x : String) : Production (assignment n x)
  | call : Production call
  | compound (n m : Nat) : Production (compound (Gen.statement n) m)
  | ifStatement (n m : Nat) : Production (ifStatement (Gen.statement n) m)
  | whileStatement (n m : Nat) : Production (whileStatement (Gen.statement n) m)
  | write : Production write
  | read : Production read
  | condition (n : Nat) : Production (condition n)
  | expression (n : Nat) : Production (expression n)
  | term (n : Nat) : Production (term n)
  | factor (n : Nat) : Production (factor n)

/-- What holds by the rules holds of every production. -/
theorem Production.of_rules {P : (α : Type) → List Nat → Gen α → (α → List Nat) → Prop} {B : Binding → Prop}
    (R : Rules P B) {g : Gen Unit} (hg : Production g) (p : List Nat) : P Unit p g fun _ => p := by
  cases hg with
  | program n => exact R.program n p
  | block n => exact R.block n p
  | constDeclaration n => exact R.constDeclaration n p
  | varDeclaration n => exact R.varDeclaration n p
  | procedures n m => exact R.procedures (R.block n) m p
  | procedure n => exact R.procedure (R.block n) p
  | statement n => exact R.flat.statement n p
  | assignment n x => exact R.flat.assignment n x p
  | call => exact R.flat.call p
  | compound n m => exact R.flat.compound (R.flat.statement n) m p
  | ifStatement n m => exact R.flat.ifStatement (R.flat.statement n) m p
  | whileStatement n m => exact R.flat.whileStatement (R.flat.statement n) m p
  | write => exact R.flat.write p
  | read => exact R.flat.read p
  | condition n => exact R.flat.condition n p
  | expression n => exact R.flat.expression n p
  | term n => exact R.flat.termOf (R.flat.factor n) n p
  | factor n => exact R.flat.factor n p

end Gen

/-- The tokens of a state are what is left of the token sequence. -/
theorem Context.Reachable.on {tokens : List Token} {capacity : Nat} {c : Context} (h : c.Reachable tokens capacity) :
    c.tokens.On tokens := by
  induction h with
  | start => exact .start tokens
  | advanced _ ih => exact ih.advance
  | emittedFor _ _ _ _ _ _ ih _ => exact ih
  | _ => assumption

/-- A production that is called in a state of a compilation, and is accepted or rejected, leaves level, scope, symbols
and code as they were, and it does not go back in the tokens or beyond their end.  If it is accepted, then it has closed
all jumps that it opened. -/
theorem production_frame {tokens : List Token} {capacity : Nat} {c : Context} (hc : c.Reachable tokens capacity)
    {g : Gen Unit} (hg : Gen.Production g) :
    (∀ c', g c = .ok () c' →
      c.Frame c.buffer.size c' ∧ c'.tokens.position ≤ tokens.length ∧ c'.buffer.openJumps = c.buffer.openJumps) ∧
    (∀ e c', g c = .error (.rejected e) c' → c.Frame c.buffer.size c' ∧ c'.tokens.position ≤ tokens.length) ∧
    ∀ f c', g c = .error (.fault f) c' → ∃ n, f = .full n := by
  -- at the start the production owns no jump, and all code was there before
  have howns : c.Owns c.buffer.size c.buffer.openJumps [] := ⟨Nat.le_refl _, by simp, rfl⟩
  have hframe := hg.of_rules Gen.keepsFrame_rules [] _ _ c howns
  have hon := (hg.of_rules (Gen.onward_rules tokens) []).on c hc.on
  unfold Gen.wp at hframe
  refine ⟨fun c' h => ?_, fun e c' h => ?_, fun f c' h => ?_⟩
  · rw [h] at hframe hon
    exact ⟨hframe.1, hon.position_le, hframe.2.count⟩
  · rw [h] at hframe hon
    exact ⟨hframe, hon.position_le⟩
  · rw [h] at hframe
    exact hframe

/-- A procedure whose body uses a name that is not declared: the jump in front of it stays open, and the state is
outside of the procedure again. -/
theorem production_frame_undeclared : ∃ c c' : Context,
    c = (Context.start [.procSym, .ident "p", .semicolon, .ident "x"] 10).jumpOpened .jmp ∧
    Gen.procedures (Gen.block 3) 4 c = .error (.rejected .undeclared) c' ∧ c.Frame 1 c' ∧ c'.tokens.position ≤ 4 := by
  have hstart : Context.Reachable [.procSym, .ident "p", .semicolon, .ident "x"] 10 _ := .start
  have hframe := (production_frame (hstart.jumpOpened .jmp rfl) (.procedures 3 4)).2.1 .undeclared _ rfl
  exact ⟨_, _, rfl, rfl, hframe⟩

end PL0
