import PL0.Compilation

/-!
# Properties of all productions

The productions are made of elementary actions, by composition, by case distinctions and by recursion on their bound.
`Gen.Rules P B` lists what is asked of a property `P` of steps so that it holds of every production (`Rules.block`,
`Rules.program`, …).  In `P p g q` the step `g` starts when the jumps `p` are open, and the jumps `q a` are open when it
ends with the result `a`.  `B` is what may be assumed of a binding that was looked up.

Expressions and statements declare nothing and enter no body.  For them the rules without these two actions are enough,
`Gen.FlatRules P B` (`FlatRules.expression`, `FlatRules.statement`, …).  A procedure is declared before its body is
entered, and what a property says of a body may depend on this.  So there is one rule for the declaration and the body
together.
-/

namespace PL0.Gen

/-- The rules for expressions and statements. -/
structure FlatRules (P : (α : Type) → List Nat → Gen α → (α → List Nat) → Prop) (B : Binding → Prop) : Prop where
  pure {α : Type} (p : List Nat) (a : α) : P α p (pure a) fun _ => p
  bind {α β : Type} {p : List Nat} {q : α → List Nat} {r : β → List Nat} {g : Gen α} {f : α → Gen β} :
    P α p g q → (∀ a, P β (q a) (f a) r) → P β p (g >>= f) r
  reject {α : Type} (p : List Nat) (q : α → List Nat) (e : CompileError) : P α p (Gen.reject e) q
  peek (p : List Nat) : P Token p Gen.peek fun _ => p
  advance (p : List Nat) : P Unit p Gen.advance fun _ => p
  nextAddress (p : List Nat) : P Nat p Gen.nextAddress fun _ => p
  lookUp {β : Type} {p : List Nat} {r : β → List Nat} {f : Binding → Gen β} (x : String) :
    (∀ b, B b → P β p (f b) r) → P β p (Gen.lookUp x >>= f) r
  emit (p : List Nat) (op : Opcode) (m : Int32) : P Unit p (Gen.emit op 0 m) fun _ => p
  emitFor {b : Binding} (p : List Nat) (op : Opcode) (m : Int32) : B b → P Unit p (Gen.emit op b.levelDiff m) fun _ => p
  openJump {op : Opcode} (p : List Nat) : op.isJump → P Nat p (Gen.openJump op) fun a => a :: p
  closeJump {p : List Nat} {a : Nat} : a ∈ p → P Unit p (Gen.closeJump a) fun _ => p.erase a

namespace FlatRules

variable {P : (α : Type) → List Nat → Gen α → (α → List Nat) → Prop} {B : Binding → Prop} (R : FlatRules P B)

include R

/-! ### Tokens and jumps -/

theorem expect (p : List Nat) (t : Token) (e : CompileError) : P Unit p (Gen.expect t e) fun _ => p := by
  refine R.bind (R.peek p) fun u => ?_
  split
  · exact R.advance p
  · exact R.reject p _ e

theorem peekName (p : List Nat) (e : CompileError) : P String p (Gen.peekName e) fun _ => p := by
  refine R.bind (R.peek p) fun t => ?_
  cases t with
  | ident x => exact R.pure p x
  | _ => exact R.reject p _ e

theorem takeName (p : List Nat) (e : CompileError) : P String p (Gen.takeName e) fun _ => p :=
  R.bind (R.peekName p e) fun x => R.bind (R.advance p) fun _ => R.pure p x

theorem takeNumber (p : List Nat) (e : CompileError) : P Int32 p (Gen.takeNumber e) fun _ => p := by
  refine R.bind (R.peek p) fun t => ?_
  cases t with
  | number v => exact R.bind (R.advance p) fun _ => R.pure p v
  | _ => exact R.reject p _ e

/-- The jump that was opened last is closed. -/
theorem closeLast (a : Nat) (p : List Nat) : P Unit (a :: p) (Gen.closeJump a) fun _ => p := by
  have h := R.closeJump (p := a :: p) (a := a) List.mem_cons_self
  rwa [List.erase_cons_head] at h

/-- The jump that was opened before the last one is closed. -/
theorem closeSecond (a b : Nat) (p : List Nat) : P Unit (b :: a :: p) (Gen.closeJump a) fun _ => b :: p := by
  have h := R.closeJump (p := b :: a :: p) (a := a) (by simp)
  by_cases hab : b = a
  · subst hab
    rwa [List.erase_cons_head] at h
  · rwa [List.erase_cons_tail (by simpa using hab), List.erase_cons_head] at h

/-! ### Expressions and conditions -/

theorem chain (op? : Token → Option Opcode) {operand : Gen Unit} (h : ∀ p, P Unit p operand fun _ => p) (n : Nat)
    (p : List Nat) : P Unit p (Gen.chain op? operand n) fun _ => p := by
  induction n with
  | zero => exact R.pure p ()
  | succ n ih =>
    refine R.bind (R.peek p) fun t => ?_
    cases op? t with
    | none => exact R.pure p ()
    | some op => exact R.bind (R.advance p) fun _ => R.bind (h p) fun _ => R.bind (R.emit p op 0) fun _ => ih

theorem load {b : Binding} (hb : B b) (p : List Nat) (e : CompileError) : P Unit p (Gen.load b e) fun _ => p := by
  unfold Gen.load
  cases b.kind with
  | const value => exact R.emit p .lit value
  | var address => exact R.emitFor p .lod address hb
  | proc address => exact R.reject p _ e

theorem termOf {factor : Gen Unit} (h : ∀ p, P Unit p factor fun _ => p) (n : Nat) (p : List Nat) :
    P Unit p (Gen.termOf factor n) fun _ => p :=
  R.bind (h p) fun _ => R.chain mulOp? h n p

theorem expressionOf {factor : Gen Unit} (h : ∀ p, P Unit p factor fun _ => p) (n : Nat) (p : List Nat) :
    P Unit p (Gen.expressionOf factor n) fun _ => p := by
  have hterm := R.termOf h n p
  have htail := R.chain addOp? (R.termOf h n) n p
  refine R.bind (R.peek p) fun t => ?_
  cases t with
  | plus => exact R.bind (R.advance p) fun _ => R.bind hterm fun _ => htail
  | minus =>
    exact R.bind (R.advance p) fun _ => R.bind hterm fun _ => R.bind (R.emit p .neg 0) fun _ => htail
  | _ => exact R.bind hterm fun _ => htail

theorem factor (n : Nat) (p : List Nat) : P Unit p (Gen.factor n) fun _ => p := by
  induction n generalizing p with
  | zero => exact R.reject p _ _
  | succ n ih =>
    refine R.bind (R.peek p) fun t => ?_
    cases t with
    | ident x => exact R.lookUp x fun b hb => R.bind (R.load hb p _) fun _ => R.advance p
    | number value => exact R.bind (R.emit p .lit value) fun _ => R.advance p
    | lparen =>
      exact R.bind (R.advance p) fun _ => R.bind (R.expressionOf ih n p) fun _ => R.expect p _ _
    | _ => exact R.reject p _ _

theorem expression (n : Nat) (p : List Nat) : P Unit p (Gen.expression n) fun _ => p :=
  R.expressionOf (R.factor n) n p

theorem condition (n : Nat) (p : List Nat) : P Unit p (Gen.condition n) fun _ => p := by
  refine R.bind (R.peek p) fun t => ?_
  split
  · exact R.bind (R.advance p) fun _ => R.bind (R.expression n p) fun _ => R.emit p .odd 0
  · refine R.bind (R.expression n p) fun _ => R.bind (R.peek p) fun u => ?_
    cases relOp? u with
    | none => exact R.reject p _ _
    | some op => exact R.bind (R.advance p) fun _ => R.bind (R.expression n p) fun _ => R.emit p op 0

/-! ### Statements -/

theorem assignment (n : Nat) (x : String) (p : List Nat) : P Unit p (Gen.assignment n x) fun _ => p := by
  refine R.lookUp x fun b hb => ?_
  cases b.kind with
  | var address =>
    exact R.bind (R.advance p) fun _ => R.bind (R.expect p _ _) fun _ => R.bind (R.expression n p) fun _ =>
      R.emitFor p .sto address hb
  | _ => exact R.reject p _ _

theorem call (p : List Nat) : P Unit p Gen.call fun _ => p := by
  refine R.bind (R.advance p) fun _ => R.bind (R.peekName p _) fun x => R.lookUp x fun b hb => ?_
  cases b.kind with
  | proc address => exact R.bind (R.emitFor p .cal address hb) fun _ => R.advance p
  | _ => exact R.reject p _ _

theorem read (p : List Nat) : P Unit p Gen.read fun _ => p := by
  refine R.bind (R.advance p) fun _ => R.bind (R.peekName p _) fun x => R.lookUp x fun b hb => ?_
  cases b.kind with
  | var address =>
    exact R.bind (R.advance p) fun _ => R.bind (R.emit p .read 0) fun _ => R.emitFor p .sto address hb
  | _ => exact R.reject p _ _

theorem write (p : List Nat) : P Unit p Gen.write fun _ => p :=
  R.bind (R.advance p) fun _ => R.bind (R.peekName p _) fun x => R.lookUp x fun _ hb =>
    R.bind (R.load hb p _) fun _ => R.bind (R.emit p .write 0) fun _ => R.advance p

section

variable {statement : Gen Unit} (h : ∀ p, P Unit p statement fun _ => p)

include h

theorem statementTail (n : Nat) (p : List Nat) : P Unit p (Gen.statementTail statement n) fun _ => p := by
  induction n with
  | zero => exact R.pure p ()
  | succ n ih =>
    refine R.bind (R.peek p) fun t => ?_
    split
    · exact R.bind (R.advance p) fun _ => R.bind (h p) fun _ => ih
    · exact R.pure p ()

theorem compound (n : Nat) (p : List Nat) : P Unit p (Gen.compound statement n) fun _ => p :=
  R.bind (R.advance p) fun _ => R.bind (h p) fun _ => R.bind (R.statementTail h n p) fun _ => R.expect p _ _

/-- With an `else` the first jump is closed while the second one is open. -/
theorem ifStatement (n : Nat) (p : List Nat) : P Unit p (Gen.ifStatement statement n) fun _ => p := by
  refine R.bind (R.advance p) fun _ => R.bind (R.condition n p) fun _ => R.bind (R.expect p _ _) fun _ => ?_
  refine R.bind (R.openJump p rfl) fun toElse => R.bind (h _) fun _ => R.bind (R.peek _) fun t => ?_
  split
  · refine R.bind (R.openJump _ rfl) fun toEnd => R.bind (R.closeSecond toElse toEnd p) fun _ => ?_
    exact R.bind (R.advance _) fun _ => R.bind (h _) fun _ => R.closeLast toEnd p
  · exact R.closeLast toElse p

theorem whileStatement (n : Nat) (p : List Nat) : P Unit p (Gen.whileStatement statement n) fun _ => p := by
  refine R.bind (R.nextAddress p) fun top => R.bind (R.advance p) fun _ => R.bind (R.condition n p) fun _ => ?_
  refine R.bind (R.openJump p rfl) fun toEnd => R.bind (R.expect _ _ _) fun _ => R.bind (h _) fun _ => ?_
  exact R.bind (R.emit _ .jmp _) fun _ => R.closeLast toEnd p

end

theorem statement (n : Nat) (p : List Nat) : P Unit p (Gen.statement n) fun _ => p := by
  induction n generalizing p with
  | zero => exact R.pure p ()
  | succ n ih =>
    refine R.bind (R.peek p) fun t => ?_
    cases t with
    | ident x => exact R.assignment n x p
    | callSym => exact R.call p
    | beginSym => exact R.compound ih n p
    | ifSym => exact R.ifStatement ih n p
    | whileSym => exact R.whileStatement ih n p
    | writeSym => exact R.write p
    | readSym => exact R.read p
    | _ => exact R.pure p ()

/-! ### Lists of declarations -/

theorem commaTail {item : Gen Unit} (h : ∀ p, P Unit p item fun _ => p) (n : Nat) (p : List Nat) :
    P Unit p (Gen.commaTail item n) fun _ => p := by
  induction n with
  | zero => exact R.pure p ()
  | succ n ih =>
    refine R.bind (R.peek p) fun t => ?_
    split
    · exact R.bind (h p) fun _ => ih
    · exact R.pure p ()

end FlatRules

/-- The rules for all productions. -/
structure Rules (P : (α : Type) → List Nat → Gen α → (α → List Nat) → Prop) (B : Binding → Prop) : Prop where
  pure {α : Type} (p : List Nat) (a : α) : P α p (pure a) fun _ => p
  bind {α β : Type} {p : List Nat} {q : α → List Nat} {r : β → List Nat} {g : Gen α} {f : α → Gen β} :
    P α p g q → (∀ a, P β (q a) (f a) r) → P β p (g >>= f) r
  reject {α : Type} (p : List Nat) (q : α → List Nat) (e : CompileError) : P α p (Gen.reject e) q
  peek (p : List Nat) : P Token p Gen.peek fun _ => p
  advance (p : List Nat) : P Unit p Gen.advance fun _ => p
  nextAddress (p : List Nat) : P Nat p Gen.nextAddress fun _ => p
  declare (p : List Nat) (name : String) (kind : SymbolKind) : P Nat p (Gen.declare name kind) fun _ => p
  lookUp {β : Type} {p : List Nat} {r : β → List Nat} {f : Binding → Gen β} (x : String) :
    (∀ b, B b → P β p (f b) r) → P β p (Gen.lookUp x >>= f) r
  emit (p : List Nat) (op : Opcode) (m : Int32) : P Unit p (Gen.emit op 0 m) fun _ => p
  emitFor {b : Binding} (p : List Nat) (op : Opcode) (m : Int32) : B b → P Unit p (Gen.emit op b.levelDiff m) fun _ => p
  openJump {op : Opcode} (p : List Nat) : op.isJump → P Nat p (Gen.openJump op) fun a => a :: p
  closeJump {p : List Nat} {a : Nat} : a ∈ p → P Unit p (Gen.closeJump a) fun _ => p.erase a
  body {block next : Gen Unit} {p : List Nat} (name : String) (address : Int32) (e : CompileError) :
    (∀ p, P Unit p block fun _ => p) → (P Unit p next fun _ => p) →
    P Unit p (do
      let id ← Gen.declare name (.proc address)
      Gen.expect .semicolon e
      Gen.inBody name id block
      next) fun _ => p

namespace Rules

variable {P : (α : Type) → List Nat → Gen α → (α → List Nat) → Prop} {B : Binding → Prop} (R : Rules P B)

include R

theorem flat : FlatRules P B where
  pure := R.pure
  bind := R.bind
  reject := R.reject
  peek := R.peek
  advance := R.advance
  nextAddress := R.nextAddress
  lookUp := R.lookUp
  emit := R.emit
  emitFor := R.emitFor
  openJump := R.openJump
  closeJump := R.closeJump

theorem constItem (p : List Nat) : P Unit p Gen.constItem fun _ => p :=
  R.bind (R.advance p) fun _ => R.bind (R.flat.takeName p _) fun x => R.bind (R.flat.expect p _ _) fun _ =>
    R.bind (R.flat.takeNumber p _) fun v => R.bind (R.declare p x (.const v)) fun _ => R.pure p ()

theorem varItem (p : List Nat) : P Unit p Gen.varItem fun _ => p :=
  R.bind (R.advance p) fun _ => R.bind (R.nextAddress p) fun a => R.bind (R.flat.takeName p _) fun x =>
    R.bind (R.declare p x (.var (Int32.ofNat a))) fun _ => R.emit p .inc 1

theorem constDeclaration (n : Nat) (p : List Nat) : P Unit p (Gen.constDeclaration n) fun _ => p := by
  refine R.bind (R.peek p) fun t => ?_
  split
  · exact R.bind (R.constItem p) fun _ => R.bind (R.flat.commaTail R.constItem n p) fun _ => R.flat.expect p _ _
  · exact R.pure p ()

theorem varDeclaration (n : Nat) (p : List Nat) : P Unit p (Gen.varDeclaration n) fun _ => p := by
  refine R.bind (R.peek p) fun t => ?_
  split
  · exact R.bind (R.varItem p) fun _ => R.bind (R.flat.commaTail R.varItem n p) fun _ => R.flat.expect p _ _
  · exact R.pure p ()

theorem procedure {block : Gen Unit} (h : ∀ p, P Unit p block fun _ => p) (p : List Nat) :
    P Unit p (Gen.procedure block) fun _ => p :=
  R.bind (R.nextAddress p) fun a => R.bind (R.advance p) fun _ => R.bind (R.flat.takeName p _) fun x =>
    R.body x (Int32.ofNat a) _ h (R.flat.expect p _ _)

theorem procedures {block : Gen Unit} (h : ∀ p, P Unit p block fun _ => p) (n : Nat) (p : List Nat) :
    P Unit p (Gen.procedures block n) fun _ => p := by
  induction n with
  | zero => exact R.pure p ()
  | succ n ih =>
    refine R.bind (R.peek p) fun t => ?_
    split
    · exact R.bind (R.procedure h p) fun _ => ih
    · exact R.pure p ()

theorem blockOf {procedures : Gen Unit} (h : ∀ p, P Unit p procedures fun _ => p) (n : Nat) (p : List Nat) :
    P Unit p (Gen.blockOf procedures n) fun _ => p := by
  refine R.bind (R.openJump p rfl) fun skip => R.bind (R.constDeclaration n _) fun _ => ?_
  refine R.bind (R.varDeclaration n _) fun _ => R.bind (h _) fun _ => R.bind (R.flat.closeLast skip p) fun _ => ?_
  exact R.bind (R.emit p .inc frameSize) fun _ => R.bind (R.flat.statement n p) fun _ => R.emit p .rtn 0

theorem block (n : Nat) (p : List Nat) : P Unit p (Gen.block n) fun _ => p := by
  induction n generalizing p with
  | zero => exact R.blockOf (fun p => R.pure p ()) 0 p
  | succ n ih => exact R.blockOf (R.procedures ih (n + 1)) (n + 1) p

theorem program (n : Nat) (p : List Nat) : P Unit p (Gen.program n) fun _ => p :=
  R.bind (R.block n p) fun _ => R.bind (R.flat.expect p _ _) fun _ => R.emit p .halt haltModifier

end Rules

end PL0.Gen
