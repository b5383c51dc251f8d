import PL0.Proofs.Syntax.Tree

/-!
# Evaluation of syntax trees

What a program means, by the structure of its tree.  `Expression.eval` is the value of an expression, if it has one: a
division may have no result.  `Exec ops b s w w'` says that the statement `s` of the block `b`, started in the world
`w`, ends in the world `w'`.  A world has the values of the variables of the current activation, the input that has not
been read and what has been written.  A name means the latest declaration of it in the block itself; a call runs the
procedure so named with variables of its own, which are zero in the beginning.
-/

namespace PL0

/-! ### Expressions -/

/-- An interpretation of the arithmetic operations. -/
structure Arithmetic where
  neg : Int → Int
  add : Int → Int → Int
  sub : Int → Int → Int
  mul : Int → Int → Int
  div : Int → Int → Option Int

def AddOp.apply (ops : Arithmetic) : AddOp → Int → Int → Int
  | .plus => ops.add
  | .minus => ops.sub

def MulOp.apply (ops : Arithmetic) : MulOp → Int → Int → Option Int
  | .times, a, b => some (ops.mul a b)
  | .slash, a, b => ops.div a b

def RelOp.holds : RelOp → Int → Int → Bool
  | .eql, a, b => a = b
  | .neq, a, b => a ≠ b
  | .lss, a, b => a < b
  | .leq, a, b => a ≤ b
  | .gtr, a, b => a > b
  | .geq, a, b => a ≥ b

/-- A sign in front of an expression, which belongs to the first term. -/
def applySign (ops : Arithmetic) : Option AddOp → Int → Int
  | some .minus, a => ops.neg a
  | _, a => a

section

variable (ops : Arithmetic) (value : String → Option Int)

mutual

def Expression.eval : Expression → Option Int
  | .mk sign first rest => first.eval.bind fun a => rest.eval (applySign ops sign a)

def TermTail.eval : TermTail → Int → Option Int
  | .nil, a => some a
  | .cons op term rest, a => term.eval.bind fun b => rest.eval (op.apply ops a b)

def Term.eval : Term → Option Int
  | .mk first rest => first.eval.bind fun a => rest.eval a

def FactorTail.eval : FactorTail → Int → Option Int
  | .nil, a => some a
  | .cons op factor rest, a => factor.eval.bind fun b => (op.apply ops a b).bind fun c => rest.eval c

def Factor.eval : Factor → Option Int
  | .name x => value x
  | .number v => some v.toInt
  | .paren inner => inner.eval

end

def Condition.eval : Condition → Option Bool
  | .odd e => (e.eval ops value).map fun a => a % 2 = 1
  | .compare left op right =>
    (left.eval ops value).bind fun a => (right.eval ops value).map fun b => op.holds a b

end

/-! ### Statements -/

/-- The values of the variables, the input that is left and the output. -/
structure World where
  store : String → Int
  input : List Int
  output : List Int

/-- The value of a name in a block. -/
def Block.value (b : Block) (store : String → Int) (x : String) : Option Int :=
  match b.meaning x with
  | some (.const v) => some v.toInt
  | some .var => some (store x)
  | _ => none

def World.assign (w : World) (x : String) (v : Int) : World :=
  { w with store := fun y => if y = x then v else w.store y }

/-- The world in which a procedure that is called in `w` starts. -/
def World.entered (w : World) : World :=
  { w with store := fun _ => 0 }

inductive Exec (ops : Arithmetic) : Block → Statement → World → World → Prop
  | empty (b : Block) (w : World) : Exec ops b .empty w w
  | assign {b : Block} {x : String} {e : Expression} {w : World} {v : Int} :
      b.meaning x = some .var → e.eval ops (b.value w.store) = some v → Exec ops b (.assign x e) w (w.assign x v)
  | call {b q : Block} {p : String} {w w' : World} :
      b.meaning p = some (.proc q) → Exec ops q q.body w.entered w' →
      Exec ops b (.call p) w { w' with store := w.store }
  | last {b : Block} {s : Statement} {w w' : World} : Exec ops b s w w' → Exec ops b (.compound s .nil) w w'
  | sequence {b : Block} {s t : Statement} {rest : StatementTail} {w w' w'' : World} :
      Exec ops b s w w' → Exec ops b (.compound t rest) w' w'' → Exec ops b (.compound s (.cons t rest)) w w''
  | ifThen {b : Block} {c : Condition} {s : Statement} {w w' : World} :
      c.eval ops (b.value w.store) = some true → Exec ops b s w w' → Exec ops b (.ifThen c s) w w'
  | ifNot {b : Block} {c : Condition} {s : Statement} {w : World} :
      c.eval ops (b.value w.store) = some false → Exec ops b (.ifThen c s) w w
  | thenBranch {b : Block} {c : Condition} {s t : Statement} {w w' : World} :
      c.eval ops (b.value w.store) = some true → Exec ops b s w w' → Exec ops b (.ifElse c s t) w w'
  | elseBranch {b : Block} {c : Condition} {s t : Statement} {w w' : World} :
      c.eval ops (b.value w.store) = some false → Exec ops b t w w' → Exec ops b (.ifElse c s t) w w'
  | whileDone {b : Block} {c : Condition} {s : Statement} {w : World} :
      c.eval ops (b.value w.store) = some false → Exec ops b (.whileDo c s) w w
  | whileTurn {b : Block} {c : Condition} {s : Statement} {w w' w'' : World} :
      c.eval ops (b.value w.store) = some true → Exec ops b s w w' → Exec ops b (.whileDo c s) w' w'' →
      Exec ops b (.whileDo c s) w w''
  | read {b : Block} {x : String} {w : World} {v : Int} {rest : List Int} :
      b.meaning x = some .var → w.input = v :: rest → Exec ops b (.read x) w { w.assign x v with input := rest }
  | write {b : Block} {x : String} {w : World} {v : Int} :
      b.value w.store x = some v → Exec ops b (.write x) w { w with output := w.output ++ [v] }

/-- The program `b`, started with `input`, ends with `rest` left of the input and writes `output`. -/
def Block.Evaluates (ops : Arithmetic) (b : Block) (input rest output : List Int) : Prop :=
  ∃ store, Exec ops b b.body ⟨fun _ => 0, input, []⟩ ⟨store, rest, output⟩

end PL0
