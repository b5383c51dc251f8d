import PL0.Instruction
import PL0.Proofs.Syntax.Tree

/-!
# Translation of syntax trees

The code of a syntax tree, by recursion on the tree.  The translation of a statement takes the address at which its
code starts and the names that the block around it declares; jump targets are sums of the start address and the sizes
of the parts:

    odd e                       e; ODD
    left ~ right                left; right; ~
    x := e                      e; STO x
    call p                      CAL p
    begin s; …; t end           s; …; t
    if c then s                 c; JPC end; s
    if c then s else t          c; JPC else; s; JMP end; t
    while c do s                top: c; JPC end; s; JMP top
    read x                      READ; STO x
    write x                     load x; WRITE
    block                       JMP body; INC 1 for each variable; the procedures; INC 4; statement; RTN

The address of a variable is that of its `INC`, the address of a procedure that of the first jump of its block.
`Block.symbols` lists all declarations of a block and of the procedures in it.
-/

namespace PL0

/-- What the names of a block stand for. -/
abbrev Env := String → Option SymbolKind

/-- The sorts of the names of an environment. -/
def Env.sortOf (env : Env) (x : String) : Option NameSort :=
  (env x).map SymbolKind.sort

/-- An instruction that stays in the frame of its block. -/
def instruction (op : Opcode) (m : Int32) : Instruction :=
  ⟨op, 0, 0, m⟩

/-- An instruction that refers to a place in the code. -/
def refer (op : Opcode) (address : Nat) : Instruction :=
  instruction op (Int32.ofNat address)

/-- The value or the address of a name. -/
def Env.value (env : Env) (x : String) : Int32 :=
  ((env x).map SymbolKind.value).getD 0

/-- The instruction that pushes the value of a name. -/
def Env.load (env : Env) (x : String) : Instruction :=
  match env x with
  | some (.const value) => instruction .lit value
  | _ => instruction .lod (env.value x)

/-! ### Operators -/

def AddOp.opcode : AddOp → Opcode
  | .plus => .add
  | .minus => .sub

def MulOp.opcode : MulOp → Opcode
  | .times => .mul
  | .slash => .div

def RelOp.opcode : RelOp → Opcode
  | .eql => .eql
  | .neq => .neq
  | .lss => .lss
  | .leq => .leq
  | .gtr => .gtr
  | .geq => .geq

/-- The code of a sign in front of an expression, which comes after the first term. -/
def signCode : Option AddOp → List Instruction
  | some .minus => [instruction .neg 0]
  | _ => []

/-! ### Expressions and conditions -/

section

variable (env : Env)

mutual

def Expression.code : Expression → List Instruction
  | .mk sign first rest => first.code ++ (signCode sign ++ rest.code)

def TermTail.code : TermTail → List Instruction
  | .nil => []
  | .cons op term rest => term.code ++ instruction op.opcode 0 :: rest.code

def Term.code : Term → List Instruction
  | .mk first rest => first.code ++ rest.code

def FactorTail.code : FactorTail → List Instruction
  | .nil => []
  | .cons op factor rest => factor.code ++ instruction op.opcode 0 :: rest.code

def Factor.code : Factor → List Instruction
  | .name x => [env.load x]
  | .number value => [instruction .lit value]
  | .paren inner => inner.code

end

def Condition.code : Condition → List Instruction
  | .odd e => e.code env ++ [instruction .odd 0]
  | .compare left op right => left.code env ++ (right.code env ++ [instruction op.opcode 0])

end

/-! ### Sizes -/

mutual

def Expression.size : Expression → Nat
  | .mk sign first rest => first.size + (signCode sign).length + rest.size

def TermTail.size : TermTail → Nat
  | .nil => 0
  | .cons _ term rest => term.size + 1 + rest.size

def Term.size : Term → Nat
  | .mk first rest => first.size + rest.size

def FactorTail.size : FactorTail → Nat
  | .nil => 0
  | .cons _ factor rest => factor.size + 1 + rest.size

def Factor.size : Factor → Nat
  | .name _ => 1
  | .number _ => 1
  | .paren inner => inner.size

end

def Condition.size : Condition → Nat
  | .odd e => e.size + 1
  | .compare left _ right => left.size + right.size + 1

mutual

def Statement.size : Statement → Nat
  | .empty => 0
  | .assign _ e => e.size + 1
  | .call _ => 1
  | .compound first rest => first.size + rest.size
  | .ifThen c s => c.size + 1 + s.size
  | .ifElse c s t => c.size + 1 + s.size + 1 + t.size
  | .whileDo c s => c.size + 1 + s.size + 1
  | .read _ => 2
  | .write _ => 2

def StatementTail.size : StatementTail → Nat
  | .nil => 0
  | .cons s rest => s.size + rest.size

end

mutual

def Block.size : Block → Nat
  | .mk _ vars procs body => 1 + vars.length + procs.size + 1 + body.size + 1

def Procedures.size : Procedures → Nat
  | .nil => 0
  | .cons _ block rest => block.size + rest.size

end

/-! ### Statements -/

section

variable (env : Env)

mutual

def Statement.code : Statement → Nat → List Instruction
  | .empty, _ => []
  | .assign x e, _ => e.code env ++ [instruction .sto (env.value x)]
  | .call p, _ => [instruction .cal (env.value p)]
  | .compound first rest, start => first.code start ++ rest.code (start + first.size)
  | .ifThen c s, start =>
    c.code env ++ refer .jpc (start + c.size + 1 + s.size) :: s.code (start + c.size + 1)
  | .ifElse c s t, start =>
    c.code env ++ refer .jpc (start + c.size + 1 + s.size + 1) ::
      (s.code (start + c.size + 1) ++ refer .jmp (start + c.size + 1 + s.size + 1 + t.size) ::
        t.code (start + c.size + 1 + s.size + 1))
  | .whileDo c s, start =>
    c.code env ++ refer .jpc (start + c.size + 1 + s.size + 1) ::
      (s.code (start + c.size + 1) ++ [refer .jmp start])
  | .read x, _ => [instruction .read 0, instruction .sto (env.value x)]
  | .write x, _ => [env.load x, instruction .write 0]

def StatementTail.code : StatementTail → Nat → List Instruction
  | .nil, _ => []
  | .cons s rest, start => s.code start ++ rest.code (start + s.size)

end

end

/-! ### Blocks -/

def varNames : List String → Nat → List (String × SymbolKind)
  | [], _ => []
  | x :: rest, start => (x, .var (Int32.ofNat start)) :: varNames rest (start + 1)

def Procedures.names : Procedures → Nat → List (String × SymbolKind)
  | .nil, _ => []
  | .cons name block rest, start => (name, .proc (Int32.ofNat start)) :: rest.names (start + block.size)

/-- The address of the code of the first procedure of a block. -/
def Block.procsStart (b : Block) (start : Nat) : Nat :=
  start + 1 + b.vars.length

/-- The address to which the first jump of a block goes. -/
def Block.entry (b : Block) (start : Nat) : Nat :=
  b.procsStart start + b.procs.size

/-- The declarations of a block with the addresses they get. -/
def Block.names (b : Block) (start : Nat) : List (String × SymbolKind) :=
  b.consts.map (fun item => (item.1, .const item.2)) ++
    (varNames b.vars (start + 1) ++ b.procs.names (b.procsStart start))

def Block.env (b : Block) (start : Nat) : Env :=
  latest (b.names start)

mutual

def Block.code : Block → Nat → List Instruction
  | .mk consts vars procs body, start =>
    let b := Block.mk consts vars procs body
    refer .jmp (b.entry start) ::
      (vars.map (fun _ => instruction .inc 1) ++
        (procs.code (b.procsStart start) ++
          instruction .inc 4 :: (body.code (b.env start) (b.entry start + 1) ++ [instruction .rtn 0])))

def Procedures.code : Procedures → Nat → List Instruction
  | .nil, _ => []
  | .cons _ block rest, start => block.code start ++ rest.code (start + block.size)

end

/-- The code of a whole program. -/
def Block.program (b : Block) : List Instruction :=
  b.code 0 ++ [instruction .halt 3]

mutual

/-- The declarations of a block and of its procedures.  The first one gets the id `id`. -/
def Block.symbols : Block → (start level : Nat) → Scope → (id : Nat) → List Symbol
  | .mk consts vars procs body, start, level, scope, id =>
    let b := Block.mk consts vars procs body
    consts.map (fun item => ⟨item.1, .const item.2, level, scope⟩) ++
      ((varNames vars (start + 1)).map (fun item => ⟨item.1, item.2, level, scope⟩) ++
        procs.symbols (b.procsStart start) level scope (id + consts.length + vars.length))

def Procedures.symbols : Procedures → (start level : Nat) → Scope → (id : Nat) → List Symbol
  | .nil, _, _, _, _ => []
  | .cons name block rest, start, level, scope, id =>
    let inner := block.symbols start (level + 1) (some id) (id + 1)
    ⟨name, .proc (Int32.ofNat start), level, scope⟩ ::
      (inner ++ rest.symbols (start + block.size) level scope (id + 1 + inner.length))

end

/-! ### The size is the number of instructions -/

section

variable {env : Env}

mutual

@[simp] theorem Expression.length_code : ∀ e : Expression, (e.code env).length = e.size
  | .mk sign first rest => by
    simp only [Expression.code, Expression.size, List.length_append, first.length_code, rest.length_code]
    omega

@[simp] theorem TermTail.length_code : ∀ l : TermTail, (l.code env).length = l.size
  | .nil => rfl
  | .cons op term rest => by
    simp only [TermTail.code, TermTail.size, List.length_append, List.length_cons, term.length_code, rest.length_code]
    omega

@[simp] theorem Term.length_code : ∀ t : Term, (t.code env).length = t.size
  | .mk first rest => by
    simp only [Term.code, Term.size, List.length_append, first.length_code, rest.length_code]

@[simp] theorem FactorTail.length_code : ∀ l : FactorTail, (l.code env).length = l.size
  | .nil => rfl
  | .cons op factor rest => by
    simp only [FactorTail.code, FactorTail.size, List.length_append, List.length_cons, factor.length_code,
      rest.length_code]
    omega

@[simp] theorem Factor.length_code : ∀ f : Factor, (f.code env).length = f.size
  | .name _ => rfl
  | .number _ => rfl
  | .paren inner => by simp only [Factor.code, Factor.size, inner.length_code]

end

@[simp] theorem Condition.length_code (c : Condition) : (c.code env).length = c.size := by
  cases c with
  | odd e => simp [Condition.code, Condition.size]
  | compare left op right => simp [Condition.code, Condition.size]; omega

mutual

@[simp] theorem Statement.length_code : ∀ (s : Statement) (start : Nat), (s.code env start).length = s.size
  | .empty, _ => rfl
  | .assign x e, _ => by simp [Statement.code, Statement.size]
  | .call _, _ => rfl
  | .compound first rest, start => by
    simp only [Statement.code, Statement.size, List.length_append, first.length_code, rest.length_code]
  | .ifThen c s, start => by
    simp only [Statement.code, Statement.size, List.length_append, List.length_cons, c.length_code, s.length_code]
    omega
  | .ifElse c s t, start => by
    simp only [Statement.code, Statement.size, List.length_append, List.length_cons, c.length_code, s.length_code,
      t.length_code]
    omega
  | .whileDo c s, start => by
    simp only [Statement.code, Statement.size, List.length_append, List.length_cons, List.length_nil, c.length_code,
      s.length_code]
    omega
  | .read _, _ => rfl
  | .write _, _ => rfl

@[simp] theorem StatementTail.length_code : ∀ (l : StatementTail) (start : Nat), (l.code env start).length = l.size
  | .nil, _ => rfl
  | .cons s rest, start => by
    simp only [StatementTail.code, StatementTail.size, List.length_append, s.length_code, rest.length_code]

end

end

mutual

@[simp] theorem Block.length_code : ∀ (b : Block) (start : Nat), (b.code start).length = b.size
  | .mk consts vars procs body, start => by
    simp only [Block.code, Block.size, List.length_append, List.length_cons, List.length_map, List.length_nil,
      procs.length_code, Statement.length_code]
    omega

@[simp] theorem Procedures.length_code : ∀ (l : Procedures) (start : Nat), (l.code start).length = l.size
  | .nil, _ => rfl
  | .cons _ block rest, start => by
    simp only [Procedures.code, Procedures.size, List.length_append, block.length_code, rest.length_code]

end

@[simp] theorem length_varNames (vars : List String) (start : Nat) : (varNames vars start).length = vars.length := by
  induction vars generalizing start with
  | nil => rfl
  | cons x vars ih => simp [varNames, ih]

end PL0
