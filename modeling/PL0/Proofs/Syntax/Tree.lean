import PL0.Symbol
import PL0.Token

/-!
# Syntax trees

The derivations of the grammar

    program     ::= block "."
    block       ::= [const-decl] [var-decl] {proc-decl} statement
    const-decl  ::= "const" name "=" number {"," name "=" number} ";"
    var-decl    ::= "var" name {"," name} ";"
    proc-decl   ::= "procedure" name ";" block ";"
    statement   ::= [ name ":=" expression
                    | "call" name
                    | "begin" statement {";" statement} "end"
                    | "if" condition "then" statement ["else" statement]
                    | "while" condition "do" statement
                    | "read" name
                    | "write" name ]
    condition   ::= "odd" expression | expression rel-op expression
    expression  ::= ["+" | "-"] term {("+" | "-") term}
    term        ::= factor {("*" | "/") factor}
    factor      ::= name | number | "(" expression ")"

as trees: one type for each nonterminal and one for each repetition, with the sentence that a tree derives
(`Block.tokens`).  The grammar leaves open to which `if` an `else` belongs; a tree is *else-bound* if every `else`
belongs to the nearest `if` that is still open (`Block.elseBound`).  A tree is *scoped* if every name that the
statement of a block uses is declared in this block itself, as something that may be used there
(`Block.scoped`).  The latest declaration of a name counts, and what other blocks declare does not.
-/

namespace PL0

/-! ### Operators -/

inductive AddOp where
  | plus
  | minus
deriving DecidableEq

inductive MulOp where
  | times
  | slash
deriving DecidableEq

inductive RelOp where
  | eql
  | neq
  | lss
  | leq
  | gtr
  | geq
deriving DecidableEq

def AddOp.token : AddOp → Token
  | .plus => .plus
  | .minus => .minus

def MulOp.token : MulOp → Token
  | .times => .times
  | .slash => .slash

def RelOp.token : RelOp → Token
  | .eql => .eql
  | .neq => .neq
  | .lss => .lss
  | .leq => .leq
  | .gtr => .gtr
  | .geq => .geq

/-! ### Trees -/

mutual

inductive Expression where
  | mk (sign : Option AddOp) (first : Term) (rest : TermTail)

inductive TermTail where
  | nil
  | cons (op : AddOp) (term : Term) (rest : TermTail)

inductive Term where
  | mk (first : Factor) (rest : FactorTail)

inductive FactorTail where
  | nil
  | cons (op : MulOp) (factor : Factor) (rest : FactorTail)

inductive Factor where
  | name (x : String)
  | number (value : Int32)
  | paren (inner : Expression)

end

inductive Condition where
  | odd (e : Expression)
  | compare (left : Expression) (op : RelOp) (right : Expression)

mutual

inductive Statement where
  | empty
  | assign (x : String) (e : Expression)
  | call (p : String)
  | compound (first : Statement) (rest : StatementTail)
  | ifThen (c : Condition) (s : Statement)
  | ifElse (c : Condition) (s t : Statement)
  | whileDo (c : Condition) (s : Statement)
  | read (x : String)
  | write (x : String)

inductive StatementTail where
  | nil
  | cons (s : Statement) (rest : StatementTail)

end

mutual

inductive Block where
  | mk (consts : List (String × Int32)) (vars : List String) (procs : Procedures) (body : Statement)

inductive Procedures where
  | nil
  | cons (name : String) (block : Block) (rest : Procedures)

end

namespace Block

def consts : Block → List (String × Int32)
  | .mk consts _ _ _ => consts

def vars : Block → List String
  | .mk _ vars _ _ => vars

def procs : Block → Procedures
  | .mk _ _ procs _ => procs

def body : Block → Statement
  | .mk _ _ _ body => body

end Block

/-! ### Sentences -/

mutual

def Expression.tokens : Expression → List Token
  | .mk sign first rest => (sign.map AddOp.token).toList ++ (first.tokens ++ rest.tokens)

def TermTail.tokens : TermTail → List Token
  | .nil => []
  | .cons op term rest => op.token :: (term.tokens ++ rest.tokens)

def Term.tokens : Term → List Token
  | .mk first rest => first.tokens ++ rest.tokens

def FactorTail.tokens : FactorTail → List Token
  | .nil => []
  | .cons op factor rest => op.token :: (factor.tokens ++ rest.tokens)

def Factor.tokens : Factor → List Token
  | .name x => [.ident x]
  | .number value => [.number value]
  | .paren inner => .lparen :: (inner.tokens ++ [.rparen])

end

def Condition.tokens : Condition → List Token
  | .odd e => .oddSym :: e.tokens
  | .compare left op right => left.tokens ++ op.token :: right.tokens

mutual

def Statement.tokens : Statement → List Token
  | .empty => []
  | .assign x e => .ident x :: .becomes :: e.tokens
  | .call p => [.callSym, .ident p]
  | .compound first rest => .beginSym :: (first.tokens ++ (rest.tokens ++ [.endSym]))
  | .ifThen c s => .ifSym :: (c.tokens ++ .thenSym :: s.tokens)
  | .ifElse c s t => .ifSym :: (c.tokens ++ .thenSym :: (s.tokens ++ .elseSym :: t.tokens))
  | .whileDo c s => .whileSym :: (c.tokens ++ .doSym :: s.tokens)
  | .read x => [.readSym, .ident x]
  | .write x => [.writeSym, .ident x]

def StatementTail.tokens : StatementTail → List Token
  | .nil => []
  | .cons s rest => .semicolon :: (s.tokens ++ rest.tokens)

end

/-- The items of a declaration, after a keyword and with commas between them.  Without items there is nothing. -/
def listTokens {α : Type} (keyword : Token) (item : α → List Token) : List α → List Token
  | [] => []
  | a :: rest => keyword :: (item a ++ (rest.flatMap (fun b => .comma :: item b) ++ [.semicolon]))

def constTokens (item : String × Int32) : List Token :=
  [.ident item.1, .eql, .number item.2]

def varTokens (x : String) : List Token :=
  [.ident x]

mutual

def Block.tokens : Block → List Token
  | .mk consts vars procs body =>
    listTokens .constSym constTokens consts ++ (listTokens .varSym varTokens vars ++ (procs.tokens ++ body.tokens))

def Procedures.tokens : Procedures → List Token
  | .nil => []
  | .cons name block rest => .procSym :: .ident name :: .semicolon :: (block.tokens ++ .semicolon :: rest.tokens)

end

/-! ### Which `if` an `else` belongs to -/

/-- Whether an `else` that follows the statement would continue it. -/
def Statement.endsOpen : Statement → Bool
  | .ifThen _ _ => true
  | .ifElse _ _ t => t.endsOpen
  | .whileDo _ s => s.endsOpen
  | _ => false

mutual

def Statement.elseBound : Statement → Bool
  | .compound first rest => first.elseBound && rest.elseBound
  | .ifThen _ s => s.elseBound
  | .ifElse _ s t => s.elseBound && !s.endsOpen && t.elseBound
  | .whileDo _ s => s.elseBound
  | _ => true

def StatementTail.elseBound : StatementTail → Bool
  | .nil => true
  | .cons s rest => s.elseBound && rest.elseBound

end

mutual

def Block.elseBound : Block → Bool
  | .mk _ _ procs body => procs.elseBound && body.elseBound

def Procedures.elseBound : Procedures → Bool
  | .nil => true
  | .cons _ block rest => block.elseBound && rest.elseBound

end

/-! ### Declarations -/

/-- What a block declares a name to be. -/
inductive Declaration where
  | const (value : Int32)
  | var
  | proc (block : Block)

/-- The sorts of names. -/
inductive NameSort where
  | const
  | var
  | proc
deriving DecidableEq

def Declaration.sort : Declaration → NameSort
  | .const _ => .const
  | .var => .var
  | .proc _ => .proc

def SymbolKind.sort : SymbolKind → NameSort
  | .const _ => .const
  | .var _ => .var
  | .proc _ => .proc

/-- The last entry for a key. -/
def latest {α : Type} : List (String × α) → String → Option α
  | [], _ => none
  | (y, a) :: rest, x => (latest rest x).or (if y = x then some a else none)

def Procedures.declarations : Procedures → List (String × Declaration)
  | .nil => []
  | .cons name block rest => (name, .proc block) :: rest.declarations

/-- The declarations of a block, in the order in which they are written.  Those of its procedures are not among
them. -/
def Block.declarations (b : Block) : List (String × Declaration) :=
  b.consts.map (fun item => (item.1, .const item.2)) ++ (b.vars.map (fun x => (x, .var)) ++ b.procs.declarations)

/-- What a name means in the statement of a block. -/
def Block.meaning (b : Block) : String → Option Declaration :=
  latest b.declarations

def Block.sortOf (b : Block) (x : String) : Option NameSort :=
  (b.meaning x).map Declaration.sort

theorem latest_append {α : Type} (l l' : List (String × α)) (x : String) :
    latest (l ++ l') x = (latest l' x).or (latest l x) := by
  induction l with
  | nil => simp [latest]
  | cons p l ih => simp [latest, ih, Option.or_assoc]

theorem latest_map {α β : Type} (f : String → α → β) (l : List (String × α)) (x : String) :
    latest (l.map fun p => (p.1, f p.1 p.2)) x = (latest l x).map (f x) := by
  induction l with
  | nil => rfl
  | cons p l ih =>
    simp only [List.map_cons, latest, ih]
    cases latest l x with
    | some a => simp
    | none =>
      by_cases h : p.1 = x
      · subst h
        simp
      · simp [h]

theorem mem_of_latest {α : Type} {l : List (String × α)} {x : String} {a : α} (h : latest l x = some a) :
    (x, a) ∈ l := by
  induction l with
  | nil => simp [latest] at h
  | cons p l ih =>
    simp only [latest, Option.or_eq_some_iff] at h
    rcases h with h | ⟨-, h⟩
    · exact List.mem_cons_of_mem _ (ih h)
    · by_cases hp : p.1 = x
      · simp only [hp, ↓reduceIte, Option.some.injEq] at h
        subst hp h
        exact List.mem_cons_self
      · simp [hp] at h

/-! ### Scoping -/

section

variable (sortOf : String → Option NameSort)

/-- Whether a name stands for a value. -/
def isValue (x : String) : Bool :=
  sortOf x = some .const || sortOf x = some .var

mutual

def Expression.scoped : Expression → Bool
  | .mk _ first rest => first.scoped && rest.scoped

def TermTail.scoped : TermTail → Bool
  | .nil => true
  | .cons _ term rest => term.scoped && rest.scoped

def Term.scoped : Term → Bool
  | .mk first rest => first.scoped && rest.scoped

def FactorTail.scoped : FactorTail → Bool
  | .nil => true
  | .cons _ factor rest => factor.scoped && rest.scoped

def Factor.scoped : Factor → Bool
  | .name x => isValue sortOf x
  | .number _ => true
  | .paren inner => inner.scoped

end

def Condition.scoped : Condition → Bool
  | .odd e => e.scoped sortOf
  | .compare left _ right => left.scoped sortOf && right.scoped sortOf

mutual

def Statement.scoped : Statement → Bool
  | .empty => true
  | .assign x e => sortOf x = some .var && e.scoped sortOf
  | .call p => sortOf p = some .proc
  | .compound first rest => first.scoped && rest.scoped
  | .ifThen c s => c.scoped sortOf && s.scoped
  | .ifElse c s t => c.scoped sortOf && (s.scoped && t.scoped)
  | .whileDo c s => c.scoped sortOf && s.scoped
  | .read x => sortOf x = some .var
  | .write x => isValue sortOf x

def StatementTail.scoped : StatementTail → Bool
  | .nil => true
  | .cons s rest => s.scoped && rest.scoped

end

end

mutual

def Block.scoped : Block → Bool
  | .mk consts vars procs body => procs.scoped && body.scoped (Block.mk consts vars procs body).sortOf

def Procedures.scoped : Procedures → Bool
  | .nil => true
  | .cons _ block rest => block.scoped && rest.scoped

end

/-! ### Programs -/

/-- `b` is a syntax tree of the program at the start of `tokens`: the tokens begin with a sentence of `b` and a
period.  Every `else` belongs to the nearest `if` that is still open. -/
def Block.IsTreeOf (b : Block) (tokens : List Token) : Prop :=
  b.elseBound ∧ ∃ rest, tokens = b.tokens ++ .period :: rest

end PL0
