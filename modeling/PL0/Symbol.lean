import PL0.Text.Numeral

/-!
# Symbols and scopes

The declarations of a program, in the order in which they were made.  A symbol's position in the table is its id; the
scope of a declaration is the id of the procedure around it, or nothing at the top level.  `SymbolTable.lookup`
searches a scope and then the scopes around it, and in each of them the latest declaration counts.
-/

namespace PL0

/-- The procedure around a declaration, by its id. -/
abbrev Scope := Option Nat

/-- What a name stands for.  The address of a procedure is where its code starts. -/
inductive SymbolKind where
  | const (value : Int32)
  | var (address : Int32)
  | proc (address : Int32)
deriving DecidableEq

def SymbolKind.name : SymbolKind → String
  | .const _ => "const"
  | .var _ => "var"
  | .proc _ => "procedure"

/-- The constant or the address. -/
def SymbolKind.value : SymbolKind → Int32
  | .const value => value
  | .var address => address
  | .proc address => address

/-- A declaration.  Its level is the number of procedure bodies around it. -/
structure Symbol where
  name : String
  kind : SymbolKind
  level : Nat
  scope : Scope
deriving DecidableEq

/-- All declarations so far. -/
structure SymbolTable where
  symbols : Array Symbol
deriving DecidableEq

namespace SymbolTable

def empty : SymbolTable :=
  ⟨#[]⟩

/-- The id of the next declaration. -/
def size (table : SymbolTable) : Nat :=
  table.symbols.size

/-- Adds a declaration; its id is the size before.  A name may be declared again. -/
def insert (table : SymbolTable) (symbol : Symbol) : SymbolTable :=
  ⟨table.symbols.push symbol⟩

def get? (table : SymbolTable) (id : Nat) : Option Symbol :=
  table.symbols[id]?

/-- Whether the symbol `id` declares `name` directly in `scope`. -/
def declares (table : SymbolTable) (scope : Scope) (name : String) (id : Nat) : Bool :=
  (table.get? id).any fun symbol => symbol.scope = scope && symbol.name = name

/-- The largest id below `n` that declares `name` directly in `scope`. -/
def latestBelow (table : SymbolTable) (scope : Scope) (name : String) : Nat → Option Nat
  | 0 => none
  | n + 1 => if table.declares scope name n then some n else table.latestBelow scope name n

/-- The latest declaration of `name` directly in `scope`. -/
def latest (table : SymbolTable) (scope : Scope) (name : String) : Option Nat :=
  table.latestBelow scope name table.size

/-- The scope around a scope. -/
def enclosing (table : SymbolTable) (id : Nat) : Scope :=
  (table.get? id).bind (·.scope)

/-- A scope and at most `n` scopes around it, then the top level. -/
def chainOf (table : SymbolTable) : Nat → Scope → List Scope
  | _, none => [none]
  | 0, some _ => [none]
  | n + 1, some id => some id :: table.chainOf n (table.enclosing id)

/-- The scopes from `scope` outwards.  A procedure is declared before what stands in it, so the ids get smaller and
their number is at most the size of the table. -/
def chain (table : SymbolTable) (scope : Scope) : List Scope :=
  table.chainOf table.size scope

/-- The declaration of `name` that is visible from `scope`. -/
def lookup (table : SymbolTable) (scope : Scope) (name : String) : Option Nat :=
  (table.chain scope).findSome? fun s => table.latest s name

end SymbolTable

end PL0
