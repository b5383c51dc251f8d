import PL0.Proofs.Syntax.Tree

/-!
# Binding every `else` to the nearest `if`

A sentence with an `else` may have several derivations.  `Block.rebind` turns a tree into an else-bound tree of the
same sentence (`tokens_rebindBlock`, `elseBound_rebindBlock`), in which the same names are used in the same way
(`scoped_rebindBlock`).  So the else-bound trees derive all the sentences that the grammar derives.

The step behind it is `Statement.attachElse`, which gives an `else` part to the innermost open `if` at the end of a
statement.
-/

namespace PL0

/-- Continues the open `if` at the end of a statement by `else t`. -/
def Statement.attachElse : Statement → Statement → Statement
  | .ifThen c s, t => if s.endsOpen then .ifThen c (s.attachElse t) else .ifElse c s t
  | .ifElse c s s', t => .ifElse c s (s'.attachElse t)
  | .whileDo c s, t => .whileDo c (s.attachElse t)
  | s, _ => s

mutual

def Statement.rebind : Statement → Statement
  | .compound first rest => .compound first.rebind rest.rebind
  | .ifThen c s => .ifThen c s.rebind
  | .ifElse c s t => if s.rebind.endsOpen then .ifThen c (s.rebind.attachElse t.rebind) else .ifElse c s.rebind t.rebind
  | .whileDo c s => .whileDo c s.rebind
  | s => s

def StatementTail.rebind : StatementTail → StatementTail
  | .nil => .nil
  | .cons s rest => .cons s.rebind rest.rebind

end

mutual

def Block.rebind : Block → Block
  | .mk consts vars procs body => .mk consts vars procs.rebind body.rebind

def Procedures.rebind : Procedures → Procedures
  | .nil => .nil
  | .cons name block rest => .cons name block.rebind rest.rebind

end

/-! ### Attaching -/

private theorem tokens_attachElse (t : Statement) :
    ∀ s : Statement, s.endsOpen → (s.attachElse t).tokens = s.tokens ++ .elseSym :: t.tokens
  | .ifThen c s, _ => by
    by_cases h : s.endsOpen
    · simp [Statement.attachElse, h, Statement.tokens, tokens_attachElse t s h]
    · simp [Statement.attachElse, h, Statement.tokens]
  | .ifElse c s s', h => by
    simp [Statement.attachElse, Statement.tokens, tokens_attachElse t s' (by simpa [Statement.endsOpen] using h)]
  | .whileDo c s, h => by
    simp [Statement.attachElse, Statement.tokens, tokens_attachElse t s (by simpa [Statement.endsOpen] using h)]

private theorem elseBound_attachElse {t : Statement} (ht : t.elseBound) :
    ∀ s : Statement, s.elseBound → (s.attachElse t).elseBound
  | .ifThen c s, hs => by
    simp only [Statement.elseBound] at hs
    by_cases h : s.endsOpen
    · simp [Statement.attachElse, h, Statement.elseBound, elseBound_attachElse ht s hs]
    · simp [Statement.attachElse, h, Statement.elseBound, hs, ht]
  | .ifElse c s s', hs => by
    simp only [Statement.elseBound, Bool.and_eq_true] at hs
    simp [Statement.attachElse, Statement.elseBound, hs.1.1, hs.1.2, elseBound_attachElse ht s' hs.2]
  | .whileDo c s, hs => by
    simp only [Statement.elseBound] at hs
    simp [Statement.attachElse, Statement.elseBound, elseBound_attachElse ht s hs]
  | .empty, hs | .assign .., hs | .call _, hs | .compound .., hs | .read _, hs | .write _, hs => hs

private theorem scoped_attachElse (sortOf : String → Option NameSort) (t : Statement) :
    ∀ s : Statement, s.endsOpen → (s.attachElse t).scoped sortOf = (s.scoped sortOf && t.scoped sortOf)
  | .ifThen c s, _ => by
    by_cases h : s.endsOpen
    · simp [Statement.attachElse, h, Statement.scoped, scoped_attachElse sortOf t s h, Bool.and_assoc]
    · simp [Statement.attachElse, h, Statement.scoped, Bool.and_assoc]
  | .ifElse c s s', h => by
    simp only [Statement.endsOpen] at h
    simp [Statement.attachElse, Statement.scoped, scoped_attachElse sortOf t s' h, Bool.and_assoc]
  | .whileDo c s, h => by
    simp only [Statement.endsOpen] at h
    simp [Statement.attachElse, Statement.scoped, scoped_attachElse sortOf t s h, Bool.and_assoc]

/-! ### Statements -/

mutual

private theorem tokens_rebind : ∀ s : Statement, s.rebind.tokens = s.tokens
  | .compound first rest => by
    simp [Statement.rebind, Statement.tokens, tokens_rebind first, tokens_rebindTail rest]
  | .ifThen c s => by simp [Statement.rebind, Statement.tokens, tokens_rebind s]
  | .ifElse c s t => by
    by_cases h : s.rebind.endsOpen
    · simp [Statement.rebind, h, Statement.tokens, tokens_attachElse, tokens_rebind s, tokens_rebind t]
    · simp [Statement.rebind, h, Statement.tokens, tokens_rebind s, tokens_rebind t]
  | .whileDo c s => by simp [Statement.rebind, Statement.tokens, tokens_rebind s]
  | .empty | .assign .. | .call _ | .read _ | .write _ => rfl

private theorem tokens_rebindTail : ∀ rest : StatementTail, rest.rebind.tokens = rest.tokens
  | .nil => rfl
  | .cons s rest => by
    simp [StatementTail.rebind, StatementTail.tokens, tokens_rebind s, tokens_rebindTail rest]

end

mutual

private theorem elseBound_rebind : ∀ s : Statement, s.rebind.elseBound
  | .compound first rest => by
    simp [Statement.rebind, Statement.elseBound, elseBound_rebind first, elseBound_rebindTail rest]
  | .ifThen c s => by simp [Statement.rebind, Statement.elseBound, elseBound_rebind s]
  | .ifElse c s t => by
    by_cases h : s.rebind.endsOpen
    · simp [Statement.rebind, h, Statement.elseBound,
        elseBound_attachElse (elseBound_rebind t) s.rebind (elseBound_rebind s)]
    · simp [Statement.rebind, h, Statement.elseBound, elseBound_rebind s, elseBound_rebind t]
  | .whileDo c s => by simp [Statement.rebind, Statement.elseBound, elseBound_rebind s]
  | .empty | .assign .. | .call _ | .read _ | .write _ => rfl

private theorem elseBound_rebindTail : ∀ rest : StatementTail, rest.rebind.elseBound
  | .nil => rfl
  | .cons s rest => by
    simp [StatementTail.rebind, StatementTail.elseBound, elseBound_rebind s, elseBound_rebindTail rest]

end

section

variable (sortOf : String → Option NameSort)

mutual

private theorem scoped_rebind : ∀ s : Statement, s.rebind.scoped sortOf = s.scoped sortOf
  | .compound first rest => by
    simp [Statement.rebind, Statement.scoped, scoped_rebind first, scoped_rebindTail rest]
  | .ifThen c s => by simp [Statement.rebind, Statement.scoped, scoped_rebind s]
  | .ifElse c s t => by
    by_cases h : s.rebind.endsOpen
    · simp [Statement.rebind, h, Statement.scoped, scoped_attachElse, scoped_rebind s, scoped_rebind t]
    · simp [Statement.rebind, h, Statement.scoped, scoped_rebind s, scoped_rebind t]
  | .whileDo c s => by simp [Statement.rebind, Statement.scoped, scoped_rebind s]
  | .empty | .assign .. | .call _ | .read _ | .write _ => rfl

private theorem scoped_rebindTail : ∀ rest : StatementTail, rest.rebind.scoped sortOf = rest.scoped sortOf
  | .nil => rfl
  | .cons s rest => by
    simp [StatementTail.rebind, StatementTail.scoped, scoped_rebind s, scoped_rebindTail rest]

end

end

/-! ### Blocks -/

private theorem sorts_rebind : ∀ procs : Procedures,
    procs.rebind.declarations.map (fun p => (p.1, p.2.sort)) = procs.declarations.map (fun p => (p.1, p.2.sort))
  | .nil => rfl
  | .cons name block rest => by
    simp only [Procedures.rebind, Procedures.declarations, List.map_cons, sorts_rebind rest]
    rfl

private theorem sortOf_rebind (b : Block) : b.rebind.sortOf = b.sortOf := by
  obtain ⟨consts, vars, procs, body⟩ := b
  funext x
  simp only [Block.sortOf, Block.meaning, ← latest_map (fun _ => Declaration.sort), Block.rebind, Block.declarations,
    Block.consts, Block.vars, Block.procs, List.map_append, sorts_rebind]

mutual

theorem tokens_rebindBlock : ∀ b : Block, b.rebind.tokens = b.tokens
  | .mk consts vars procs body => by
    simp [Block.rebind, Block.tokens, tokens_rebindProcedures procs, tokens_rebind body]

private theorem tokens_rebindProcedures : ∀ procs : Procedures, procs.rebind.tokens = procs.tokens
  | .nil => rfl
  | .cons name block rest => by
    simp [Procedures.rebind, Procedures.tokens, tokens_rebindBlock block, tokens_rebindProcedures rest]

end

mutual

theorem elseBound_rebindBlock : ∀ b : Block, b.rebind.elseBound
  | .mk consts vars procs body => by
    simp [Block.rebind, Block.elseBound, elseBound_rebindProcedures procs, elseBound_rebind body]

private theorem elseBound_rebindProcedures : ∀ procs : Procedures, procs.rebind.elseBound
  | .nil => rfl
  | .cons name block rest => by
    simp [Procedures.rebind, Procedures.elseBound, elseBound_rebindBlock block, elseBound_rebindProcedures rest]

end

mutual

theorem scoped_rebindBlock : ∀ b : Block, b.rebind.scoped = b.scoped
  | .mk consts vars procs body => by
    have hs := sortOf_rebind (.mk consts vars procs body)
    simp only [Block.rebind] at hs
    simp only [Block.rebind, Block.scoped, hs, scoped_rebind, scoped_rebindProcedures procs]

private theorem scoped_rebindProcedures : ∀ procs : Procedures, procs.rebind.scoped = procs.scoped
  | .nil => rfl
  | .cons name block rest => by
    simp [Procedures.rebind, Procedures.scoped, scoped_rebindBlock block, scoped_rebindProcedures rest]

end

end PL0
