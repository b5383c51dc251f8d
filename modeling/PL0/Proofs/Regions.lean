import Mathlib.Data.List.Pairwise
import PL0.Proofs.Emission.Program
import PL0.Proofs.Sites

/-!
# The blocks of a program

A program has a block for itself and one for each of its procedures, at any depth.  `Block.regions` lists them, each
with the address of its code, its level and scope, and the id that its first declaration gets.  What a block hands down
to its procedures holds of all regions (`Block.HandsDown.regions`): the code of a region is placed in the program, and
its declarations stand in the symbol table (`Region.Stands`).

The regions correspond to the scopes (`Block.exists_region`), and the code from the entry of a block to its return
belongs to this block alone (`Block.pairwise_regions`).  Every instruction of a program has its place in one of the
blocks (`Block.holds_program`).
-/

namespace PL0

/-- A block in its place. -/
structure Region where
  block : Block
  start : Nat
  level : Nat
  scope : Scope
  firstId : Nat

namespace Region

/-- The address to which the first jump of the block goes. -/
def entry (r : Region) : Nat :=
  r.block.entry r.start

/-- The address of the return at the end of the block. -/
def exit (r : Region) : Nat :=
  r.block.exit r.start

/-- What the names in the statement of the block stand for. -/
def env (r : Region) : Env :=
  r.block.env r.start

def symbols (r : Region) : List Symbol :=
  r.block.symbols r.start r.level r.scope r.firstId

/-- The statements in the block, without those in its procedures. -/
def sites (r : Region) : List Site :=
  r.block.body.sites (r.entry + 1)

end Region

/-- The id of the first procedure of a block whose first declaration gets the id `id`. -/
def Block.procsId (b : Block) (id : Nat) : Nat :=
  id + b.consts.length + b.vars.length

mutual

/-- A block and the blocks of its procedures. -/
def Block.regions : Block → (start level : Nat) → Scope → (id : Nat) → List Region
  | .mk consts vars procs body, start, level, scope, id =>
    let b := Block.mk consts vars procs body
    ⟨b, start, level, scope, id⟩ :: procs.regions (b.procsStart start) level (b.procsId id)

def Procedures.regions : Procedures → (start level id : Nat) → List Region
  | .nil, _, _, _ => []
  | .cons _ block rest, start, level, id =>
    block.regions start (level + 1) (some id) (id + 1) ++
      rest.regions (start + block.size) level
        (id + 1 + (block.symbols start (level + 1) (some id) (id + 1)).length)

end

/-- The regions of the procedures of a block. -/
def Region.inner (r : Region) : List Region :=
  r.block.procs.regions (r.block.procsStart r.start) r.level (r.block.procsId r.firstId)

theorem Block.regions_eq (b : Block) (start level : Nat) (scope : Scope) (id : Nat) :
    b.regions start level scope id = ⟨b, start, level, scope, id⟩ :: Region.inner ⟨b, start, level, scope, id⟩ := by
  cases b
  rfl

/-! ### What holds of all regions -/

/-- What a block hands down to its procedures.  `Q` is what the procedures of a block share. -/
structure Block.HandsDown (P : Region → Prop) (Q : Procedures → (start level id : Nat) → Prop) : Prop where
  procs {r : Region} : P r → Q r.block.procs (r.block.procsStart r.start) r.level (r.block.procsId r.firstId)
  head {name : String} {block : Block} {rest : Procedures} {start level id : Nat} :
    Q (.cons name block rest) start level id → P ⟨block, start, level + 1, some id, id + 1⟩
  tail {name : String} {block : Block} {rest : Procedures} {start level id : Nat} :
    Q (.cons name block rest) start level id →
      Q rest (start + block.size) level (id + 1 + (block.symbols start (level + 1) (some id) (id + 1)).length)

section

variable {P : Region → Prop} {Q : Procedures → (start level id : Nat) → Prop}

mutual

theorem Block.HandsDown.regions (h : Block.HandsDown P Q) : ∀ (b : Block) {start level : Nat} {scope : Scope}
    {id : Nat}, P ⟨b, start, level, scope, id⟩ → ∀ r ∈ b.regions start level scope id, P r
  | .mk consts vars procs body, start, level, scope, id, hb, r, hr => by
    rcases List.mem_cons.1 hr with rfl | hr
    · exact hb
    · exact h.procRegions procs (h.procs hb) r hr

theorem Block.HandsDown.procRegions (h : Block.HandsDown P Q) : ∀ (l : Procedures) {start level id : Nat},
    Q l start level id → ∀ r ∈ l.regions start level id, P r
  | .nil, _, _, _, _, r, hr => by cases hr
  | .cons name block rest, start, level, id, hl, r, hr => by
    rcases List.mem_append.1 hr with hr | hr
    · exact h.regions block (h.head hl) r hr
    · exact h.procRegions rest (h.tail hl) r hr

end

end

/-! ### The regions in the code -/

private theorem handsDown_within (lo hi : Nat) :
    Block.HandsDown (fun r => lo ≤ r.start ∧ r.start + r.block.size ≤ hi)
      fun l start _ _ => lo ≤ start ∧ start + l.size ≤ hi where
  procs {r} h := by
    obtain ⟨⟨consts, vars, procs, body⟩, start, level, scope, id⟩ := r
    simp only [Block.size, Block.procsStart, Block.procs, Block.vars] at *
    omega
  head h := by
    simp only [Procedures.size] at *
    omega
  tail h := by
    simp only [Procedures.size] at *
    omega

theorem Block.regions_within (b : Block) (start level : Nat) (scope : Scope) (id : Nat) :
    ∀ r ∈ b.regions start level scope id, start ≤ r.start ∧ r.start + r.block.size ≤ start + b.size :=
  (handsDown_within start (start + b.size)).regions b ⟨Nat.le_refl _, Nat.le_refl _⟩

theorem Procedures.regions_within (l : Procedures) (start level id : Nat) :
    ∀ r ∈ l.regions start level id, start ≤ r.start ∧ r.start + r.block.size ≤ start + l.size :=
  (handsDown_within start (start + l.size)).procRegions l ⟨Nat.le_refl _, Nat.le_refl _⟩

namespace Region

theorem exit_eq (r : Region) : r.exit + 1 = r.start + r.block.size :=
  r.block.exit_eq r.start

theorem start_lt_entry (r : Region) : r.start < r.entry := by
  simp only [entry, Block.entry, Block.procsStart]
  omega

theorem entry_lt_exit (r : Region) : r.entry < r.exit := by
  simp only [entry, exit, Block.exit]
  omega

/-- The procedures of a block come before its entry. -/
theorem exit_lt_entry {r r' : Region} (h : r' ∈ r.inner) : r'.exit < r.entry := by
  have hwithin := Procedures.regions_within _ _ _ _ r' h
  have hexit := r'.exit_eq
  simp only [entry, Block.entry]
  omega

/-- The code from the entry of a block to its return has nothing in common with that of the other block. -/
def Apart (r r' : Region) : Prop :=
  r.exit < r'.entry ∨ r'.exit < r.entry

end Region

mutual

theorem Block.pairwise_regions : ∀ (b : Block) (start level : Nat) (scope : Scope) (id : Nat),
    (b.regions start level scope id).Pairwise Region.Apart
  | .mk _ _ procs _, _, _, _, _ => .cons (fun _ hr => .inr (Region.exit_lt_entry hr)) (procs.pairwise_regions _ _ _)

theorem Procedures.pairwise_regions : ∀ (l : Procedures) (start level id : Nat),
    (l.regions start level id).Pairwise Region.Apart
  | .nil, _, _, _ => .nil
  | .cons name block rest, start, level, id => by
    refine List.pairwise_append.2 ⟨block.pairwise_regions _ _ _ _, rest.pairwise_regions _ _ _, ?_⟩
    intro r hr r' hr'
    left
    have hwithin := block.regions_within _ _ _ _ r hr
    have hwithin' := rest.regions_within _ _ _ r' hr'
    have hexit := r.exit_eq
    have hentry := r'.start_lt_entry
    omega

end

theorem Block.apart_of_ne {b : Block} {start level id : Nat} {scope : Scope} {r r' : Region}
    (hr : r ∈ b.regions start level scope id) (hr' : r' ∈ b.regions start level scope id) (hne : r ≠ r') :
    r.Apart r' := by
  have : Std.Symm Region.Apart := ⟨fun _ _ h => h.symm⟩
  exact (b.pairwise_regions start level scope id).forall hr hr' hne

/-! ### The regions in a compiled program -/

namespace SymbolTable

variable {table : SymbolTable}

/-- The scope is that of a block: the main block or a procedure. -/
def IsBlock (table : SymbolTable) : Scope → Prop
  | none => True
  | some j => ∃ s a, table.get? j = some s ∧ s.kind = .proc a

/-- The code of the block with this scope starts at the address. -/
def StartsAt (table : SymbolTable) : Scope → Nat → Prop
  | none, start => start = 0
  | some j, start => ∃ s a, table.get? j = some s ∧ s.kind = .proc a ∧ a.toInt = start

/-- The level of the statement of the block with this scope. -/
def levelOf (table : SymbolTable) : Scope → Nat
  | none => 0
  | some j => match table.get? j with
    | some s => s.level + 1
    | none => 0

theorem levelOf_some {j : Nat} {s : Symbol} (h : table.get? j = some s) : table.levelOf (some j) = s.level + 1 := by
  simp only [levelOf, h]

theorem StartsAt.isBlock {scope : Scope} {start : Nat} (h : table.StartsAt scope start) : table.IsBlock scope := by
  cases scope with
  | none => trivial
  | some j =>
    obtain ⟨s, a, hs, ha, -⟩ := h
    exact ⟨s, a, hs, ha⟩

/-- The code of a procedure starts at the address of its symbol. -/
theorem StartsAt.toInt_eq {j start : Nat} {s : Symbol} {a : Int32} (h : table.StartsAt (some j) start)
    (hs : table.get? j = some s) (ha : s.kind = .proc a) : a.toInt = start := by
  obtain ⟨s', a', hs', ha', hstart⟩ := h
  rw [hs, Option.some.injEq] at hs'
  subst hs'
  rw [ha, SymbolKind.proc.injEq] at ha'
  subst ha'
  exact hstart

theorem StartsAt.unique {scope : Scope} {start start' : Nat} (h : table.StartsAt scope start)
    (h' : table.StartsAt scope start') : start = start' := by
  cases scope with
  | none => exact h.trans h'.symm
  | some j =>
    obtain ⟨s, a, hs, ha, hstart⟩ := h
    have hstart' := h'.toInt_eq hs ha
    omega

end SymbolTable

/-- The symbols stand in the table, the first one at `id`. -/
def SymbolTable.Lists (table : SymbolTable) (id : Nat) (symbols : List Symbol) : Prop :=
  ∀ i s, symbols[i]? = some s → table.get? (id + i) = some s

namespace SymbolTable.Lists

variable {table : SymbolTable} {id : Nat} {symbols symbols' : List Symbol} {s : Symbol}

theorem left (h : table.Lists id (symbols ++ symbols')) : table.Lists id symbols := by
  intro i s hs
  refine h i s ?_
  rwa [List.getElem?_append_left (List.getElem?_eq_some_iff.1 hs).1]

theorem right {n : Nat} (h : table.Lists id (symbols ++ symbols')) (hn : symbols.length = n) :
    table.Lists (id + n) symbols' := by
  subst hn
  intro i s hs
  rw [Nat.add_assoc]
  refine h _ s ?_
  rwa [List.getElem?_append_right (Nat.le_add_right _ _), Nat.add_sub_cancel_left]

theorem head (h : table.Lists id (s :: symbols)) : table.get? id = some s :=
  h 0 s rfl

theorem tail (h : table.Lists id (s :: symbols)) : table.Lists (id + 1) symbols :=
  (show table.Lists id ([s] ++ symbols) from h).right rfl

end SymbolTable.Lists

/-- The block is part of the program and its declarations are part of the table. -/
structure Region.Stands (r : Region) (program : List Instruction) (table : SymbolTable) : Prop where
  names : r.block.scoped
  code : Placed program r.start (r.block.code r.start)
  symbols : table.Lists r.firstId r.symbols
  below : r.scope.Below r.firstId
  startsAt : table.StartsAt r.scope r.start
  level : r.level = table.levelOf r.scope

section

variable {program : List Instruction} {table : SymbolTable}

/-- The same for the procedures of a block. -/
private structure Procedures.Stand (program : List Instruction) (table : SymbolTable) (l : Procedures)
    (start level id : Nat) : Prop where
  names : l.scoped
  code : Placed program start (l.code start)
  symbols : ∃ scope, table.Lists id (l.symbols start level scope id)

private theorem handsDown_stands (hlength : program.length ≤ 2 ^ 31) :
    Block.HandsDown (·.Stands program table) (Procedures.Stand program table) where
  procs {r} h := by
    obtain ⟨⟨consts, vars, procs, body⟩, start, level, scope, id⟩ := r
    have hnames := h.names
    simp only [Block.scoped, Bool.and_eq_true] at hnames
    refine ⟨hnames.1, Block.placed_procs h.code, scope, ?_⟩
    exact (h.symbols.right (List.length_map _)).right ((List.length_map _).trans (length_varNames _ _))
  head {name block rest start level id} h := by
    have hnames := h.names
    simp only [Procedures.scoped, Bool.and_eq_true] at hnames
    obtain ⟨scope, hsymbols⟩ := h.symbols
    have hend := h.code.left.end_le (Block.length_code _ _)
    have hpos := block.size_pos
    refine ⟨hnames.1, h.code.left, hsymbols.tail.left, ?_, ⟨_, _, hsymbols.head, rfl, ?_⟩, ?_⟩
    · intro j hj
      cases hj
      exact Nat.lt_succ_self _
    · exact Int32.toInt_ofNat_of_lt (by omega)
    · rw [SymbolTable.levelOf_some hsymbols.head]
  tail {name block rest start level id} h := by
    have hnames := h.names
    simp only [Procedures.scoped, Bool.and_eq_true] at hnames
    obtain ⟨scope, hsymbols⟩ := h.symbols
    exact ⟨hnames.2, h.code.right (Block.length_code _ _), scope, hsymbols.tail.right rfl⟩

namespace Region.Stands

variable {r r' : Region}

theorem regions (h : r.Stands program table) (hlength : program.length ≤ 2 ^ 31) :
    ∀ r' ∈ r.block.regions r.start r.level r.scope r.firstId, r'.Stands program table :=
  (handsDown_stands hlength).regions r.block h

theorem inner (h : r.Stands program table) (hlength : program.length ≤ 2 ^ 31) (hr' : r' ∈ r.inner) :
    r'.Stands program table := by
  refine h.regions hlength r' ?_
  rw [Block.regions_eq]
  exact List.mem_cons_of_mem _ hr'

theorem exit_lt (h : r.Stands program table) : r.exit < program.length := by
  have := h.code.end_le (Block.length_code _ _)
  have := r.exit_eq
  omega

/-- The first jump of a block goes to its entry. -/
theorem toInt_entry (h : r.Stands program table) (hlength : program.length ≤ 2 ^ 31) :
    (Int32.ofNat r.entry).toInt = r.entry := by
  have hexit := h.exit_lt
  have hentry := r.entry_lt_exit
  exact Int32.toInt_ofNat_of_lt (by omega)

/-- What holds of all instructions from the entry of a block to its return holds of them in the program. -/
theorem of_throughout (h : r.Stands program table) {P : Nat → Instruction → Prop}
    (hall : Throughout P r.entry
      (instruction .inc 4 :: (r.block.body.code r.env (r.entry + 1) ++ [instruction .rtn 0])))
    {a : Nat} {ins : Instruction} (hlo : r.entry ≤ a) (hhi : a ≤ r.exit) (hins : program[a]? = some ins) : P a ins := by
  refine hall.placed (Block.placed_entry h.code) hlo ?_ hins
  simp only [Region.exit, Block.exit] at hhi
  simp only [List.length_cons, List.length_append, List.length_nil, Statement.length_code]
  unfold Region.entry
  omega

theorem belongs_body (h : r.Stands program table) :
    Throughout (fun a ins => ins.Belongs r.env r.sites a) (r.entry + 1) (r.block.body.code r.env (r.entry + 1)) := by
  refine r.block.body.belongs_code _ ?_
  have hnames := h.names
  obtain ⟨⟨consts, vars, procs, body⟩, start, level, scope, id⟩ := r
  simp only [Block.scoped, Bool.and_eq_true] at hnames
  rw [Region.env, Block.sortOf_env]
  exact hnames.2

/-- Between the entry of a block and its return there are no other returns. -/
theorem belongs_or_exit (h : r.Stands program table) {a : Nat} {ins : Instruction} (hlo : r.entry ≤ a)
    (hhi : a ≤ r.exit) (hins : program[a]? = some ins) :
    ins.Belongs r.env r.sites a ∨ a = r.exit ∧ ins = instruction .rtn 0 := by
  have hall : Throughout (fun a ins => ins.Belongs r.env r.sites a ∨ a = r.exit ∧ ins = instruction .rtn 0) r.entry
      (instruction .inc 4 :: (r.block.body.code r.env (r.entry + 1) ++ [instruction .rtn 0])) := by
    refine .cons (.inl (.of_plain rfl)) (.append (Statement.length_code _ _) ?_ (.cons (.inr ⟨rfl, rfl⟩) .nil))
    exact h.belongs_body.mono fun _ _ => .inl
  exact h.of_throughout hall hlo hhi hins

/-- What a name of a block stands for is declared in the scope of the block. -/
theorem exists_symbol (h : r.Stands program table) {x : String} {kind : SymbolKind} (hx : r.env x = some kind) :
    ∃ i : Nat, r.symbols[i]? = some (Symbol.mk x kind r.level r.scope) := by
  have hmem : Symbol.mk x kind r.level r.scope ∈ r.symbols.filter (·.scope = r.scope) := by
    unfold Region.symbols
    rw [Block.filter_symbols r.block r.start r.level h.below]
    exact List.mem_map.2 ⟨(x, kind), mem_of_latest hx, rfl⟩
  exact List.mem_iff_getElem?.1 (List.mem_filter.1 hmem).1

end Region.Stands

end

/-! ### The regions of the procedures -/

private theorem kind_varNames {vars : List String} {start : Nat} {item : String × SymbolKind}
    (h : item ∈ varNames vars start) (a : Int32) : item.2 ≠ .proc a := by
  induction vars generalizing start with
  | nil => cases h
  | cons x vars ih =>
    rcases List.mem_cons.1 h with rfl | h
    · exact fun h => by cases h
    · exact ih h

mutual

/-- A procedure in a block, at any depth, has its region. -/
theorem Block.exists_inner : ∀ (b : Block) (start level : Nat) (scope : Scope) (id : Nat) {i : Nat} {s : Symbol}
    {a : Int32}, (b.symbols start level scope id)[i]? = some s → s.kind = .proc a →
    ∃ r ∈ Region.inner ⟨b, start, level, scope, id⟩, r.scope = some (id + i)
  | .mk consts vars procs body, start, level, scope, id, i, s, a, hs, ha => by
    rw [Block.symbols, List.getElem?_append] at hs
    split at hs
    · obtain ⟨item, -, rfl⟩ := List.mem_map.1 (List.mem_of_getElem? hs)
      cases ha
    rename_i hconsts
    rw [List.getElem?_append] at hs
    split at hs
    · obtain ⟨item, hitem, rfl⟩ := List.mem_map.1 (List.mem_of_getElem? hs)
      exact absurd ha (kind_varNames hitem a)
    rename_i hvars
    simp only [List.length_map, length_varNames] at hs hconsts hvars
    obtain ⟨r, hr, hscope⟩ := procs.exists_region _ _ _ _ hs ha
    refine ⟨r, hr, hscope.trans ?_⟩
    congr 1
    omega

theorem Procedures.exists_region : ∀ (l : Procedures) (start level : Nat) (scope : Scope) (id : Nat) {i : Nat}
    {s : Symbol} {a : Int32}, (l.symbols start level scope id)[i]? = some s → s.kind = .proc a →
    ∃ r ∈ l.regions start level id, r.scope = some (id + i)
  | .nil, _, _, _, _, i, s, a, hs, ha => by simp [Procedures.symbols] at hs
  | .cons name block rest, start, level, scope, id, i, s, a, hs, ha => by
    cases i with
    | zero =>
      refine ⟨⟨block, start, level + 1, some id, id + 1⟩, List.mem_append_left _ ?_, rfl⟩
      rw [Block.regions_eq]
      exact List.mem_cons_self
    | succ i =>
      rw [Procedures.symbols, List.getElem?_cons_succ, List.getElem?_append] at hs
      split at hs
      · obtain ⟨r, hr, hscope⟩ := block.exists_inner _ _ _ _ hs ha
        refine ⟨r, List.mem_append_left _ ?_, hscope.trans ?_⟩
        · rw [Block.regions_eq]
          exact List.mem_cons_of_mem _ hr
        · congr 1
          omega
      · obtain ⟨r, hr, hscope⟩ := rest.exists_region _ _ _ _ hs ha
        refine ⟨r, List.mem_append_right _ hr, hscope.trans ?_⟩
        congr 1
        omega

end

/-- The blocks of a program are its regions. -/
theorem Block.exists_region {b : Block} {table : SymbolTable} (hsymbols : table.symbols.toList = b.symbols 0 0 none 0)
    {scope : Scope} (h : table.IsBlock scope) : ∃ r ∈ b.regions 0 0 none 0, r.scope = scope := by
  rw [Block.regions_eq]
  cases scope with
  | none => exact ⟨_, List.mem_cons_self, rfl⟩
  | some j =>
    obtain ⟨s, a, hs, ha⟩ := h
    rw [SymbolTable.get?, ← Array.getElem?_toList, hsymbols] at hs
    obtain ⟨r, hr, hscope⟩ := b.exists_inner _ _ _ _ hs ha
    rw [Nat.zero_add] at hscope
    exact ⟨r, List.mem_cons_of_mem _ hr, hscope⟩

/-- The procedure that a name of a block stands for is one of the procedures of the block. -/
theorem Region.Stands.callee {r : Region} {program : List Instruction} {table : SymbolTable}
    (h : r.Stands program table) (hlength : program.length ≤ 2 ^ 31) {p : String} {m : Int32}
    (hp : r.env p = some (.proc m)) :
    ∃ j, table.get? j = some ⟨p, .proc m, r.level, r.scope⟩ ∧
      ∃ r' ∈ r.inner, r'.scope = some j ∧ r'.Stands program table ∧ m.toInt = r'.start := by
  obtain ⟨i, hi⟩ := h.exists_symbol hp
  obtain ⟨r', hr', hscope⟩ := r.block.exists_inner _ _ _ _ hi rfl
  have hstands := h.inner hlength hr'
  have hj := h.symbols i _ hi
  have hstart := hstands.startsAt
  rw [hscope] at hstart
  exact ⟨_, hj, r', hr', hscope, hstands, hstart.toInt_eq hj rfl⟩

/-! ### The instructions of a block -/

/-- The block itself, and not one of its procedures, has the instruction at the address. -/
inductive Region.Holds (r : Region) : Nat → Instruction → Prop
  | skip : r.Holds r.start (refer .jmp r.entry)
  | cell (i : Nat) : r.Holds (r.start + 1 + i) (instruction .inc 1)
  | frame : r.Holds r.entry (instruction .inc 4)
  | body (i : Nat) (ins : Instruction) : (r.block.body.code r.env (r.entry + 1))[i]? = some ins →
      r.Holds (r.entry + 1 + i) ins
  | ret : r.Holds r.exit (instruction .rtn 0)

mutual

theorem Block.holds_code : ∀ (b : Block) (start level : Nat) (scope : Scope) (id : Nat),
    Throughout (fun a ins => ∃ r ∈ b.regions start level scope id, r.Holds a ins) start (b.code start)
  | .mk consts vars procs body, start, level, scope, id => by
    let r : Region := ⟨.mk consts vars procs body, start, level, scope, id⟩
    have hr : r ∈ (Block.mk consts vars procs body).regions start level scope id := List.mem_cons_self
    refine .cons ⟨r, hr, .skip⟩ (.append (List.length_map _) ?_ (.append (Procedures.length_code _ _) ?_ ?_))
    · intro i ins hi
      obtain ⟨x, -, rfl⟩ := List.mem_map.1 (List.mem_of_getElem? hi)
      exact ⟨r, hr, .cell i⟩
    · refine (procs.holds_code _ level ((Block.mk consts vars procs body).procsId id)).mono ?_
      rintro a ins ⟨r', hr', hholds⟩
      exact ⟨r', List.mem_cons_of_mem _ hr', hholds⟩
    · refine .cons ⟨r, hr, .frame⟩ (.append (Statement.length_code _ _) ?_ (.cons ⟨r, hr, .ret⟩ .nil))
      exact fun i ins hi => ⟨r, hr, .body i ins hi⟩

theorem Procedures.holds_code : ∀ (l : Procedures) (start level id : Nat),
    Throughout (fun a ins => ∃ r ∈ l.regions start level id, r.Holds a ins) start (l.code start)
  | .nil, _, _, _ => .nil
  | .cons name block rest, start, level, id => by
    refine .append (Block.length_code _ _) ?_ ?_
    · refine (block.holds_code start (level + 1) (some id) (id + 1)).mono ?_
      rintro a ins ⟨r, hr, hholds⟩
      exact ⟨r, List.mem_append_left _ hr, hholds⟩
    · refine (rest.holds_code (start + block.size) level
        (id + 1 + (block.symbols start (level + 1) (some id) (id + 1)).length)).mono ?_
      rintro a ins ⟨r, hr, hholds⟩
      exact ⟨r, List.mem_append_right _ hr, hholds⟩

end

theorem Block.holds_program (b : Block) {a : Nat} {ins : Instruction} (h : b.program[a]? = some ins) :
    a = b.size ∧ ins = instruction .halt 3 ∨ a < b.size ∧ ∃ r ∈ b.regions 0 0 none 0, r.Holds a ins := by
  by_cases ha : a < b.size
  · rw [Block.program, List.getElem?_append_left (by simpa using ha)] at h
    have := b.holds_code 0 0 none 0 a ins h
    rw [Nat.zero_add] at this
    exact .inr ⟨ha, this⟩
  · rw [Block.program, List.getElem?_append_right (by simpa using ha), Block.length_code] at h
    have hlt := (List.getElem?_eq_some_iff.1 h).1
    obtain rfl : a = b.size := by
      simp only [List.length_singleton] at hlt
      omega
    simp only [Nat.sub_self, List.getElem?_cons_zero, Option.some.injEq] at h
    exact .inl ⟨rfl, h.symm⟩

/-! ### Compiled programs -/

/-- The blocks of the tree are laid out in the program, one for each scope. -/
structure Block.LaidOut (b : Block) (program : List Instruction) (table : SymbolTable) : Prop where
  length : program.length ≤ 2 ^ 31
  exists_region : ∀ scope, table.IsBlock scope → ∃ r ∈ b.regions 0 0 none 0, r.scope = scope
  stands : ∀ r ∈ b.regions 0 0 none 0, r.Stands program table

theorem CompiledProgram.Translates.laidOut {compiled : CompiledProgram} {b : Block} (h : compiled.Translates b)
    (hscoped : b.scoped) (hlength : b.program.length ≤ 2 ^ 31) :
    b.LaidOut compiled.program.instructions.toList compiled.symbols := by
  have hlength' : compiled.program.instructions.toList.length ≤ 2 ^ 31 := by rwa [h.program]
  have hmain : (⟨b, 0, 0, none, 0⟩ : Region).Stands compiled.program.instructions.toList compiled.symbols := by
    refine ⟨hscoped, ?_, ?_, ?_, rfl, rfl⟩
    · rw [h.program]
      exact ⟨[], _, rfl, rfl⟩
    · intro i s hs
      rw [Nat.zero_add, SymbolTable.get?, ← Array.getElem?_toList, h.symbols]
      exact hs
    · intro j hj
      cases hj
  exact ⟨hlength', fun _ => Block.exists_region h.symbols, hmain.regions hlength'⟩

end PL0
