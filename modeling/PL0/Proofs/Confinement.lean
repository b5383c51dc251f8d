import Mathlib.Data.List.Chain
import Mathlib.Logic.Relation
import PL0.Proofs.Language
import PL0.Proofs.Regions

/-!
# Blocks keep to themselves

Every block owns the code from the target of its first jump to its return (`Owns`).  What two blocks own is disjoint,
since the code that a block owns is that of its region (`owns_iff`).  The instructions there stay in the block: jumps do
not leave it, the variables are those of its scope, and so are the procedures, whose code lies before (`StaysIn`).

A procedure of a scope is one level deeper than the scope.  So calls only lead to deeper levels (`Calls.levelOf_eq`):
there is no recursion, and chains of calls are not longer than the procedures are nested.
-/

namespace PL0

/-- The block with this scope has the addresses from `lo` to `hi`: its first jump goes to `lo`, and the next return from
there on is that at `hi`. -/
def Owns (program : List Instruction) (table : SymbolTable) (scope : Scope) (lo hi : Nat) : Prop :=
  ∃ start, table.StartsAt scope start ∧ (∃ ins, program[start]? = some ins ∧ ins.op = .jmp ∧ ins.m.toInt = lo) ∧
    lo ≤ hi ∧ (∃ ins, program[hi]? = some ins ∧ ins.op = .rtn) ∧
    ∀ a ins, lo ≤ a → a < hi → program[a]? = some ins → ins.op ≠ .rtn

/-- The instruction at `a` stays in the block that has this scope and the addresses from `lo` to `hi`. -/
structure Instruction.StaysIn (ins : Instruction) (program : List Instruction) (table : SymbolTable) (scope : Scope)
    (lo hi a : Nat) : Prop where
  jump : ins.op.isJump → lo ≤ ins.m.toInt ∧ ins.m.toInt ≤ hi
  access : ins.op = .lod ∨ ins.op = .sto →
    ∃ j s, table.get? j = some s ∧ s.kind = .var ins.m ∧ s.scope = scope
  call : ins.op = .cal → ∃ j s, table.get? j = some s ∧ s.kind = .proc ins.m ∧ s.scope = scope ∧
    ∃ lo' hi', Owns program table (some j) lo' hi' ∧ hi' < a

/-- In the code of the first block there is a call of the second one. -/
def Calls (program : List Instruction) (table : SymbolTable) (scope callee : Scope) : Prop :=
  ∃ lo hi a ins start, Owns program table scope lo hi ∧ lo ≤ a ∧ a ≤ hi ∧ program[a]? = some ins ∧ ins.op = .cal ∧
    table.StartsAt callee start ∧ ins.m.toInt = start

/-- The number of procedures around the statement of the innermost one of the procedures in a list. -/
def deepest : List Symbol → Nat
  | [] => 0
  | s :: rest => max (if s.kind.sort = .proc then s.level + 1 else 0) (deepest rest)

/-- How deep procedures are nested in each other. -/
def SymbolTable.nesting (table : SymbolTable) : Nat :=
  deepest table.symbols.toList

/-! ### The code of a block -/

section

variable {program : List Instruction} {table : SymbolTable} {r : Region}

theorem Region.Stands.owns (h : r.Stands program table) (hlength : program.length ≤ 2 ^ 31) :
    Owns program table r.scope r.entry r.exit := by
  refine ⟨r.start, h.startsAt, ⟨_, Block.jmp_at_start h.code, rfl, h.toInt_entry hlength⟩,
    Nat.le_of_lt r.entry_lt_exit, ⟨_, Block.rtn_at_exit h.code, rfl⟩, fun a ins hlo hhi hins => ?_⟩
  rcases h.belongs_or_exit hlo (Nat.le_of_lt hhi) hins with hbelongs | ⟨ha, -⟩
  · exact hbelongs.ne_rtn
  · omega

theorem Owns.isBlock {scope : Scope} {lo hi : Nat} (h : Owns program table scope lo hi) : table.IsBlock scope := by
  obtain ⟨start, hstart, -⟩ := h
  exact hstart.isBlock

theorem Owns.unique {scope : Scope} {lo hi lo' hi' : Nat} (h : Owns program table scope lo hi)
    (h' : Owns program table scope lo' hi') : lo = lo' ∧ hi = hi' := by
  obtain ⟨start, hstart, ⟨ins, hins, -, hlo⟩, hle, ⟨rtn, hrtn, hop⟩, hfree⟩ := h
  obtain ⟨start', hstart', ⟨ins', hins', -, hlo'⟩, hle', ⟨rtn', hrtn', hop'⟩, hfree'⟩ := h'
  obtain rfl := hstart.unique hstart'
  rw [hins, Option.some.injEq] at hins'
  subst hins'
  obtain rfl : lo = lo' := by omega
  refine ⟨rfl, ?_⟩
  -- the earlier one of the two returns would lie in the code before the later one
  rcases Nat.lt_trichotomy hi hi' with hlt | heq | hgt
  · exact absurd hop (hfree' hi rtn hle hlt hrtn)
  · exact heq
  · exact absurd hop' (hfree hi' rtn' hle' hgt hrtn')

/-- The instructions in the code of a block stay in the block. -/
theorem Region.Stands.staysIn (h : r.Stands program table) (hlength : program.length ≤ 2 ^ 31) {a : Nat}
    {ins : Instruction} (hlo : r.entry ≤ a) (hhi : a ≤ r.exit) (hins : program[a]? = some ins) :
    ins.StaysIn program table r.scope r.entry r.exit a := by
  rcases h.belongs_or_exit hlo hhi hins with hbelongs | ⟨-, rfl⟩
  · refine ⟨fun hjump => ?_, fun hop => ?_, fun hop => ?_⟩
    · obtain ⟨-, m, hm, hborder⟩ := hbelongs.jump hjump
      have hexit := h.exit_lt
      have hwithin : r.entry + 1 ≤ m ∧ m ≤ r.exit := Statement.border_within hborder
      rw [hm, Int32.toInt_ofNat_of_lt (by omega)]
      omega
    · obtain ⟨x, hx⟩ := hbelongs.access hop
      obtain ⟨i, hi⟩ := h.exists_symbol hx
      exact ⟨_, _, h.symbols i _ hi, rfl, rfl⟩
    · obtain ⟨-, p, hp⟩ := hbelongs.call hop
      obtain ⟨j, hj, r', hr', hscope, hstands, -⟩ := h.callee hlength hp
      have hbefore := Region.exit_lt_entry hr'
      have howns := hstands.owns hlength
      rw [hscope] at howns
      exact ⟨j, _, hj, rfl, rfl, r'.entry, r'.exit, howns, by omega⟩
  · constructor <;> simp [instruction, Opcode.isJump]

end

/-! ### Calls -/

section

variable {program : List Instruction} {table : SymbolTable} {b : Block} {scope scope' : Scope} {lo hi lo' hi' : Nat}

theorem Block.LaidOut.owns_iff (h : b.LaidOut program table) :
    Owns program table scope lo hi ↔ ∃ r ∈ b.regions 0 0 none 0, r.scope = scope ∧ r.entry = lo ∧ r.exit = hi := by
  constructor
  · intro howns
    obtain ⟨r, hr, rfl⟩ := h.exists_region scope howns.isBlock
    obtain ⟨hlo, hhi⟩ := ((h.stands r hr).owns h.length).unique howns
    exact ⟨r, hr, rfl, hlo, hhi⟩
  · rintro ⟨r, hr, rfl, rfl, rfl⟩
    exact (h.stands r hr).owns h.length

theorem Block.LaidOut.disjoint (h : b.LaidOut program table) (howns : Owns program table scope lo hi)
    (howns' : Owns program table scope' lo' hi') (hne : scope ≠ scope') : hi < lo' ∨ hi' < lo := by
  obtain ⟨r, hr, rfl, rfl, rfl⟩ := h.owns_iff.1 howns
  obtain ⟨r', hr', rfl, rfl, rfl⟩ := h.owns_iff.1 howns'
  refine Block.apart_of_ne hr hr' ?_
  rintro rfl
  exact hne rfl

/-- A call leads one level deeper. -/
theorem Block.LaidOut.levelOf_of_calls (h : b.LaidOut program table) (hcalls : Calls program table scope scope') :
    table.levelOf scope' = table.levelOf scope + 1 := by
  obtain ⟨lo, hi, a, ins, start, howns, hlo, hhi, hins, hop, hstart, hm⟩ := hcalls
  obtain ⟨r, hr, rfl, rfl, rfl⟩ := h.owns_iff.1 howns
  have hstands := h.stands r hr
  rcases hstands.belongs_or_exit hlo hhi hins with hbelongs | ⟨-, rfl⟩
  · obtain ⟨-, p, hp⟩ := hbelongs.call hop
    obtain ⟨j, hj, r', hr', hscope, hstands', hm'⟩ := hstands.callee h.length hp
    have howns' := hstands'.owns h.length
    rw [hscope] at howns'
    obtain ⟨r'', hr'', rfl⟩ := h.exists_region scope' hstart.isBlock
    have hstands'' := h.stands r'' hr''
    -- the two procedures have the same address, so the same code
    have hsame : Owns program table r''.scope r'.entry r'.exit := by
      obtain rfl := hstands''.startsAt.unique hstart
      obtain ⟨start', hstart', hrest⟩ := howns'
      obtain rfl : start' = r''.start := by
        have := hstands'.startsAt
        rw [hscope] at this
        have := this.unique hstart'
        omega
      exact ⟨_, hstart, hrest⟩
    have hscope'' : r''.scope = some j := by
      by_contra hne
      have := h.disjoint hsame howns' hne
      have := r'.entry_lt_exit
      omega
    rw [hscope'', SymbolTable.levelOf_some hj, hstands.level]
  · cases hop

/-- There is no recursion. -/
theorem Block.LaidOut.levelOf_lt (h : b.LaidOut program table)
    (hcalls : Relation.TransGen (Calls program table) scope scope') : table.levelOf scope < table.levelOf scope' := by
  induction hcalls with
  | single hcalls =>
    have := h.levelOf_of_calls hcalls
    omega
  | tail _ hcalls ih =>
    have := h.levelOf_of_calls hcalls
    omega

private theorem level_lt_deepest {l : List Symbol} {s : Symbol} {a : Int32} (hs : s ∈ l) (ha : s.kind = .proc a) :
    s.level + 1 ≤ deepest l := by
  induction l with
  | nil => cases hs
  | cons t l ih =>
    simp only [deepest]
    rcases List.mem_cons.1 hs with rfl | hs
    · have hsort : s.kind.sort = .proc := by rw [ha]; rfl
      rw [if_pos hsort]
      exact Nat.le_max_left _ _
    · exact Nat.le_trans (ih hs) (Nat.le_max_right _ _)

theorem SymbolTable.IsBlock.levelOf_le (h : table.IsBlock scope) : table.levelOf scope ≤ table.nesting := by
  cases scope with
  | none => exact Nat.zero_le _
  | some j =>
    obtain ⟨s, a, hs, ha⟩ := h
    rw [levelOf_some hs]
    rw [SymbolTable.get?, ← Array.getElem?_toList] at hs
    exact level_lt_deepest (List.mem_of_getElem? hs) ha

/-- A chain of calls gets one level deeper with each call. -/
theorem Block.LaidOut.length_chain (h : b.LaidOut program table) (chain : List Scope) (hscope : table.IsBlock scope)
    (hchain : (scope :: chain).IsChain (Calls program table)) :
    table.levelOf scope + chain.length ≤ table.nesting := by
  induction chain generalizing scope with
  | nil => exact hscope.levelOf_le
  | cons callee chain ih =>
    rw [List.isChain_cons_cons] at hchain
    obtain ⟨_, _, _, _, _, _, _, _, _, _, hstart, _⟩ := hchain.1
    have hlevel := h.levelOf_of_calls hchain.1
    have := ih hstart.isBlock hchain.2
    simp only [List.length_cons]
    omega

end

/-! ### Compilations -/

/-- Every block of a compiled program owns code, and what two of them own is disjoint.  The instructions that a block
owns stay in the block: jumps go to addresses of the block, variables and procedures belong to its scope, and the code
of a called procedure comes before the call.  So there is no recursion, and a chain of calls, each from the block that
was called before, has at most as many calls as procedures are nested in each other. -/
theorem block_confinement {tokens : List Token} {capacity : Nat} {compiled : CompiledProgram}
    (hcapacity : capacity ≤ 2 ^ 31) (h : (compile tokens capacity).outcome = .ok compiled) :
    (∀ scope, compiled.symbols.IsBlock scope →
      ∃ lo hi, Owns compiled.program.instructions.toList compiled.symbols scope lo hi ∧
        ∀ lo' hi', Owns compiled.program.instructions.toList compiled.symbols scope lo' hi' → lo' = lo ∧ hi' = hi) ∧
    (∀ scope scope' lo hi lo' hi', Owns compiled.program.instructions.toList compiled.symbols scope lo hi →
      Owns compiled.program.instructions.toList compiled.symbols scope' lo' hi' → scope ≠ scope' →
        hi < lo' ∨ hi' < lo) ∧
    (∀ scope lo hi, Owns compiled.program.instructions.toList compiled.symbols scope lo hi →
      ∀ a ins, lo ≤ a → a ≤ hi → compiled.program.instructions[a]? = some ins →
        ins.StaysIn compiled.program.instructions.toList compiled.symbols scope lo hi a) ∧
    (∀ scope, ¬Relation.TransGen (Calls compiled.program.instructions.toList compiled.symbols) scope scope) ∧
    ∀ chain : List Scope, chain.IsChain (Calls compiled.program.instructions.toList compiled.symbols) →
      chain.length ≤ compiled.symbols.nesting + 1 := by
  obtain ⟨b, hb⟩ := exists_tree_of_ok h
  obtain ⟨hscoped, htranslates, hfits⟩ := translates_of_ok hb h
  have hlaid := htranslates.laidOut hscoped (by omega)
  refine ⟨fun scope hscope => ?_, fun scope scope' lo hi lo' hi' => hlaid.disjoint, ?_, fun scope hcalls => ?_, ?_⟩
  · obtain ⟨r, hr, rfl⟩ := hlaid.exists_region scope hscope
    have howns := (hlaid.stands r hr).owns hlaid.length
    exact ⟨r.entry, r.exit, howns, fun lo hi howns' => howns'.unique howns⟩
  · intro scope lo hi howns a ins hlo hhi hins
    obtain ⟨r, hr, rfl, rfl, rfl⟩ := hlaid.owns_iff.1 howns
    exact (hlaid.stands r hr).staysIn hlaid.length hlo hhi (by rwa [Array.getElem?_toList])
  · exact Nat.lt_irrefl _ (hlaid.levelOf_lt hcalls)
  · intro chain hchain
    match chain, hchain with
    | [], _ => exact Nat.zero_le _
    | [_], _ => exact Nat.le_add_left _ _
    | scope :: callee :: chain, hchain =>
      obtain ⟨_, _, _, _, _, howns, _⟩ := (List.isChain_cons_cons.1 hchain).1
      have := hlaid.length_chain _ howns.isBlock hchain
      simp only [List.length_cons] at this ⊢
      omega

/-- A procedure that calls the procedure in it.  Its code goes from 5 to 7, that of the inner one from 3 to 4. -/
theorem block_confinement_inner :
    ∃ compiled, (compile [.procSym, .ident "p", .semicolon, .procSym, .ident "q", .semicolon, .semicolon, .callSym,
        .ident "q", .semicolon, .callSym, .ident "p", .period] 20).outcome = .ok compiled ∧
      compiled.program.instructions[6]? = some ⟨.cal, 0, 0, 2⟩ ∧
      Owns compiled.program.instructions.toList compiled.symbols (some 0) 5 7 ∧
      (⟨.cal, 0, 0, 2⟩ : Instruction).StaysIn compiled.program.instructions.toList compiled.symbols (some 0) 5 7 6 ∧
      ¬Relation.TransGen (Calls compiled.program.instructions.toList compiled.symbols) (some 0) (some 0) := by
  let tree : Block := .mk [] [] (.cons "p" (.mk [] [] (.cons "q" (.mk [] [] .nil .empty) .nil) (.call "q")) .nil)
    (.call "p")
  have htree : tree.IsTreeOf [.procSym, .ident "p", .semicolon, .procSym, .ident "q", .semicolon, .semicolon, .callSym,
      .ident "q", .semicolon, .callSym, .ident "p", .period] := ⟨rfl, [], rfl⟩
  obtain ⟨compiled, hok⟩ := ok_of_scoped htree (by decide) (not_outOfRoom (by decide : _ ≤ 20))
  have htranslates := (translates_of_ok htree hok).2.1
  obtain ⟨-, -, hstays, hacyclic, -⟩ := block_confinement (by decide) hok
  have hcal : compiled.program.instructions.toList[6]? = some ⟨.cal, 0, 0, 2⟩ := by
    rw [htranslates.program]
    decide
  have hp : compiled.symbols.get? 0 = some ⟨"p", .proc 1, 0, none⟩ := by
    rw [SymbolTable.get?, ← Array.getElem?_toList, htranslates.symbols]
    decide
  have howns : Owns compiled.program.instructions.toList compiled.symbols (some 0) 5 7 := by
    rw [htranslates.program]
    refine ⟨1, ⟨_, _, hp, rfl, rfl⟩, ⟨⟨.jmp, 0, 0, 5⟩, by decide, rfl, rfl⟩, by decide,
      ⟨⟨.rtn, 0, 0, 0⟩, by decide, rfl⟩, fun a ins hlo hhi hins => ?_⟩
    obtain rfl | rfl : a = 5 ∨ a = 6 := by omega
    · obtain rfl : instruction .inc 4 = ins := Option.some.inj hins
      decide
    · obtain rfl : refer .cal 2 = ins := Option.some.inj hins
      decide
  rw [Array.getElem?_toList] at hcal
  exact ⟨compiled, hok, hcal, howns, hstays (some 0) 5 7 howns 6 _ (by decide) (by decide) hcal, hacyclic (some 0)⟩

end PL0
