import PL0.Proofs.Modularity
import PL0.Proofs.Opcodes

/-!
# The addresses of the symbols

The addresses in the symbol table and the code of a program belong together.  The addresses of the variables and
procedures of a block increase in the order of their declarations and lie in the code of the block (`Block.ascends`).
The code of a block reserves cells for single variables at the addresses of its variables (`Block.cells_code`).
Besides, every block reserves one frame and has one return, so their numbers follow from the number of procedures
(`Block.countP_code`).
-/

namespace PL0

/-- The address of a variable or a procedure. -/
def SymbolKind.address? : SymbolKind → Option Int
  | .const _ => none
  | .var address => some address.toInt
  | .proc address => some address.toInt

/-- The address of a variable. -/
def SymbolKind.cell? : SymbolKind → Option Int
  | .var address => some address.toInt
  | _ => none

/-- The addresses of the variables and procedures, in the order of the declarations. -/
def addresses (symbols : List Symbol) : List Int :=
  symbols.filterMap (·.kind.address?)

/-- The addresses of the variables, in the order of the declarations. -/
def cellAddresses (symbols : List Symbol) : List Int :=
  symbols.filterMap (·.kind.cell?)

section

variable (s : Symbol) (symbols symbols' : List Symbol)

theorem addresses_cons : addresses (s :: symbols) = s.kind.address?.toList ++ addresses symbols := by
  rw [addresses, List.filterMap_cons]
  cases s.kind.address? <;> rfl

theorem addresses_append : addresses (symbols ++ symbols') = addresses symbols ++ addresses symbols' :=
  List.filterMap_append

theorem cellAddresses_cons : cellAddresses (s :: symbols) = s.kind.cell?.toList ++ cellAddresses symbols := by
  rw [cellAddresses, List.filterMap_cons]
  cases s.kind.cell? <;> rfl

theorem cellAddresses_append :
    cellAddresses (symbols ++ symbols') = cellAddresses symbols ++ cellAddresses symbols' :=
  List.filterMap_append

end

theorem mem_cellAddresses {symbols : List Symbol} {a : Int} :
    a ∈ cellAddresses symbols ↔ ∃ s ∈ symbols, ∃ m, s.kind = .var m ∧ m.toInt = a := by
  simp only [cellAddresses, List.mem_filterMap]
  refine exists_congr fun s => and_congr_right fun _ => ?_
  cases s.kind <;> simp [SymbolKind.cell?]

private theorem addresses_consts (consts : List (String × Int32)) (level : Nat) (scope : Scope) :
    addresses (consts.map fun item => ⟨item.1, .const item.2, level, scope⟩) = [] := by
  simp [addresses, SymbolKind.address?]

private theorem cellAddresses_consts (consts : List (String × Int32)) (level : Nat) (scope : Scope) :
    cellAddresses (consts.map fun item => ⟨item.1, .const item.2, level, scope⟩) = [] := by
  simp [cellAddresses, SymbolKind.cell?]

/-! ### The order of the addresses -/

/-- The addresses increase, from `lo` on and below `hi`. -/
structure Ascends (lo hi : Nat) (l : List Int) : Prop where
  increasing : l.Pairwise (· < ·)
  within : ∀ a ∈ l, lo ≤ a ∧ a < hi

namespace Ascends

variable {lo mid hi : Nat} {l l' : List Int}

theorem nil : Ascends lo hi [] :=
  ⟨.nil, by simp⟩

theorem cons {a : Int} (ha : a = lo) (hlt : lo < hi) (h : Ascends (lo + 1) hi l) : Ascends lo hi (a :: l) := by
  subst ha
  refine ⟨List.pairwise_cons.2 ⟨fun a ha => ?_, h.increasing⟩, fun a ha => ?_⟩
  · have := h.within a ha
    omega
  · rcases List.mem_cons.1 ha with rfl | ha
    · omega
    · have := h.within a ha
      omega

theorem append (hmid : lo ≤ mid) (hmid' : mid ≤ hi) (h : Ascends lo mid l) (h' : Ascends mid hi l') :
    Ascends lo hi (l ++ l') := by
  refine ⟨List.pairwise_append.2 ⟨h.increasing, h'.increasing, fun a ha a' ha' => ?_⟩, fun a ha => ?_⟩
  · have := h.within a ha
    have := h'.within a' ha'
    omega
  · rcases List.mem_append.1 ha with ha | ha
    · have := h.within a ha
      omega
    · have := h'.within a ha
      omega

theorem mono {hi' : Nat} (h : Ascends lo hi l) (hhi : hi ≤ hi') : Ascends lo hi' l := by
  refine ⟨h.increasing, fun a ha => ?_⟩
  have := h.within a ha
  omega

end Ascends

private theorem ascends_vars (vars : List String) (start level : Nat) (scope : Scope)
    (h : start + vars.length ≤ 2 ^ 31) :
    Ascends start (start + vars.length)
      (addresses ((varNames vars start).map fun item => ⟨item.1, item.2, level, scope⟩)) := by
  induction vars generalizing start with
  | nil => exact .nil
  | cons x vars ih =>
    simp only [List.length_cons] at h ⊢
    rw [varNames, List.map_cons, addresses_cons]
    exact .cons (Int32.toInt_ofNat_of_lt (by omega)) (by omega) ((ih (start + 1) (by omega)).mono (by omega))

mutual

theorem Block.ascends : ∀ (b : Block) (start level : Nat) (scope : Scope) (id : Nat), start + b.size ≤ 2 ^ 31 →
    Ascends (start + 1) (start + b.size) (addresses (b.symbols start level scope id))
  | .mk consts vars procs body, start, level, scope, id, h => by
    simp only [Block.size] at h ⊢
    rw [Block.symbols, addresses_append, addresses_append, addresses_consts, List.nil_append]
    have hvars := ascends_vars vars (start + 1) level scope (by omega)
    have hprocs := procs.ascends (start + 1 + vars.length) level scope (id + consts.length + vars.length) (by omega)
    exact hvars.append (by omega) (by omega) (hprocs.mono (by omega))

theorem Procedures.ascends : ∀ (l : Procedures) (start level : Nat) (scope : Scope) (id : Nat),
    start + l.size ≤ 2 ^ 31 → Ascends start (start + l.size) (addresses (l.symbols start level scope id))
  | .nil, _, _, _, _, _ => .nil
  | .cons name block rest, start, level, scope, id, h => by
    have hpos := block.size_pos
    simp only [Procedures.size] at h ⊢
    rw [Procedures.symbols, addresses_cons, addresses_append]
    have hblock := block.ascends start (level + 1) (some id) (id + 1) (by omega)
    have hrest := rest.ascends (start + block.size) level scope
      (id + 1 + (block.symbols start (level + 1) (some id) (id + 1)).length) (by omega)
    -- the procedure itself has the address of its block, and its symbols come after it
    have hafter : Ascends (start + 1) (start + (block.size + rest.size)) _ :=
      hblock.append (by omega) (by omega) (hrest.mono (by omega))
    exact .cons (Int32.toInt_ofNat_of_lt (by omega)) (by omega) hafter

end

/-! ### The cells of the variables -/

/-- The addresses at which code that starts at `a` reserves a cell for a variable. -/
def cells (a : Nat) (code : List Instruction) : List Int :=
  (code.zipIdx a).filterMap fun item => if item.1 = instruction .inc 1 then some (item.2 : Int) else none

theorem cells_append {n : Nat} {code : List Instruction} (hn : code.length = n) (a : Nat) (code' : List Instruction) :
    cells a (code ++ code') = cells a code ++ cells (a + n) code' := by
  subst hn
  simp only [cells, List.zipIdx_append, List.filterMap_append]

theorem cells_cons_inc (a : Nat) (code : List Instruction) :
    cells a (instruction .inc 1 :: code) = (a : Int) :: cells (a + 1) code := by
  simp [cells]

theorem cells_of_ne {code : List Instruction} (h : ∀ ins ∈ code, ins ≠ instruction .inc 1) (a : Nat) :
    cells a code = [] := by
  rw [cells, List.filterMap_eq_nil_iff]
  rintro ⟨ins, i⟩ hitem
  exact if_neg (h ins (List.fst_mem_of_mem_zipIdx hitem))

theorem mem_cells {code : List Instruction} {a : Int} :
    a ∈ cells 0 code ↔ ∃ i : Nat, a = i ∧ code[i]? = some (instruction .inc 1) := by
  simp only [cells, List.mem_filterMap, Prod.exists, List.mk_mem_zipIdx_iff_getElem?]
  constructor
  · rintro ⟨ins, i, hi, hcell⟩
    by_cases hins : ins = instruction .inc 1
    · rw [if_pos hins, Option.some.injEq] at hcell
      exact ⟨i, hcell.symm, hins ▸ hi⟩
    · rw [if_neg hins] at hcell
      cases hcell
  · rintro ⟨i, rfl, hi⟩
    exact ⟨_, i, hi, if_pos rfl⟩

private theorem cells_vars (vars : List String) (start level : Nat) (scope : Scope) (h : start + vars.length ≤ 2 ^ 31) :
    cells start (vars.map fun _ => instruction .inc 1) =
      cellAddresses ((varNames vars start).map fun item => ⟨item.1, item.2, level, scope⟩) := by
  induction vars generalizing start with
  | nil => rfl
  | cons x vars ih =>
    simp only [List.length_cons] at h
    have hstart : (Int32.ofNat start).toInt = start := Int32.toInt_ofNat_of_lt (by omega)
    rw [varNames, List.map_cons, List.map_cons, cells_cons_inc, cellAddresses_cons, ih _ (by omega), SymbolKind.cell?,
      hstart]
    rfl

/-- The frame that a block reserves, its statement and its return. -/
private theorem cells_entry (body : Statement) (env : Env) (a : Nat) :
    cells a (instruction .inc 4 :: (body.code env (a + 1) ++ [instruction .rtn 0])) = [] := by
  refine cells_of_ne (fun ins hins => ?_) a
  simp only [List.mem_cons, List.mem_append, List.not_mem_nil, or_false] at hins
  rcases hins with rfl | hins | rfl
  · decide
  · rintro rfl
    cases body.framesNothing _ _ hins
  · decide

mutual

theorem Block.cells_code : ∀ (b : Block) (start level : Nat) (scope : Scope) (id : Nat), start + b.size ≤ 2 ^ 31 →
    cells start (b.code start) = cellAddresses (b.symbols start level scope id)
  | .mk consts vars procs body, start, level, scope, id, h => by
    simp only [Block.size] at h
    let b := Block.mk consts vars procs body
    have hskip : cells start [refer .jmp (b.entry start)] = [] := cells_of_ne (by simp [refer, instruction]) start
    have hvars := cells_vars vars (start + 1) level scope (by omega)
    have hprocs := procs.cells_code (b.procsStart start) level scope (id + consts.length + vars.length)
      (show start + 1 + vars.length + procs.size ≤ 2 ^ 31 by omega)
    have hentry := cells_entry body (b.env start) (b.entry start)
    rw [Block.symbols, cellAddresses_append, cellAddresses_append, cellAddresses_consts, ← hvars, ← hprocs]
    show cells start ([refer .jmp (b.entry start)] ++ ((vars.map fun _ => instruction .inc 1) ++
      (procs.code (b.procsStart start) ++ _))) = _
    rw [cells_append rfl, hskip, cells_append (List.length_map _), cells_append (Procedures.length_code _ _)]
    exact congrArg _ (congrArg _ ((congrArg _ hentry).trans (List.append_nil _)))

theorem Procedures.cells_code : ∀ (l : Procedures) (start level : Nat) (scope : Scope) (id : Nat),
    start + l.size ≤ 2 ^ 31 → cells start (l.code start) = cellAddresses (l.symbols start level scope id)
  | .nil, _, _, _, _, _ => rfl
  | .cons name block rest, start, level, scope, id, h => by
    simp only [Procedures.size] at h
    rw [Procedures.code, Procedures.symbols, cells_append (Block.length_code _ _), cellAddresses_cons,
      cellAddresses_append, ← block.cells_code start (level + 1) (some id) (id + 1) (by omega),
      ← rest.cells_code (start + block.size) level scope _ (by omega)]
    rfl

end

/-! ### Frames and returns -/

/-- Of the instructions of a block, without those of its procedures, `n` have the property, and they are among the
reservation of the frame and the return. -/
structure FrameCount (p : Instruction → Bool) (n : Nat) : Prop where
  skip : ∀ a, p (refer .jmp a) = false
  cell : p (instruction .inc 1) = false
  framing : ∀ ins : Instruction, p ins → ins.op.isFraming
  frame : [instruction .inc 4, instruction .rtn 0].countP p = n

section

variable {p : Instruction → Bool} {n : Nat}

private theorem FrameCount.countP_cells (h : FrameCount p n) (vars : List String) :
    (vars.map fun _ => instruction .inc 1).countP p = 0 := by
  rw [List.countP_eq_zero]
  intro ins hins
  obtain ⟨x, -, rfl⟩ := List.mem_map.1 hins
  simp [h.cell]

private theorem FrameCount.countP_entry (h : FrameCount p n) (body : Statement) (env : Env) (start : Nat) :
    (instruction .inc 4 :: (body.code env start ++ [instruction .rtn 0])).countP p = n := by
  have hbody : (body.code env start).countP p = 0 := by
    rw [List.countP_eq_zero]
    intro ins hins hp
    have hnone := body.framesNothing start ins hins
    rw [h.framing ins hp] at hnone
    cases hnone
  have hframe := h.frame
  rw [List.countP_cons] at hframe
  rw [List.countP_cons, List.countP_append, hbody, Nat.zero_add]
  exact hframe

mutual

theorem Block.countP_code (h : FrameCount p n) : ∀ (b : Block) (start level : Nat) (scope : Scope) (id : Nat),
    (b.code start).countP p = n * (procCount (b.symbols start level scope id) + 1)
  | .mk consts vars procs body, start, level, scope, id => by
    let b := Block.mk consts vars procs body
    have hvars := h.countP_cells vars
    have hprocs := procs.countP_code h (b.procsStart start) level scope (id + consts.length + vars.length)
    have hentry := h.countP_entry body (b.env start) (b.entry start + 1)
    rw [Block.symbols, procCount_append, procCount_append, procCount_consts, procCount_vars, Nat.zero_add,
      Nat.zero_add, Block.code, List.countP_cons_of_neg (by simp [h.skip]), List.countP_append, List.countP_append,
      hvars, hprocs, hentry, Nat.zero_add, Nat.mul_succ]

theorem Procedures.countP_code (h : FrameCount p n) : ∀ (l : Procedures) (start level : Nat) (scope : Scope) (id : Nat),
    (l.code start).countP p = n * procCount (l.symbols start level scope id)
  | .nil, _, _, _, _ => rfl
  | .cons name block rest, start, level, scope, id => by
    have hblock := block.countP_code h start (level + 1) (some id) (id + 1)
    have hrest := rest.countP_code h (start + block.size) level scope
      (id + 1 + (block.symbols start (level + 1) (some id) (id + 1)).length)
    rw [Procedures.symbols, procCount_cons_proc, procCount_append, Procedures.code, List.countP_append, hblock, hrest,
      ← Nat.mul_add, Nat.add_right_comm]

end

theorem Block.countP_program (h : FrameCount p n) (b : Block) :
    b.program.countP p = n * (procCount (b.symbols 0 0 none 0) + 1) + [instruction .halt 3].countP p := by
  rw [Block.program, List.countP_append, b.countP_code h 0 0 none 0]

end

private theorem frameCount_rtn : FrameCount (·.op = .rtn) 1 where
  skip _ := rfl
  cell := rfl
  framing ins h := by
    rw [of_decide_eq_true h]
    rfl
  frame := rfl

private theorem frameCount_frame : FrameCount (· == ⟨.inc, 0, 0, 4⟩) 1 where
  skip _ := by simp [refer, instruction]
  cell := rfl
  framing ins h := by
    rw [eq_of_beq h]
    rfl
  frame := rfl

private theorem frameCount_halt : FrameCount (·.op = .halt) 0 where
  skip _ := rfl
  cell := rfl
  framing ins h := by
    rw [of_decide_eq_true h]
    rfl
  frame := rfl

/-! ### Compilations -/

/-- The symbol table and the code of a compiled program agree.  The addresses of variables and procedures increase in
the order of the declarations.  A single cell is reserved at the addresses of the variables and nowhere else.  At the
address of a procedure there is a jump forward to a reservation of four cells.  There is one such reservation and one
return for each procedure and for the main block, and the only halt comes directly after the return of the main block,
at the end. -/
theorem symbols_agree_with_code {tokens : List Token} {capacity : Nat} {compiled : CompiledProgram}
    (hcapacity : capacity ≤ 2 ^ 31) (h : (compile tokens capacity).outcome = .ok compiled) :
    (addresses compiled.symbols.symbols.toList).Pairwise (· < ·) ∧
    (∀ a : Int, (∃ i : Nat, a = i ∧ compiled.program.instructions[i]? = some ⟨.inc, 0, 0, 1⟩) ↔
      ∃ s ∈ compiled.symbols.symbols.toList, ∃ m, s.kind = .var m ∧ m.toInt = a) ∧
    (∀ s ∈ compiled.symbols.symbols.toList, ∀ m, s.kind = .proc m → ∃ (a t : Nat) (ins : Instruction),
      m.toInt = a ∧ compiled.program.instructions[a]? = some ins ∧ ins.op = .jmp ∧ ins.m.toInt = t ∧ a < t ∧
        compiled.program.instructions[t]? = some ⟨.inc, 0, 0, 4⟩) ∧
    compiled.program.instructions.toList.countP (·.op = .rtn) = procCount compiled.symbols.symbols.toList + 1 ∧
    compiled.program.instructions.toList.count ⟨.inc, 0, 0, 4⟩ = procCount compiled.symbols.symbols.toList + 1 ∧
    compiled.program.instructions.toList.countP (·.op = .halt) = 1 ∧
    ∃ lo hi, Owns compiled.program.instructions.toList compiled.symbols none lo hi ∧
      compiled.program.instructions[hi + 1]? = some ⟨.halt, 0, 0, 3⟩ ∧
      compiled.program.instructions.size = hi + 2 := by
  obtain ⟨b, hb⟩ := exists_tree_of_ok h
  obtain ⟨hscoped, htranslates, hfits⟩ := translates_of_ok hb h
  have hlaid := htranslates.laidOut hscoped (by omega)
  have hlength : b.program.length = b.size + 1 := by simp [Block.program]
  have hsize : 0 + b.size ≤ 2 ^ 31 := by omega
  simp only [← Array.getElem?_toList, ← Array.length_toList, htranslates.symbols]
  refine ⟨(b.ascends 0 0 none 0 hsize).increasing, fun a => ?_, fun s hs m hm => ?_, ?_, ?_, ?_, ?_⟩
  · rw [← mem_cellAddresses, ← b.cells_code 0 0 none 0 hsize, htranslates.program]
    have hhalt : cells b.size [instruction .halt 3] = [] := cells_of_ne (by simp [instruction]) _
    have hcells : cells 0 b.program = cells 0 (b.code 0) := by
      rw [Block.program, cells_append (Block.length_code _ _), Nat.zero_add, hhalt, List.append_nil]
    rw [← hcells]
    exact mem_cells.symm
  · obtain ⟨j, hj⟩ := List.mem_iff_getElem?.1 hs
    have hsymbol : compiled.symbols.get? j = some s := by
      rw [SymbolTable.get?, ← Array.getElem?_toList, htranslates.symbols]
      exact hj
    obtain ⟨r, hr, hscope⟩ := hlaid.exists_region (some j) ⟨s, m, hsymbol, hm⟩
    have hstands := hlaid.stands r hr
    have hstart := hstands.startsAt
    rw [hscope] at hstart
    exact ⟨r.start, r.entry, _, hstart.toInt_eq hsymbol hm, Block.jmp_at_start hstands.code, rfl,
      hstands.toInt_entry hlaid.length, r.start_lt_entry, (Block.placed_entry hstands.code).head⟩
  · rw [htranslates.program, b.countP_program frameCount_rtn]
    simp [instruction]
  · rw [htranslates.program, List.count, b.countP_program frameCount_frame]
    simp [instruction]
  · rw [htranslates.program, b.countP_program frameCount_halt]
    simp [instruction]
  · have hmain := hlaid.stands ⟨b, 0, 0, none, 0⟩ (by rw [Block.regions_eq]; exact List.mem_cons_self)
    have hexit : b.exit 0 + 1 = b.size := by
      rw [b.exit_eq, Nat.zero_add]
    refine ⟨b.entry 0, b.exit 0, hmain.owns hlaid.length, ?_, ?_⟩
    · rw [htranslates.program, hexit, Block.program, List.getElem?_append_right (by simp)]
      simp [instruction]
    · rw [htranslates.program, hlength, ← hexit]

/-- A procedure in a procedure, both with the name `p`, and a variable that is declared twice.  The procedures start at
3 and 5, and the inner one ends before the frame of the outer one at 11. -/
theorem symbols_agree_with_code_nested :
    ∃ compiled, (compile [.constSym, .ident "k", .eql, .number 7, .semicolon, .varSym, .ident "x", .comma, .ident "x",
        .semicolon, .procSym, .ident "p", .semicolon, .varSym, .ident "x", .semicolon, .procSym, .ident "p", .semicolon,
        .varSym, .ident "y", .semicolon, .readSym, .ident "y", .semicolon, .callSym, .ident "p", .semicolon, .callSym,
        .ident "p", .period] 40).outcome = .ok compiled ∧
      addresses compiled.symbols.symbols.toList = [1, 2, 3, 4, 5, 6] ∧
      (addresses compiled.symbols.symbols.toList).Pairwise (· < ·) ∧
      compiled.program.instructions[2]? = some ⟨.inc, 0, 0, 1⟩ ∧
      (∃ s ∈ compiled.symbols.symbols.toList, ∃ m, s.kind = .var m ∧ m.toInt = 2) ∧
      ⟨"p", .proc 3, 0, none⟩ ∈ compiled.symbols.symbols.toList ∧
      (∃ (t : Nat) (ins : Instruction), compiled.program.instructions[3]? = some ins ∧ ins.op = .jmp ∧
        ins.m.toInt = t ∧ 3 < t ∧ compiled.program.instructions[t]? = some ⟨.inc, 0, 0, 4⟩) ∧
      compiled.program.instructions.toList.countP (·.op = .rtn) = 3 ∧
      Owns compiled.program.instructions.toList compiled.symbols none 14 16 ∧
      compiled.program.instructions[17]? = some ⟨.halt, 0, 0, 3⟩ := by
  let inner : Block := .mk [] ["y"] .nil (.read "y")
  let outer : Block := .mk [] ["x"] (.cons "p" inner .nil) (.call "p")
  let tree : Block := .mk [("k", 7)] ["x", "x"] (.cons "p" outer .nil) (.call "p")
  have htree : tree.IsTreeOf [.constSym, .ident "k", .eql, .number 7, .semicolon, .varSym, .ident "x", .comma,
      .ident "x", .semicolon, .procSym, .ident "p", .semicolon, .varSym, .ident "x", .semicolon, .procSym, .ident "p",
      .semicolon, .varSym, .ident "y", .semicolon, .readSym, .ident "y", .semicolon, .callSym, .ident "p", .semicolon,
      .callSym, .ident "p", .period] := ⟨rfl, [], rfl⟩
  obtain ⟨compiled, hok⟩ := ok_of_scoped htree (by decide) (not_outOfRoom (by decide : _ ≤ 40))
  obtain ⟨hscoped, htranslates, -⟩ := translates_of_ok htree hok
  obtain ⟨hincreasing, hcells, hprocs, hrtn, -, -, lo, hi, howns, hhalt, hsize⟩ :=
    symbols_agree_with_code (by decide) hok
  have hcell : compiled.program.instructions[2]? = some ⟨.inc, 0, 0, 1⟩ := by
    rw [← Array.getElem?_toList, htranslates.program]
    decide
  have hp : ⟨"p", .proc 3, 0, none⟩ ∈ compiled.symbols.symbols.toList := by
    rw [htranslates.symbols]
    decide
  have hlast : compiled.program.instructions.size = 18 := by
    rw [← Array.length_toList, htranslates.program]
    rfl
  obtain rfl : hi = 16 := by omega
  have hmain := (htranslates.laidOut hscoped (by decide)).stands ⟨tree, 0, 0, none, 0⟩ List.mem_cons_self
  obtain rfl : 14 = lo := ((hmain.owns (by rw [Array.length_toList, hlast]; decide)).unique howns).1
  refine ⟨compiled, hok, ?_, hincreasing, hcell, (hcells 2).1 ⟨2, rfl, hcell⟩, hp, ?_, ?_, howns, hhalt⟩
  · rw [htranslates.symbols]
    decide
  · obtain ⟨a, t, ins, ha, hjmp⟩ := hprocs _ hp 3 rfl
    obtain rfl : a = 3 := by
      have : (3 : Int32).toInt = 3 := by decide
      omega
    exact ⟨t, ins, hjmp⟩
  · rw [hrtn, htranslates.symbols]
    decide

end PL0
