import PL0.Proofs.Confinement
import PL0.Proofs.Generator.Lockstep
import PL0.Proofs.Relocation

/-!
# Procedures are compiled like programs

A block is compiled in the same way wherever it stands.  So the tokens of the block of a procedure, with a period after
them, are a program of their own, and its code is the code of the procedure up to the place where it starts
(`compile_procedure_modular`).

The declarations of procedures are found in the token sequence by their keyword: each of them is the declaration of one
of the regions, and they come in the order in which the procedures are numbered (`Block.exists_declaration`).
-/

namespace PL0

/-! ### The keyword of procedures -/

mutual

theorem Expression.procSym_notMem : ∀ e : Expression, .procSym ∉ e.tokens
  | .mk sign first rest => by
    have hsign : Token.procSym ∉ (sign.map AddOp.token).toList := by
      rcases sign with _ | (_ | _) <;> simp [AddOp.token]
    simp [Expression.tokens, hsign, first.procSym_notMem, rest.procSym_notMem]

theorem TermTail.procSym_notMem : ∀ l : TermTail, .procSym ∉ l.tokens
  | .nil => by simp [TermTail.tokens]
  | .cons op term rest => by
    cases op <;> simp [TermTail.tokens, AddOp.token, term.procSym_notMem, rest.procSym_notMem]

theorem Term.procSym_notMem : ∀ t : Term, .procSym ∉ t.tokens
  | .mk first rest => by simp [Term.tokens, first.procSym_notMem, rest.procSym_notMem]

theorem FactorTail.procSym_notMem : ∀ l : FactorTail, .procSym ∉ l.tokens
  | .nil => by simp [FactorTail.tokens]
  | .cons op factor rest => by
    cases op <;> simp [FactorTail.tokens, MulOp.token, factor.procSym_notMem, rest.procSym_notMem]

theorem Factor.procSym_notMem : ∀ f : Factor, .procSym ∉ f.tokens
  | .name x => by simp [Factor.tokens]
  | .number value => by simp [Factor.tokens]
  | .paren inner => by simp [Factor.tokens, inner.procSym_notMem]

end

theorem Condition.procSym_notMem (c : Condition) : .procSym ∉ c.tokens := by
  cases c with
  | odd e => simp [Condition.tokens, e.procSym_notMem]
  | compare left op right =>
    cases op <;> simp [Condition.tokens, RelOp.token, left.procSym_notMem, right.procSym_notMem]

mutual

theorem Statement.procSym_notMem : ∀ s : Statement, .procSym ∉ s.tokens
  | .empty => by simp [Statement.tokens]
  | .assign x e => by simp [Statement.tokens, e.procSym_notMem]
  | .call p => by simp [Statement.tokens]
  | .compound first rest => by simp [Statement.tokens, first.procSym_notMem, rest.procSym_notMem]
  | .ifThen c s => by simp [Statement.tokens, c.procSym_notMem, s.procSym_notMem]
  | .ifElse c s t => by simp [Statement.tokens, c.procSym_notMem, s.procSym_notMem, t.procSym_notMem]
  | .whileDo c s => by simp [Statement.tokens, c.procSym_notMem, s.procSym_notMem]
  | .read x => by simp [Statement.tokens]
  | .write x => by simp [Statement.tokens]

theorem StatementTail.procSym_notMem : ∀ l : StatementTail, .procSym ∉ l.tokens
  | .nil => by simp [StatementTail.tokens]
  | .cons s rest => by simp [StatementTail.tokens, s.procSym_notMem, rest.procSym_notMem]

end

private theorem procSym_notMem_consts (consts : List (String × Int32)) :
    .procSym ∉ listTokens .constSym constTokens consts := by
  cases consts <;> simp [listTokens, constTokens]

private theorem procSym_notMem_vars (vars : List String) : .procSym ∉ listTokens .varSym varTokens vars := by
  cases vars <;> simp [listTokens, varTokens]

/-! ### Procedures are numbered in the order of their keywords -/

/-- The number of procedures among some symbols. -/
def procCount (symbols : List Symbol) : Nat :=
  symbols.countP fun s => s.kind.sort = .proc

theorem procCount_append (symbols symbols' : List Symbol) :
    procCount (symbols ++ symbols') = procCount symbols + procCount symbols' :=
  List.countP_append

theorem procCount_cons_proc (name : String) (a : Int32) (level : Nat) (scope : Scope) (symbols : List Symbol) :
    procCount (⟨name, .proc a, level, scope⟩ :: symbols) = procCount symbols + 1 :=
  List.countP_cons_of_pos rfl

theorem procCount_consts (consts : List (String × Int32)) (level : Nat) (scope : Scope) :
    procCount (consts.map fun item => ⟨item.1, .const item.2, level, scope⟩) = 0 := by
  simp [procCount, List.countP_eq_zero, SymbolKind.sort]

theorem procCount_vars (vars : List String) (start level : Nat) (scope : Scope) :
    procCount ((varNames vars start).map fun item => ⟨item.1, item.2, level, scope⟩) = 0 := by
  induction vars generalizing start with
  | nil => rfl
  | cons x vars ih => simpa [varNames, procCount, SymbolKind.sort] using ih (start + 1)

mutual

theorem Block.count_procSym : ∀ (b : Block) (start level : Nat) (scope : Scope) (id : Nat),
    b.tokens.count .procSym = procCount (b.symbols start level scope id)
  | .mk consts vars procs body, start, level, scope, id => by
    have hprocs := procs.count_procSym ((Block.mk consts vars procs body).procsStart start) level scope
      (id + consts.length + vars.length)
    have hconsts := List.count_eq_zero_of_not_mem (procSym_notMem_consts consts)
    have hvars := List.count_eq_zero_of_not_mem (procSym_notMem_vars vars)
    have hbody := List.count_eq_zero_of_not_mem body.procSym_notMem
    rw [Block.symbols, procCount_append, procCount_append, procCount_consts, procCount_vars]
    simp only [Block.tokens, List.count_append]
    omega

theorem Procedures.count_procSym : ∀ (l : Procedures) (start level : Nat) (scope : Scope) (id : Nat),
    l.tokens.count .procSym = procCount (l.symbols start level scope id)
  | .nil, _, _, _, _ => rfl
  | .cons name block rest, start, level, scope, id => by
    have hblock := block.count_procSym start (level + 1) (some id) (id + 1)
    have hrest := rest.count_procSym (start + block.size) level scope
      (id + 1 + (block.symbols start (level + 1) (some id) (id + 1)).length)
    rw [Procedures.symbols, procCount_cons_proc, procCount_append, ← hblock, ← hrest]
    simp [Procedures.tokens]

end

/-! ### The declaration of a procedure -/

/-- An element of an appended list is in the first part or in the second one. -/
private theorem append_split {l l' before rest : List Token} {t : Token} (h : l ++ l' = before ++ t :: rest) :
    (∃ rest', l = before ++ t :: rest' ∧ rest = rest' ++ l') ∨
      ∃ before', before = l ++ before' ∧ l' = before' ++ t :: rest := by
  rcases List.append_eq_append_iff.1 h with ⟨before', hbefore, hl'⟩ | ⟨middle, hl, hmiddle⟩
  · exact .inr ⟨before', hbefore, hl'⟩
  · cases middle with
    | nil =>
      rw [List.append_nil] at hl
      exact .inr ⟨[], by rw [hl, List.append_nil], hmiddle.symm⟩
    | cons t' rest' =>
      obtain ⟨rfl, rfl⟩ := List.cons_eq_cons.1 hmiddle
      exact .inl ⟨rest', hl, rfl⟩

private theorem append_split_right {l l' before rest : List Token} {t : Token} (h : l ++ l' = before ++ t :: rest)
    (hl : t ∉ l) : ∃ before', before = l ++ before' ∧ l' = before' ++ t :: rest := by
  rcases append_split h with ⟨rest', rfl, -⟩ | h
  · exact absurd (List.mem_append_right _ List.mem_cons_self) hl
  · exact h

/-- A keyword of a program that does not come after a period is in its block. -/
private theorem split_before_period {l tail before rest : List Token}
    (h : l ++ .period :: tail = before ++ .procSym :: rest) (hperiod : .period ∉ before) :
    ∃ rest', l = before ++ .procSym :: rest' ∧ rest = rest' ++ .period :: tail := by
  rcases append_split h with h | ⟨before', rfl, h'⟩
  · exact h
  · cases before' with
    | nil => cases h'
    | cons t before' =>
      obtain ⟨rfl, -⟩ := List.cons_eq_cons.1 h'
      exact absurd (List.mem_append_right _ List.mem_cons_self) hperiod

/-- The keyword between `before` and `rest` starts the declaration of the procedure of the region, whose symbol is one
of those that are numbered from `id` on. -/
def Region.DeclaredAt (r : Region) (id : Nat) (symbols : List Symbol) (before rest : List Token) : Prop :=
  ∃ i s a after, symbols[i]? = some s ∧ s.kind = .proc a ∧ r.scope = some (id + i) ∧
    rest = .ident s.name :: .semicolon :: (r.block.tokens ++ .semicolon :: after) ∧
    procCount (symbols.take i) = before.count .procSym

/-- The same declaration, seen from a larger piece of the program. -/
private theorem Region.DeclaredAt.within {r : Region} {id n : Nat} {symbols symbols' : List Symbol}
    {before rest tokens : List Token} (h : r.DeclaredAt (id + n) symbols before rest) (hn : symbols'.length = n)
    (hcount : procCount symbols' = tokens.count .procSym) (symbols'' : List Symbol) (tokens' : List Token) :
    r.DeclaredAt id (symbols' ++ (symbols ++ symbols'')) (tokens ++ before) (rest ++ tokens') := by
  subst hn
  obtain ⟨i, s, a, after, hs, ha, hscope, rfl, hbefore⟩ := h
  have hi : i < symbols.length := (List.getElem?_eq_some_iff.1 hs).1
  refine ⟨symbols'.length + i, s, a, after ++ tokens', ?_, ha, ?_, ?_, ?_⟩
  · rw [List.getElem?_append_right (Nat.le_add_right _ _), Nat.add_sub_cancel_left, List.getElem?_append_left hi]
    exact hs
  · rw [hscope, Nat.add_assoc]
  · simp
  · simp only [procCount] at hcount hbefore ⊢
    rw [List.take_length_add_append, List.take_append_of_le_length (Nat.le_of_lt hi), List.countP_append,
      List.count_append]
    omega

mutual

theorem Block.exists_declaration : ∀ (b : Block) (start level : Nat) (scope : Scope) (id : Nat)
    {before rest : List Token}, b.tokens = before ++ .procSym :: rest →
    ∃ r ∈ b.regions start level scope id, r.DeclaredAt id (b.symbols start level scope id) before rest
  | .mk consts vars procs body, start, level, scope, id, before, rest, h => by
    obtain ⟨before₁, rfl, h₁⟩ := append_split_right h (procSym_notMem_consts consts)
    obtain ⟨before₂, rfl, h₂⟩ := append_split_right h₁ (procSym_notMem_vars vars)
    rcases append_split h₂ with ⟨rest', h₃, rfl⟩ | ⟨before₃, -, h₃⟩
    · obtain ⟨r, hr, hdeclared⟩ := procs.exists_declaration ((Block.mk consts vars procs body).procsStart start) level
        scope (id + consts.length + vars.length) h₃
      have hnone := List.count_eq_zero_of_not_mem (procSym_notMem_vars vars)
      have hnone' := List.count_eq_zero_of_not_mem (procSym_notMem_consts consts)
      have hvars := hdeclared.within ((List.length_map _).trans (length_varNames _ _))
        ((procCount_vars vars (start + 1) level scope).trans hnone.symm) [] body.tokens
      have hconsts := hvars.within (List.length_map _) ((procCount_consts consts level scope).trans hnone'.symm) [] []
      simp only [List.append_nil] at hconsts
      exact ⟨r, List.mem_cons_of_mem _ hr, hconsts⟩
    · exact absurd (h₃ ▸ List.mem_append_right _ List.mem_cons_self) body.procSym_notMem

theorem Procedures.exists_declaration : ∀ (l : Procedures) (start level : Nat) (scope : Scope) (id : Nat)
    {before rest : List Token}, l.tokens = before ++ .procSym :: rest →
    ∃ r ∈ l.regions start level id, r.DeclaredAt id (l.symbols start level scope id) before rest
  | .nil, _, _, _, _, before, rest, h => by simp [Procedures.tokens] at h
  | .cons name block rest, start, level, scope, id, before, rest', h => by
    cases before with
    | nil =>
      obtain rfl := (List.cons_eq_cons.1 h).2
      refine ⟨⟨block, start, level + 1, some id, id + 1⟩, List.mem_append_left _ ?_, 0, _, _, rest.tokens, rfl, rfl,
        rfl, rfl, rfl⟩
      rw [Block.regions_eq]
      exact List.mem_cons_self
    | cons t before =>
      obtain ⟨rfl, h₁⟩ := List.cons_eq_cons.1 h
      have h₁ : [Token.ident name, .semicolon] ++ (block.tokens ++ .semicolon :: rest.tokens) =
        before ++ .procSym :: rest' := h₁
      obtain ⟨before₁, rfl, h₂⟩ := append_split_right h₁ (by simp)
      have hhead : procCount [⟨name, .proc (Int32.ofNat start), level, scope⟩] =
          [Token.procSym, .ident name, .semicolon].count .procSym := by
        simp [procCount, SymbolKind.sort]
      rcases append_split h₂ with ⟨rest₂, h₃, rfl⟩ | ⟨before₂, rfl, h₃⟩
      · -- the keyword is in the body of the procedure
        obtain ⟨r, hr, hdeclared⟩ := block.exists_declaration start (level + 1) (some id) (id + 1) h₃
        exact ⟨r, List.mem_append_left _ hr, hdeclared.within rfl hhead _ _⟩
      · -- the keyword comes after the declaration of the procedure
        obtain ⟨before₃, rfl, h₄⟩ := append_split_right (show [Token.semicolon] ++ rest.tokens = _ from h₃) (by simp)
        have hcount : procCount (block.symbols start (level + 1) (some id) (id + 1)) =
            (block.tokens ++ [Token.semicolon]).count .procSym := by
          rw [List.count_append, block.count_procSym start (level + 1) (some id) (id + 1)]
          simp
        obtain ⟨r, hr, hdeclared⟩ := rest.exists_declaration (start + block.size) level scope
          (id + 1 + (block.symbols start (level + 1) (some id) (id + 1)).length) h₄
        have hrest := (hdeclared.within rfl hcount [] []).within rfl hhead [] []
        simp only [List.append_nil, List.append_assoc, List.cons_append, List.nil_append] at hrest
        exact ⟨r, List.mem_append_right _ hr, hrest⟩

end

/-! ### Compilations -/

private theorem Block.elseBound_regions {b : Block} (h : b.elseBound) (start level : Nat) (scope : Scope) (id : Nat) :
    ∀ r ∈ b.regions start level scope id, r.block.elseBound := by
  have hdown : Block.HandsDown (fun r => r.block.elseBound) fun l _ _ _ => l.elseBound := by
    refine ⟨fun {r} h => ?_, fun h => ?_, fun h => ?_⟩
    · obtain ⟨⟨consts, vars, procs, body⟩, start, level, scope, id⟩ := r
      simp only [Block.elseBound, Bool.and_eq_true] at h
      exact h.1
    · simp only [Procedures.elseBound, Bool.and_eq_true] at h
      exact h.1
    · simp only [Procedures.elseBound, Bool.and_eq_true] at h
      exact h.2
  exact hdown.regions b h

/-- The code of a block is a slice of the program, and it is that of the block as a program of its own, moved to its
place. -/
private theorem Region.Stands.slice {r : Region} {program : List Instruction} {table : SymbolTable}
    (h : r.Stands program table) :
    (program.drop r.start).take (r.exit + 1 - r.start) =
      (r.block.code 0).map (·.relocate (Int32.ofNat r.start)) := by
  obtain ⟨before, after, hprogram, hbefore⟩ := h.code
  have hexit : r.exit + 1 - r.start = (r.block.code r.start).length := by
    rw [r.exit_eq, Block.length_code]
    omega
  have hmoved := r.block.code_relocate 0 r.start h.names
  rw [Nat.zero_add] at hmoved
  rw [← hmoved, hexit, hprogram, ← hbefore, List.drop_left, List.take_left]

/-- Every keyword of a procedure in a program that is compiled starts the declaration of a procedure, which is numbered
after the procedures that are declared before.  The tokens of the block of this procedure, with a period after them, are
compiled, and the code of the procedure from its address to its return is the code of this program without the last
instruction, moved to this address. -/
theorem compile_procedure_modular {tokens : List Token} {capacity : Nat} {compiled : CompiledProgram}
    (hcapacity : capacity ≤ 2 ^ 31) (h : (compile tokens capacity).outcome = .ok compiled) {before rest : List Token}
    (hkeyword : tokens = before ++ .procSym :: rest) (hperiod : .period ∉ before) :
    ∃ b : Block, b.IsTreeOf tokens ∧ ∃ r ∈ b.regions 0 0 none 0, ∃ id s a after,
      r.scope = some id ∧ compiled.symbols.get? id = some s ∧ s.kind = .proc a ∧
      procCount (compiled.symbols.symbols.toList.take id) = before.count .procSym ∧
      rest = .ident s.name :: .semicolon :: (r.block.tokens ++ .semicolon :: after) ∧
      ∃ (start lo hi : Nat) (compiled' : CompiledProgram) (code : List Instruction),
        a.toInt = start ∧ Owns compiled.program.instructions.toList compiled.symbols (some id) lo hi ∧
        (compile (r.block.tokens ++ [.period]) capacity).outcome = .ok compiled' ∧
        compiled'.program.instructions.toList = code ++ [instruction .halt 3] ∧
        (compiled.program.instructions.toList.drop start).take (hi + 1 - start) = code.map (·.relocate a) := by
  obtain ⟨b, hb⟩ := exists_tree_of_ok h
  obtain ⟨hscoped, htranslates, hfits⟩ := translates_of_ok hb h
  have hlaid := htranslates.laidOut hscoped (by omega)
  have htokens := hb
  obtain ⟨helse, rest₀, htokens⟩ := htokens
  obtain ⟨rest', hblock, rfl⟩ := split_before_period (htokens.symm.trans hkeyword) hperiod
  obtain ⟨r, hr, i, s, a, after, hs, ha, hscope, rfl, hcount⟩ := b.exists_declaration 0 0 none 0 hblock
  rw [Nat.zero_add] at hscope
  have hstands := hlaid.stands r hr
  have hsymbol : compiled.symbols.get? i = some s := by
    rw [SymbolTable.get?, ← Array.getElem?_toList, htranslates.symbols]
    exact hs
  have hstart : a.toInt = r.start := by
    have hstart := hstands.startsAt
    rw [hscope] at hstart
    exact hstart.toInt_eq hsymbol ha
  have hwithin := b.regions_within 0 0 none 0 r hr
  have hsize : r.block.program.length ≤ capacity := by
    simp only [Block.program, List.length_append, Block.length_code, List.length_singleton] at hfits ⊢
    omega
  have hregion : r.block.IsTreeOf (r.block.tokens ++ [.period]) :=
    ⟨Block.elseBound_regions helse 0 0 none 0 r hr, [], rfl⟩
  obtain ⟨compiled', hok⟩ := compile_ok_of_fits hregion hstands.names hsize
  have howns := hstands.owns hlaid.length
  rw [hscope] at howns
  refine ⟨b, hb, r, hr, i, s, a, after ++ .period :: rest₀, hscope, hsymbol, ha, ?_, by simp, r.start, r.entry, r.exit,
    compiled', r.block.code 0, hstart, howns, hok, (translates_of_ok hregion hok).2.1.program, ?_⟩
  · rw [htranslates.symbols]
    exact hcount
  · rw [hstands.slice, ← Int32.ofInt_eq_ofNat, ← hstart, Int32.ofInt_toInt]

/-- A procedure in a procedure.  Its code goes from 2 to 7; as a program it is compiled from 0 to 5. -/
theorem compile_procedure_modular_inner :
    ∃ compiled compiled' : CompiledProgram,
      (compile [.procSym, .ident "p", .semicolon, .procSym, .ident "q", .semicolon, .varSym, .ident "y", .semicolon,
        .readSym, .ident "y", .semicolon, .callSym, .ident "q", .semicolon, .callSym, .ident "p", .period]
        30).outcome = .ok compiled ∧
      (compile [.varSym, .ident "y", .semicolon, .readSym, .ident "y", .period] 30).outcome = .ok compiled' ∧
      compiled.symbols.get? 1 = some ⟨"q", .proc 2, 1, some 0⟩ ∧
      compiled'.program.instructions.toList = [⟨.jmp, 0, 0, 2⟩, ⟨.inc, 0, 0, 1⟩, ⟨.inc, 0, 0, 4⟩, ⟨.read, 0, 0, 0⟩,
        ⟨.sto, 0, 0, 1⟩, ⟨.rtn, 0, 0, 0⟩, ⟨.halt, 0, 0, 3⟩] ∧
      (compiled.program.instructions.toList.drop 2).take 6 =
        compiled'.program.instructions.toList.dropLast.map (·.relocate 2) := by
  let inner : Block := .mk [] ["y"] .nil (.read "y")
  let outer : Block := .mk [] [] (.cons "q" inner .nil) (.call "q")
  let tree : Block := .mk [] [] (.cons "p" outer .nil) (.call "p")
  have htree : tree.IsTreeOf [.procSym, .ident "p", .semicolon, .procSym, .ident "q", .semicolon, .varSym, .ident "y",
      .semicolon, .readSym, .ident "y", .semicolon, .callSym, .ident "q", .semicolon, .callSym, .ident "p", .period] :=
    ⟨rfl, [], rfl⟩
  obtain ⟨compiled, hok⟩ := ok_of_scoped htree (by decide) (not_outOfRoom (by decide : _ ≤ 30))
  obtain ⟨hscoped, htranslates, -⟩ := translates_of_ok htree hok
  have hlaid := htranslates.laidOut hscoped (by decide)
  obtain ⟨b, hb, r, hr, id, s, a, after, hscope, hs, ha, hcount, -, start, lo, hi, compiled', code, hstart, howns, hok',
    hcode, hslice⟩ := compile_procedure_modular (by decide) hok
      (rfl : _ = [Token.procSym, .ident "p", .semicolon] ++ _) (by decide)
  obtain rfl := hb.unique htree
  have hstands := hlaid.stands r hr
  have hregions : tree.regions 0 0 none 0 =
      [⟨tree, 0, 0, none, 0⟩, ⟨outer, 1, 1, some 0, 1⟩, ⟨inner, 2, 2, some 1, 2⟩] := rfl
  rw [hregions] at hr
  simp only [List.mem_cons, List.not_mem_nil, or_false] at hr
  rw [htranslates.symbols] at hcount
  -- only the last block is that of a procedure with one procedure before it
  rcases hr with rfl | rfl | rfl
  · cases hscope
  · cases hscope
    exact absurd hcount (by decide)
  cases hscope
  have hs' : compiled.symbols.get? 1 = some ⟨"q", .proc 2, 1, some 0⟩ := by
    rw [SymbolTable.get?, ← Array.getElem?_toList, htranslates.symbols]
    decide
  obtain rfl := Option.some.inj (hs.symm.trans hs')
  cases ha
  obtain rfl : start = 2 := by
    have : (2 : Int32).toInt = 2 := by decide
    omega
  obtain rfl : 7 = hi := ((hstands.owns hlaid.length).unique howns).2
  refine ⟨compiled, compiled', hok, hok', hs', ?_, ?_⟩
  · exact (translates_of_ok (b := inner) ⟨rfl, [], rfl⟩ hok').2.1.program
  · rw [hcode, List.dropLast_concat]
    exact hslice

end PL0
