import PL0.Proofs.Declarations
import PL0.Proofs.Emission.Statement

/-!
# The code of blocks

On the tokens of an else-bound block the production `block` reads exactly these tokens, emits exactly the translation
of the block at the current address and declares exactly its symbols, or reports an error about a name (`block_ends`).
The block must be compiled in a scope of its own: no symbol declared before has this scope (`Context.Fresh`).  Then the
names that the statement of the block sees are the declarations of the block itself.
-/

namespace PL0

/-! ### Scopes of their own -/

/-- The scopes of all symbols, and the current one, are ids of symbols. -/
structure Context.Nested (c : Context) : Prop where
  symbols : ∀ s ∈ c.symbols.symbols.toList, s.scope.Below c.symbols.size
  scope : c.scope.Below c.symbols.size

/-- Nothing has been declared in the current scope. -/
structure Context.Fresh (c : Context) : Prop extends c.Nested where
  unused : ∀ s ∈ c.symbols.symbols.toList, s.scope ≠ c.scope

namespace Context.Extends

variable {c c' : Context} {tokens : List Token} {code : List Instruction} {symbols : List Symbol} {opened : Nat}

theorem nested (h : c.Extends c' tokens code symbols opened) (hc : c.Nested)
    (hsymbols : ∀ s ∈ symbols, s.scope = c.scope ∨ s.scope.Below c'.symbols.size) : c'.Nested := by
  have hsize := h.symbols_size
  constructor
  · intro s hs
    rw [h.symbols, List.mem_append] at hs
    rcases hs with hs | hs
    · exact (hc.symbols s hs).mono (by omega)
    · rcases hsymbols s hs with he | hb
      · rw [he]
        exact hc.scope.mono (by omega)
      · exact hb
  · rw [h.scope]
    exact hc.scope.mono (by omega)

/-- The statement of a block sees the declarations of the block. -/
theorem sees_block {b : Block} {start : Nat}
    (h : c.Extends c' tokens code (b.symbols start c.level c.scope c.symbols.size) opened) (hc : c.Fresh) :
    c'.Sees (b.env start) := by
  have hown : c'.symbols.own c'.scope = (b.names start).map fun p => (p.1, ⟨p.1, p.2, c.level, c.scope⟩) := by
    have hold : c.symbols.symbols.toList.filter (·.scope = c.scope) = [] := by
      rw [List.filter_eq_nil_iff]
      intro s hs
      simpa using hc.unused s hs
    simp only [SymbolTable.own, h.symbols, h.scope, List.filter_append, hold, List.nil_append,
      b.filter_symbols start c.level hc.scope, List.map_map]
    rfl
  have hfound : ∀ x, c'.own x = (b.env start x).map fun kind => ⟨x, kind, c.level, c.scope⟩ := by
    intro x
    rw [Context.own, hown, latest_map fun y kind => Symbol.mk y kind c.level c.scope]
    rfl
  constructor
  · intro x
    rw [hfound, Option.map_map]
    cases b.env start x <;> rfl
  · intro x s hs
    rw [hfound, Option.map_eq_some_iff] at hs
    obtain ⟨kind, -, rfl⟩ := hs
    exact h.level.symm

/-- What is done in the body of a procedure. -/
theorem inBody {name : String} {id : Nat} (h : (c.enter name id).Extends c' tokens code symbols opened) :
    c.Extends (c'.leave name c.level c.scope) tokens code symbols opened where
  rest := h.rest
  position := h.position
  code := h.code
  openJumps := h.openJumps
  capacity := h.capacity
  fits := h.fits
  symbols := h.symbols
  level := rfl
  scope := rfl

end Context.Extends

/-- The body of a procedure that has just been declared is a scope of its own. -/
theorem Context.Nested.enter {c : Context} (hc : c.Nested) {name : String} {kind : SymbolKind} {c' : Context}
    {tokens : List Token} (h : c.Extends c' tokens [] [⟨name, kind, c.level, c.scope⟩] 0) :
    (c'.enter name c.symbols.size).Fresh := by
  have hnested : c'.Nested := h.nested hc (by simp)
  have hsize := h.symbols_size
  simp only [List.length_cons, List.length_nil] at hsize
  refine ⟨⟨hnested.symbols, ?_⟩, ?_⟩
  · intro j hj
    have : c.symbols.size = j := by simpa [Context.enter, Context.record] using hj
    show j < c'.symbols.size
    omega
  · intro s hs
    show s.scope ≠ some c.symbols.size
    have hs : s ∈ c'.symbols.symbols.toList := hs
    rw [h.symbols, List.mem_append, List.mem_singleton] at hs
    rcases hs with hs | rfl
    · exact ((hc.symbols s hs).ne (Nat.le_refl _)).symm
    · exact (hc.scope.ne (Nat.le_refl _)).symm

namespace Gen

variable {c : Context} {ok : Prop}

/-! ### Declarations of constants and variables -/

/-- Items that are declared in a list: the tokens of an item, and the code and the symbols of a list of items whose code
starts at a given address, on a given level and in a given scope. -/
structure Items (α : Type) where
  tokens : α → List Token
  code : List α → List Instruction
  symbols : List α → (start level : Nat) → Scope → List Symbol
  code_nil : code [] = []
  code_cons (a : α) (l : List α) : code (a :: l) = code [a] ++ code l
  symbols_nil (start level : Nat) (scope : Scope) : symbols [] start level scope = []
  symbols_cons (a : α) (l : List α) (start level : Nat) (scope : Scope) :
    symbols (a :: l) start level scope =
      symbols [a] start level scope ++ symbols l (start + (code [a]).length) level scope

namespace Items

variable {α : Type} {items : Items α}

private theorem extends_cons {a : α} {l : List α} {c₁ c₂ : Context} {tokens tokens' : List Token}
    (h : c.Extends c₁ tokens (items.code [a]) (items.symbols [a] c.buffer.size c.level c.scope) 0)
    (h' : c₁.Extends c₂ tokens' (items.code l) (items.symbols l c₁.buffer.size c₁.level c₁.scope) 0) :
    c.Extends c₂ (tokens ++ tokens') (items.code (a :: l))
      (items.symbols (a :: l) c.buffer.size c.level c.scope) 0 := by
  rw [h.size, h.level, h.scope] at h'
  rw [items.code_cons, items.symbols_cons]
  exact h.trans h'

private theorem extends_nil (items : Items α) (c : Context) :
    c.Extends c [] (items.code []) (items.symbols [] c.buffer.size c.level c.scope) 0 := by
  rw [items.code_nil, items.symbols_nil]
  exact .refl c

/-- A production for one item, which comes after a keyword or a comma. -/
def ReadBy (items : Items α) (item : Gen Unit) (ok : Prop) : Prop :=
  ∀ (a : α) {t : Token} {c : Context} {rest : List Token} {Q : Unit → Context → Prop},
    c.tokens.rest = t :: (items.tokens a ++ rest) →
    (∀ c', c.Extends c' (t :: items.tokens a) (items.code [a]) (items.symbols [a] c.buffer.size c.level c.scope) 0 →
      Q () c') → wp item c Q (Refused ok)

variable {item : Gen Unit} (hitem : items.ReadBy item ok)

include hitem

private theorem wp_commaTail (l : List α) : ∀ {n : Nat} {c : Context} {rest : List Token} {Q : Unit → Context → Prop},
    c.tokens.rest = l.flatMap (fun a => .comma :: items.tokens a) ++ .semicolon :: rest → c.tokens.rest.length ≤ n →
    (∀ c', c.Extends c' (l.flatMap fun a => .comma :: items.tokens a) (items.code l)
      (items.symbols l c.buffer.size c.level c.scope) 0 → Q () c') → wp (commaTail item n) c Q (Refused ok) := by
  induction l with
  | nil =>
    intro n c rest Q hc hn hQ
    obtain ⟨m, rfl, -⟩ := exists_succ_of_rest hc hn
    simp only [commaTail, wp_bind, wp_peek, current_of_rest hc, reduceCtorEq, ↓reduceIte, wp_pure]
    exact hQ c (items.extends_nil c)
  | cons a l ih =>
    intro n c rest Q hc hn hQ
    simp only [List.flatMap_cons, List.cons_append, List.append_assoc] at hc
    obtain ⟨m, rfl, hm⟩ := exists_succ_of_rest hc hn
    simp only [commaTail, wp_bind, wp_peek, current_of_rest hc, ↓reduceIte]
    refine hitem a hc fun c₁ h₁ => ?_
    have hlen := h₁.length_rest
    rw [List.length_cons] at hlen
    exact ih (h₁.rest_eq hc) (by omega) fun c₂ h₂ => hQ c₂ (extends_cons h₁ h₂)

private theorem wp_declaration (l : List α) {keyword : Token} {e : CompileError} {n : Nat} {rest : List Token}
    {Q : Unit → Context → Prop} (hc : c.tokens.rest = listTokens keyword items.tokens l ++ rest)
    (hn : c.tokens.rest.length ≤ n) (hrest : lookahead rest ≠ keyword)
    (hQ : ∀ c', c.Extends c' (listTokens keyword items.tokens l) (items.code l)
      (items.symbols l c.buffer.size c.level c.scope) 0 → Q () c') :
    wp (do
      if (← peek) = keyword then
        item
        commaTail item n
        expect .semicolon e) c Q (Refused ok) := by
  cases l with
  | nil =>
    have hcur : c.tokens.current ≠ keyword := by
      rw [current_eq, hc]
      exact hrest
    simp only [wp_bind, wp_peek, hcur, ↓reduceIte, wp_pure]
    exact hQ c (items.extends_nil c)
  | cons a l =>
    simp only [listTokens, List.cons_append, List.append_assoc, List.nil_append] at hc
    simp only [wp_bind, wp_peek, current_of_rest hc, ↓reduceIte]
    refine hitem a hc fun c₁ h₁ => ?_
    have hc₁ := h₁.rest_eq hc
    have hlen := h₁.length_rest
    refine wp_commaTail hitem l hc₁ (by omega) fun c₂ h₂ => ?_
    have hc₂ := h₂.rest_eq hc₁
    simp only [wp_expect, current_of_rest hc₂, true_implies, ne_eq, not_true_eq_false, false_implies, and_true]
    refine hQ _ ?_
    simpa [listTokens] using (extends_cons h₁ h₂).trans (.advanced hc₂)

end Items

def constItems : Items (String × Int32) where
  tokens := constTokens
  code _ := []
  symbols l _ level scope := l.map fun item => ⟨item.1, .const item.2, level, scope⟩
  code_nil := rfl
  code_cons _ _ := rfl
  symbols_nil _ _ _ := rfl
  symbols_cons _ _ _ _ _ := rfl

def varItems : Items String where
  tokens := varTokens
  code l := l.map fun _ => instruction .inc 1
  symbols l start level scope := (varNames l start).map fun item => ⟨item.1, item.2, level, scope⟩
  code_nil := rfl
  code_cons _ _ := rfl
  symbols_nil _ _ _ := rfl
  symbols_cons _ _ _ _ _ := rfl

private theorem constItems_readBy : constItems.ReadBy constItem ok := by
  intro a t c rest Q hc hQ
  simp only [constItems, constTokens, List.cons_append, List.nil_append] at hc
  have h₁ := rest_advanced hc
  have h₂ := rest_advanced h₁
  have h₃ := rest_advanced h₂
  simp only [constItem, wp_bind, wp_advance, wp_takeName, wp_expect, wp_takeNumber, wp_declare, wp_pure,
    current_of_rest h₁, current_of_rest h₂, current_of_rest h₃, Token.ident.injEq, Token.number.injEq, forall_eq',
    ne_eq, not_true_eq_false, false_implies, and_true, true_implies]
  exact hQ _ ((Context.Extends.advanced hc).trans ((Context.Extends.advanced h₁).trans
    ((Context.Extends.advanced h₂).trans ((Context.Extends.advanced h₃).trans (.declared _ a.1 (.const a.2))))))

private theorem varItems_readBy : varItems.ReadBy varItem ok := by
  intro x t c rest Q hc hQ
  simp only [varItems, varTokens, List.cons_append, List.nil_append] at hc
  have h₁ := rest_advanced hc
  simp only [varItem, wp_bind, wp_advance, wp_nextAddress, wp_takeName, wp_declare, wp_emit, current_of_rest h₁,
    Token.ident.injEq, forall_eq', refused_full, implies_true, and_true]
  refine ⟨fun hroom => hQ _ ?_, fun h => absurd rfl (h x)⟩
  exact (Context.Extends.advanced hc).trans ((Context.Extends.advanced h₁).trans
    ((Context.Extends.declared _ x _).trans (.emitted (instruction .inc 1) hroom)))

/-- The declarations of constants and variables at the beginning of a block. -/
private theorem wp_declarations (consts : List (String × Int32)) (vars : List String) {n : Nat} {rest : List Token}
    {Q : Unit → Context → Prop} (hc : c.tokens.rest =
      listTokens .constSym constTokens consts ++ (listTokens .varSym varTokens vars ++ rest))
    (hn : c.tokens.rest.length ≤ n) (hconst : lookahead rest ≠ .constSym) (hvar : lookahead rest ≠ .varSym)
    (hQ : ∀ c', c.Extends c' (listTokens .constSym constTokens consts ++ listTokens .varSym varTokens vars)
      (vars.map fun _ => instruction .inc 1)
      (consts.map (fun item => ⟨item.1, .const item.2, c.level, c.scope⟩) ++
        (varNames vars c.buffer.size).map fun item => ⟨item.1, item.2, c.level, c.scope⟩) 0 → Q () c') :
    wp (constDeclaration n) c (fun _ c' => wp (varDeclaration n) c' Q (Refused ok)) (Refused ok) := by
  refine Items.wp_declaration constItems_readBy consts hc hn (lookahead_vars vars hconst) fun c₁ h₁ => ?_
  have hc₁ := h₁.rest_eq hc
  have hlen := h₁.length_rest
  refine Items.wp_declaration varItems_readBy vars hc₁ (by omega) hvar fun c₂ h₂ => hQ c₂ ?_
  rw [h₁.size, h₁.level, h₁.scope] at h₂
  exact h₁.trans h₂

/-! ### Blocks and procedures -/

/-- Whether a body is refused does not depend on the state in which it stops. -/
private theorem inBody_ends {name : String} {id : Nat} {body : Gen Unit} {Q : Unit → Context → Prop}
    (h : wp body (c.enter name id) (fun _ c' => Q () (c'.leave name c.level c.scope)) (Refused ok)) :
    wp (inBody name id body) c Q (Refused ok) := by
  rw [wp_inBody]
  refine wp_mono h (fun _ _ hQ => hQ) ?_
  intro stop c' hstop
  cases stop <;> exact hstop

private theorem procedures_stop {n : Nat} {block : Gen Unit} {Q : Unit → Context → Prop} {E : Stop → Context → Prop}
    (hc : c.tokens.current ≠ .procSym) (hQ : Q () c) : wp (procedures block n) c Q E := by
  cases n with
  | zero => exact hQ
  | succ n => simpa [procedures, hc] using hQ

/-- A procedure is declared in the scope around it before its body is read. -/
private theorem wp_procedure {name : String} {rest : List Token} {block : Gen Unit} {Q : Unit → Context → Prop}
    {E : Stop → Context → Prop} (hc : c.tokens.rest = .procSym :: .ident name :: .semicolon :: rest)
    (h : ∀ c', c.Extends c' [.procSym, .ident name, .semicolon] []
        [⟨name, .proc (Int32.ofNat c.buffer.size), c.level, c.scope⟩] 0 →
      wp (inBody name c.symbols.size block) c'
        (fun _ c'' => wp (expect .semicolon .procSemicolonExpected) c'' Q E) E) : wp (procedure block) c Q E := by
  have hc₁ := rest_advanced hc
  have hc₂ : (c.advanced.advanced.declared name (.proc (Int32.ofNat c.buffer.size))).tokens.rest =
      .semicolon :: rest := rest_advanced hc₁
  have hopened := (Context.Extends.advanced hc).trans ((Context.Extends.advanced hc₁).trans
    ((Context.Extends.declared _ name (.proc (Int32.ofNat c.buffer.size))).trans (.advanced hc₂)))
  have hbody := h _ hopened
  unfold procedure
  rw [wp_bind, wp_nextAddress, wp_bind, wp_advance, wp_bind, wp_takeName]
  refine ⟨?_, fun hnot => absurd (current_of_rest hc₁) (hnot name)⟩
  intro x hx
  obtain rfl : name = x := by simpa [current_of_rest hc₁] using hx
  rw [wp_bind, wp_declare, wp_bind, wp_expect]
  refine ⟨fun _ => ?_, fun hne => absurd (current_of_rest hc₂) hne⟩
  rw [wp_bind]
  exact hbody

/-- The state in which the statement of a block is compiled: the first jump goes over the declarations to the
reservation of the frame, and the names are those of the block. -/
private theorem block_entered {b : Block} {c₁ : Context} {tokens : List Token} (hf : c.Fresh)
    (h : c.Extends c₁ tokens (⟨.jmp, 0, 0, 0⟩ ::
      (b.vars.map (fun _ => instruction .inc 1) ++ b.procs.code (b.procsStart c.buffer.size)))
      (b.symbols c.buffer.size c.level c.scope c.symbols.size) 1)
    (hroom : (c₁.jumpClosed c.buffer.size).buffer.isFull = false) :
    c.Extends ((c₁.jumpClosed c.buffer.size).emitted (instruction .inc frameSize)) tokens
      (refer .jmp (b.entry c.buffer.size) :: (b.vars.map (fun _ => instruction .inc 1) ++
        (b.procs.code (b.procsStart c.buffer.size) ++ [instruction .inc frameSize])))
      (b.symbols c.buffer.size c.level c.scope c.symbols.size) 0 ∧
    ((c₁.jumpClosed c.buffer.size).emitted (instruction .inc frameSize)).buffer.size = b.entry c.buffer.size + 1 ∧
    ((c₁.jumpClosed c.buffer.size).emitted (instruction .inc frameSize)).Sees (b.env c.buffer.size) := by
  have haddress : c.buffer.size = c.buffer.size + ([] : List Instruction).length := rfl
  have hclosed := (show c.Extends c₁ tokens ([] ++ _ :: _) _ (0 + 1) from h).jumpClosed haddress
  have hentered := hclosed.trans (.emitted (instruction .inc frameSize) hroom)
  simp only [List.append_nil] at hentered
  refine ⟨?_, ?_, hentered.sees_block hf⟩
  · simpa [refer, instruction, Block.entry, Block.procsStart, Nat.add_assoc] using hentered
  · rw [hentered.size]
    simp [Block.entry, Block.procsStart]
    omega

mutual

theorem block_ends : ∀ (b : Block) {n : Nat} {c : Context} {rest : List Token}, c.tokens.rest = b.tokens ++ rest →
    c.tokens.rest.length ≤ n → b.elseBound → EndsBlock rest → c.Fresh →
    Ends (block n) c b.scoped fun _ c' =>
      c.Extends c' b.tokens (b.code c.buffer.size) (b.symbols c.buffer.size c.level c.scope c.symbols.size) 0
  | .mk consts vars procs body, n, c, rest, hc, hn, hb, hrest, hf => by
    simp only [Block.tokens, List.append_assoc] at hc
    simp only [Block.elseBound, Bool.and_eq_true] at hb
    have hbody := hrest.endsBefore body
    obtain ⟨hproc, hvar⟩ := procs.lookahead_tokens body hbody.1
    -- something follows a block, so the bound is not zero even for the empty block
    obtain ⟨t, ts, rfl⟩ : ∃ t ts, rest = t :: ts := by
      cases rest with
      | nil => rcases hrest with h | h <;> cases h
      | cons t ts => exact ⟨t, ts, rfl⟩
    have hlen := congrArg List.length hc
    simp only [List.length_append, List.length_cons] at hlen
    obtain ⟨n, rfl⟩ : ∃ m, n = m + 1 := ⟨n - 1, by omega⟩
    unfold Ends
    simp only [block, blockOf, wp_bind, wp_openJmp, refused_full, implies_true, and_true]
    intro hroom
    have h₁ := Context.Extends.jumpOpened .jmp hroom
    refine wp_declarations consts vars hc hn hproc hvar fun c₂ h₂ => ?_
    rw [h₁.size, h₁.level, h₁.scope] at h₂
    have h₂ := h₁.trans h₂
    have hc₂ := h₂.rest_eq (by simpa using hc)
    have hsize₂ : c₂.buffer.size = (Block.mk consts vars procs body).procsStart c.buffer.size := by
      rw [h₂.size]
      simp [Block.procsStart, Block.vars]
      omega
    have hid₂ : c₂.symbols.size = c.symbols.size + consts.length + vars.length := by
      rw [h₂.symbols_size]
      simp [length_varNames]
      omega
    have hnested : c₂.Nested := h₂.nested hf.toNested (by
      intro s hs
      simp only [List.nil_append, List.mem_append, List.mem_map] at hs
      rcases hs with ⟨item, -, rfl⟩ | ⟨item, -, rfl⟩ <;> exact .inl rfl)
    refine (procedures_ends procs hc₂ (by rw [hc₂]; simp; omega) (by rw [hc₂]; simp; omega) hb.1
      (body.lookahead_tokens hbody.1) hnested).part ?_ fun hok _ c₃ h₃ => ?_
    · intro h
      simp only [Block.scoped, Bool.and_eq_true] at h
      exact h.1
    rw [hsize₂, hid₂, h₂.level, h₂.scope] at h₃
    have h₃ := h₂.trans h₃
    simp only [wp_closeJump, wp_emit, refused_full, implies_true, and_true]
    intro hroom'
    obtain ⟨h₄, hsize₄, hsees⟩ := block_entered (b := .mk consts vars procs body) hf
      (by simpa [Block.symbols, Block.vars, Block.procs] using h₃) hroom'
    have hc₄ := h₄.rest_eq (by simpa using hc)
    refine (statement_ends body hc₄ (by rw [hc₄]; simp; omega) hb.2 hbody hsees).part ?_ fun hok' _ c₅ h₅ => ?_
    · intro h
      simp only [Block.scoped, Bool.and_eq_true] at h
      rw [Block.sortOf_env]
      exact h.2
    rw [Block.sortOf_env] at hok'
    rw [hsize₄] at h₅
    intro hroom''
    refine ⟨by simp [Block.scoped, hok, hok'], ?_⟩
    have h := h₄.trans (h₅.trans (.emitted (instruction .rtn 0) hroom''))
    simp only [List.append_nil, Nat.add_zero] at h
    simpa [Block.tokens, Block.code, Block.vars, Block.procs, frameSize, instruction] using h

theorem procedures_ends : ∀ (l : Procedures) {n m : Nat} {c : Context} {rest : List Token},
    c.tokens.rest = l.tokens ++ rest → c.tokens.rest.length ≤ n → c.tokens.rest.length ≤ m + 1 → l.elseBound →
    startsDeclaration (lookahead rest) = false → c.Nested →
    Ends (procedures (block m) n) c l.scoped fun _ c' =>
      c.Extends c' l.tokens (l.code c.buffer.size) (l.symbols c.buffer.size c.level c.scope c.symbols.size) 0
  | .nil, n, m, c, rest, hc, _, _, _, hrest, _ => by
    refine procedures_stop ?_ ⟨rfl, .refl c⟩
    rw [current_eq, hc]
    intro h
    have h : lookahead rest = .procSym := h
    simp [h, startsDeclaration] at hrest
  | .cons name b l, n, m, c, rest, hc, hn, hm, hb, hrest, hnested => by
    simp only [Procedures.tokens, List.cons_append, List.append_assoc] at hc
    simp only [Procedures.elseBound, Bool.and_eq_true] at hb
    obtain ⟨n, rfl, hn'⟩ := exists_succ_of_rest hc hn
    have hlen := congrArg List.length hc
    simp only [List.length_append, List.length_cons] at hlen
    unfold Ends
    simp only [procedures, wp_bind, wp_peek, current_of_rest hc, ↓reduceIte]
    refine wp_procedure hc fun c₁ h₁ => inBody_ends ?_
    have hc₁ : c₁.tokens.rest = b.tokens ++ .semicolon :: (l.tokens ++ rest) := h₁.rest_eq hc
    have hsize₁ : (c₁.enter name c.symbols.size).buffer.size = c.buffer.size := h₁.size
    have hid₁ : (c₁.enter name c.symbols.size).symbols.size = c.symbols.size + 1 := h₁.symbols_size
    have hlevel₁ : (c₁.enter name c.symbols.size).level = c.level + 1 := congrArg (· + 1) h₁.level
    have hlen₁ := congrArg List.length hc₁
    simp only [List.length_append, List.length_cons] at hlen₁
    have hbody := block_ends b (c := c₁.enter name c.symbols.size) hc₁ (n := m)
      (by show c₁.tokens.rest.length ≤ m; omega) hb.1 (.inl rfl) (hnested.enter h₁)
    rw [hsize₁, hid₁, hlevel₁] at hbody
    refine hbody.part ?_ fun hok _ c₂ h₂ => ?_
    · intro h
      simp only [Procedures.scoped, Bool.and_eq_true] at h
      exact h.1
    have h₂ := h₁.trans h₂.inBody
    have hc₂ := h₂.rest_eq (by simpa using hc)
    simp only [wp_expect, current_of_rest hc₂, true_implies, ne_eq, not_true_eq_false, false_implies, and_true]
    have h₃ : c.Extends (c₂.leave name c₁.level c₁.scope).advanced
        (.procSym :: .ident name :: .semicolon :: (b.tokens ++ [.semicolon])) (b.code c.buffer.size)
        (⟨name, .proc (Int32.ofNat c.buffer.size), c.level, c.scope⟩ ::
          b.symbols c.buffer.size (c.level + 1) (some c.symbols.size) (c.symbols.size + 1)) 0 := by
      have h := h₂.trans (.advanced hc₂)
      simp only [List.append_nil, List.nil_append] at h
      exact h
    have hc₃ := rest_advanced hc₂
    have hlen₃ := congrArg List.length hc₃
    rw [List.length_append] at hlen₃
    have hid₃ := h₃.symbols_size
    rw [List.length_cons] at hid₃
    -- the scopes of the symbols of the body are the procedure itself and procedures in the body
    have hnested₃ := h₃.nested hnested (by
      intro s hs
      rcases List.mem_cons.1 hs with rfl | hs
      · exact .inl rfl
      refine .inr ?_
      rcases b.scope_symbols _ _ _ _ s hs with hscope | ⟨j, hscope, -, hj⟩
      · intro i hi
        rw [hscope, Option.some.injEq] at hi
        omega
      · intro i hi
        rw [hscope, Option.some.injEq] at hi
        omega)
    have hrest₃ := procedures_ends l (n := n) (m := m) hc₃ (by omega) (by omega) hb.2 hrest hnested₃
    rw [h₃.size, hid₃, h₃.level, h₃.scope] at hrest₃
    refine hrest₃.part ?_ fun hok' _ c₄ h₄ => ?_
    · intro h
      simp only [Procedures.scoped, Bool.and_eq_true] at h
      exact h.2
    refine ⟨by simp [Procedures.scoped, hok, hok'], ?_⟩
    have h := h₃.trans h₄
    simpa [Procedures.tokens, Procedures.code, Procedures.symbols, Nat.add_assoc, Nat.add_comm 1] using h

end

end Gen

end PL0
