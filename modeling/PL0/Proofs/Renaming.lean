import PL0.Proofs.Generator.Scope

/-!
# Names matter only up to equality

A compilation compares names with each other and does nothing else with them.  So if different names stay different
under `f`, then the compilation of the renamed tokens goes through the renamed states: every step commutes with the
renaming (`Gen.Renames`).  The only step that compares names is looking one up (`Gen.Renames.lookUp`).

The new names need not be names of source text.  They may be empty or read like reserved words.
-/

namespace PL0

/-! ### Renamed data -/

section

variable (f : String → String)

def Token.renamed : Token → Token
  | .ident name => .ident (f name)
  | token => token

def TokenStream.renamed (stream : TokenStream) : TokenStream :=
  ⟨stream.rest.map (Token.renamed f), stream.position⟩

def Symbol.renamed (symbol : Symbol) : Symbol :=
  { symbol with name := f symbol.name }

def SymbolTable.renamed (table : SymbolTable) : SymbolTable :=
  ⟨table.symbols.map (Symbol.renamed f)⟩

def Event.renamed : Event → Event
  | .declared symbol => .declared (symbol.renamed f)
  | .entered name level => .entered (f name) level
  | .left name => .left (f name)
  | event => event

/-- The state with other names in its tokens, its symbols and its log. -/
def Context.renamed (c : Context) : Context :=
  { c with tokens := c.tokens.renamed f, symbols := c.symbols.renamed f, log := c.log.map (Event.renamed f) }

def CompiledProgram.renamed (compiled : CompiledProgram) : CompiledProgram :=
  { compiled with symbols := compiled.symbols.renamed f }

end

variable {f : String → String}

/-! ### Tokens -/

namespace Token

/-- A token without a name is found again. -/
theorem renamed_eq_iff {t u : Token} (ht : ∀ x, t ≠ .ident x) : u.renamed f = t ↔ u = t := by
  cases u with
  | ident x => exact ⟨fun h => absurd h.symm (ht (f x)), fun h => absurd h.symm (ht x)⟩
  | _ => exact Iff.rfl

theorem addOp?_renamed (t : Token) : Gen.addOp? (t.renamed f) = Gen.addOp? t := by
  cases t <;> rfl

theorem mulOp?_renamed (t : Token) : Gen.mulOp? (t.renamed f) = Gen.mulOp? t := by
  cases t <;> rfl

theorem relOp?_renamed (t : Token) : Gen.relOp? (t.renamed f) = Gen.relOp? t := by
  cases t <;> rfl

end Token

namespace TokenStream

theorem current_renamed (stream : TokenStream) : (stream.renamed f).current = stream.current.renamed f := by
  obtain ⟨_ | ⟨t, rest⟩, n⟩ := stream <;> rfl

theorem advance_renamed (stream : TokenStream) : (stream.renamed f).advance = stream.advance.renamed f := by
  obtain ⟨_ | ⟨t, rest⟩, n⟩ := stream <;> rfl

end TokenStream

/-! ### Symbols -/

namespace SymbolTable

variable (table : SymbolTable)

theorem size_renamed : (table.renamed f).size = table.size :=
  Array.size_map

theorem get?_renamed (id : Nat) : (table.renamed f).get? id = (table.get? id).map (Symbol.renamed f) :=
  Array.getElem?_map

theorem insert_renamed (symbol : Symbol) :
    (table.renamed f).insert (symbol.renamed f) = (table.insert symbol).renamed f := by
  simp [insert, renamed]

theorem enclosing_renamed (id : Nat) : (table.renamed f).enclosing id = table.enclosing id := by
  rw [enclosing, enclosing, get?_renamed]
  cases table.get? id <;> rfl

theorem chainOf_renamed (n : Nat) (scope : Scope) : (table.renamed f).chainOf n scope = table.chainOf n scope := by
  induction n generalizing scope with
  | zero => cases scope <;> rfl
  | succ n ih =>
    cases scope with
    | none => rfl
    | some id => rw [chainOf, chainOf, enclosing_renamed, ih]

theorem chain_renamed (scope : Scope) : (table.renamed f).chain scope = table.chain scope := by
  rw [chain, chain, size_renamed, chainOf_renamed]

section

variable (hf : Function.Injective f) (scope : Scope) (x : String)

include hf

theorem declares_renamed (id : Nat) : (table.renamed f).declares scope (f x) id = table.declares scope x id := by
  rw [declares, declares, get?_renamed]
  cases table.get? id with
  | none => rfl
  | some s =>
    -- no other step compares two names
    have hname : f s.name = f x ↔ s.name = x := ⟨fun h => hf h, fun h => by rw [h]⟩
    simp [Symbol.renamed, hname]

theorem latestBelow_renamed (n : Nat) : (table.renamed f).latestBelow scope (f x) n = table.latestBelow scope x n := by
  induction n with
  | zero => rfl
  | succ n ih => rw [latestBelow, latestBelow, declares_renamed table hf, ih]

theorem latest_renamed : (table.renamed f).latest scope (f x) = table.latest scope x := by
  rw [latest, latest, size_renamed, latestBelow_renamed table hf]

/-- The new name stands for the same symbol as the old one. -/
theorem lookup_renamed : (table.renamed f).lookup scope (f x) = table.lookup scope x := by
  simp only [lookup, chain_renamed, latest_renamed table hf]

end

end SymbolTable

/-! ### States -/

namespace Context

variable (c : Context)

theorem start_renamed (tokens : List Token) (capacity : Nat) :
    (start tokens capacity).renamed f = start (tokens.map (Token.renamed f)) capacity := by
  simp [start, renamed, TokenStream.renamed, TokenStream.ofList, SymbolTable.renamed, SymbolTable.empty]

theorem record_renamed (event : Event) : (c.renamed f).record (event.renamed f) = (c.record event).renamed f := by
  simp [record, renamed]

theorem advanced_renamed : (c.renamed f).advanced = c.advanced.renamed f := by
  simp [advanced, renamed, TokenStream.advance_renamed]

theorem declared_renamed (x : String) (kind : SymbolKind) :
    (c.renamed f).declared (f x) kind = (c.declared x kind).renamed f := by
  have hinsert := c.symbols.insert_renamed (f := f) ⟨x, kind, c.level, c.scope⟩
  unfold declared
  rw [← record_renamed]
  show record { c.renamed f with symbols := _ } _ = record { c.renamed f with symbols := _ } _
  rw [← hinsert]
  rfl

theorem emitted_renamed (ins : Instruction) : (c.renamed f).emitted ins = (c.emitted ins).renamed f := by
  unfold emitted
  rw [← record_renamed]
  rfl

theorem jumpOpened_renamed (op : Opcode) : (c.renamed f).jumpOpened op = (c.jumpOpened op).renamed f := by
  unfold jumpOpened
  rw [← record_renamed]
  rfl

theorem overflowed_renamed : (c.renamed f).overflowed = c.overflowed.renamed f := by
  unfold overflowed
  rw [← record_renamed]
  rfl

theorem jumpClosed_renamed (address : Nat) : (c.renamed f).jumpClosed address = (c.jumpClosed address).renamed f := by
  have hlog : (c.buffer.closeJumpEvents address c.buffer.size).map (Event.renamed f) =
      c.buffer.closeJumpEvents address c.buffer.size := by
    unfold CodeBuffer.closeJumpEvents
    split <;> rfl
  simp [jumpClosed, renamed, hlog]

theorem enter_renamed (x : String) (id : Nat) : (c.renamed f).enter (f x) id = (c.enter x id).renamed f := by
  unfold enter
  rw [← record_renamed]
  rfl

theorem leave_renamed (x : String) (level : Nat) (scope : Scope) :
    (c.renamed f).leave (f x) level scope = (c.leave x level scope).renamed f := by
  unfold leave
  rw [← record_renamed]
  rfl

theorem own_renamed (hf : Function.Injective f) (x : String) :
    (c.renamed f).own (f x) = (c.own x).map (Symbol.renamed f) := by
  rw [own, own, ← SymbolTable.latest_bind, ← SymbolTable.latest_bind]
  show ((c.symbols.renamed f).latest c.scope (f x)).bind (c.symbols.renamed f).get? = _
  rw [SymbolTable.latest_renamed _ hf]
  cases c.symbols.latest c.scope x with
  | none => rfl
  | some id => exact c.symbols.get?_renamed id

theorem missing_renamed (hf : Function.Injective f) (x : String) : (c.renamed f).missing (f x) = c.missing x := by
  show (if (c.symbols.renamed f).lookup c.scope (f x) = none then _ else _) = _
  rw [SymbolTable.lookup_renamed _ hf]
  rfl

end Context

namespace Gen

variable {α α' β β' : Type} {ρ : α → α'} {σ : β → β'}

/-- The end of a step with other names. -/
def renamedEnd (f : String → String) (ρ : α → α') : EStateM.Result Stop Context α → EStateM.Result Stop Context α'
  | .ok a c => .ok (ρ a) (c.renamed f)
  | .error stop c => .error stop (c.renamed f)

/-- From the renamed state the step `g'` does what `g` does from the state itself, and the result is changed by `ρ`. -/
def Renames (f : String → String) (ρ : α → α') (g : Gen α) (g' : Gen α') : Prop :=
  ∀ c, g' (c.renamed f) = renamedEnd f ρ (g c)

/-- The step does the same when names are changed. -/
abbrev IgnoresNames (f : String → String) (g : Gen α) : Prop :=
  Renames f id g g

namespace Renames

/-! ### Composition and tokens -/

theorem pure (a : α) : Renames f ρ (pure a) (pure (ρ a)) :=
  fun _ => rfl

theorem bind {g : Gen α} {g' : Gen α'} {k : α → Gen β} {k' : α' → Gen β'} (hg : Renames f ρ g g')
    (hk : ∀ a, Renames f σ (k a) (k' (ρ a))) : Renames f σ (g >>= k) (g' >>= k') := by
  intro c
  rw [run_bind, run_bind, hg c]
  cases g c with
  | ok a d => exact hk a d
  | error stop d => rfl

theorem reject (e : CompileError) : Renames f ρ (reject e) (reject e) :=
  fun _ => rfl

theorem peek : Renames f (Token.renamed f) peek peek := by
  intro c
  show EStateM.Result.ok (c.tokens.renamed f).current _ = .ok (c.tokens.current.renamed f) _
  rw [TokenStream.current_renamed]

theorem peek_ite {t : Token} (ht : ∀ x, t ≠ .ident x) {g h : Gen α} {g' h' : Gen α'} (hg : Renames f ρ g g')
    (hh : Renames f ρ h h') :
    Renames f ρ (Gen.peek >>= fun u => if u = t then g else h) (Gen.peek >>= fun u => if u = t then g' else h') := by
  refine peek.bind fun u => ?_
  by_cases hu : u = t
  · rw [if_pos hu, if_pos ((Token.renamed_eq_iff ht).2 hu)]
    exact hg
  · rw [if_neg hu, if_neg fun h => hu ((Token.renamed_eq_iff ht).1 h)]
    exact hh

theorem advance : IgnoresNames f advance := by
  intro c
  show EStateM.Result.ok () (c.renamed f).advanced = .ok () (c.advanced.renamed f)
  rw [Context.advanced_renamed]

theorem expect {t : Token} (ht : ∀ x, t ≠ .ident x) (e : CompileError) : IgnoresNames f (expect t e) :=
  peek_ite ht advance (reject e)

theorem peekName (e : CompileError) : Renames f f (peekName e) (peekName e) := by
  refine peek.bind fun t => ?_
  cases t with
  | ident x => exact pure x
  | _ => exact reject e

theorem takeName (e : CompileError) : Renames f f (takeName e) (takeName e) :=
  (peekName e).bind fun x => advance.bind fun _ => pure x

theorem takeNumber (e : CompileError) : IgnoresNames f (takeNumber e) := by
  refine peek.bind fun t => ?_
  cases t with
  | number v => exact advance.bind fun _ => pure v
  | _ => exact reject e

/-! ### Names and code -/

theorem declare (x : String) (kind : SymbolKind) : Renames f id (declare x kind) (declare (f x) kind) := by
  intro c
  show EStateM.Result.ok (c.symbols.renamed f).size ((c.renamed f).declared (f x) kind) =
    .ok c.symbols.size ((c.declared x kind).renamed f)
  rw [SymbolTable.size_renamed, Context.declared_renamed]

theorem nextAddress : IgnoresNames f nextAddress :=
  fun _ => rfl

theorem emit (op : Opcode) (l m : Int32) : IgnoresNames f (emit op l m) := by
  intro c
  cases hc : c.buffer.isFull with
  | true =>
    rw [(run_emit op l m c).2 hc, (run_emit op l m (c.renamed f)).2 hc, Context.overflowed_renamed]
    rfl
  | false =>
    rw [(run_emit op l m c).1 hc, (run_emit op l m (c.renamed f)).1 hc, Context.emitted_renamed]
    rfl

theorem openJump {op : Opcode} (hop : op.isJump) : IgnoresNames f (openJump op) := by
  intro c
  cases hc : c.buffer.isFull with
  | true =>
    rw [(run_openJump hop c).2 hc, (run_openJump hop (c.renamed f)).2 hc, Context.overflowed_renamed]
    rfl
  | false =>
    rw [(run_openJump hop c).1 hc, (run_openJump hop (c.renamed f)).1 hc, Context.jumpOpened_renamed]
    rfl

theorem closeJump (address : Nat) : IgnoresNames f (closeJump address) := by
  intro c
  rw [run_closeJump, run_closeJump, Context.jumpClosed_renamed]
  rfl

theorem inBody {body : Gen Unit} (h : IgnoresNames f body) (x : String) (n : Nat) :
    Renames f id (inBody x n body) (inBody (f x) n body) := by
  intro c
  rw [run_inBody, run_inBody, Context.enter_renamed, h]
  show leaving (f x) c.level c.scope _ = _
  rcases body (c.enter x n) with ⟨_, d⟩ | ⟨_ | _, d⟩
  · show EStateM.Result.ok () ((d.renamed f).leave (f x) c.level c.scope) = _
    rw [Context.leave_renamed]
    rfl
  · show EStateM.Result.error _ ((d.renamed f).leave (f x) c.level c.scope) = _
    rw [Context.leave_renamed]
    rfl
  · rfl

theorem load (binding : Binding) (e : CompileError) : IgnoresNames f (load binding e) := by
  unfold Gen.load
  cases binding.kind with
  | const value => exact emit .lit 0 value
  | var address => exact emit .lod _ address
  | proc address => exact reject e

theorem finish : Renames f (CompiledProgram.renamed f) finish finish := by
  intro c
  have hsame : (c.renamed f).buffer.toProgram = c.buffer.toProgram := rfl
  rw [run_finish, run_finish, hsame]
  cases c.buffer.toProgram <;> rfl

/-! ### Productions -/

theorem chain {op? : Token → Option Opcode} (hop : ∀ t, op? (t.renamed f) = op? t) {operand : Gen Unit}
    (h : IgnoresNames f operand) (n : Nat) : IgnoresNames f (chain op? operand n) := by
  induction n with
  | zero => exact pure ()
  | succ n ih =>
    refine peek.bind fun t => ?_
    rw [hop]
    cases op? t with
    | none => exact pure ()
    | some op => exact advance.bind fun _ => h.bind fun _ => (emit op 0 0).bind fun _ => ih

theorem termOf {factor : Gen Unit} (h : IgnoresNames f factor) (n : Nat) : IgnoresNames f (termOf factor n) :=
  h.bind fun _ => chain Token.mulOp?_renamed h n

theorem expressionOf {factor : Gen Unit} (h : IgnoresNames f factor) (n : Nat) :
    IgnoresNames f (expressionOf factor n) := by
  have hterm := termOf h n
  have htail := chain Token.addOp?_renamed hterm n
  refine peek.bind fun t => ?_
  cases t with
  | plus => exact advance.bind fun _ => hterm.bind fun _ => htail
  | minus => exact advance.bind fun _ => hterm.bind fun _ => (emit .neg 0 0).bind fun _ => htail
  | _ => exact hterm.bind fun _ => htail

theorem statementTail {statement : Gen Unit} (h : IgnoresNames f statement) (n : Nat) :
    IgnoresNames f (statementTail statement n) := by
  induction n with
  | zero => exact pure ()
  | succ n ih => exact peek_ite (by simp) (advance.bind fun _ => h.bind fun _ => ih) (pure ())

theorem compound {statement : Gen Unit} (h : IgnoresNames f statement) (n : Nat) :
    IgnoresNames f (compound statement n) :=
  advance.bind fun _ => h.bind fun _ => (statementTail h n).bind fun _ => expect (by simp) _

theorem commaTail {item : Gen Unit} (h : IgnoresNames f item) (n : Nat) : IgnoresNames f (commaTail item n) := by
  induction n with
  | zero => exact pure ()
  | succ n ih => exact peek_ite (by simp) (h.bind fun _ => ih) (pure ())

theorem constItem : IgnoresNames f constItem :=
  advance.bind fun _ => (takeName _).bind fun x => (expect (by simp) _).bind fun _ => (takeNumber _).bind fun v =>
    (declare x (.const v)).bind fun _ => pure ()

theorem constDeclaration (n : Nat) : IgnoresNames f (constDeclaration n) :=
  peek_ite (by simp) (constItem.bind fun _ => (commaTail constItem n).bind fun _ => expect (by simp) _) (pure ())

theorem varItem : IgnoresNames f varItem :=
  advance.bind fun _ => nextAddress.bind fun a => (takeName _).bind fun x =>
    (declare x (.var (Int32.ofNat a))).bind fun _ => emit .inc 0 1

theorem varDeclaration (n : Nat) : IgnoresNames f (varDeclaration n) :=
  peek_ite (by simp) (varItem.bind fun _ => (commaTail varItem n).bind fun _ => expect (by simp) _) (pure ())

theorem procedure {block : Gen Unit} (h : IgnoresNames f block) : IgnoresNames f (procedure block) :=
  nextAddress.bind fun a => advance.bind fun _ => (takeName _).bind fun x =>
    (declare x (.proc (Int32.ofNat a))).bind fun n => (expect (by simp) _).bind fun _ =>
      (h.inBody x n).bind fun _ => expect (by simp) _

theorem procedures {block : Gen Unit} (h : IgnoresNames f block) (n : Nat) : IgnoresNames f (procedures block n) := by
  induction n with
  | zero => exact pure ()
  | succ n ih => exact peek_ite (by simp) ((procedure h).bind fun _ => ih) (pure ())

section

variable (hf : Function.Injective f)

include hf

theorem lookUp (x : String) : Renames f id (lookUp x) (lookUp (f x)) := by
  intro c
  have hown := c.own_renamed hf x
  cases hx : c.own x with
  | none =>
    rw [hx] at hown
    rw [(run_lookUp x c).2 hx, (run_lookUp (f x) (c.renamed f)).2 hown, c.missing_renamed hf]
    rfl
  | some s =>
    rw [hx] at hown
    rw [(run_lookUp x c).1 s hx, (run_lookUp (f x) (c.renamed f)).1 _ hown]
    rfl

theorem factor (n : Nat) : IgnoresNames f (factor n) := by
  induction n with
  | zero => exact reject _
  | succ n ih =>
    refine peek.bind fun t => ?_
    cases t with
    | ident x => exact (lookUp hf x).bind fun b => (load b _).bind fun _ => advance
    | number value => exact (emit .lit 0 value).bind fun _ => advance
    | lparen => exact advance.bind fun _ => (expressionOf ih n).bind fun _ => expect (by simp) _
    | _ => exact reject _

theorem expression (n : Nat) : IgnoresNames f (expression n) :=
  expressionOf (factor hf n) n

theorem condition (n : Nat) : IgnoresNames f (condition n) := by
  have hexpression := expression hf n
  refine peek_ite (by simp) (advance.bind fun _ => hexpression.bind fun _ => emit .odd 0 0) ?_
  refine hexpression.bind fun _ => peek.bind fun t => ?_
  rw [Token.relOp?_renamed]
  cases relOp? t with
  | none => exact reject _
  | some op => exact advance.bind fun _ => hexpression.bind fun _ => emit op 0 0

theorem assignment (n : Nat) (x : String) : Renames f id (assignment n x) (assignment n (f x)) := by
  refine (lookUp hf x).bind ?_
  rintro ⟨kind, levelDiff⟩
  cases kind with
  | var address =>
    exact advance.bind fun _ => (expect (by simp) _).bind fun _ => (expression hf n).bind fun _ => emit .sto _ address
  | _ => exact reject _

theorem call : IgnoresNames f call := by
  refine advance.bind fun _ => (peekName _).bind fun x => (lookUp hf x).bind ?_
  rintro ⟨kind, levelDiff⟩
  cases kind with
  | proc address => exact (emit .cal _ address).bind fun _ => advance
  | _ => exact reject _

theorem read : IgnoresNames f read := by
  refine advance.bind fun _ => (peekName _).bind fun x => (lookUp hf x).bind ?_
  rintro ⟨kind, levelDiff⟩
  cases kind with
  | var address => exact advance.bind fun _ => (emit .read 0 0).bind fun _ => emit .sto _ address
  | _ => exact reject _

theorem write : IgnoresNames f write :=
  advance.bind fun _ => (peekName _).bind fun x => (lookUp hf x).bind fun b => (load b _).bind fun _ =>
    (emit .write 0 0).bind fun _ => advance

theorem ifStatement {statement : Gen Unit} (h : IgnoresNames f statement) (n : Nat) :
    IgnoresNames f (ifStatement statement n) := by
  refine advance.bind fun _ => (condition hf n).bind fun _ => (expect (by simp) _).bind fun _ => ?_
  refine (openJump rfl).bind fun toElse => h.bind fun _ => peek_ite (by simp) ?_ (closeJump toElse)
  refine (openJump rfl).bind fun toEnd => (closeJump toElse).bind fun _ => ?_
  exact advance.bind fun _ => h.bind fun _ => closeJump toEnd

theorem whileStatement {statement : Gen Unit} (h : IgnoresNames f statement) (n : Nat) :
    IgnoresNames f (whileStatement statement n) := by
  refine nextAddress.bind fun top => advance.bind fun _ => (condition hf n).bind fun _ => ?_
  refine (openJump rfl).bind fun toEnd => (expect (by simp) _).bind fun _ => h.bind fun _ => ?_
  exact (emit .jmp 0 _).bind fun _ => closeJump toEnd

theorem statement (n : Nat) : IgnoresNames f (statement n) := by
  induction n with
  | zero => exact pure ()
  | succ n ih =>
    refine peek.bind fun t => ?_
    cases t with
    | ident x => exact assignment hf n x
    | callSym => exact call hf
    | beginSym => exact compound ih n
    | ifSym => exact ifStatement hf ih n
    | whileSym => exact whileStatement hf ih n
    | writeSym => exact write hf
    | readSym => exact read hf
    | _ => exact pure ()

theorem blockOf {procs : Gen Unit} (h : IgnoresNames f procs) (n : Nat) : IgnoresNames f (blockOf procs n) := by
  refine (openJump rfl).bind fun skip => (constDeclaration n).bind fun _ => (varDeclaration n).bind fun _ => ?_
  refine h.bind fun _ => (closeJump skip).bind fun _ => (emit .inc 0 frameSize).bind fun _ => ?_
  exact (statement hf n).bind fun _ => emit .rtn 0 0

theorem block (n : Nat) : IgnoresNames f (block n) := by
  induction n with
  | zero => exact blockOf hf (pure ()) 0
  | succ n ih => exact blockOf hf (procedures ih (n + 1)) (n + 1)

theorem wholeProgram (n : Nat) : Renames f (CompiledProgram.renamed f) (wholeProgram n) (wholeProgram n) := by
  have hprogram : IgnoresNames f (program n) :=
    (block hf n).bind fun _ => (expect (by simp) _).bind fun _ => emit .halt 0 haltModifier
  rw [wholeProgram_eq]
  exact hprogram.bind fun _ => finish

end

end Renames

end Gen

/-! ### Compilations -/

/-- If different names stay different, then the outcome is the same, with the new names in the symbol table. -/
theorem compile_renamed {f : String → String} (hf : Function.Injective f) (tokens : List Token) (capacity : Nat) :
    (compile (tokens.map (Token.renamed f)) capacity).outcome =
      (compile tokens capacity).outcome.map (CompiledProgram.renamed f) := by
  have h := Gen.Renames.wholeProgram hf tokens.length (.start tokens capacity)
  rw [Context.start_renamed] at h
  unfold compile
  rw [List.length_map, h]
  cases Gen.wholeProgram tokens.length (.start tokens capacity) <;> rfl

/-- The empty name becomes a reserved word, and is told from another name as before. -/
theorem compile_renamed_reserved : Function.Injective ("begin" ++ ·) ∧
    (∃ program,
      (compile [.varSym, .ident "", .semicolon, .readSym, .ident "", .period] 8).outcome =
        .ok ⟨program, ⟨#[⟨"", .var 1, 0, none⟩]⟩⟩ ∧
      (compile [.varSym, .ident "begin", .semicolon, .readSym, .ident "begin", .period] 8).outcome =
        .ok ⟨program, ⟨#[⟨"begin", .var 1, 0, none⟩]⟩⟩) ∧
    (compile [.varSym, .ident "beginx", .semicolon, .readSym, .ident "begin", .period] 8).outcome =
      .error (.rejected .undeclared) := by
  have hf : Function.Injective ("begin" ++ ·) := fun x y h => by simpa using h
  have hread := compile_renamed hf [.varSym, .ident "", .semicolon, .readSym, .ident "", .period] 8
  have hundeclared := compile_renamed hf [.varSym, .ident "x", .semicolon, .readSym, .ident "", .period] 8
  simp only [List.map_cons, List.map_nil, Token.renamed, String.reduceAppend] at hread hundeclared
  obtain ⟨program, hok⟩ : ∃ program,
      (compile [.varSym, .ident "", .semicolon, .readSym, .ident "", .period] 8).outcome =
        .ok ⟨program, ⟨#[⟨"", .var 1, 0, none⟩]⟩⟩ := ⟨_, rfl⟩
  refine ⟨hf, ⟨program, hok, ?_⟩, hundeclared.trans rfl⟩
  rw [hread, hok]
  simp [Except.map, CompiledProgram.renamed, SymbolTable.renamed, Symbol.renamed]

end PL0
