import PL0.Proofs.Declarations

/-!
# Relocation

The code of a block only depends on where it starts by the addresses in it.  Moving the start by `a` adds `a` to the
targets of its jumps and to the addresses of its variables and procedures, and changes nothing else
(`Block.code_relocate`).  For this the names have to be used rightly: a name that is used as an address has to stand for
one.
-/

namespace PL0

/-- Moves the address that an instruction refers to. -/
def Instruction.relocate (a : Int32) (ins : Instruction) : Instruction :=
  match ins.op with
  | .jmp | .jpc | .cal | .lod | .sto => { ins with m := ins.m + a }
  | _ => ins

/-- Moves the address of a variable or a procedure. -/
def SymbolKind.relocate (a : Int32) : SymbolKind → SymbolKind
  | .const value => .const value
  | .var address => .var (address + a)
  | .proc address => .proc (address + a)

/-- The addresses of the second environment are those of the first one, moved by `a`. -/
def Env.Relocates (env env' : Env) (a : Int32) : Prop :=
  ∀ x, env' x = (env x).map (·.relocate a)

theorem relocate_jmp (m n : Nat) : (refer .jmp m).relocate (Int32.ofNat n) = refer .jmp (m + n) := by
  simp only [refer, instruction, Instruction.relocate, Int32.ofNat_add]

theorem relocate_jpc (m n : Nat) : (refer .jpc m).relocate (Int32.ofNat n) = refer .jpc (m + n) := by
  simp only [refer, instruction, Instruction.relocate, Int32.ofNat_add]

/-! ### Expressions and conditions -/

section

variable {env env' : Env} {a : Int32}

namespace Env.Relocates

theorem value_eq (h : env.Relocates env' a) {x : String} {sort : NameSort} (hx : env.sortOf x = some sort)
    (hsort : sort ≠ .const) : env'.value x = env.value x + a := by
  obtain ⟨k, hk, rfl⟩ := Option.map_eq_some_iff.1 hx
  simp only [Env.value, h x, hk]
  cases k with
  | const value => exact absurd rfl hsort
  | var address => rfl
  | proc address => rfl

theorem load_eq (h : env.Relocates env' a) {x : String} (hx : isValue env.sortOf x) :
    env'.load x = (env.load x).relocate a := by
  simp only [isValue, Bool.or_eq_true, Env.sortOf] at hx
  cases hk : env x with
  | none => simp [hk] at hx
  | some k =>
    simp only [Env.load, Env.value, h x, hk]
    cases k with
    | const value => rfl
    | var address => rfl
    | proc address => simp [hk, SymbolKind.sort] at hx

end Env.Relocates

mutual

theorem Expression.code_relocate (h : env.Relocates env' a) : ∀ e : Expression, e.scoped env.sortOf →
    e.code env' = (e.code env).map (·.relocate a)
  | .mk sign first rest, hs => by
    simp only [Expression.scoped, Bool.and_eq_true] at hs
    have hsign : (signCode sign).map (·.relocate a) = signCode sign := by
      rcases sign with _ | (_ | _) <;> rfl
    simp only [Expression.code, List.map_append, hsign, first.code_relocate h hs.1, rest.code_relocate h hs.2]

theorem TermTail.code_relocate (h : env.Relocates env' a) : ∀ l : TermTail, l.scoped env.sortOf →
    l.code env' = (l.code env).map (·.relocate a)
  | .nil, _ => rfl
  | .cons op term rest, hs => by
    simp only [TermTail.scoped, Bool.and_eq_true] at hs
    have hop : (instruction op.opcode 0).relocate a = instruction op.opcode 0 := by cases op <;> rfl
    simp only [TermTail.code, List.map_append, List.map_cons, hop, term.code_relocate h hs.1,
      rest.code_relocate h hs.2]

theorem Term.code_relocate (h : env.Relocates env' a) : ∀ t : Term, t.scoped env.sortOf →
    t.code env' = (t.code env).map (·.relocate a)
  | .mk first rest, hs => by
    simp only [Term.scoped, Bool.and_eq_true] at hs
    simp only [Term.code, List.map_append, first.code_relocate h hs.1, rest.code_relocate h hs.2]

theorem FactorTail.code_relocate (h : env.Relocates env' a) : ∀ l : FactorTail, l.scoped env.sortOf →
    l.code env' = (l.code env).map (·.relocate a)
  | .nil, _ => rfl
  | .cons op factor rest, hs => by
    simp only [FactorTail.scoped, Bool.and_eq_true] at hs
    have hop : (instruction op.opcode 0).relocate a = instruction op.opcode 0 := by cases op <;> rfl
    simp only [FactorTail.code, List.map_append, List.map_cons, hop, factor.code_relocate h hs.1,
      rest.code_relocate h hs.2]

theorem Factor.code_relocate (h : env.Relocates env' a) : ∀ f : Factor, f.scoped env.sortOf →
    f.code env' = (f.code env).map (·.relocate a)
  | .name x, hs => by
    rw [Factor.code, h.load_eq hs]
    rfl
  | .number _, _ => rfl
  | .paren inner, hs => inner.code_relocate h hs

end

theorem Condition.code_relocate (h : env.Relocates env' a) (c : Condition) (hs : c.scoped env.sortOf) :
    c.code env' = (c.code env).map (·.relocate a) := by
  cases c with
  | odd e =>
    simp only [Condition.code, List.map_append, e.code_relocate h hs]
    rfl
  | compare left op right =>
    simp only [Condition.scoped, Bool.and_eq_true] at hs
    have hop : (instruction op.opcode 0).relocate a = instruction op.opcode 0 := by cases op <;> rfl
    simp only [Condition.code, List.map_append, left.code_relocate h hs.1, right.code_relocate h hs.2, List.map_cons,
      hop, List.map_nil]

end

/-! ### Statements -/

section

variable {env env' : Env} {n : Nat}

mutual

theorem Statement.code_relocate (h : env.Relocates env' (Int32.ofNat n)) : ∀ (s : Statement) (start : Nat),
    s.scoped env.sortOf → s.code env' (start + n) = (s.code env start).map (·.relocate (Int32.ofNat n))
  | .empty, _, _ => rfl
  | .assign x e, start, hs => by
    simp only [Statement.scoped, Bool.and_eq_true, decide_eq_true_eq] at hs
    simp only [Statement.code, List.map_append, e.code_relocate h hs.2, h.value_eq hs.1 (by decide)]
    rfl
  | .call p, start, hs => by
    simp only [Statement.scoped, decide_eq_true_eq] at hs
    simp only [Statement.code, h.value_eq hs (by decide)]
    rfl
  | .read x, start, hs => by
    simp only [Statement.scoped, decide_eq_true_eq] at hs
    simp only [Statement.code, h.value_eq hs (by decide)]
    rfl
  | .write x, start, hs => by
    rw [Statement.code, h.load_eq hs]
    rfl
  | .compound first rest, start, hs => by
    simp only [Statement.scoped, Bool.and_eq_true] at hs
    have hrest := rest.code_relocate h (start + first.size) hs.2
    rw [Nat.add_right_comm] at hrest
    simp only [Statement.code, List.map_append, first.code_relocate h start hs.1, hrest]
  | .ifThen c s, start, hs => by
    simp only [Statement.scoped, Bool.and_eq_true] at hs
    have hs' := s.code_relocate h (start + c.size + 1) hs.2
    rw [show start + c.size + 1 + n = start + n + c.size + 1 by omega] at hs'
    simp only [Statement.code, List.map_append, List.map_cons, c.code_relocate h hs.1, hs', relocate_jpc]
    rw [show start + c.size + 1 + s.size + n = start + n + c.size + 1 + s.size by omega]
  | .ifElse c s t, start, hs => by
    simp only [Statement.scoped, Bool.and_eq_true] at hs
    have hs' := s.code_relocate h (start + c.size + 1) hs.2.1
    have ht := t.code_relocate h (start + c.size + 1 + s.size + 1) hs.2.2
    rw [show start + c.size + 1 + n = start + n + c.size + 1 by omega] at hs'
    rw [show start + c.size + 1 + s.size + 1 + n = start + n + c.size + 1 + s.size + 1 by omega] at ht
    simp only [Statement.code, List.map_append, List.map_cons, c.code_relocate h hs.1, hs', ht, relocate_jpc,
      relocate_jmp]
    rw [show start + c.size + 1 + s.size + 1 + n = start + n + c.size + 1 + s.size + 1 by omega,
      show start + c.size + 1 + s.size + 1 + t.size + n = start + n + c.size + 1 + s.size + 1 + t.size by omega]
  | .whileDo c s, start, hs => by
    simp only [Statement.scoped, Bool.and_eq_true] at hs
    have hs' := s.code_relocate h (start + c.size + 1) hs.2
    rw [show start + c.size + 1 + n = start + n + c.size + 1 by omega] at hs'
    simp only [Statement.code, List.map_append, List.map_cons, List.map_nil, c.code_relocate h hs.1, hs',
      relocate_jpc, relocate_jmp]
    rw [show start + c.size + 1 + s.size + 1 + n = start + n + c.size + 1 + s.size + 1 by omega]

theorem StatementTail.code_relocate (h : env.Relocates env' (Int32.ofNat n)) : ∀ (l : StatementTail) (start : Nat),
    l.scoped env.sortOf → l.code env' (start + n) = (l.code env start).map (·.relocate (Int32.ofNat n))
  | .nil, _, _ => rfl
  | .cons s rest, start, hs => by
    simp only [StatementTail.scoped, Bool.and_eq_true] at hs
    have hrest := rest.code_relocate h (start + s.size) hs.2
    rw [Nat.add_right_comm] at hrest
    simp only [StatementTail.code, List.map_append, s.code_relocate h start hs.1, hrest]

end

end

/-! ### Blocks -/

private theorem varNames_relocate (vars : List String) (start n : Nat) :
    varNames vars (start + n) = (varNames vars start).map fun item => (item.1, item.2.relocate (Int32.ofNat n)) := by
  induction vars generalizing start with
  | nil => rfl
  | cons x vars ih =>
    have hrest := ih (start + 1)
    rw [Nat.add_right_comm] at hrest
    simp only [varNames, List.map_cons, hrest, SymbolKind.relocate, Int32.ofNat_add]

private theorem Procedures.names_relocate : ∀ (l : Procedures) (start n : Nat),
    l.names (start + n) = (l.names start).map fun item => (item.1, item.2.relocate (Int32.ofNat n))
  | .nil, _, _ => rfl
  | .cons name block rest, start, n => by
    have hrest := rest.names_relocate (start + block.size) n
    rw [Nat.add_right_comm] at hrest
    simp only [Procedures.names, List.map_cons, hrest, SymbolKind.relocate, Int32.ofNat_add]

theorem Block.procsStart_add (b : Block) (start n : Nat) : b.procsStart start + n = b.procsStart (start + n) := by
  simp only [Block.procsStart]
  omega

theorem Block.entry_add (b : Block) (start n : Nat) : b.entry start + n = b.entry (start + n) := by
  simp only [Block.entry, ← b.procsStart_add]
  omega

theorem Block.relocates_env (b : Block) (start n : Nat) :
    (b.env start).Relocates (b.env (start + n)) (Int32.ofNat n) := by
  intro x
  have hvars := varNames_relocate b.vars (start + 1) n
  have hprocs := b.procs.names_relocate (b.procsStart start) n
  rw [show start + 1 + n = start + n + 1 by omega] at hvars
  rw [b.procsStart_add] at hprocs
  have hnames : b.names (start + n) = (b.names start).map fun item => (item.1, item.2.relocate (Int32.ofNat n)) := by
    simp only [Block.names, hvars, hprocs, List.map_append, List.map_map]
    rfl
  rw [Block.env, hnames]
  exact latest_map (fun _ => SymbolKind.relocate (Int32.ofNat n)) (b.names start) x

mutual

/-- Code that starts later is the same code with other addresses. -/
theorem Block.code_relocate : ∀ (b : Block) (start n : Nat), b.scoped →
    b.code (start + n) = (b.code start).map (·.relocate (Int32.ofNat n))
  | .mk consts vars procs body, start, n, hs => by
    simp only [Block.scoped, Bool.and_eq_true] at hs
    have hprocs := procs.code_relocate ((Block.mk consts vars procs body).procsStart start) n hs.1
    have hbody := body.code_relocate ((Block.mk consts vars procs body).relocates_env start n)
      ((Block.mk consts vars procs body).entry start + 1) (by rw [Block.sortOf_env]; exact hs.2)
    have hcells : (vars.map fun _ => instruction .inc 1).map (·.relocate (Int32.ofNat n)) =
        vars.map fun _ => instruction .inc 1 := by
      rw [List.map_map]
      rfl
    rw [Block.procsStart_add] at hprocs
    rw [Nat.add_right_comm, Block.entry_add] at hbody
    have hjmp : (refer .jmp ((Block.mk consts vars procs body).entry start)).relocate (Int32.ofNat n) =
        refer .jmp ((Block.mk consts vars procs body).entry (start + n)) := by
      rw [relocate_jmp, Block.entry_add]
    simp only [Block.code, List.map_cons, List.map_append, hjmp, hcells, hprocs, hbody]
    rfl

theorem Procedures.code_relocate : ∀ (l : Procedures) (start n : Nat), l.scoped →
    l.code (start + n) = (l.code start).map (·.relocate (Int32.ofNat n))
  | .nil, _, _, _ => rfl
  | .cons name block rest, start, n, hs => by
    simp only [Procedures.scoped, Bool.and_eq_true] at hs
    have hrest := rest.code_relocate (start + block.size) n hs.2
    rw [Nat.add_right_comm] at hrest
    simp only [Procedures.code, List.map_append, block.code_relocate start n hs.1, hrest]

end

end PL0
