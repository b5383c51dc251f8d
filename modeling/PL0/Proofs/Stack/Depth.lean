import PL0.Proofs.Regions

/-!
# Operands on the stack

Every operation pops and pushes a fixed number of operands.  So a program without jumps has a known number of operands
at each address (`depthAt`), and `Lifts k code k'` says that code which starts with `k` operands ends with `k'` and has
enough operands for each of its instructions.  An expression leaves one operand more, a statement or a block as many
as there were (`Expression.lifts_code`, `Statement.lifts_code`, `Block.lifts_code`).

Jumps do not change this picture, because there are no operands where they can go: the stack is empty at the start of
each block and at the borders of all statements (`Block.grounded_regions`, `Statement.depthAt_border`).
-/

namespace PL0

namespace Opcode

/-- The number of operands that an operation takes. -/
def pops : Opcode → Nat
  | .sto | .write | .jpc | .neg | .odd => 1
  | .add | .sub | .mul | .div | .eql | .neq | .lss | .leq | .gtr | .geq => 2
  | .lit | .lod | .read | .rtn | .cal | .inc | .jmp | .halt => 0

/-- The number of operands that an operation leaves. -/
def pushes : Opcode → Nat
  | .lit | .lod | .read | .neg | .odd | .add | .sub | .mul | .div | .eql | .neq | .lss | .leq | .gtr | .geq => 1
  | .sto | .write | .jpc | .rtn | .cal | .inc | .jmp | .halt => 0

/-- The number of operands after an operation. -/
def lift (op : Opcode) (k : Nat) : Nat :=
  k - op.pops + op.pushes

end Opcode

/-! ### Depths -/

def depthAfter (k : Nat) (code : List Instruction) : Nat :=
  code.foldl (fun k ins => ins.op.lift k) k

/-- The number of operands at an address, when the program is read from its start to this address. -/
def depthAt (program : List Instruction) (a : Nat) : Nat :=
  depthAfter 0 (program.take a)

def Lifts : Nat → List Instruction → Nat → Prop
  | k, [], k' => k = k'
  | k, ins :: code, k' => ins.op.pops ≤ k ∧ Lifts (ins.op.lift k) code k'

theorem depthAt_succ {program : List Instruction} {a : Nat} {ins : Instruction} (h : program[a]? = some ins) :
    depthAt program (a + 1) = ins.op.lift (depthAt program a) := by
  unfold depthAt depthAfter
  rw [List.take_add_one, h, List.foldl_append]
  rfl

namespace Lifts

variable {program code code' : List Instruction} {ins : Instruction} {k k' k'' : Nat}

theorem nil : Lifts k [] k := rfl

theorem cons (hpops : ins.op.pops ≤ k) (h : Lifts (ins.op.lift k) code k') : Lifts k (ins :: code) k' :=
  ⟨hpops, h⟩

theorem append (h : Lifts k code k') (h' : Lifts k' code' k'') : Lifts k (code ++ code') k'' := by
  induction code generalizing k with
  | nil =>
    obtain rfl : k = k' := h
    exact h'
  | cons ins code ih => exact ⟨h.1, ih h.2⟩

theorem depthAfter_eq (h : Lifts k code k') : depthAfter k code = k' := by
  induction code generalizing k with
  | nil => exact h
  | cons ins code ih => exact ih h.2

/-- There are enough operands for each instruction. -/
theorem pops_le (h : Lifts k code k') {i : Nat} (hi : code[i]? = some ins) :
    ins.op.pops ≤ depthAfter k (code.take i) := by
  induction code generalizing k i with
  | nil => simp at hi
  | cons first code ih =>
    cases i with
    | zero =>
      obtain rfl : first = ins := by simpa using hi
      exact h.1
    | succ i => exact ih h.2 hi

theorem depthAt_end {a n : Nat} (h : Lifts k code k') (hp : Placed program a code) (ha : depthAt program a = k)
    (hn : code.length = n) : depthAt program (a + n) = k' := by
  obtain ⟨before, after, rfl, rfl⟩ := hp
  subst hn ha
  have hbefore : (before ++ (code ++ after)).take before.length = before := List.take_left
  have hboth : (before ++ (code ++ after)).take (before.length + code.length) = before ++ code := by
    rw [← List.append_assoc, ← List.length_append, List.take_left]
  have h' := h.depthAfter_eq
  unfold depthAt at h' ⊢
  rw [hbefore] at h'
  rw [hboth, depthAfter, List.foldl_append]
  exact h'

end Lifts

/-! ### Expressions leave one operand -/

section

variable {env : Env}

private theorem lifts_load (x : String) (k : Nat) : Lifts k [env.load x] (k + 1) := by
  have hop : (env.load x).op = .lit ∨ (env.load x).op = .lod := by
    unfold Env.load
    split
    · exact .inl rfl
    · exact .inr rfl
  rcases hop with hop | hop <;> simp [Lifts, hop, Opcode.lift, Opcode.pops, Opcode.pushes]

private theorem lifts_binary {op : Opcode} (hpops : op.pops = 2) (hpushes : op.pushes = 1) {m : Int32}
    {code : List Instruction} {k k' : Nat} (h : Lifts (k + 1) code k') :
    Lifts (k + 1 + 1) (instruction op m :: code) k' := by
  refine ⟨?_, ?_⟩
  · show op.pops ≤ _
    omega
  · show Lifts (k + 1 + 1 - op.pops + op.pushes) code k'
    rw [hpops, hpushes]
    exact h

private theorem lifts_signCode (sign : Option AddOp) (k : Nat) : Lifts (k + 1) (signCode sign) (k + 1) := by
  rcases sign with _ | (_ | _)
  · exact .nil
  · exact .nil
  · exact .cons (Nat.le_add_left _ _) .nil

mutual

theorem Expression.lifts_code : ∀ (e : Expression) (k : Nat), Lifts k (e.code env) (k + 1)
  | .mk sign first rest, k => (first.lifts_code k).append ((lifts_signCode sign k).append (rest.lifts_code k))

theorem TermTail.lifts_code : ∀ (l : TermTail) (k : Nat), Lifts (k + 1) (l.code env) (k + 1)
  | .nil, _ => .nil
  | .cons op term rest, k => by
    refine (term.lifts_code (k + 1)).append (lifts_binary ?_ ?_ (rest.lifts_code k)) <;> cases op <;> rfl

theorem Term.lifts_code : ∀ (t : Term) (k : Nat), Lifts k (t.code env) (k + 1)
  | .mk first rest, k => (first.lifts_code k).append (rest.lifts_code k)

theorem FactorTail.lifts_code : ∀ (l : FactorTail) (k : Nat), Lifts (k + 1) (l.code env) (k + 1)
  | .nil, _ => .nil
  | .cons op factor rest, k => by
    refine (factor.lifts_code (k + 1)).append (lifts_binary ?_ ?_ (rest.lifts_code k)) <;> cases op <;> rfl

theorem Factor.lifts_code : ∀ (f : Factor) (k : Nat), Lifts k (f.code env) (k + 1)
  | .name x, k => lifts_load x k
  | .number _, _ => .cons (Nat.zero_le _) .nil
  | .paren inner, k => inner.lifts_code k

end

theorem Condition.lifts_code (c : Condition) (k : Nat) : Lifts k (c.code env) (k + 1) := by
  cases c with
  | odd e => exact (e.lifts_code k).append (.cons (Nat.le_add_left _ _) .nil)
  | compare left op right =>
    refine (left.lifts_code k).append ((right.lifts_code (k + 1)).append (lifts_binary ?_ ?_ .nil)) <;> cases op <;> rfl

/-! ### Statements and blocks leave none -/

mutual

theorem Statement.lifts_code : ∀ (s : Statement) (start k : Nat), Lifts k (s.code env start) k
  | .empty, _, _ => .nil
  | .assign _ e, _, k => (e.lifts_code k).append (.cons (Nat.le_add_left _ _) .nil)
  | .call _, _, _ => .cons (Nat.zero_le _) .nil
  | .compound first rest, start, k => (first.lifts_code start k).append (rest.lifts_code _ k)
  | .ifThen c s, _, k => (c.lifts_code k).append (.cons (Nat.le_add_left _ _) (s.lifts_code _ k))
  | .ifElse c s t, _, k =>
    (c.lifts_code k).append (.cons (Nat.le_add_left _ _)
      ((s.lifts_code _ k).append (.cons (Nat.zero_le _) (t.lifts_code _ k))))
  | .whileDo c s, _, k =>
    (c.lifts_code k).append (.cons (Nat.le_add_left _ _) ((s.lifts_code _ k).append (.cons (Nat.zero_le _) .nil)))
  | .read _, _, _ => .cons (Nat.zero_le _) (.cons (Nat.le_add_left _ _) .nil)
  | .write x, _, k => (lifts_load x k).append (.cons (Nat.le_add_left _ _) .nil)

theorem StatementTail.lifts_code : ∀ (l : StatementTail) (start k : Nat), Lifts k (l.code env start) k
  | .nil, _, _ => .nil
  | .cons s rest, start, k => (s.lifts_code start k).append (rest.lifts_code _ k)

end

end

private theorem lifts_cells (vars : List String) (k : Nat) : Lifts k (vars.map fun _ => instruction .inc 1) k := by
  induction vars with
  | nil => exact .nil
  | cons x vars ih => exact .cons (Nat.zero_le _) ih

mutual

theorem Block.lifts_code : ∀ (b : Block) (start k : Nat), Lifts k (b.code start) k
  | .mk _ vars procs body, _, k =>
    .cons (Nat.zero_le _) ((lifts_cells vars k).append ((procs.lifts_code _ k).append
      (.cons (Nat.zero_le _) ((body.lifts_code _ k).append (.cons (Nat.zero_le _) .nil)))))

theorem Procedures.lifts_code : ∀ (l : Procedures) (start k : Nat), Lifts k (l.code start) k
  | .nil, _, _ => .nil
  | .cons _ block rest, start, k => (block.lifts_code start k).append (rest.lifts_code _ k)

end

theorem Block.lifts_program (b : Block) : Lifts 0 b.program 0 :=
  (b.lifts_code 0 0).append (.cons (Nat.zero_le _) .nil)

/-! ### Where the stack is empty -/

section

variable {program : List Instruction}

/-- The code is placed where the stack is empty. -/
def Grounded (program : List Instruction) (a : Nat) (code : List Instruction) : Prop :=
  Placed program a code ∧ depthAt program a = 0

namespace Grounded

variable {code code' : List Instruction} {ins : Instruction} {a n : Nat}

theorem left (h : Grounded program a (code ++ code')) : Grounded program a code :=
  ⟨h.1.left, h.2⟩

theorem right (h : Grounded program a (code ++ code')) (hn : code.length = n) (hlifts : Lifts 0 code 0) :
    Grounded program (a + n) code' :=
  ⟨h.1.right hn, hlifts.depthAt_end h.1.left h.2 hn⟩

theorem tail (h : Grounded program a (ins :: code)) (hlifts : Lifts 0 [ins] 0) : Grounded program (a + 1) code :=
  (show Grounded program a ([ins] ++ code) from h).right rfl hlifts

end Grounded

section

variable {env : Env} {a : Nat}

/-- After a test and its conditional jump the stack is as it was. -/
private theorem grounded_test {c : Condition} {m : Nat} {code : List Instruction}
    (h : Grounded program a (c.code env ++ refer .jpc m :: code)) : Grounded program (a + c.size + 1) code := by
  have h' : Grounded program a ((c.code env ++ [refer .jpc m]) ++ code) := by
    rwa [List.append_assoc]
  have hlength : (c.code env ++ [refer .jpc m]).length = c.size + 1 := by simp
  exact h'.right hlength ((c.lifts_code 0).append (.cons (Nat.le_add_left _ _) .nil))

private theorem handsDown_grounded (program : List Instruction) (env : Env) :
    Statement.HandsDown (fun s a => Grounded program a (s.code env a))
      fun l a => Grounded program a (l.code env a) where
  compound {first rest a} h := ⟨h.left, h.right (Statement.length_code _ _) (first.lifts_code _ _)⟩
  ifThen h := grounded_test h
  ifElse {c s t a} h := by
    have hs := grounded_test h
    exact ⟨hs.left, (hs.right (Statement.length_code _ _) (s.lifts_code _ _)).tail (.cons (Nat.zero_le _) .nil)⟩
  whileDo h := (grounded_test h).left
  tail {s rest a} h := ⟨h.left, h.right (Statement.length_code _ _) (s.lifts_code _ _)⟩

theorem Statement.grounded_sites {s : Statement} {start : Nat} (h : Grounded program start (s.code env start)) :
    ∀ site ∈ s.sites start, Grounded program site.start (site.statement.code env site.start) :=
  (handsDown_grounded program env).sites s h

theorem Statement.depthAt_finish {s : Statement} (h : Grounded program a (s.code env a)) :
    depthAt program (a + s.size) = 0 :=
  (s.lifts_code a 0).depthAt_end h.1 h.2 (Statement.length_code _ _)

theorem Statement.depthAt_border {s : Statement} {start : Nat} (h : Grounded program start (s.code env start))
    (ha : Border (s.sites start) a) : depthAt program a = 0 := by
  obtain ⟨site, hsite, rfl | rfl⟩ := ha
  · exact (Statement.grounded_sites h site hsite).2
  · exact Statement.depthAt_finish (Statement.grounded_sites h site hsite)

end

/-- What follows the first jump and the cells of the variables: the procedures, and then the statement. -/
private theorem Block.grounded_procs {b : Block} {start : Nat} (h : Grounded program start (b.code start)) :
    Grounded program (b.procsStart start) (b.procs.code (b.procsStart start) ++
      instruction .inc 4 :: (b.body.code (b.env start) (b.entry start + 1) ++ [instruction .rtn 0])) := by
  obtain ⟨consts, vars, procs, body⟩ := b
  exact (h.tail (.cons (Nat.zero_le _) .nil)).right (List.length_map _) (lifts_cells vars 0)

theorem Block.grounded_regions {b : Block} {start : Nat} (h : Grounded program start (b.code start)) (level : Nat)
    (scope : Scope) (id : Nat) :
    ∀ r ∈ b.regions start level scope id, Grounded program r.start (r.block.code r.start) := by
  have hdown : Block.HandsDown (fun r => Grounded program r.start (r.block.code r.start))
      fun l start _ _ => Grounded program start (l.code start) := by
    refine ⟨fun h => (Block.grounded_procs h).left, fun h => h.left, fun {_ block _ _ _ _} h => ?_⟩
    exact h.right (Block.length_code _ _) (block.lifts_code _ 0)
  exact hdown.regions b h

namespace Region

variable {r : Region}

private theorem grounded_entry (h : Grounded program r.start (r.block.code r.start)) :
    Grounded program r.entry
      (instruction .inc 4 :: (r.block.body.code r.env (r.entry + 1) ++ [instruction .rtn 0])) :=
  (Block.grounded_procs h).right (Procedures.length_code _ _) (Procedures.lifts_code _ _ 0)

theorem depthAt_entry (h : Grounded program r.start (r.block.code r.start)) : depthAt program r.entry = 0 :=
  (grounded_entry h).2

theorem grounded_body (h : Grounded program r.start (r.block.code r.start)) :
    Grounded program (r.entry + 1) (r.block.body.code r.env (r.entry + 1)) :=
  ((grounded_entry h).tail (.cons (Nat.zero_le _) .nil)).left

theorem depthAt_exit (h : Grounded program r.start (r.block.code r.start)) : depthAt program r.exit = 0 :=
  Statement.depthAt_finish (grounded_body h)

end Region

end

end PL0
