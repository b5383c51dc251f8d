import PL0.Proofs.Placement

/-!
# Statements in their places

`Statement.sites` lists a statement and the statements in it, each with the address of its code.  Control only changes
at the borders of these sites: an instruction of a scoped statement calculates, or it refers to a variable of the
block, or it calls a procedure of the block and is a site of its own, or it is a jump that stands in front of the
border of a site and goes to such a border (`Statement.belongs_code`).
-/

namespace PL0

/-- A statement and the address of its code. -/
structure Site where
  statement : Statement
  start : Nat

/-- The first address after the code of a site. -/
def Site.finish (site : Site) : Nat :=
  site.start + site.statement.size

/-- The address is that of the start or that of the end of a site. -/
def Border (sites : List Site) (a : Nat) : Prop :=
  ∃ site ∈ sites, a = site.start ∨ a = site.finish

mutual

/-- A statement whose code starts at a given address, and the statements in it. -/
def Statement.sites : Statement → Nat → List Site
  | .compound first rest, start =>
    ⟨.compound first rest, start⟩ :: (first.sites start ++ rest.sites (start + first.size))
  | .ifThen c s, start => ⟨.ifThen c s, start⟩ :: s.sites (start + c.size + 1)
  | .ifElse c s t, start =>
    ⟨.ifElse c s t, start⟩ :: (s.sites (start + c.size + 1) ++ t.sites (start + c.size + 1 + s.size + 1))
  | .whileDo c s, start => ⟨.whileDo c s, start⟩ :: s.sites (start + c.size + 1)
  | s, start => [⟨s, start⟩]

def StatementTail.sites : StatementTail → Nat → List Site
  | .nil, _ => []
  | .cons s rest, start => s.sites start ++ rest.sites (start + s.size)

end

theorem Statement.mem_sites (s : Statement) (start : Nat) : ⟨s, start⟩ ∈ s.sites start := by
  cases s <;> exact List.mem_cons_self

theorem Statement.border_start (s : Statement) (start : Nat) : Border (s.sites start) start :=
  ⟨_, s.mem_sites start, .inl rfl⟩

theorem Statement.border_finish (s : Statement) (start : Nat) : Border (s.sites start) (start + s.size) :=
  ⟨_, s.mem_sites start, .inr rfl⟩

theorem Border.mono {sites sites' : List Site} {a : Nat} (h : Border sites a) (hsub : ∀ site ∈ sites, site ∈ sites') :
    Border sites' a := by
  obtain ⟨site, hsite, ha⟩ := h
  exact ⟨site, hsub site hsite, ha⟩

/-! ### What holds of all sites -/

/-- What a statement at an address hands down to its parts.  `Q` is what the statements of a compound share. -/
structure Statement.HandsDown (P : Statement → Nat → Prop) (Q : StatementTail → Nat → Prop) : Prop where
  compound {first : Statement} {rest : StatementTail} {a : Nat} :
    P (.compound first rest) a → P first a ∧ Q rest (a + first.size)
  ifThen {c : Condition} {s : Statement} {a : Nat} : P (.ifThen c s) a → P s (a + c.size + 1)
  ifElse {c : Condition} {s t : Statement} {a : Nat} :
    P (.ifElse c s t) a → P s (a + c.size + 1) ∧ P t (a + c.size + 1 + s.size + 1)
  whileDo {c : Condition} {s : Statement} {a : Nat} : P (.whileDo c s) a → P s (a + c.size + 1)
  tail {s : Statement} {rest : StatementTail} {a : Nat} : Q (.cons s rest) a → P s a ∧ Q rest (a + s.size)

section

variable {P : Statement → Nat → Prop} {Q : StatementTail → Nat → Prop}

mutual

theorem Statement.HandsDown.sites (h : Statement.HandsDown P Q) : ∀ (s : Statement) {start : Nat}, P s start →
    ∀ site ∈ s.sites start, P site.statement site.start
  | .empty, _, hs, site, hsite | .assign _ _, _, hs, site, hsite | .call _, _, hs, site, hsite
  | .read _, _, hs, site, hsite | .write _, _, hs, site, hsite => by
    obtain rfl := List.mem_singleton.1 hsite
    exact hs
  | .compound first rest, start, hs, site, hsite => by
    rcases List.mem_cons.1 hsite with rfl | hsite
    · exact hs
    · rcases List.mem_append.1 hsite with hsite | hsite
      · exact h.sites first (h.compound hs).1 site hsite
      · exact h.tailSites rest (h.compound hs).2 site hsite
  | .ifThen c s, start, hs, site, hsite => by
    rcases List.mem_cons.1 hsite with rfl | hsite
    · exact hs
    · exact h.sites s (h.ifThen hs) site hsite
  | .ifElse c s t, start, hs, site, hsite => by
    rcases List.mem_cons.1 hsite with rfl | hsite
    · exact hs
    · rcases List.mem_append.1 hsite with hsite | hsite
      · exact h.sites s (h.ifElse hs).1 site hsite
      · exact h.sites t (h.ifElse hs).2 site hsite
  | .whileDo c s, start, hs, site, hsite => by
    rcases List.mem_cons.1 hsite with rfl | hsite
    · exact hs
    · exact h.sites s (h.whileDo hs) site hsite

theorem Statement.HandsDown.tailSites (h : Statement.HandsDown P Q) : ∀ (l : StatementTail) {start : Nat}, Q l start →
    ∀ site ∈ l.sites start, P site.statement site.start
  | .nil, _, _, site, hsite => by cases hsite
  | .cons s rest, start, hl, site, hsite => by
    rcases List.mem_append.1 hsite with hsite | hsite
    · exact h.sites s (h.tail hl).1 site hsite
    · exact h.tailSites rest (h.tail hl).2 site hsite

end

end

/-- The sites of a statement lie in its code. -/
theorem Statement.sites_within (s : Statement) (start : Nat) :
    ∀ site ∈ s.sites start, start ≤ site.start ∧ site.finish ≤ start + s.size := by
  have h : HandsDown (fun s' a => start ≤ a ∧ a + s'.size ≤ start + s.size)
      fun rest a => start ≤ a ∧ a + rest.size ≤ start + s.size := by
    constructor <;> intros <;> simp only [Statement.size, StatementTail.size] at * <;> omega
  exact h.sites s ⟨Nat.le_refl _, Nat.le_refl _⟩

theorem Statement.border_within {s : Statement} {start a : Nat} (h : Border (s.sites start) a) :
    start ≤ a ∧ a ≤ start + s.size := by
  obtain ⟨site, hsite, ha⟩ := h
  have hwithin := s.sites_within start site hsite
  unfold Site.finish at *
  omega

/-! ### Expressions calculate -/

/-- The operations that neither refer to an address nor leave the block. -/
def Opcode.isPlain : Opcode → Bool
  | .lod | .sto | .cal | .jmp | .jpc | .rtn | .halt => false
  | _ => true

/-- The instruction calculates, or it loads a variable. -/
def Instruction.Evaluates (ins : Instruction) (env : Env) : Prop :=
  ins.op.isPlain ∨ ins.op = .lod ∧ ∃ x, env x = some (.var ins.m)

section

variable {env : Env}

theorem Env.exists_of_sortOf {x : String} {sort : NameSort} (h : env.sortOf x = some sort) :
    ∃ k, env x = some k ∧ k.sort = sort :=
  Option.map_eq_some_iff.1 h

theorem Env.var_of_sortOf {x : String} (h : env.sortOf x = some .var) : env x = some (.var (env.value x)) := by
  obtain ⟨k, hk, hsort⟩ := Env.exists_of_sortOf h
  cases k <;> cases hsort
  simp only [Env.value, hk]
  rfl

theorem Env.proc_of_sortOf {x : String} (h : env.sortOf x = some .proc) : env x = some (.proc (env.value x)) := by
  obtain ⟨k, hk, hsort⟩ := Env.exists_of_sortOf h
  cases k <;> cases hsort
  simp only [Env.value, hk]
  rfl

theorem Env.evaluates_load {x : String} (h : isValue env.sortOf x) : (env.load x).Evaluates env := by
  simp only [isValue, Bool.or_eq_true, decide_eq_true_eq] at h
  rcases h with h | h
  · obtain ⟨k, hk, hsort⟩ := Env.exists_of_sortOf h
    cases k <;> cases hsort
    left
    simp only [Env.load, hk]
    rfl
  · have hx := Env.var_of_sortOf h
    right
    simp only [Env.load, hx]
    exact ⟨rfl, x, hx⟩

mutual

theorem Expression.evaluates : ∀ e : Expression, e.scoped env.sortOf → ∀ ins ∈ e.code env, ins.Evaluates env
  | .mk sign first rest, h, ins, hins => by
    simp only [Expression.scoped, Bool.and_eq_true] at h
    simp only [Expression.code, List.mem_append] at hins
    rcases hins with hins | hins | hins
    · exact first.evaluates h.1 ins hins
    · rcases sign with _ | (_ | _) <;> simp [signCode] at hins
      rw [hins]
      exact .inl rfl
    · exact rest.evaluates h.2 ins hins

theorem TermTail.evaluates : ∀ l : TermTail, l.scoped env.sortOf → ∀ ins ∈ l.code env, ins.Evaluates env
  | .nil, _, ins, hins => by cases hins
  | .cons op term rest, h, ins, hins => by
    simp only [TermTail.scoped, Bool.and_eq_true] at h
    simp only [TermTail.code, List.mem_append, List.mem_cons] at hins
    rcases hins with hins | rfl | hins
    · exact term.evaluates h.1 ins hins
    · cases op <;> exact .inl rfl
    · exact rest.evaluates h.2 ins hins

theorem Term.evaluates : ∀ t : Term, t.scoped env.sortOf → ∀ ins ∈ t.code env, ins.Evaluates env
  | .mk first rest, h, ins, hins => by
    simp only [Term.scoped, Bool.and_eq_true] at h
    simp only [Term.code, List.mem_append] at hins
    rcases hins with hins | hins
    · exact first.evaluates h.1 ins hins
    · exact rest.evaluates h.2 ins hins

theorem FactorTail.evaluates : ∀ l : FactorTail, l.scoped env.sortOf → ∀ ins ∈ l.code env, ins.Evaluates env
  | .nil, _, ins, hins => by cases hins
  | .cons op factor rest, h, ins, hins => by
    simp only [FactorTail.scoped, Bool.and_eq_true] at h
    simp only [FactorTail.code, List.mem_append, List.mem_cons] at hins
    rcases hins with hins | rfl | hins
    · exact factor.evaluates h.1 ins hins
    · cases op <;> exact .inl rfl
    · exact rest.evaluates h.2 ins hins

theorem Factor.evaluates : ∀ f : Factor, f.scoped env.sortOf → ∀ ins ∈ f.code env, ins.Evaluates env
  | .name x, h, ins, hins => by
    rw [List.mem_singleton.1 hins]
    exact Env.evaluates_load h
  | .number value, _, ins, hins => by
    rw [List.mem_singleton.1 hins]
    exact .inl rfl
  | .paren inner, h, ins, hins => inner.evaluates h ins hins

end

theorem Condition.evaluates (c : Condition) (h : c.scoped env.sortOf) : ∀ ins ∈ c.code env, ins.Evaluates env := by
  intro ins hins
  cases c with
  | odd e =>
    simp only [Condition.code, List.mem_append, List.mem_singleton] at hins
    rcases hins with hins | rfl
    · exact e.evaluates h ins hins
    · exact .inl rfl
  | compare left op right =>
    simp only [Condition.scoped, Bool.and_eq_true] at h
    simp only [Condition.code, List.mem_append, List.mem_singleton] at hins
    rcases hins with hins | hins | rfl
    · exact left.evaluates h.1 ins hins
    · exact right.evaluates h.2 ins hins
    · cases op <;> exact .inl rfl

end

/-! ### Statements stay in their block -/

/-- What an instruction at the address `a` of a statement with the sites `sites` can be. -/
structure Instruction.Belongs (ins : Instruction) (env : Env) (sites : List Site) (a : Nat) : Prop where
  access : ins.op = .lod ∨ ins.op = .sto → ∃ x, env x = some (.var ins.m)
  call : ins.op = .cal → Border sites a ∧ ∃ p, env p = some (.proc ins.m)
  jump : ins.op.isJump → Border sites (a + 1) ∧ ∃ m, ins.m = Int32.ofNat m ∧ Border sites m
  ne_rtn : ins.op ≠ .rtn
  ne_halt : ins.op ≠ .halt

namespace Instruction.Belongs

variable {ins : Instruction} {env : Env} {sites sites' : List Site} {a m : Nat}

theorem mono (h : ins.Belongs env sites a) (hsub : ∀ site ∈ sites, site ∈ sites') : ins.Belongs env sites' a where
  access := h.access
  call hop := ⟨(h.call hop).1.mono hsub, (h.call hop).2⟩
  jump hop := by
    obtain ⟨hnext, m, hm, hborder⟩ := h.jump hop
    exact ⟨hnext.mono hsub, m, hm, hborder.mono hsub⟩
  ne_rtn := h.ne_rtn
  ne_halt := h.ne_halt

theorem of_plain (h : ins.op.isPlain) : ins.Belongs env sites a := by
  obtain ⟨op, r, l, m⟩ := ins
  cases op <;> cases h <;> constructor <;> simp [Opcode.isJump]

theorem of_evaluates (h : ins.Evaluates env) : ins.Belongs env sites a := by
  rcases h with h | ⟨hop, hx⟩
  · exact of_plain h
  · constructor <;> simp [hop, hx, Opcode.isJump]

theorem of_jump {op : Opcode} (hop : op.isJump) (hnext : Border sites (a + 1)) (hm : Border sites m) :
    (refer op m).Belongs env sites a := by
  cases op <;> cases hop <;> constructor <;> simp [refer, instruction, Opcode.isJump]
  all_goals exact ⟨hnext, m, rfl, hm⟩

theorem sto {x : String} (h : env.sortOf x = some .var) : (instruction .sto (env.value x)).Belongs env sites a := by
  have hx := Env.var_of_sortOf h
  constructor <;> simp [instruction, Opcode.isJump]
  exact ⟨x, hx⟩

theorem cal {p : String} (h : env.sortOf p = some .proc) (ha : Border sites a) :
    (instruction .cal (env.value p)).Belongs env sites a := by
  have hp := Env.proc_of_sortOf h
  constructor <;> simp [instruction, Opcode.isJump]
  exact ⟨ha, p, hp⟩

end Instruction.Belongs

section

variable {env : Env}

private theorem belongs_condition {c : Condition} (h : c.scoped env.sortOf) {sites : List Site} {a : Nat} :
    Throughout (fun i ins => ins.Belongs env sites i) a (c.code env) :=
  .of_mem fun ins hins _ => .of_evaluates (c.evaluates h ins hins)

mutual

theorem Statement.belongs_code : ∀ (s : Statement) (start : Nat), s.scoped env.sortOf →
    Throughout (fun i ins => ins.Belongs env (s.sites start) i) start (s.code env start)
  | .empty, start, _ => .nil
  | .assign x e, start, h => by
    simp only [Statement.scoped, Bool.and_eq_true, decide_eq_true_eq] at h
    refine .append (Expression.length_code _) (.of_mem fun ins hins _ => ?_) (.cons (.sto h.1) .nil)
    exact .of_evaluates (e.evaluates h.2 ins hins)
  | .call p, start, h => by
    simp only [Statement.scoped, decide_eq_true_eq] at h
    exact .cons (.cal h (Statement.border_start _ _)) .nil
  | .read x, start, h => by
    simp only [Statement.scoped, decide_eq_true_eq] at h
    exact .cons (.of_plain rfl) (.cons (.sto h) .nil)
  | .write x, start, h => .cons (.of_evaluates (Env.evaluates_load h)) (.cons (.of_plain rfl) .nil)
  | .compound first rest, start, h => by
    simp only [Statement.scoped, Bool.and_eq_true] at h
    refine .append (Statement.length_code _ _) ?_ ?_
    · refine (first.belongs_code start h.1).mono fun i ins hi => hi.mono fun site hsite => ?_
      exact List.mem_cons_of_mem _ (List.mem_append_left _ hsite)
    · refine (rest.belongs_code _ h.2).mono fun i ins hi => hi.mono fun site hsite => ?_
      exact List.mem_cons_of_mem _ (List.mem_append_right _ hsite)
  | .ifThen c s, start, h => by
    simp only [Statement.scoped, Bool.and_eq_true] at h
    have hsub : ∀ site ∈ s.sites (start + c.size + 1), site ∈ (Statement.ifThen c s).sites start :=
      fun site hsite => List.mem_cons_of_mem _ hsite
    refine .append (Condition.length_code _) (belongs_condition h.1) (.cons (.of_jump rfl ?_ ?_) ?_)
    · exact (s.border_start _).mono hsub
    · exact (s.border_finish _).mono hsub
    · exact (s.belongs_code _ h.2).mono fun i ins hi => hi.mono hsub
  | .ifElse c s t, start, h => by
    simp only [Statement.scoped, Bool.and_eq_true] at h
    have hs : ∀ site ∈ s.sites (start + c.size + 1), site ∈ (Statement.ifElse c s t).sites start :=
      fun site hsite => List.mem_cons_of_mem _ (List.mem_append_left _ hsite)
    have ht : ∀ site ∈ t.sites (start + c.size + 1 + s.size + 1), site ∈ (Statement.ifElse c s t).sites start :=
      fun site hsite => List.mem_cons_of_mem _ (List.mem_append_right _ hsite)
    refine .append (Condition.length_code _) (belongs_condition h.1) (.cons (.of_jump rfl ?_ ?_) ?_)
    · exact (s.border_start _).mono hs
    · exact (t.border_start _).mono ht
    refine .append (Statement.length_code _ _) ?_ (.cons (.of_jump rfl ?_ ?_) ?_)
    · exact (s.belongs_code _ h.2.1).mono fun i ins hi => hi.mono hs
    · exact (t.border_start _).mono ht
    · exact (t.border_finish _).mono ht
    · exact (t.belongs_code _ h.2.2).mono fun i ins hi => hi.mono ht
  | .whileDo c s, start, h => by
    simp only [Statement.scoped, Bool.and_eq_true] at h
    have hsub : ∀ site ∈ s.sites (start + c.size + 1), site ∈ (Statement.whileDo c s).sites start :=
      fun site hsite => List.mem_cons_of_mem _ hsite
    have hfinish := (Statement.whileDo c s).border_finish start
    rw [Statement.size, show start + (c.size + 1 + s.size + 1) = start + c.size + 1 + s.size + 1 by omega] at hfinish
    refine .append (Condition.length_code _) (belongs_condition h.1) (.cons (.of_jump rfl ?_ hfinish) ?_)
    · exact (s.border_start _).mono hsub
    refine .append (Statement.length_code _ _) ?_ (.cons (.of_jump rfl hfinish (Statement.border_start _ _)) .nil)
    exact (s.belongs_code _ h.2).mono fun i ins hi => hi.mono hsub

theorem StatementTail.belongs_code : ∀ (l : StatementTail) (start : Nat), l.scoped env.sortOf →
    Throughout (fun i ins => ins.Belongs env (l.sites start) i) start (l.code env start)
  | .nil, start, _ => .nil
  | .cons s rest, start, h => by
    simp only [StatementTail.scoped, Bool.and_eq_true] at h
    refine .append (Statement.length_code _ _) ?_ ?_
    · exact (s.belongs_code start h.1).mono fun i ins hi => hi.mono fun site => List.mem_append_left _
    · exact (rest.belongs_code _ h.2).mono fun i ins hi => hi.mono fun site => List.mem_append_right _

end

end

end PL0
