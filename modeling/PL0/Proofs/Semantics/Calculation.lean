import PL0.Proofs.Emission.Accepted
import PL0.Proofs.Generator.Nesting
import PL0.Proofs.Generator.Reading
import PL0.Proofs.Semantics.Simulation

/-!
# Expressions and conditions calculate their values

The instructions of an expression, run one after the other, push the value of the expression, and they get stuck if and
only if a division has no result.  `Machine.runFor` runs a number of instructions; `Expression.runFor_code` and the
lemmas beside it say where the machine is after the code of a tree, or that it gets stuck, as an equation with
`Expression.eval`.  The divisions that an evaluation carries out are listed by `Expression.divisions`, in the order in
which they happen; an evaluation has no value if and only if one of them has no result
(`Expression.eval_eq_none_iff`).
-/

namespace PL0

open Machine

/-! ### Divisions -/

def MulOp.divisions : MulOp → Int → Int → List (Int × Int)
  | .times, _, _ => []
  | .slash, a, b => [(a, b)]

section

variable (ops : Arithmetic) (value : String → Option Int)

mutual

/-- The divisions of an evaluation, up to the first one that has no result. -/
def Expression.divisions : Expression → List (Int × Int)
  | .mk sign first rest =>
    first.divisions ++ (first.eval ops value).elim [] fun a => rest.divisions (applySign ops sign a)

def TermTail.divisions : TermTail → Int → List (Int × Int)
  | .nil, _ => []
  | .cons op term rest, a =>
    term.divisions ++ (term.eval ops value).elim [] fun b => rest.divisions (op.apply ops a b)

def Term.divisions : Term → List (Int × Int)
  | .mk first rest => first.divisions ++ (first.eval ops value).elim [] fun a => rest.divisions a

def FactorTail.divisions : FactorTail → Int → List (Int × Int)
  | .nil, _ => []
  | .cons op factor rest, a =>
    factor.divisions ++ (factor.eval ops value).elim [] fun b =>
      op.divisions a b ++ (op.apply ops a b).elim [] fun c => rest.divisions c

def Factor.divisions : Factor → List (Int × Int)
  | .name _ => []
  | .number _ => []
  | .paren inner => inner.divisions

end

def Condition.divisions : Condition → List (Int × Int)
  | .odd e => e.divisions ops value
  | .compare left _ right =>
    left.divisions ops value ++ (left.eval ops value).elim [] fun _ => right.divisions ops value

end

/-- One of the divisions has no result. -/
def Arithmetic.Fails (ops : Arithmetic) (divisions : List (Int × Int)) : Prop :=
  ∃ a b, (a, b) ∈ divisions ∧ ops.div a b = none

section

variable {ops : Arithmetic} {value : String → Option Int} {sortOf : String → Option NameSort}

@[simp] theorem Arithmetic.fails_nil : ¬ops.Fails [] := by
  simp [Arithmetic.Fails]

@[simp] theorem Arithmetic.fails_append {divisions divisions' : List (Int × Int)} :
    ops.Fails (divisions ++ divisions') ↔ ops.Fails divisions ∨ ops.Fails divisions' := by
  simp only [Arithmetic.Fails, List.mem_append, or_and_right, exists_or]

/-- An evaluation in two parts has no value if the first part has none, or if it has one and the second part has
none. -/
private theorem bind_eq_none_iff {α β : Type} {first : Option α} {rest : α → Option β} {divisions : List (Int × Int)}
    {divisions' : α → List (Int × Int)} (hfirst : first = none ↔ ops.Fails divisions)
    (hrest : ∀ a, rest a = none ↔ ops.Fails (divisions' a)) :
    first.bind rest = none ↔ ops.Fails (divisions ++ first.elim [] divisions') := by
  rw [Arithmetic.fails_append, ← hfirst]
  cases first with
  | none => simp
  | some a => simp [hrest a]

theorem MulOp.apply_eq_none_iff (op : MulOp) (a b : Int) :
    op.apply ops a b = none ↔ ops.Fails (op.divisions a b) := by
  cases op with
  | times => simp [MulOp.apply, MulOp.divisions]
  | slash =>
    constructor
    · intro h
      exact ⟨a, b, List.mem_singleton_self _, h⟩
    · rintro ⟨a', b', hmem, h⟩
      obtain ⟨rfl, rfl⟩ := Prod.mk.inj (List.mem_singleton.1 hmem)
      exact h

mutual

theorem Expression.eval_eq_none_iff (hvalue : ∀ x, isValue sortOf x → value x ≠ none) :
    ∀ e : Expression, e.scoped sortOf → (e.eval ops value = none ↔ ops.Fails (e.divisions ops value))
  | .mk sign first rest, h => by
    simp only [Expression.scoped, Bool.and_eq_true] at h
    exact bind_eq_none_iff (first.eval_eq_none_iff hvalue h.1) fun a => rest.eval_eq_none_iff hvalue h.2 _

theorem TermTail.eval_eq_none_iff (hvalue : ∀ x, isValue sortOf x → value x ≠ none) :
    ∀ l : TermTail, l.scoped sortOf → ∀ a, (l.eval ops value a = none ↔ ops.Fails (l.divisions ops value a))
  | .nil, _, a => by simp [TermTail.eval, TermTail.divisions]
  | .cons op term rest, h, a => by
    simp only [TermTail.scoped, Bool.and_eq_true] at h
    exact bind_eq_none_iff (term.eval_eq_none_iff hvalue h.1) fun b => rest.eval_eq_none_iff hvalue h.2 _

theorem Term.eval_eq_none_iff (hvalue : ∀ x, isValue sortOf x → value x ≠ none) :
    ∀ t : Term, t.scoped sortOf → (t.eval ops value = none ↔ ops.Fails (t.divisions ops value))
  | .mk first rest, h => by
    simp only [Term.scoped, Bool.and_eq_true] at h
    exact bind_eq_none_iff (first.eval_eq_none_iff hvalue h.1) fun a => rest.eval_eq_none_iff hvalue h.2 a

theorem FactorTail.eval_eq_none_iff (hvalue : ∀ x, isValue sortOf x → value x ≠ none) :
    ∀ l : FactorTail, l.scoped sortOf → ∀ a, (l.eval ops value a = none ↔ ops.Fails (l.divisions ops value a))
  | .nil, _, a => by simp [FactorTail.eval, FactorTail.divisions]
  | .cons op factor rest, h, a => by
    simp only [FactorTail.scoped, Bool.and_eq_true] at h
    refine bind_eq_none_iff (factor.eval_eq_none_iff hvalue h.1) fun b => ?_
    exact bind_eq_none_iff (op.apply_eq_none_iff a b) fun c => rest.eval_eq_none_iff hvalue h.2 c

theorem Factor.eval_eq_none_iff (hvalue : ∀ x, isValue sortOf x → value x ≠ none) :
    ∀ f : Factor, f.scoped sortOf → (f.eval ops value = none ↔ ops.Fails (f.divisions ops value))
  | .name x, h => by simp [Factor.eval, Factor.divisions, hvalue x h]
  | .number _, _ => by simp [Factor.eval, Factor.divisions]
  | .paren inner, h => inner.eval_eq_none_iff hvalue h

end

theorem Condition.eval_eq_none_iff (hvalue : ∀ x, isValue sortOf x → value x ≠ none) (k : Condition)
    (h : k.scoped sortOf) : k.eval ops value = none ↔ ops.Fails (k.divisions ops value) := by
  cases k with
  | odd e =>
    rw [Condition.eval, Option.map_eq_none_iff]
    exact e.eval_eq_none_iff hvalue h
  | compare left op right =>
    simp only [Condition.scoped, Bool.and_eq_true] at h
    refine bind_eq_none_iff (left.eval_eq_none_iff hvalue h.1) fun a => ?_
    rw [Option.map_eq_none_iff]
    exact right.eval_eq_none_iff hvalue h.2

end

/-! ### A number of steps -/

namespace Machine

/-- The state after `n` steps, if the machine does not get stuck before. -/
def runFor (ops : Arithmetic) (program : List Instruction) : Nat → Machine → Option Machine
  | 0, s => some s
  | n + 1, s => (step ops program s).bind (runFor ops program n)

variable {ops : Arithmetic} {program : List Instruction}

@[simp] theorem runFor_zero (s : Machine) : runFor ops program 0 s = some s := rfl

theorem runFor_one (s : Machine) : runFor ops program 1 s = step ops program s := by
  simp [runFor]

theorem runFor_add (m n : Nat) (s : Machine) :
    runFor ops program (m + n) s = (runFor ops program m s).bind (runFor ops program n) := by
  induction m generalizing s with
  | zero => simp
  | succ m ih =>
    simp only [Nat.succ_add, runFor, Option.bind_assoc]
    congr 1
    funext s'
    exact ih s'

/-- Two parts of a run, of which the first one gives an intermediate result. -/
theorem runFor_then {α : Type} {m n : Nat} {s : Machine} {first : Option α} {middle : α → Machine}
    {last : α → Option Machine} (h : runFor ops program m s = first.map middle)
    (h' : ∀ a, runFor ops program n (middle a) = last a) : runFor ops program (m + n) s = first.bind last := by
  rw [runFor_add, h]
  cases first with
  | none => rfl
  | some a => exact h' a

section

variable {pc : Nat} {operands : List Int} {frames : List Frame} {input output : List Int}

theorem runFor_lit {v : Int32} (h : program[pc]? = some (instruction .lit v)) :
    runFor ops program 1 ⟨pc, operands, frames, input, output⟩ =
      some ⟨pc + 1, v.toInt :: operands, frames, input, output⟩ := by
  rw [runFor_one, step_of h]
  rfl

theorem runFor_unary {op : Opcode} {g : Int → Int} (hop : unary? ops op = some g) {a : Int}
    (h : program[pc]? = some (instruction op 0)) :
    runFor ops program 1 ⟨pc, a :: operands, frames, input, output⟩ =
      some ⟨pc + 1, g a :: operands, frames, input, output⟩ := by
  rw [runFor_one, step_of h]
  cases op <;> cases hop <;> rfl

/-- An operation on two operands gets stuck where it has no result. -/
theorem runFor_binary {op : Opcode} {g : Int → Int → Option Int} (hop : binary? ops op = some g) {a b : Int}
    (h : program[pc]? = some (instruction op 0)) :
    runFor ops program 1 ⟨pc, b :: a :: operands, frames, input, output⟩ =
      (g a b).map fun c => ⟨pc + 1, c :: operands, frames, input, output⟩ := by
  rw [runFor_one, step_of h]
  have hunary : unary? ops op = none := by
    cases op <;> first | rfl | cases hop
  have hcalculate : calculate ops op (b :: a :: operands) = (g a b).map (· :: operands) := by
    simp [calculate, hunary, hop]
  cases op <;> first
    | cases hop; simp [execute, instruction, hcalculate, Option.map_map, Function.comp_def] | cases hop

end

end Machine

/-! ### Values of names -/

/-- The value of a name for a frame with these cells. -/
def Env.valueIn (env : Env) (cells : Int32 → Int) (x : String) : Option Int :=
  match env x with
  | some (.const v) => some v.toInt
  | some (.var a) => some (cells a)
  | _ => none

theorem Env.valueIn_ne_none {env : Env} (cells : Int32 → Int) (x : String) (h : isValue env.sortOf x) :
    env.valueIn cells x ≠ none := by
  unfold Env.valueIn
  cases hx : env x with
  | none => simp [isValue, Env.sortOf, hx] at h
  | some kind => cases kind <;> simp [isValue, Env.sortOf, hx, SymbolKind.sort] at h ⊢

/-! ### The code of a tree -/

section

variable {ops : Arithmetic} {program : List Instruction} {env : Env} {f : Frame} {frames : List Frame}
  {input output : List Int}

theorem Env.runFor_load {x : String} (hx : isValue env.sortOf x) {pc : Nat} (operands : List Int)
    (h : program[pc]? = some (env.load x)) :
    runFor ops program 1 ⟨pc, operands, f :: frames, input, output⟩ =
      (env.valueIn f.cells x).map fun v => ⟨pc + 1, v :: operands, f :: frames, input, output⟩ := by
  rw [runFor_one, step_of h]
  unfold Env.valueIn Env.load Env.value
  cases hkind : env x with
  | none => simp [isValue, Env.sortOf, hkind] at hx
  | some kind =>
    cases kind with
    | const v => rfl
    | var a => rfl
    | proc a => simp [isValue, Env.sortOf, hkind, SymbolKind.sort] at hx

private theorem runFor_sign {sign : Option AddOp} {pc : Nat} {operands : List Int} {a : Int}
    (hp : Placed program pc (signCode sign)) :
    runFor ops program (signCode sign).length ⟨pc, a :: operands, frames, input, output⟩ =
      some ⟨pc + (signCode sign).length, applySign ops sign a :: operands, frames, input, output⟩ := by
  rcases sign with _ | (_ | _)
  · rfl
  · rfl
  · exact runFor_unary rfl hp.head

mutual

theorem Expression.runFor_code : ∀ (e : Expression), e.scoped env.sortOf → ∀ (operands : List Int) {pc : Nat},
    Placed program pc (e.code env) →
    runFor ops program e.size ⟨pc, operands, f :: frames, input, output⟩ =
      (e.eval ops (env.valueIn f.cells)).map fun v => ⟨pc + e.size, v :: operands, f :: frames, input, output⟩
  | .mk sign first rest, h, operands, pc, hp => by
    simp only [Expression.scoped, Bool.and_eq_true] at h
    have hp₁ := hp.right (Term.length_code _)
    rw [Expression.size, Nat.add_assoc, Expression.eval, Option.map_bind]
    refine runFor_then (first.runFor_code h.1 operands hp.left) fun a => ?_
    rw [runFor_add, runFor_sign hp₁.left, Option.bind_some, rest.runFor_code h.2 operands (hp₁.right rfl)]
    simp only [Function.comp_def, Nat.add_assoc]

theorem TermTail.runFor_code : ∀ (l : TermTail), l.scoped env.sortOf → ∀ (operands : List Int) {pc : Nat} {a : Int},
    Placed program pc (l.code env) →
    runFor ops program l.size ⟨pc, a :: operands, f :: frames, input, output⟩ =
      (l.eval ops (env.valueIn f.cells) a).map fun v => ⟨pc + l.size, v :: operands, f :: frames, input, output⟩
  | .nil, _, operands, pc, a, _ => rfl
  | .cons op term rest, h, operands, pc, a, hp => by
    simp only [TermTail.scoped, Bool.and_eq_true] at h
    have hp₁ := hp.right (Term.length_code _)
    rw [TermTail.size, Nat.add_assoc, TermTail.eval, Option.map_bind]
    refine runFor_then (term.runFor_code h.1 (a :: operands) hp.left) fun b => ?_
    rw [runFor_add, runFor_binary op.binary?_opcode hp₁.head, Option.map_some, Option.bind_some,
      rest.runFor_code h.2 operands hp₁.tail]
    simp only [Function.comp_def, Nat.add_assoc]

theorem Term.runFor_code : ∀ (t : Term), t.scoped env.sortOf → ∀ (operands : List Int) {pc : Nat},
    Placed program pc (t.code env) →
    runFor ops program t.size ⟨pc, operands, f :: frames, input, output⟩ =
      (t.eval ops (env.valueIn f.cells)).map fun v => ⟨pc + t.size, v :: operands, f :: frames, input, output⟩
  | .mk first rest, h, operands, pc, hp => by
    simp only [Term.scoped, Bool.and_eq_true] at h
    rw [Term.size, Term.eval, Option.map_bind]
    refine runFor_then (first.runFor_code h.1 operands hp.left) fun a => ?_
    rw [rest.runFor_code h.2 operands (hp.right (Factor.length_code _))]
    simp only [Function.comp_def, Nat.add_assoc]

theorem FactorTail.runFor_code : ∀ (l : FactorTail), l.scoped env.sortOf → ∀ (operands : List Int) {pc : Nat} {a : Int},
    Placed program pc (l.code env) →
    runFor ops program l.size ⟨pc, a :: operands, f :: frames, input, output⟩ =
      (l.eval ops (env.valueIn f.cells) a).map fun v => ⟨pc + l.size, v :: operands, f :: frames, input, output⟩
  | .nil, _, operands, pc, a, _ => rfl
  | .cons op factor rest, h, operands, pc, a, hp => by
    simp only [FactorTail.scoped, Bool.and_eq_true] at h
    have hp₁ := hp.right (Factor.length_code _)
    rw [FactorTail.size, Nat.add_assoc, FactorTail.eval, Option.map_bind]
    refine runFor_then (factor.runFor_code h.1 (a :: operands) hp.left) fun b => ?_
    rw [Function.comp_apply, Option.map_bind]
    refine runFor_then (runFor_binary op.binary?_opcode hp₁.head) fun c => ?_
    rw [Function.comp_apply, rest.runFor_code h.2 operands hp₁.tail]
    simp only [Nat.add_assoc]

theorem Factor.runFor_code : ∀ (g : Factor), g.scoped env.sortOf → ∀ (operands : List Int) {pc : Nat},
    Placed program pc (g.code env) →
    runFor ops program g.size ⟨pc, operands, f :: frames, input, output⟩ =
      (g.eval ops (env.valueIn f.cells)).map fun v => ⟨pc + g.size, v :: operands, f :: frames, input, output⟩
  | .name _, h, operands, _, hp => Env.runFor_load h operands hp.head
  | .number _, _, _, _, hp => runFor_lit hp.head
  | .paren inner, h, operands, _, hp => inner.runFor_code h operands hp

end

theorem Condition.runFor_code (k : Condition) (h : k.scoped env.sortOf) (operands : List Int) {pc : Nat}
    (hp : Placed program pc (k.code env)) :
    runFor ops program k.size ⟨pc, operands, f :: frames, input, output⟩ =
      (k.eval ops (env.valueIn f.cells)).map fun holds =>
        ⟨pc + k.size, truth holds :: operands, f :: frames, input, output⟩ := by
  cases k with
  | odd e =>
    have hp₁ := hp.right (Expression.length_code _)
    rw [Condition.size, Condition.eval, Option.map_map, Option.map_eq_bind]
    refine runFor_then (e.runFor_code h operands hp.left) fun a => ?_
    rw [runFor_unary rfl hp₁.head]
    simp [Nat.add_assoc]
  | compare left op right =>
    simp only [Condition.scoped, Bool.and_eq_true] at h
    have hp₁ := hp.right (Expression.length_code _)
    have hp₂ := hp₁.right (Expression.length_code _)
    rw [Condition.size, Nat.add_assoc, Condition.eval, Option.map_bind]
    refine runFor_then (left.runFor_code h.1 operands hp.left) fun a => ?_
    rw [Function.comp_apply, Option.map_map, Option.map_eq_bind]
    refine runFor_then (right.runFor_code h.2 (a :: operands) hp₁.left) fun b => ?_
    rw [runFor_binary op.binary?_opcode hp₂.head]
    simp [Nat.add_assoc]

end

/-! ### Productions -/

/-- What the names stand for that the current scope itself declares. -/
def Context.env (c : Context) : Env :=
  fun x => (c.own x).map (·.kind)

theorem Context.Reachable.sees {tokens : List Token} {capacity : Nat} {c : Context}
    (h : c.Reachable tokens capacity) (stream : TokenStream) : (c.withTokens stream).Sees c.env :=
  ⟨fun _ => rfl, fun _ _ hs => h.wellNested.level_eq hs⟩

/-- The code, wherever it stands, run from its first to its last instruction with the innermost frame `f`, pushes the
result; it gets stuck if there is none, and there is none if and only if one of the divisions fails. -/
def Machine.Calculates (ops : Arithmetic) (f : Frame) (code : List Instruction) (result : Option Int)
    (divisions : List (Int × Int)) : Prop :=
  ∀ (program : List Instruction) (pc : Nat), Placed program pc code →
    ∀ (operands : List Int) (frames : List Frame) (input output : List Int),
      runFor ops program code.length ⟨pc, operands, f :: frames, input, output⟩ =
        result.map (fun v => ⟨pc + code.length, v :: operands, f :: frames, input, output⟩) ∧
      (runFor ops program code.length ⟨pc, operands, f :: frames, input, output⟩ = none ↔ ops.Fails divisions)

theorem Expression.calculates_code {env : Env} (e : Expression) (h : e.scoped env.sortOf) (ops : Arithmetic)
    (f : Frame) : Calculates ops f (e.code env) (e.eval ops (env.valueIn f.cells))
      (e.divisions ops (env.valueIn f.cells)) := by
  intro program pc hp operands frames input output
  have hrun : runFor ops program e.size ⟨pc, operands, f :: frames, input, output⟩ = _ := e.runFor_code h operands hp
  rw [e.length_code, hrun]
  refine ⟨rfl, ?_⟩
  rw [Option.map_eq_none_iff]
  exact e.eval_eq_none_iff (Env.valueIn_ne_none f.cells) h

theorem Condition.calculates_code {env : Env} (k : Condition) (h : k.scoped env.sortOf) (ops : Arithmetic)
    (f : Frame) : Calculates ops f (k.code env) ((k.eval ops (env.valueIn f.cells)).map fun holds : Bool => truth holds)
      (k.divisions ops (env.valueIn f.cells)) := by
  intro program pc hp operands frames input output
  have hrun : runFor ops program k.size ⟨pc, operands, f :: frames, input, output⟩ = _ := k.runFor_code h operands hp
  rw [k.length_code, hrun]
  refine ⟨by rw [Option.map_map]; rfl, ?_⟩
  rw [Option.map_eq_none_iff]
  exact k.eval_eq_none_iff (Env.valueIn_ne_none f.cells) h

theorem Expression.eq_of_tokens {e e' : Expression} (h : e.tokens = e'.tokens) : e = e' :=
  (e.unique e' (congrArg (· ++ []) h) ⟨rfl, rfl⟩ ⟨rfl, rfl⟩).1

theorem Condition.eq_of_tokens {k k' : Condition} (h : k.tokens = k'.tokens) : k = k' :=
  (k.unique k' (congrArg (· ++ []) h) ⟨rfl, rfl⟩ ⟨rfl, rfl⟩).1

/-- Where an expression or a condition is accepted, in a state of a compilation and whatever tokens are left, the tokens
that it has read are those of exactly one tree, and the appended code calculates the value of this tree: the value of an
expression, 1 or 0 for a condition.  Constants have their declared values, variables are read at their declared
addresses. -/
theorem accepted_calculates {tokens : List Token} {capacity : Nat} {c : Context} (hc : c.Reachable tokens capacity)
    (stream : TokenStream) (n : Nat) (c' : Context) :
    (Gen.expression n (c.withTokens stream) = .ok () c' → ∃ e : Expression, ∃ code : List Instruction,
      stream.rest = e.tokens ++ c'.tokens.rest ∧ (∀ e' : Expression, e'.tokens = e.tokens → e' = e) ∧
      c'.buffer.code.toList = c.buffer.code.toList ++ code ∧
      ∀ ops f, Calculates ops f code (e.eval ops (c.env.valueIn f.cells)) (e.divisions ops (c.env.valueIn f.cells))) ∧
    (Gen.condition n (c.withTokens stream) = .ok () c' → ∃ k : Condition, ∃ code : List Instruction,
      stream.rest = k.tokens ++ c'.tokens.rest ∧ (∀ k' : Condition, k'.tokens = k.tokens → k' = k) ∧
      c'.buffer.code.toList = c.buffer.code.toList ++ code ∧
      ∀ ops f, Calculates ops f code ((k.eval ops (c.env.valueIn f.cells)).map fun holds : Bool => truth holds)
        (k.divisions ops (c.env.valueIn f.cells))) := by
  constructor
  · intro h
    obtain ⟨_, _, ⟨e, he, rfl, rfl⟩, hext⟩ := Gen.wp_of_ok (Gen.expression_accepted n _ (hc.sees stream)) h
    exact ⟨e, e.code c.env, hext.rest, fun e' => Expression.eq_of_tokens, hext.code, e.calculates_code he⟩
  · intro h
    obtain ⟨_, _, ⟨k, hk, rfl, rfl⟩, hext⟩ := Gen.wp_of_ok (Gen.condition_accepted n _ (hc.sees stream)) h
    exact ⟨k, k.code c.env, hext.rest, fun k' => Condition.eq_of_tokens, hext.code, k.calculates_code hk⟩

/-- The expression `-x + 7 / x`, for a variable that is 2 and for one that is 0. -/
theorem accepted_calculates_quotient : ∃ c', Gen.expression 7 (((Context.start [] 10).declared "x" (.var 0)).withTokens
      ⟨[.minus, .ident "x", .plus, .number 7, .slash, .ident "x", .semicolon], 0⟩) = .ok () c' ∧
    ∀ program, program = c'.buffer.code.toList → ∀ ops : Arithmetic,
      ops = ⟨fun a => -a, (· + ·), (· - ·), (· * ·), fun a b => if b = 0 then none else some (a.tdiv b)⟩ →
      runFor ops program 6 ⟨0, [9], [⟨fun _ => 2, 0, 0, 0⟩], [], []⟩ =
        some ⟨6, [1, 9], [⟨fun _ => 2, 0, 0, 0⟩], [], []⟩ ∧
      runFor ops program 6 ⟨0, [9], [⟨fun _ => 0, 0, 0, 0⟩], [], []⟩ = none := by
  let tree : Expression := .mk (some .minus) (.mk (.name "x") .nil)
    (.cons .plus (.mk (.number 7) (.cons .slash (.name "x") .nil)) .nil)
  have hc : Context.Reachable [] 10 ((Context.start [] 10).declared "x" (.var 0)) := .declared "x" (.var 0) .start
  have hrun : (match Gen.expression 7 (((Context.start [] 10).declared "x" (.var 0)).withTokens
        ⟨[.minus, .ident "x", .plus, .number 7, .slash, .ident "x", .semicolon], 0⟩) with
      | .ok _ c' => decide (c'.tokens.rest = [.semicolon] ∧ c'.buffer.code.toList.length = 6)
      | .error _ _ => false) = true := by
    decide +kernel
  obtain ⟨c', hc', hleft, hlength⟩ : ∃ c', Gen.expression 7 (((Context.start [] 10).declared "x" (.var 0)).withTokens
      ⟨[.minus, .ident "x", .plus, .number 7, .slash, .ident "x", .semicolon], 0⟩) = .ok () c' ∧
      c'.tokens.rest = [.semicolon] ∧ c'.buffer.code.toList.length = 6 := by
    split at hrun
    · rename_i c' hc'
      exact ⟨c', hc', of_decide_eq_true hrun⟩
    · cases hrun
  obtain ⟨e, code, hrest, hunique, hcode, hcalculates⟩ := (accepted_calculates hc _ 7 c').1 hc'
  have htree : tree.tokens = e.tokens := by
    rw [hleft] at hrest
    exact List.append_cancel_right hrest
  obtain rfl := hunique tree htree
  refine ⟨c', hc', ?_⟩
  rintro program rfl ops rfl
  have hprogram : c'.buffer.code.toList = code := hcode
  rw [hprogram] at hlength ⊢
  have hplaced : Placed code 0 code := ⟨[], [], by simp, rfl⟩
  have hresult := fun ops f => hcalculates ops f code 0 hplaced [9] [] [] []
  rw [hlength] at hresult
  constructor
  · exact (hresult _ _).1
  · exact (hresult _ _).2.2 ⟨7, 0, List.Mem.head [], rfl⟩

end PL0
