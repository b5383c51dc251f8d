import PL0.Proofs.Generator.Productions
import PL0.Proofs.Language

/-!
# Compilations with different capacities

The capacity of the code buffer is only looked at when an instruction is emitted.  So of two compilations of the same
tokens, one with the capacity `k` and one with a larger capacity, the first one does what the second one does as long as
there are at most `k` instructions, and then it stops (`Narrows`, `Gen.Lockstep`).  A program that fits is compiled
(`compile_ok_of_fits`).
-/

namespace PL0

/-- The state with another capacity. -/
def Context.withCapacity (c : Context) (k : Nat) : Context :=
  { c with buffer := { c.buffer with capacity := k } }

namespace Gen

variable {α β : Type}

/-- How a step ends with the capacity `k`, and how with a larger one. -/
inductive Narrows (k : Nat) : EStateM.Result Stop Context α → EStateM.Result Stop Context α → Prop
  | ok (a : α) (c : Context) : c.buffer.size ≤ k → Narrows k (.ok a c) (.ok a (c.withCapacity k))
  | stopped (stop : Stop) (c : Context) : (∀ m, stop ≠ .fault (.full m)) → c.buffer.size ≤ k →
      Narrows k (.error stop c) (.error stop (c.withCapacity k))
  | passed {r : EStateM.Result Stop Context α} (c : Context) : k < (lastState r).buffer.size → c.buffer.size = k →
      Narrows k r (.error (.fault (.full k)) c)
  | full (m : Nat) (c c' : Context) : c'.buffer.size = k →
      Narrows k (.error (.fault (.full m)) c) (.error (.fault (.full k)) c')

/-- The step does the same with every capacity, until the code buffer is full. -/
structure Lockstep (g : Gen α) : Prop where
  grows : ∀ c, c.buffer.size ≤ (lastState (g c)).buffer.size
  capacity : ∀ c, (lastState (g c)).buffer.capacity = c.buffer.capacity
  narrows : ∀ c k, c.buffer.size ≤ k → k ≤ c.buffer.capacity → Narrows k (g c) (g (c.withCapacity k))

namespace Lockstep

theorem bind {g : Gen α} {f : α → Gen β} (hg : Lockstep g) (hf : ∀ a, Lockstep (f a)) : Lockstep (g >>= f) := by
  refine ⟨fun c => ?_, fun c => ?_, fun c k hsize hk => ?_⟩
  · have h := hg.grows c
    rw [run_bind]
    cases hc : g c with
    | error stop c' =>
      rw [hc] at h
      exact h
    | ok a c' =>
      rw [hc] at h
      exact Nat.le_trans h ((hf a).grows c')
  · have h := hg.capacity c
    rw [run_bind]
    cases hc : g c with
    | error stop c' =>
      rw [hc] at h
      exact h
    | ok a c' =>
      rw [hc] at h
      exact ((hf a).capacity c').trans h
  · have h := hg.narrows c k hsize hk
    have hcapacity := hg.capacity c
    rw [run_bind, run_bind]
    generalize g c = r, g (c.withCapacity k) = r' at h hcapacity
    cases h with
    | ok a c' hle => exact (hf a).narrows c' k hle (by rwa [show c'.buffer.capacity = _ from hcapacity])
    | stopped stop c' hstop hle => exact .stopped stop c' hstop hle
    | full m c' c'' hsize => exact .full m c' c'' hsize
    | passed c' hlt hsize =>
      refine .passed c' ?_ hsize
      cases r with
      | error stop c₁ => exact hlt
      | ok a c₁ => exact Nat.lt_of_lt_of_le hlt ((hf a).grows c₁)

/-- A step that emits nothing. -/
theorem of_silent {g : Gen α} (a : Context → α) (next : Context → Context) (hg : ∀ c, g c = .ok (a c) (next c))
    (hsize : ∀ c, (next c).buffer.size = c.buffer.size)
    (hcapacity : ∀ c, (next c).buffer.capacity = c.buffer.capacity) (ha : ∀ c k, a (c.withCapacity k) = a c)
    (hnext : ∀ c k, next (c.withCapacity k) = (next c).withCapacity k) : Lockstep g := by
  refine ⟨fun c => ?_, fun c => ?_, fun c k hk _ => ?_⟩
  · exact Nat.le_of_eq (by rw [hg, lastState, hsize])
  · rw [hg, lastState, hcapacity]
  · rw [hg, hg, ha, hnext]
    exact .ok _ _ (by rwa [hsize])

/-- A step that emits one instruction. -/
theorem of_emission {g : Gen α} (a : Context → α) (next : Context → Context)
    (hg : ∀ c, c.buffer.isFull = false → g c = .ok (a c) (next c))
    (hfull : ∀ c, c.buffer.isFull = true → g c = .error (.fault (.full c.buffer.capacity)) c.overflowed)
    (hsize : ∀ c, (next c).buffer.size = c.buffer.size + 1)
    (hcapacity : ∀ c, (next c).buffer.capacity = c.buffer.capacity) (ha : ∀ c k, a (c.withCapacity k) = a c)
    (hnext : ∀ c k, next (c.withCapacity k) = (next c).withCapacity k) : Lockstep g := by
  refine ⟨fun c => ?_, fun c => ?_, fun c k hk hle => ?_⟩
  · cases hc : c.buffer.isFull with
    | true =>
      rw [hfull c hc]
      exact Nat.le_refl _
    | false =>
      rw [hg c hc, lastState, hsize]
      omega
  · cases hc : c.buffer.isFull with
    | true =>
      rw [hfull c hc]
      rfl
    | false => rw [hg c hc, lastState, hcapacity]
  · cases hkc : (c.withCapacity k).buffer.isFull with
    | true =>
      have hsizek : c.buffer.size = k := of_decide_eq_true hkc
      rw [hfull _ hkc]
      cases hc : c.buffer.isFull with
      | true =>
        rw [hfull c hc]
        exact .full _ _ _ hsizek
      | false =>
        refine .passed _ ?_ hsizek
        rw [hg c hc, lastState, hsize]
        omega
    | false =>
      have hlt : c.buffer.size < k := by
        have hne : c.buffer.size ≠ k := of_decide_eq_false hkc
        omega
      have hc : c.buffer.isFull = false := by
        simp only [CodeBuffer.isFull, decide_eq_false_iff_not]
        omega
      rw [hg c hc, hg _ hkc, ha, hnext]
      exact .ok _ _ (by rw [hsize]; omega)

/-- A step that leaves the state as it is. -/
theorem of_still {g : Gen α} (h : ∀ c : Context,
    (∃ a, g c = .ok a c ∧ ∀ k, g (c.withCapacity k) = .ok a (c.withCapacity k)) ∨
    ∃ stop, (∀ m, stop ≠ .fault (.full m)) ∧ g c = .error stop c ∧
      ∀ k, g (c.withCapacity k) = .error stop (c.withCapacity k)) : Lockstep g := by
  have hlast : ∀ c, lastState (g c) = c := by
    intro c
    rcases h c with ⟨a, hc, -⟩ | ⟨stop, -, hc, -⟩ <;> rw [hc] <;> rfl
  refine ⟨fun c => Nat.le_of_eq (by rw [hlast]), fun c => by rw [hlast], fun c k hk _ => ?_⟩
  rcases h c with ⟨a, hc, hck⟩ | ⟨stop, hstop, hc, hck⟩
  · rw [hc, hck k]
    exact .ok a c hk
  · rw [hc, hck k]
    exact .stopped stop c hstop hk

theorem reject (e : CompileError) : Lockstep (reject e : Gen α) :=
  of_still fun _ => .inr ⟨.rejected e, by simp, rfl, fun _ => rfl⟩

theorem peek : Lockstep peek :=
  of_still fun _ => .inl ⟨_, rfl, fun _ => rfl⟩

theorem advance : Lockstep advance :=
  of_silent (fun _ => ()) (·.advanced) (fun _ => rfl) (fun _ => rfl) (fun _ => rfl) (fun _ _ => rfl) fun _ _ => rfl

theorem expect (t : Token) (e : CompileError) : Lockstep (expect t e) := by
  refine peek.bind fun u => ?_
  split
  · exact advance
  · exact .reject e

theorem declare (name : String) (kind : SymbolKind) : Lockstep (declare name kind) :=
  of_silent (·.symbols.size) (·.declared name kind) (fun _ => rfl) (fun _ => rfl) (fun _ => rfl) (fun _ _ => rfl)
    fun _ _ => rfl

theorem emit (op : Opcode) (l m : Int32) : Lockstep (emit op l m) :=
  of_emission (fun _ => ()) (·.emitted ⟨op, 0, l, m⟩) (fun c => (run_emit op l m c).1)
    (fun c => (run_emit op l m c).2) (fun _ => Array.size_push _) (fun _ => rfl) (fun _ _ => rfl) fun _ _ => rfl

theorem openJump {op : Opcode} (hop : op.isJump) : Lockstep (openJump op) :=
  of_emission (·.buffer.size) (·.jumpOpened op) (fun c => (run_openJump hop c).1)
    (fun c => (run_openJump hop c).2) (fun _ => Array.size_push _) (fun _ => rfl) (fun _ _ => rfl) fun _ _ => rfl

theorem closeJump (address : Nat) : Lockstep (closeJump address) :=
  of_silent (fun _ => ()) (·.jumpClosed address) (run_closeJump address) (fun _ => CodeBuffer.size_closeJump _ _ _)
    (fun _ => rfl) (fun _ _ => rfl) fun _ _ => rfl

/-- What a name means does not depend on the code. -/
theorem lookUp (x : String) : Lockstep (lookUp x) := by
  refine of_still fun c => ?_
  cases hown : c.own x with
  | some s => exact .inl ⟨_, (run_lookUp x c).1 s hown, fun k => (run_lookUp x (c.withCapacity k)).1 s hown⟩
  | none =>
    exact .inr ⟨_, by simp, (run_lookUp x c).2 hown, fun k => (run_lookUp x (c.withCapacity k)).2 hown⟩

theorem inBody {name : String} {id : Nat} {body : Gen Unit} (h : Lockstep body) : Lockstep (inBody name id body) := by
  refine ⟨fun c => ?_, fun c => ?_, fun c k hk hle => ?_⟩
  · rw [run_inBody, buffer_leaving]
    exact h.grows (c.enter name id)
  · rw [run_inBody, buffer_leaving]
    exact h.capacity (c.enter name id)
  · have hbody := h.narrows (c.enter name id) k hk hle
    rw [run_inBody, run_inBody]
    show Narrows k _ (leaving name c.level c.scope (body ((c.enter name id).withCapacity k)))
    generalize body (c.enter name id) = r, body ((c.enter name id).withCapacity k) = r' at hbody
    cases hbody with
    | ok _ c' hle => exact .ok () (c'.leave name c.level c.scope) hle
    | stopped stop c' hstop hle =>
      cases stop with
      | rejected e => exact .stopped _ (c'.leave name c.level c.scope) hstop hle
      | fault f => exact .stopped _ c' hstop hle
    | passed c' hlt hsize => exact .passed c' (by rwa [buffer_leaving]) hsize
    | full m c' c'' hsize => exact .full m c' c'' hsize

end Lockstep

/-! ### Productions -/

private theorem lockstep_rules : Rules (fun _ _ g _ => Lockstep g) fun _ => True where
  pure _ _ := .of_still fun _ => .inl ⟨_, rfl, fun _ => rfl⟩
  bind := Lockstep.bind
  reject _ _ e := .reject e
  peek _ := .peek
  advance _ := .advance
  nextAddress _ := .of_still fun _ => .inl ⟨_, rfl, fun _ => rfl⟩
  declare _ name kind := .declare name kind
  lookUp x hf := (Lockstep.lookUp x).bind fun b => hf b trivial
  emit _ op m := .emit op 0 m
  emitFor _ op m _ := .emit op _ m
  openJump _ hop := .openJump hop
  closeJump _ := .closeJump _
  body name address e hblock hnext :=
    (Lockstep.declare name (.proc address)).bind fun _ => (Lockstep.expect _ e).bind fun _ =>
      (hblock []).inBody.bind fun _ => hnext

/-- Whether a program is finished does not depend on the capacity. -/
private theorem lockstep_finish : Lockstep finish := by
  refine .of_still fun c => ?_
  simp only [run_finish]
  have hsame : ∀ k, (c.withCapacity k).buffer.toProgram = c.buffer.toProgram := fun _ => rfl
  cases hdone : c.buffer.toProgram with
  | ok program => exact .inl ⟨_, rfl, fun k => by rw [hsame, hdone]; rfl⟩
  | error fault =>
    refine .inr ⟨.fault fault, ?_, rfl, fun k => by rw [hsame, hdone]⟩
    rintro m ⟨⟩
    unfold CodeBuffer.toProgram at hdone
    split at hdone <;> cases hdone

theorem lockstep_wholeProgram (n : Nat) : Lockstep (wholeProgram n) := by
  rw [wholeProgram_eq]
  exact (lockstep_rules.program n []).bind fun _ => lockstep_finish

end Gen

/-! ### Compilations -/

variable {tokens : List Token} {capacity k : Nat}

/-- The instructions of a compiled program are those in the code buffer at the end. -/
theorem size_final_of_ok {compiled : CompiledProgram} (h : (compile tokens capacity).outcome = .ok compiled) :
    (compile tokens capacity).final.buffer.size = compiled.program.size := by
  have hcode : Gen.wp (Gen.wholeProgram tokens.length) (.start tokens capacity)
      (fun compiled c => c.buffer.size = compiled.program.size) fun _ _ => True := by
    rw [Gen.wp_wholeProgram]
    exact Gen.wp_mono (Gen.wp_self _ _) (fun _ _ _ => ⟨fun _ => rfl, fun _ => trivial⟩) fun _ _ _ => trivial
  exact (Gen.outcome_of_wp hcode).1 compiled h

/-- A compilation that ends with at most `k` instructions ends in the same way with the capacity `k`, and one that emits
more is stopped after `k` of them. -/
theorem compile_narrows (hk : k ≤ capacity) (hroom : ¬(compile tokens capacity).OutOfRoom) :
    ((compile tokens capacity).final.buffer.size ≤ k ∧
      (compile tokens k).outcome = (compile tokens capacity).outcome ∧
      (compile tokens k).final.buffer.size = (compile tokens capacity).final.buffer.size) ∨
    (k < (compile tokens capacity).final.buffer.size ∧
      (compile tokens k).outcome = .error (.fault (.full k)) ∧ (compile tokens k).final.buffer.size = k) := by
  have hnarrows := (Gen.lockstep_wholeProgram tokens.length).narrows (.start tokens capacity) k (Nat.zero_le _) hk
  change Gen.Narrows k _ (Gen.wholeProgram tokens.length (.start tokens k)) at hnarrows
  unfold Compilation.OutOfRoom at hroom
  unfold compile at hroom ⊢
  generalize Gen.wholeProgram tokens.length (.start tokens capacity) = r,
    Gen.wholeProgram tokens.length (.start tokens k) = r' at hnarrows hroom ⊢
  cases hnarrows with
  | ok a c hle => exact .inl ⟨hle, rfl, rfl⟩
  | stopped stop c hstop hle => exact .inl ⟨hle, rfl, rfl⟩
  | full m c c' hfull => exact absurd ⟨m, rfl⟩ hroom
  | passed c hlt hfull =>
    right
    cases r with
    | ok a c' => exact ⟨hlt, rfl, hfull⟩
    | error stop c' => exact ⟨hlt, rfl, hfull⟩

theorem not_outOfRoom_of_ok {compiled : CompiledProgram} (h : (compile tokens capacity).outcome = .ok compiled) :
    ¬(compile tokens capacity).OutOfRoom := by
  rintro ⟨m, hfull⟩
  rw [h] at hfull
  cases hfull

theorem compile_ok_of_le {compiled : CompiledProgram} (h : (compile tokens capacity).outcome = .ok compiled)
    (hk : k ≤ capacity) (hsize : compiled.program.size ≤ k) : (compile tokens k).outcome = .ok compiled := by
  have hlast := size_final_of_ok h
  rcases compile_narrows hk (not_outOfRoom_of_ok h) with ⟨-, hsame, -⟩ | ⟨hlt, -, -⟩
  · rw [hsame, h]
  · omega

/-- A program that fits is compiled. -/
theorem compile_ok_of_fits {b : Block} (hb : b.IsTreeOf tokens) (hscoped : b.scoped)
    (hfits : b.program.length ≤ capacity) : ∃ compiled, (compile tokens capacity).outcome = .ok compiled := by
  obtain ⟨compiled, hok⟩ := ok_of_scoped hb hscoped (not_outOfRoom (Nat.le_add_left (tokens.length + 3) capacity))
  have hprogram := (translates_of_ok hb hok).2.1.program
  have hsize : compiled.program.size = b.program.length := by
    rw [← hprogram]
    simp [Program.size]
  exact ⟨compiled, compile_ok_of_le hok (Nat.le_add_right _ _) (by omega)⟩

end PL0
