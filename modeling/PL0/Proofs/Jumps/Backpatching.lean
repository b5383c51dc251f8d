import PL0.Proofs.Generator.Run

/-!
# Open jumps are closed once

The log of a compilation has an event for every jump that is opened and for every jump that is closed.  At any time the
opened jumps are the closed ones and those that are still open, without repetition (`Context.Pending`): an open jump is
opened at the end of the code, so its address is new, and only an open jump is closed.
-/

namespace PL0

/-! ### Events -/

def Event.openedJump? : Event → Option Nat
  | .jumpOpened address _ => some address
  | _ => none

def Event.closedJump? : Event → Option Nat
  | .jumpClosed address _ _ => some address
  | _ => none

/-- The addresses of the jumps that were opened, in the order of time. -/
def openedJumps (log : List Event) : List Nat :=
  log.filterMap Event.openedJump?

/-- The addresses of the jumps that were closed, in the order of time. -/
def closedJumps (log : List Event) : List Nat :=
  log.filterMap Event.closedJump?

/-! ### The invariant -/

namespace Context

/-- The jumps `p` are open. -/
structure Pending (p : List Nat) (c : Context) : Prop where
  perm : (openedJumps c.log.toList).Perm (closedJumps c.log.toList ++ p)
  nodup : (openedJumps c.log.toList).Nodup
  below : ∀ a ∈ openedJumps c.log.toList, a < c.buffer.size
  count : c.buffer.openJumps = p.length

variable {p q : List Nat} {c c' : Context}

theorem log_jumpClosed {a : Nat} {ins : Instruction} (h : c.buffer.code[a]? = some ins) :
    (c.jumpClosed a).log.toList = c.log.toList ++ [.jumpClosed a ins.op c.buffer.size] := by
  simp [Context.jumpClosed, CodeBuffer.closeJumpEvents, h]

namespace Pending

theorem start (tokens : List Token) (capacity : Nat) : Pending [] (.start tokens capacity) := by
  refine ⟨.refl _, .nil, ?_, rfl⟩
  intro a ha
  cases ha

theorem closed_nodup (h : Pending p c) : (closedJumps c.log.toList).Nodup :=
  (List.nodup_append.1 (h.perm.nodup_iff.1 h.nodup)).1

theorem opened_of_closed (h : Pending p c) {a : Nat} (ha : a ∈ closedJumps c.log.toList) :
    a ∈ openedJumps c.log.toList :=
  h.perm.mem_iff.2 (List.mem_append_left _ ha)

theorem closed_or_open (h : Pending p c) {a : Nat} (ha : a ∈ openedJumps c.log.toList) :
    a ∈ closedJumps c.log.toList ∨ a ∈ p :=
  List.mem_append.1 (h.perm.mem_iff.1 ha)

theorem below_of_mem (h : Pending p c) {a : Nat} (ha : a ∈ p) : a < c.buffer.size :=
  h.below a (h.perm.mem_iff.2 (List.mem_append_right _ ha))

/-- What is neither the opening nor the closing of a jump. -/
private theorem of_other (h : Pending p c) {e : Event} (hopened : e.openedJump? = none) (hclosed : e.closedJump? = none)
    (hlog : c'.log = c.log.push e) (hsize : c.buffer.size ≤ c'.buffer.size)
    (hcount : c'.buffer.openJumps = c.buffer.openJumps) : Pending p c' := by
  have ho : openedJumps c'.log.toList = openedJumps c.log.toList := by
    simp [openedJumps, hlog, hopened]
  have hc : closedJumps c'.log.toList = closedJumps c.log.toList := by
    simp [closedJumps, hlog, hclosed]
  refine ⟨by rw [ho, hc]; exact h.perm, by rw [ho]; exact h.nodup, ?_, hcount.trans h.count⟩
  intro a ha
  rw [ho] at ha
  have := h.below a ha
  omega

private theorem jumpOpened (h : Pending p c) (op : Opcode) : Pending (c.buffer.size :: p) (c.jumpOpened op) := by
  have ho : openedJumps (c.jumpOpened op).log.toList = openedJumps c.log.toList ++ [c.buffer.size] := by
    simp [openedJumps, Context.jumpOpened, Context.record, Event.openedJump?]
  have hc : closedJumps (c.jumpOpened op).log.toList = closedJumps c.log.toList := by
    simp [closedJumps, Context.jumpOpened, Context.record, Event.closedJump?]
  have hsize : (c.jumpOpened op).buffer.size = c.buffer.size + 1 := Array.size_push _
  refine ⟨?_, ?_, ?_, ?_⟩
  · rw [ho, hc]
    calc openedJumps c.log.toList ++ [c.buffer.size]
      _ |>.Perm (c.buffer.size :: openedJumps c.log.toList) := List.perm_append_singleton _ _
      _ |>.Perm (c.buffer.size :: (closedJumps c.log.toList ++ p)) := h.perm.cons _
      _ |>.Perm (closedJumps c.log.toList ++ c.buffer.size :: p) := List.perm_middle.symm
  -- the new address is the end of the code, where no earlier jump can be
  · rw [ho, List.nodup_append]
    refine ⟨h.nodup, by simp, ?_⟩
    intro a ha b hb
    have := h.below a ha
    rw [List.mem_singleton] at hb
    omega
  · intro a ha
    rw [ho, List.mem_append, List.mem_singleton] at ha
    rw [hsize]
    rcases ha with ha | rfl
    · have := h.below a ha
      omega
    · omega
  · show c.buffer.openJumps + 1 = p.length + 1
    rw [h.count]

private theorem jumpClosed (h : Pending p c) {a : Nat} (ha : a ∈ p) : Pending (p.erase a) (c.jumpClosed a) := by
  have hlt : a < c.buffer.code.size := h.below_of_mem ha
  have hlog := log_jumpClosed (Array.getElem?_eq_getElem hlt)
  have ho : openedJumps (c.jumpClosed a).log.toList = openedJumps c.log.toList := by
    simp [openedJumps, hlog, Event.openedJump?]
  have hc : closedJumps (c.jumpClosed a).log.toList = closedJumps c.log.toList ++ [a] := by
    simp [closedJumps, hlog, Event.closedJump?]
  have hsize : (c.jumpClosed a).buffer.size = c.buffer.size := CodeBuffer.size_closeJump _ _ _
  refine ⟨?_, by rw [ho]; exact h.nodup, by rw [ho, hsize]; exact h.below, ?_⟩
  · rw [ho, hc, List.append_assoc]
    exact h.perm.trans ((List.perm_cons_erase ha).append_left _)
  · show c.buffer.openJumps - 1 = (p.erase a).length
    rw [h.count, List.length_erase_of_mem ha]

/-- No elementary action can destroy the invariant. -/
theorem step (hstep : Step p c q c') (h : Pending p c) : Pending q c' := by
  cases hstep with
  | advanced => exact ⟨h.perm, h.nodup, h.below, h.count⟩
  | declared name kind => exact h.of_other rfl rfl rfl (Nat.le_refl _) rfl
  | emitted ins _ => exact h.of_other rfl rfl rfl (by simp [Context.emitted, CodeBuffer.size, Context.record]) rfl
  | jumpOpened op _ => exact h.jumpOpened op
  | jumpClosed a ha => exact h.jumpClosed ha
  | overflowed _ => exact h.of_other rfl rfl rfl (Nat.le_refl _) rfl
  | entered name id => exact h.of_other rfl rfl rfl (Nat.le_refl _) rfl
  | left name level scope => exact h.of_other rfl rfl rfl (Nat.le_refl _) rfl

end Pending

end Context

/-! ### Compilations -/

theorem program_pending (tokens : List Token) (capacity : Nat) :
    Gen.wp (Gen.program tokens.length) (.start tokens capacity) (fun _ c => Context.Pending [] c) fun stop c =>
      ((∃ e, stop = .rejected e) ∨ ∃ capacity', stop = .fault (.full capacity')) ∧ ∃ p, Context.Pending p c := by
  refine Gen.wp_mono (Gen.settles_program _ [] _) ?_ ?_
  · intro _ c hrun
    exact hrun.invariant (fun _ _ _ _ => .step) (.start tokens capacity)
  · rintro stop c ⟨hstop, p, hrun⟩
    exact ⟨hstop, p, hrun.invariant (fun _ _ _ _ => .step) (.start tokens capacity)⟩

/-- When the productions succeed no jump is open, so the check at the end finds none. -/
theorem compile_pending (tokens : List Token) (capacity : Nat) :
    (∀ compiled, (compile tokens capacity).outcome = .ok compiled →
      Context.Pending [] (compile tokens capacity).final) ∧
    (∀ stop, (compile tokens capacity).outcome = .error stop →
      ((∃ e, stop = .rejected e) ∨ ∃ capacity', stop = .fault (.full capacity')) ∧
        ∃ p, Context.Pending p (compile tokens capacity).final) := by
  have hwp : Gen.wp (Gen.wholeProgram tokens.length) (.start tokens capacity) (fun _ c => Context.Pending [] c)
      fun stop c => ((∃ e, stop = .rejected e) ∨ ∃ capacity', stop = .fault (.full capacity')) ∧
        ∃ p, Context.Pending p c := by
    rw [Gen.wp_wholeProgram]
    refine Gen.wp_mono (program_pending tokens capacity) ?_ fun _ _ h => h
    intro _ c h
    exact ⟨fun _ => h, fun hne => absurd h.count hne⟩
  exact Gen.outcome_of_wp hwp

end PL0
