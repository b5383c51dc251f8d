import PL0.Proofs.Generator.Scope
import PL0.Proofs.Syntax.Unambiguity

/-!
# What a compilation step reads, emits and declares

`c.Extends c' tokens code symbols opened` describes the way from the state `c` to the state `c'`: `tokens` were read,
`code` was emitted, `symbols` were declared, and `opened` of the emitted jumps are still open; level and scope are the
same.  The relation composes (`Extends.trans`), every elementary action is an instance of it, and closing a jump
replaces one instruction of the emitted code (`Extends.jumpClosed`).

`Gen.Ends g c ok Q` says how a step `g` ends that finds no syntax error: with a result and a state for which `Q` holds
if the names are used rightly (`ok`), and with an error about a name if not; and in both cases it may stop earlier
because the code buffer is full.
-/

namespace PL0

/-- The errors about names, as opposed to those about the syntax. -/
def CompileError.concernsName : CompileError → Bool
  | .undeclared | .notInCurrentScope | .assignToNonVariable | .callOfNonProcedure | .writeProcedure
  | .readIntoNonVariable | .procedureInExpression => true
  | _ => false

theorem Context.concernsName_missing (c : Context) (x : String) : (c.missing x).concernsName := by
  unfold Context.missing
  split <;> rfl

theorem CodeBuffer.isFull_eq_false {buffer : CodeBuffer} :
    buffer.isFull = false ↔ buffer.size ≠ buffer.capacity := by
  simp [CodeBuffer.isFull]

private theorem modify_length {α : Type} (f : α → α) (l r : List α) (a : α) :
    (l ++ a :: r).modify l.length f = l ++ f a :: r := by
  induction l with
  | nil => rfl
  | cons b l ih => simp [ih]

/-! ### Extensions of a state -/

structure Context.Extends (c c' : Context) (tokens : List Token) (code : List Instruction) (symbols : List Symbol)
    (opened : Nat) : Prop where
  rest : c.tokens.rest = tokens ++ c'.tokens.rest
  position : c'.tokens.position = c.tokens.position + tokens.length
  code : c'.buffer.code.toList = c.buffer.code.toList ++ code
  openJumps : c'.buffer.openJumps = c.buffer.openJumps + opened
  capacity : c'.buffer.capacity = c.buffer.capacity
  fits : c.buffer.size ≤ c.buffer.capacity → c'.buffer.size ≤ c'.buffer.capacity
  symbols : c'.symbols.symbols.toList = c.symbols.symbols.toList ++ symbols
  level : c'.level = c.level
  scope : c'.scope = c.scope

namespace Context.Extends

variable {c c' c'' : Context} {tokens tokens' : List Token} {code code' : List Instruction}
  {symbols symbols' : List Symbol} {opened opened' : Nat}

theorem refl (c : Context) : c.Extends c [] [] [] 0 := by
  constructor <;> simp

theorem trans (h : c.Extends c' tokens code symbols opened) (h' : c'.Extends c'' tokens' code' symbols' opened') :
    c.Extends c'' (tokens ++ tokens') (code ++ code') (symbols ++ symbols') (opened + opened') where
  rest := by rw [h.rest, h'.rest, List.append_assoc]
  position := by rw [h'.position, h.position, List.length_append]; omega
  code := by rw [h'.code, h.code, List.append_assoc]
  openJumps := by rw [h'.openJumps, h.openJumps]; omega
  capacity := h'.capacity.trans h.capacity
  fits := fun hc => h'.fits (h.fits hc)
  symbols := by rw [h'.symbols, h.symbols, List.append_assoc]
  level := h'.level.trans h.level
  scope := h'.scope.trans h.scope

theorem size (h : c.Extends c' tokens code symbols opened) : c'.buffer.size = c.buffer.size + code.length := by
  have := congrArg List.length h.code
  simpa [CodeBuffer.size] using this

theorem symbols_size (h : c.Extends c' tokens code symbols opened) :
    c'.symbols.size = c.symbols.size + symbols.length := by
  have := congrArg List.length h.symbols
  simpa [SymbolTable.size] using this

theorem length_rest (h : c.Extends c' tokens code symbols opened) :
    c.tokens.rest.length = tokens.length + c'.tokens.rest.length := by
  rw [h.rest, List.length_append]

/-- What is left is what is left of the tokens after those that were read. -/
theorem rest_eq {rest : List Token} (h : c.Extends c' tokens code symbols opened)
    (hc : c.tokens.rest = tokens ++ rest) : c'.tokens.rest = rest :=
  (List.append_cancel_left (hc.symm.trans h.rest)).symm

theorem sees {env : Env} (h : c.Extends c' tokens code [] opened) (hs : c.Sees env) : c'.Sees env := by
  have hsymbols : c'.symbols = c.symbols := by
    have := h.symbols
    rw [List.append_nil] at this
    cases hc : c.symbols
    cases hc' : c'.symbols
    simpa [hc, hc'] using this
  exact hs.congr hsymbols h.level h.scope

/-! ### Elementary actions -/

theorem advanced {t : Token} {rest : List Token} (hc : c.tokens.rest = t :: rest) :
    c.Extends c.advanced [t] [] [] 0 := by
  have hadvance : c.tokens.advance = ⟨rest, c.tokens.position + 1⟩ := by
    simp only [TokenStream.advance, hc]
  constructor <;> simp [Context.advanced, hadvance, hc]

theorem emitted (ins : Instruction) (hc : c.buffer.isFull = false) : c.Extends (c.emitted ins) [] [ins] [] 0 := by
  have hroom := CodeBuffer.isFull_eq_false.1 hc
  unfold CodeBuffer.size at hroom
  constructor <;> simp [Context.emitted, Context.record, CodeBuffer.size]
  omega

theorem declared (c : Context) (name : String) (kind : SymbolKind) :
    c.Extends (c.declared name kind) [] [] [⟨name, kind, c.level, c.scope⟩] 0 := by
  constructor <;> simp [Context.declared, Context.record, SymbolTable.insert]

theorem jumpOpened (op : Opcode) (hc : c.buffer.isFull = false) :
    c.Extends (c.jumpOpened op) [] [⟨op, 0, 0, 0⟩] [] 1 := by
  have hroom := CodeBuffer.isFull_eq_false.1 hc
  unfold CodeBuffer.size at hroom
  constructor <;> simp [Context.jumpOpened, Context.record, CodeBuffer.size]
  omega

/-- Closing a jump points it to the end of the emitted code. -/
theorem jumpClosed {before after : List Instruction} {ins : Instruction} {address : Nat}
    (h : c.Extends c' tokens (before ++ ins :: after) symbols (opened + 1))
    (haddress : address = c.buffer.size + before.length) :
    c.Extends (c'.jumpClosed address) tokens
      (before ++ { ins with m := Int32.ofNat (address + 1 + after.length) } :: after) symbols opened where
  rest := h.rest
  position := h.position
  code := by
    have htarget : c'.buffer.size = address + 1 + after.length := by
      rw [h.size, haddress, List.length_append, List.length_cons]
      omega
    have hpos : address = (c.buffer.code.toList ++ before).length := by
      simp [haddress, CodeBuffer.size]
    simp only [Context.jumpClosed, CodeBuffer.closeJump, Array.toList_modify, h.code, htarget]
    rw [← List.append_assoc, ← List.append_assoc, hpos, modify_length]
  openJumps := by simp [Context.jumpClosed, CodeBuffer.closeJump, h.openJumps]
  capacity := h.capacity
  fits := by
    intro hc
    have := h.fits hc
    rwa [← CodeBuffer.size_closeJump c'.buffer address c'.buffer.size] at this
  symbols := h.symbols
  level := h.level
  scope := h.scope

end Context.Extends

/-! ### Steps without syntax errors -/

namespace Gen

variable {α : Type}

/-- Why a step without syntax errors stops. -/
def Refused (ok : Prop) (stop : Stop) (_ : Context) : Prop :=
  match stop with
  | .rejected e => e.concernsName ∧ ¬ok
  | .fault f => ∃ capacity, f = .full capacity

@[simp] theorem refused_full (ok : Prop) (capacity : Nat) (c : Context) :
    Refused ok (.fault (.full capacity)) c ↔ True :=
  ⟨fun _ => trivial, fun _ => ⟨capacity, rfl⟩⟩

@[simp] theorem refused_rejected (ok : Prop) (e : CompileError) (c : Context) :
    Refused ok (.rejected e) c ↔ e.concernsName ∧ ¬ok := Iff.rfl

def Ends (g : Gen α) (c : Context) (ok : Prop) (Q : α → Context → Prop) : Prop :=
  wp g c (fun a c' => ok ∧ Q a c') (Refused ok)

/-- The first part of a larger step.  `ok` is the condition on all names of the larger step, `ok₁` that on the names in
its first part. -/
theorem Ends.part {g : Gen α} {c : Context} {ok ok₁ : Prop} {Q Q₁ : α → Context → Prop} (h : Ends g c ok₁ Q₁)
    (hok : ok → ok₁) (hQ : ok₁ → ∀ a c', Q₁ a c' → Q a c') : wp g c Q (Refused ok) := by
  refine wp_mono h (fun a c' ha => hQ ha.1 a c' ha.2) ?_
  intro stop c' hstop
  cases stop with
  | rejected e => exact ⟨hstop.1, fun ha => hstop.2 (hok ha)⟩
  | fault f => exact hstop

end Gen

end PL0
