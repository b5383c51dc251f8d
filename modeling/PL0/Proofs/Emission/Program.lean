import PL0.Proofs.Emission.Block

/-!
# The code of programs

The compilation of a token sequence with the syntax tree `b` gives the translation of `b` and all its declarations if
`b` is scoped, and an error about a name if not (`Gen.wholeProgram_ends`); or it stops because the code does not fit.
-/

namespace PL0

/-- A compiled program is the translation of `b`, and its symbols are the declarations in `b`. -/
structure CompiledProgram.Translates (compiled : CompiledProgram) (b : Block) : Prop where
  program : compiled.program.instructions.toList = b.program
  symbols : compiled.symbols.symbols.toList = b.symbols 0 0 none 0

/-- Before the first token nothing has been declared. -/
theorem Context.fresh_start (tokens : List Token) (capacity : Nat) : (Context.start tokens capacity).Fresh := by
  refine ⟨⟨?_, ?_⟩, ?_⟩
  · intro s hs
    cases hs
  · intro j hj
    cases hj
  · intro s hs
    cases hs

namespace Gen

theorem program_ends {b : Block} {tokens : List Token} (h : b.IsTreeOf tokens) (capacity : Nat) :
    Ends (program tokens.length) (.start tokens capacity) b.scoped fun _ c =>
      (Context.start tokens capacity).Extends c (b.tokens ++ [.period]) b.program (b.symbols 0 0 none 0) 0 := by
  obtain ⟨hb, rest, hrest⟩ := h
  have hc : (Context.start tokens capacity).tokens.rest = b.tokens ++ .period :: rest := hrest
  unfold Ends program
  rw [wp_bind]
  refine (block_ends b hc (Nat.le_refl _) hb (.inr rfl) (Context.fresh_start tokens capacity)).part id
    fun hok _ c₁ h₁ => ?_
  have hc₁ := h₁.rest_eq hc
  rw [wp_bind, wp_expect]
  refine ⟨fun _ => ?_, fun hne => absurd (current_of_rest hc₁) hne⟩
  rw [wp_emit]
  refine ⟨fun hroom => ⟨hok, ?_⟩, fun _ => ⟨_, rfl⟩⟩
  have h := h₁.trans ((Context.Extends.advanced hc₁).trans (.emitted ⟨.halt, 0, 0, haltModifier⟩ hroom))
  simp only [List.append_nil] at h
  exact h

/-- What becomes of a token sequence that has a syntax tree. -/
theorem wholeProgram_ends {b : Block} {tokens : List Token} (h : b.IsTreeOf tokens) (capacity : Nat) :
    Ends (wholeProgram tokens.length) (.start tokens capacity) b.scoped fun compiled _ =>
      compiled.Translates b ∧ b.program.length ≤ capacity := by
  unfold Ends
  rw [wp_wholeProgram]
  refine (program_ends h capacity).part id fun hok _ c' h' => ?_
  have hopen : c'.buffer.openJumps = 0 := h'.openJumps
  refine ⟨fun _ => ⟨hok, ⟨h'.code, h'.symbols⟩, ?_⟩, fun hne => absurd hopen hne⟩
  have hfits := h'.fits (Nat.zero_le _)
  rw [h'.size, h'.capacity] at hfits
  simpa [Context.start, CodeBuffer.empty, CodeBuffer.size] using hfits

end Gen

end PL0
