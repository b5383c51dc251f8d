import PL0.Proofs.Syntax.ElseBinding
import PL0.Proofs.Emission.Program
import PL0.Proofs.Capacity

/-!
# The language of the compiler

The token sequences that are compiled are those that begin with a sentence of a scoped block and a period
(`compile_ok_iff_derivable`), and what they are compiled to is the translation of their syntax tree
(`compile_eq_translation`).  Both follow from two facts.  A compilation that succeeds has read a tree
(`exists_tree_of_ok`), and what a compilation does on a token sequence with a tree is known (`Gen.wholeProgram_ends`).
-/

namespace PL0

variable {tokens : List Token} {capacity : Nat}

theorem exists_tree_of_ok {compiled : CompiledProgram} (h : (compile tokens capacity).outcome = .ok compiled) :
    ∃ b : Block, b.IsTreeOf tokens := by
  have hwp : Gen.wp (Gen.wholeProgram tokens.length) (.start tokens capacity)
      (fun _ _ => ∃ b : Block, b.IsTreeOf tokens) (fun _ _ => True) := by
    rw [Gen.wp_wholeProgram]
    exact (Gen.program_reads _ _).part fun c' hb => ⟨fun _ => hb, fun _ => trivial⟩
  exact (Gen.outcome_of_wp hwp).1 compiled h

/-- What a compilation does on a token sequence with a syntax tree. -/
theorem translates_of_ok {b : Block} {compiled : CompiledProgram} (hb : b.IsTreeOf tokens)
    (h : (compile tokens capacity).outcome = .ok compiled) :
    b.scoped ∧ compiled.Translates b ∧ b.program.length ≤ capacity :=
  (Gen.outcome_of_wp (Gen.wholeProgram_ends hb capacity)).1 compiled h

/-- A compilation succeeds if the names are used rightly and the code fits. -/
theorem ok_of_scoped {b : Block} (hb : b.IsTreeOf tokens) (hscoped : b.scoped)
    (hroom : ¬(compile tokens capacity).OutOfRoom) : ∃ compiled, (compile tokens capacity).outcome = .ok compiled := by
  have hstop := (Gen.outcome_of_wp (Gen.wholeProgram_ends hb capacity)).2
  cases h : (compile tokens capacity).outcome with
  | ok compiled => exact ⟨compiled, rfl⟩
  | error stop =>
    have hrefused := hstop stop h
    cases stop with
    | rejected e => exact absurd hscoped hrefused.2
    | fault f =>
      obtain ⟨capacity', rfl⟩ := hrefused
      exact absurd ⟨capacity', h⟩ hroom

/-! ### The accepted token sequences -/

/-- A capacity of three more than the number of tokens is never reached.  As long as the capacity is not reached, a
token sequence is compiled exactly if it begins with a sentence of a block and a period such that the names in this
derivation of the block are used rightly; whichever `if` its `else` belong to. -/
theorem compile_ok_iff_derivable (tokens : List Token) (capacity : Nat) :
    (tokens.length + 3 ≤ capacity → ¬(compile tokens capacity).OutOfRoom) ∧
    (¬(compile tokens capacity).OutOfRoom →
      ((∃ compiled, (compile tokens capacity).outcome = .ok compiled) ↔
        ∃ w rest, tokens = w ++ .period :: rest ∧ ∃ b : Block, b.tokens = w ∧ b.scoped)) := by
  refine ⟨not_outOfRoom, fun hroom => ⟨?_, ?_⟩⟩
  · rintro ⟨compiled, hok⟩
    obtain ⟨b, hb⟩ := exists_tree_of_ok hok
    obtain ⟨rest, hrest⟩ := hb.2
    exact ⟨b.tokens, rest, hrest, b, rfl, (translates_of_ok hb hok).1⟩
  · rintro ⟨w, rest, htokens, b, hw, hscoped⟩
    -- a derivation with other `else` than the nearest ones has the same tokens and uses the same names
    have htree : b.rebind.IsTreeOf tokens :=
      ⟨elseBound_rebindBlock b, rest, by rw [tokens_rebindBlock, hw, htokens]⟩
    exact ok_of_scoped htree (by rwa [scoped_rebindBlock]) hroom

/-- Here the `else` is derived with the outer `if`, and tokens come after the period. -/
theorem compile_ok_outer_else :
    ∃ compiled, (compile [.varSym, .ident "x", .semicolon, .ifSym, .oddSym, .ident "x", .thenSym, .ifSym, .oddSym,
      .number 1, .thenSym, .readSym, .ident "x", .elseSym, .writeSym, .ident "x", .period, .comma] 21).outcome =
        .ok compiled := by
  obtain ⟨hroom, hiff⟩ := compile_ok_iff_derivable [.varSym, .ident "x", .semicolon, .ifSym, .oddSym, .ident "x",
    .thenSym, .ifSym, .oddSym, .number 1, .thenSym, .readSym, .ident "x", .elseSym, .writeSym, .ident "x", .period,
    .comma] 21
  let b : Block := .mk [] ["x"] .nil (.ifElse (.odd (.mk none (.mk (.name "x") .nil) .nil))
    (.ifThen (.odd (.mk none (.mk (.number 1) .nil) .nil)) (.read "x")) (.write "x"))
  exact (hiff (hroom (by decide))).2 ⟨b.tokens, [.comma], rfl, b, rfl, by decide⟩

/-! ### Their programs -/

/-- A token sequence that is compiled has exactly one syntax tree, its program is the translation of this tree, and its
symbols are the declarations in the tree. -/
theorem compile_eq_translation {tokens : List Token} {capacity : Nat} {compiled : CompiledProgram}
    (h : (compile tokens capacity).outcome = .ok compiled) :
    ∃ b : Block, b.IsTreeOf tokens ∧ (∀ b' : Block, b'.IsTreeOf tokens → b' = b) ∧
      compiled.program.instructions.toList = b.code 0 ++ [instruction .halt 3] ∧
      compiled.symbols.symbols.toList = b.symbols 0 0 none 0 ∧ compiled.program.size ≤ capacity := by
  obtain ⟨b, hb⟩ := exists_tree_of_ok h
  obtain ⟨-, htranslates, hfits⟩ := translates_of_ok hb h
  refine ⟨b, hb, fun b' hb' => hb'.unique hb, htranslates.program, htranslates.symbols, ?_⟩
  rw [← htranslates.program] at hfits
  simpa [Program.size] using hfits

theorem compile_eq_translation_procedure :
    ∃ compiled, (compile [.varSym, .ident "x", .semicolon, .procSym, .ident "p", .semicolon, .semicolon, .ifSym,
      .oddSym, .ident "x", .thenSym, .callSym, .ident "p", .elseSym, .readSym, .ident "x", .period] 20).outcome =
        .ok compiled ∧
      compiled.program.instructions.toList = [⟨.jmp, 0, 0, 5⟩, ⟨.inc, 0, 0, 1⟩, ⟨.jmp, 0, 0, 3⟩, ⟨.inc, 0, 0, 4⟩,
        ⟨.rtn, 0, 0, 0⟩, ⟨.inc, 0, 0, 4⟩, ⟨.lod, 0, 0, 1⟩, ⟨.odd, 0, 0, 0⟩, ⟨.jpc, 0, 0, 11⟩, ⟨.cal, 0, 0, 2⟩,
        ⟨.jmp, 0, 0, 13⟩, ⟨.read, 0, 0, 0⟩, ⟨.sto, 0, 0, 1⟩, ⟨.rtn, 0, 0, 0⟩, ⟨.halt, 0, 0, 3⟩] ∧
      compiled.symbols.symbols.toList = [⟨"x", .var 1, 0, none⟩, ⟨"p", .proc 2, 0, none⟩] := by
  let tree : Block := .mk [] ["x"] (.cons "p" (.mk [] [] .nil .empty) .nil)
    (.ifElse (.odd (.mk none (.mk (.name "x") .nil) .nil)) (.call "p") (.read "x"))
  have htree : tree.IsTreeOf [.varSym, .ident "x", .semicolon, .procSym, .ident "p", .semicolon, .semicolon, .ifSym,
      .oddSym, .ident "x", .thenSym, .callSym, .ident "p", .elseSym, .readSym, .ident "x", .period] :=
    ⟨rfl, [], rfl⟩
  obtain ⟨compiled, hok⟩ := ok_of_scoped htree (by decide) (not_outOfRoom (by decide : _ ≤ 20))
  obtain ⟨b, -, hunique, hprogram, hsymbols, -⟩ := compile_eq_translation hok
  obtain rfl := hunique tree htree
  exact ⟨compiled, hok, hprogram.trans (by decide), hsymbols.trans (by decide)⟩

end PL0
