import PL0.Run
import PL0.Proofs.Files
import PL0.Proofs.Threshold
import PL0.Proofs.Rendering.Programs

/-!
# What a run leaves behind

A run reads one file, compiles it, and writes the program to the output file or to the standard output.  `FailsWith`
lists the points at which this can fail.  A run that fails leaves the files alone and prints nothing (`FailsWith.run`),
since the output is opened last.  A run fails unless its input is compiled and its output can be opened
(`compiles_of_not_failsWith`, `Compiles.not_failsWith`).
-/

namespace PL0

/-- The tokens of a text in the form that the options name. -/
def Options.tokens (options : Options) (text : String) : Except LoadError (List Token) :=
  (if options.lexemes then loadLexemes text else loadSource text).tokens

section

variable (options : Options) (tree : FileTree)

/-- The verbosity is in order, and the input is a text. -/
def ReadsText (text : String) : Prop :=
  ∃ limit content, Severity.ofVerbosity? options.verbosity = some limit ∧ tree.read options.input = .ok content ∧
    String.fromUTF8? content = some text

/-- The input is the text of a program, which is compiled. -/
def Compiles (compiled : CompiledProgram) : Prop :=
  ∃ text tokens, ReadsText options tree text ∧ options.tokens text = .ok tokens ∧
    (compile tokens options.capacity).outcome = .ok compiled

/-- The points at which a run fails, with its exit status. -/
inductive FailsWith : (status : Nat) → Prop
  | verbosity : Severity.ofVerbosity? options.verbosity = none → FailsWith 1
  | reading {limit : Severity} {fault : FileFault} : Severity.ofVerbosity? options.verbosity = some limit →
      tree.read options.input = .error fault → FailsWith 1
  | notText {limit : Severity} {content : ByteArray} : Severity.ofVerbosity? options.verbosity = some limit →
      tree.read options.input = .ok content → String.fromUTF8? content = none → FailsWith 1
  | loading {text : String} {e : LoadError} : ReadsText options tree text → options.tokens text = .error e →
      FailsWith 1
  | generating {text : String} {tokens : List Token} {e : CompileError} : ReadsText options tree text →
      options.tokens text = .ok tokens → (compile tokens options.capacity).outcome = .error (.rejected e) →
      FailsWith e.code
  | full {text : String} {tokens : List Token} : ReadsText options tree text → options.tokens text = .ok tokens →
      (compile tokens options.capacity).outcome = .error (.fault (.full options.capacity)) → FailsWith 101
  | creating {compiled : CompiledProgram} {path : String} {fault : FileFault} : Compiles options tree compiled →
      options.output = some path → tree.target path = .error fault → FailsWith 1

end

/-! ### Runs on a tree of files -/

section

variable {options : Options} {tree : FileTree}

theorem run_read_bind {α : Type} (path : String) (f : Except FileFault ByteArray → StateM FileTree α) :
    (FileAccess.read path >>= f).run tree = (f (tree.read path)).run tree :=
  rfl

theorem run_write_bind {α : Type} (path : String) (content : ByteArray)
    (f : Except FileFault Unit → StateM FileTree α) :
    (FileAccess.write path content >>= f).run tree =
      match tree.target path with
      | .error fault => (f (.error fault)).run tree
      | .ok location => (f (.ok ())).run (tree.insert location content) := by
  simp only [FileAccess.write, StateT.run_bind, StateT.run_get, pure_bind]
  cases tree.target path <;> rfl

section

variable {print : Json → String} {limit : Severity} {content : ByteArray} {log : List Event}
  {compiled : CompiledProgram} (hlimit : Severity.ofVerbosity? options.verbosity = some limit)
  (hread : tree.read options.input = .ok content)

include hlimit hread

theorem run_of_error {failure : Failure} (hresult : compileContent options content = (log, .error failure)) :
    (run print options : StateM FileTree Report).run tree =
      (failure.report limit (.verbositySet limit :: log), tree) := by
  simp only [run, hlimit, run_read_bind, hread, hresult]
  rfl

/-- The program goes to the standard output. -/
theorem run_of_stdout (hresult : compileContent options content = (log, .ok compiled))
    (houtput : options.output = none) :
    ∃ stderr, (run print options : StateM FileTree Report).run tree =
      (⟨0, compiled.program.render print options.format, stderr⟩, tree) := by
  simp only [run, hlimit, run_read_bind, hread, hresult, houtput]
  exact ⟨_, rfl⟩

/-- The program goes to a file. -/
theorem run_of_file (hresult : compileContent options content = (log, .ok compiled)) {path : String}
    (houtput : options.output = some path) {location : Location} (htarget : tree.target path = .ok location) :
    ∃ stderr, (run print options : StateM FileTree Report).run tree =
      (⟨0, "", stderr⟩, tree.insert location (compiled.program.render print options.format).toUTF8) := by
  simp only [run, hlimit, run_read_bind, hread, hresult, houtput, run_write_bind, htarget]
  exact ⟨_, rfl⟩

theorem run_of_uncreated (hresult : compileContent options content = (log, .ok compiled)) {path : String}
    (houtput : options.output = some path) {fault : FileFault} (htarget : tree.target path = .error fault) :
    ∃ stderr, (run print options : StateM FileTree Report).run tree = (⟨1, "", stderr⟩, tree) := by
  simp only [run, hlimit, run_read_bind, hread, hresult, houtput, run_write_bind, htarget]
  exact ⟨_, rfl⟩

end

/-! ### The work between reading and writing -/

/-- A compilation ends with a program, with an error, or with a full buffer. -/
theorem compile_ends (tokens : List Token) (capacity : Nat) :
    (∃ compiled, (compile tokens capacity).outcome = .ok compiled) ∨
      (∃ e, (compile tokens capacity).outcome = .error (.rejected e)) ∨
      (compile tokens capacity).outcome = .error (.fault (.full capacity)) := by
  rcases compile_cases tokens capacity with ⟨-, houtcome, -⟩ | ⟨-, hfull, -⟩
  · rw [houtcome]
    rcases ok_or_rejected (not_outOfRoom (Nat.le_refl (tokens.length + 3))) with hok | hrejected
    · exact .inl hok
    · exact .inr (.inl hrejected)
  · exact .inr (.inr hfull)

section

variable {content : ByteArray} {text : String} (htext : String.fromUTF8? content = some text)

include htext

theorem compileContent_of_unloaded {e : LoadError} (h : options.tokens text = .error e) :
    ∃ log, compileContent options content = (log, .error (.loading options.input e)) := by
  unfold Options.tokens at h
  simp only [compileContent, htext, h]
  exact ⟨_, rfl⟩

theorem compileContent_of_tokens {tokens : List Token} (h : options.tokens text = .ok tokens) :
    ∃ log, compileContent options content = (log,
      match (compile tokens options.capacity).outcome with
      | .error (.rejected e) => .error (.generating options.input e)
      | .error (.fault f) => .error (.fault f)
      | .ok compiled => .ok compiled) := by
  unfold Options.tokens at h
  simp only [compileContent, htext, h]
  rcases (compile tokens options.capacity).outcome with (e | f) | compiled <;> exact ⟨_, rfl⟩

end

/-! ### Failure and success -/

theorem FailsWith.run {status : Nat} (h : FailsWith options tree status) (print : Json → String) :
    ∃ stderr, (PL0.run print options : StateM FileTree Report).run tree = (⟨status, "", stderr⟩, tree) := by
  cases h with
  | verbosity hnone =>
    simp only [PL0.run, hnone]
    exact ⟨_, rfl⟩
  | reading hlimit hread =>
    simp only [PL0.run, hlimit, run_read_bind, hread]
    exact ⟨_, rfl⟩
  | @notText limit content hlimit hread hnone =>
    have hresult : compileContent options content = ([], .error (.notText options.input)) := by
      simp only [compileContent, hnone]
    exact ⟨_, run_of_error hlimit hread hresult⟩
  | loading htext htokens =>
    obtain ⟨limit, content, hlimit, hread, htext⟩ := htext
    obtain ⟨log, hresult⟩ := compileContent_of_unloaded htext htokens
    exact ⟨_, run_of_error hlimit hread hresult⟩
  | generating htext htokens houtcome =>
    obtain ⟨limit, content, hlimit, hread, htext⟩ := htext
    obtain ⟨log, hresult⟩ := compileContent_of_tokens htext htokens
    rw [houtcome] at hresult
    exact ⟨_, run_of_error hlimit hread hresult⟩
  | full htext htokens houtcome =>
    obtain ⟨limit, content, hlimit, hread, htext⟩ := htext
    obtain ⟨log, hresult⟩ := compileContent_of_tokens htext htokens
    rw [houtcome] at hresult
    exact ⟨_, run_of_error hlimit hread hresult⟩
  | creating hcompiles houtput htarget =>
    obtain ⟨text, tokens, ⟨limit, content, hlimit, hread, htext⟩, htokens, houtcome⟩ := hcompiles
    obtain ⟨log, hresult⟩ := compileContent_of_tokens htext htokens
    rw [houtcome] at hresult
    exact run_of_uncreated hlimit hread hresult houtput htarget

/-- A run that does not fail has compiled its input and can write its output. -/
theorem compiles_of_not_failsWith (h : ∀ status, ¬FailsWith options tree status) :
    ∃ compiled, Compiles options tree compiled ∧
      ∀ path, options.output = some path → ∃ location, tree.target path = .ok location := by
  cases hlimit : Severity.ofVerbosity? options.verbosity with
  | none => exact absurd (.verbosity hlimit) (h 1)
  | some limit =>
    cases hread : tree.read options.input with
    | error fault => exact absurd (.reading hlimit hread) (h 1)
    | ok content =>
      cases htext : String.fromUTF8? content with
      | none => exact absurd (.notText hlimit hread htext) (h 1)
      | some text =>
        have hreads : ReadsText options tree text := ⟨limit, content, hlimit, hread, htext⟩
        cases htokens : options.tokens text with
        | error e => exact absurd (.loading hreads htokens) (h 1)
        | ok tokens =>
          rcases compile_ends tokens options.capacity with ⟨compiled, hok⟩ | ⟨e, hrejected⟩ | hfull
          · have hcompiles : Compiles options tree compiled := ⟨text, tokens, hreads, htokens, hok⟩
            refine ⟨compiled, hcompiles, fun path houtput => ?_⟩
            cases htarget : tree.target path with
            | error fault => exact absurd (.creating hcompiles houtput htarget) (h 1)
            | ok location => exact ⟨location, rfl⟩
          · exact absurd (.generating hreads htokens hrejected) (h e.code)
          · exact absurd (.full hreads htokens hfull) (h 101)

theorem ReadsText.unique {text text' : String} (h : ReadsText options tree text) (h' : ReadsText options tree text') :
    text = text' := by
  obtain ⟨-, content, -, hread, htext⟩ := h
  obtain ⟨-, content', -, hread', htext'⟩ := h'
  obtain rfl : content = content' := Except.ok.inj (hread.symm.trans hread')
  exact Option.some.inj (htext.symm.trans htext')

theorem Compiles.unique {compiled compiled' : CompiledProgram} (h : Compiles options tree compiled)
    (h' : Compiles options tree compiled') : compiled = compiled' := by
  obtain ⟨text, tokens, hreads, htokens, houtcome⟩ := h
  obtain ⟨text', tokens', hreads', htokens', houtcome'⟩ := h'
  obtain rfl := hreads.unique hreads'
  obtain rfl : tokens = tokens' := Except.ok.inj (htokens.symm.trans htokens')
  exact Except.ok.inj (houtcome.symm.trans houtcome')

/-- A run that has compiled its input and can write its output does not fail. -/
theorem Compiles.not_failsWith {compiled : CompiledProgram} (h : Compiles options tree compiled)
    (houtput : ∀ path, options.output = some path → ∃ location, tree.target path = .ok location) (status : Nat) :
    ¬FailsWith options tree status := by
  obtain ⟨text, tokens, hreads, htokens, houtcome⟩ := h
  have hinput := hreads
  obtain ⟨limit, content, hlimit, hread, htext⟩ := hinput
  intro hfails
  cases hfails with
  | verbosity hnone => cases hlimit.symm.trans hnone
  | reading _ hfault => cases hread.symm.trans hfault
  | notText _ hread' hnone =>
    cases hread.symm.trans hread'
    cases htext.symm.trans hnone
  | loading hreads' herror =>
    cases hreads.unique hreads'
    cases htokens.symm.trans herror
  | generating hreads' htokens' hrejected =>
    cases hreads.unique hreads'
    cases htokens.symm.trans htokens'
    cases houtcome.symm.trans hrejected
  | full hreads' htokens' hfull =>
    cases hreads.unique hreads'
    cases htokens.symm.trans htokens'
    cases houtcome.symm.trans hfull
  | creating _ hpath hfault =>
    obtain ⟨location, htarget⟩ := houtput _ hpath
    cases htarget.symm.trans hfault

end

/-! ### What is written -/

/-- A run that fails leaves all files as they are and writes nothing to the standard output; its exit status is that of
the failure.  Any other run succeeds, and it writes the compiled program in the chosen form to one place; if JSON
documents are printed so that they can be read back, this text is read as the program.  Without an output file the place
is the standard output, and all files stay as they are.  With an output file nothing is written to the standard output,
the file has the text as its content, whatever it had before, and all other files stay as they are. -/
theorem run_writes_once (print : Json → String) (options : Options) (tree : FileTree) :
    (∀ status, FailsWith options tree status →
      ∃ stderr, (run print options : StateM FileTree Report).run tree = (⟨status, "", stderr⟩, tree)) ∧
    ((∀ status, ¬FailsWith options tree status) → ∃ compiled text, Compiles options tree compiled ∧
      (text = match options.format with
        | .code => compiled.program.code
        | .listing => compiled.program.listing
        | .json => compiled.program.json print) ∧
      (Json.ReadsBack print → Program.read? options.format text = some compiled.program) ∧
      (options.output = none → ∃ stderr,
        (run print options : StateM FileTree Report).run tree = (⟨0, text, stderr⟩, tree)) ∧
      ∀ path, options.output = some path → ∃ location stderr tree', tree.target path = .ok location ∧
        (run print options : StateM FileTree Report).run tree = (⟨0, "", stderr⟩, tree') ∧
        tree'.content? location = some text.toUTF8 ∧ tree'.read path = .ok text.toUTF8 ∧
        (∀ other, other ≠ location → tree'.content? other = tree.content? other) ∧
        tree'.directories = tree.directories ∧ tree'.workingDirectory = tree.workingDirectory) := by
  refine ⟨fun status h => h.run print, fun h => ?_⟩
  obtain ⟨compiled, hcompiles, hlocation⟩ := compiles_of_not_failsWith h
  refine ⟨compiled, compiled.program.render print options.format, hcompiles, ?_,
    fun hprint => compiled.program.read?_render hprint options.format, ?_⟩
  · cases options.format <;> rfl
  obtain ⟨text, tokens, ⟨limit, content, hlimit, hread, htext⟩, htokens, houtcome⟩ := hcompiles
  obtain ⟨log, hresult⟩ := compileContent_of_tokens htext htokens
  rw [houtcome] at hresult
  refine ⟨run_of_stdout hlimit hread hresult, fun path houtput => ?_⟩
  obtain ⟨location, htarget⟩ := hlocation path houtput
  obtain ⟨stderr, hrun⟩ := run_of_file hlimit hread hresult houtput htarget
  exact ⟨location, stderr, _, htarget, hrun, FileTree.content?_insert_self, FileTree.read_insert htarget _,
    fun other => FileTree.content?_insert_of_ne, rfl, rfl⟩

private theorem fromUTF8?_toUTF8 (text : String) : String.fromUTF8? text.toUTF8 = some text := by
  rw [String.fromUTF8?, dif_pos (show text.toUTF8.IsValidUTF8 from text.isValidUTF8)]
  rfl

/-- Two runs with the same output file.  The input of the first one is rejected, so this file, which is a program, is
not lost.  In the second run it is the input as well, and it is replaced by the compiled program, as a JSON document. -/
theorem run_writes_once_in_place :
    ∃ (tree tree' : FileTree) (text : String), tree.read "p" = .ok ".".toUTF8 ∧ tree.read "q" = .ok "x".toUTF8 ∧
      (∃ stderr, (run Json.pretty ⟨"q", some "p", false, .json, 500, false, 0⟩ : StateM FileTree Report).run tree =
        (⟨15, "", stderr⟩, tree)) ∧
      (∃ stderr, (run Json.pretty ⟨"p", some "p", false, .json, 500, false, 0⟩ : StateM FileTree Report).run tree =
        (⟨0, "", stderr⟩, tree')) ∧
      tree'.read "p" = .ok text.toUTF8 ∧
      Program.read? .json text = some ⟨#[⟨.jmp, 0, 0, 1⟩, ⟨.inc, 0, 0, 4⟩, ⟨.rtn, 0, 0, 0⟩, ⟨.halt, 0, 0, 3⟩]⟩ ∧
      tree'.content? ["q"] = tree.content? ["q"] := by
  let tree : FileTree := ⟨[(["p"], ".".toUTF8), (["q"], "x".toUTF8)], [], []⟩
  let options : Options := ⟨"p", some "p", false, .json, 500, false, 0⟩
  let compiled : CompiledProgram :=
    ⟨⟨#[⟨.jmp, 0, 0, 1⟩, ⟨.inc, 0, 0, 4⟩, ⟨.rtn, 0, 0, 0⟩, ⟨.halt, 0, 0, 3⟩]⟩, ⟨#[]⟩⟩
  have hp : tree.read "p" = .ok ".".toUTF8 := by decide +kernel
  have hq : tree.read "q" = .ok "x".toUTF8 := by decide +kernel
  have hlocation : tree.target "p" = .ok ["p"] := by decide +kernel
  have htokens : Options.tokens { options with input := "q" } "x" = .ok [.ident "x"] := rfl
  have hfails : FailsWith { options with input := "q" } tree CompileError.undeclared.code :=
    .generating ⟨.error, _, rfl, hq, fromUTF8?_toUTF8 "x"⟩ htokens rfl
  have hcompiles : Compiles options tree compiled :=
    ⟨".", [.period], ⟨.error, _, rfl, hp, fromUTF8?_toUTF8 "."⟩, rfl, rfl⟩
  have htarget : ∀ path, options.output = some path → ∃ location, tree.target path = .ok location := by
    rintro path ⟨⟩
    exact ⟨["p"], hlocation⟩
  obtain ⟨compiled', text, hcompiles', -, htext, -, hwritten⟩ :=
    (run_writes_once Json.pretty options tree).2 (hcompiles.not_failsWith htarget)
  obtain rfl := hcompiles.unique hcompiles'
  obtain ⟨location, stderr, tree', hlocation', hrun, -, hread, hothers, -, -⟩ := hwritten "p" rfl
  obtain rfl : ["p"] = location := Except.ok.inj (hlocation.symm.trans hlocation')
  exact ⟨tree, tree', text, hp, hq, (run_writes_once Json.pretty { options with input := "q" } tree).1 _ hfails,
    ⟨stderr, hrun⟩, hread, htext Json.readsBack_pretty, hothers ["q"] (by decide)⟩

end PL0
