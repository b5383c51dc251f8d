import PL0.Proofs.Jumps.Backpatching
import PL0.Proofs.Log.Messages

/-!
# The log tells the whole compilation

`tell` goes through the messages of a log, each of which goes on from what the messages before it have told, and ends at
a message that does not fit.  In this way a log tells the code (`replay`), the symbols (`declaredIn`) and the procedure
bodies that have been entered and not been left (`openBodies`).

`Context.Logged` says that in a state the log is complete: it tells the code and the symbols of the state, and of as
many open bodies as the level says.  Every elementary action keeps the log complete by the event that it records, and
the body that is left is the one that was entered last, also when it is rejected (`Gen.logs_program`).
-/

namespace PL0

/-! ### What a log tells -/

section

variable {σ : Type} (severity : Severity) (step : σ → String → Option σ)

/-- The messages of a severity. -/
def messages (log : List Event) : List String :=
  (log.filter (·.severity = severity)).map Event.text

/-- What the messages of a severity tell, from a given start on. -/
def tell (start : σ) (log : List Event) : Option σ :=
  (messages severity log).foldlM step start

/-- What an event adds. -/
def Event.tells (e : Event) (told : σ) : Option σ :=
  if e.severity = severity then step told e.text else some told

theorem tells_of_severity {e : Event} (h : e.severity = severity) (told : σ) :
    e.tells severity step told = step told e.text :=
  if_pos h

theorem messages_concat (log : List Event) (e : Event) :
    messages severity (log ++ [e]) = messages severity log ++ if e.severity = severity then [e.text] else [] := by
  by_cases h : e.severity = severity <;> simp [messages, h]

theorem tell_concat (start : σ) (log : List Event) (e : Event) :
    tell severity step start (log ++ [e]) = (tell severity step start log).bind (e.tells severity step) := by
  rw [tell, messages_concat, List.foldlM_append, ← tell]
  by_cases h : e.severity = severity
  · have htells : e.tells severity step = fun told => step told e.text := funext fun _ => if_pos h
    simp [h, htells]
  · have htells : e.tells severity step = some := funext fun _ => if_neg h
    simp [h, htells]

end

/-- The code that a log tells. -/
def replay (log : List Event) : Option (Array Instruction) :=
  tell .trace rebuild #[] log

theorem tells_emission {e : Event} {code : Array Instruction} {ins : Instruction} (hseverity : e.severity = .trace)
    (htext : e.text = emissionText code.size ins) : e.tells .trace rebuild code = some (code.push ins) := by
  rw [tells_of_severity _ _ hseverity, htext, rebuild_emission]

/-- The symbols that a log tells. -/
def declaredIn (log : List Event) : Option (Array Symbol) :=
  tell .debug declareMore #[] log

/-- The bodies that are open at the end of a log, if bodies are entered and left as brackets are. -/
def openBodies (log : List Event) : Option (List String) :=
  tell .debug nest [] log

/-! ### Complete logs -/

namespace Context

/-- The log is complete, the jumps `p` and the bodies `bodies` are open, and no error was reported. -/
structure Logged (capacity : Nat) (p : List Nat) (bodies : List String) (c : Context) : Prop where
  pending : c.Pending p
  code : replay c.log.toList = some c.buffer.code
  declared : declaredIn c.log.toList = some c.symbols.symbols
  nested : openBodies c.log.toList = some bodies
  level : bodies.length = c.level
  clean : messages .error c.log.toList = []
  capacity : c.buffer.capacity = capacity

namespace Logged

variable {c c' : Context} {capacity : Nat} {p q : List Nat} {bodies bodies' : List String}

theorem start (tokens : List Token) (capacity : Nat) : (Context.start tokens capacity).Logged capacity [] [] where
  pending := .start tokens capacity
  code := rfl
  declared := rfl
  nested := rfl
  level := rfl
  clean := rfl
  capacity := rfl

/-- The event that an action records tells what the action does. -/
private theorem of_record (h : c.Logged capacity p bodies) {e : Event} (hpending : c'.Pending q)
    (hlog : c'.log.toList = c.log.toList ++ [e])
    (hcode : e.tells .trace rebuild c.buffer.code = some c'.buffer.code)
    (hdeclared : e.tells .debug declareMore c.symbols.symbols = some c'.symbols.symbols)
    (hnested : e.tells .debug nest bodies = some bodies') (hlevel : bodies'.length = c'.level)
    (hclean : e.severity ≠ .error) (hcapacity : c'.buffer.capacity = c.buffer.capacity) :
    c'.Logged capacity q bodies' where
  pending := hpending
  code := by rw [hlog, replay, tell_concat, ← replay, h.code, Option.bind_some, hcode]
  declared := by rw [hlog, declaredIn, tell_concat, ← declaredIn, h.declared, Option.bind_some, hdeclared]
  nested := by rw [hlog, openBodies, tell_concat, ← openBodies, h.nested, Option.bind_some, hnested]
  level := hlevel
  clean := by rw [hlog, messages_concat, h.clean, if_neg hclean, List.append_nil]
  capacity := hcapacity.trans h.capacity

theorem advanced (h : c.Logged capacity p bodies) : c.advanced.Logged capacity p bodies :=
  { h with pending := h.pending.step (.advanced p c) }

theorem declare (h : c.Logged capacity p bodies) (name : String) (kind : SymbolKind) :
    (c.declared name kind).Logged capacity p bodies := by
  have hdeclared := (tells_of_severity _ _ rfl _).trans
    (declareMore_declared ⟨name, kind, c.level, c.scope⟩ c.symbols.symbols)
  have hnested := (tells_of_severity _ _ rfl _).trans (nest_declared ⟨name, kind, c.level, c.scope⟩ bodies)
  exact h.of_record (h.pending.step (.declared p c name kind)) (Array.toList_push ..) rfl hdeclared hnested h.level
    (by rintro ⟨⟩) rfl

theorem emit (h : c.Logged capacity p bodies) (ins : Instruction) (hroom : c.buffer.isFull = false) :
    (c.emitted ins).Logged capacity p bodies := by
  have hcode := tells_emission (e := .appended c.buffer.size ins) rfl rfl
  exact h.of_record (h.pending.step (.emitted p c ins hroom)) (Array.toList_push ..) hcode rfl rfl h.level
    (by rintro ⟨⟩) rfl

theorem openJump (h : c.Logged capacity p bodies) (op : Opcode) (hroom : c.buffer.isFull = false) :
    (c.jumpOpened op).Logged capacity (c.buffer.size :: p) bodies := by
  have hcode := tells_emission (e := .jumpOpened c.buffer.size op) rfl rfl
  exact h.of_record (h.pending.step (.jumpOpened p c op hroom)) (Array.toList_push ..) hcode rfl rfl h.level
    (by rintro ⟨⟩) rfl

/-- Only an open jump is closed, and it is in the code. -/
theorem closeJump (h : c.Logged capacity p bodies) {a : Nat} (ha : a ∈ p) :
    (c.jumpClosed a).Logged capacity (p.erase a) bodies := by
  have hins := Array.getElem?_eq_getElem (h.pending.below_of_mem ha)
  have hcode := (tells_of_severity _ _ rfl _).trans (rebuild_patch hins c.buffer.size)
  exact h.of_record (h.pending.step (.jumpClosed p c a ha)) (log_jumpClosed hins) hcode rfl rfl h.level
    (by rintro ⟨⟩) rfl

theorem enter (h : c.Logged capacity p bodies) (name : String) (id : Nat) :
    (c.enter name id).Logged capacity p (name :: bodies) := by
  have hdeclared := (tells_of_severity _ _ rfl _).trans (declareMore_entered c.symbols.symbols name (c.level + 1))
  have hnested := (tells_of_severity _ _ rfl _).trans (nest_entered bodies name)
  rw [h.level] at hnested
  exact h.of_record (h.pending.step (.entered p c name id)) (Array.toList_push ..) rfl hdeclared hnested
    (congrArg (· + 1) h.level) (by rintro ⟨⟩) rfl

/-- The innermost body is left. -/
theorem leave {name : String} (h : c.Logged capacity p (name :: bodies)) {level : Nat} (hlevel : bodies.length = level)
    (scope : Scope) : (c.leave name level scope).Logged capacity p bodies := by
  have hdeclared := (tells_of_severity _ _ rfl _).trans (declareMore_left c.symbols.symbols name)
  have hnested := (tells_of_severity _ _ rfl _).trans (nest_left bodies name)
  exact h.of_record (h.pending.step (.left p c name level scope)) (Array.toList_push ..) rfl hdeclared hnested hlevel
    (by rintro ⟨⟩) rfl

theorem log_overflowed (h : c.Logged capacity p bodies) :
    c.overflowed.log.toList = c.log.toList ++ [.full capacity] := by
  rw [overflowed, h.capacity]
  exact Array.toList_push ..

end Logged

end Context

/-! ### Productions -/

namespace Gen

open Context

variable {α β : Type} {capacity : Nat}

/-- How a step stops.  A rejected step has left the bodies that it entered.  A full code buffer is the last thing in the
log. -/
def StopsLogged (capacity : Nat) (bodies : List String) : Stop → Context → Prop
  | .rejected _, c => ∃ p, c.Logged capacity p bodies
  | .fault f, c => f = .full capacity ∧
      ∃ (p : List Nat) (bodies' : List String) (c' : Context), c'.Logged capacity p bodies' ∧
        c'.buffer.size = capacity ∧ c = c'.overflowed

/-- The step keeps the log complete. -/
def Logs (capacity : Nat) (g : Gen α) (p : List Nat) (q : α → List Nat) : Prop :=
  ∀ bodies c, c.Logged capacity p bodies →
    wp g c (fun a c' => c'.Logged capacity (q a) bodies) (StopsLogged capacity bodies)

theorem Logs.bind {g : Gen α} {f : α → Gen β} {p : List Nat} {q : α → List Nat} {r : β → List Nat}
    (hg : Logs capacity g p q) (hf : ∀ a, Logs capacity (f a) (q a) r) : Logs capacity (g >>= f) p r := by
  intro bodies c hc
  rw [wp_bind]
  exact wp_mono (hg bodies c hc) (fun a c' hc' => hf a bodies c' hc') fun _ _ h => h

theorem stopsLogged_overflowed {c : Context} {p : List Nat} {bodies : List String} (hc : c.Logged capacity p bodies)
    (hfull : c.buffer.isFull = true) (bodies' : List String) :
    StopsLogged capacity bodies' (.fault (.full c.buffer.capacity)) c.overflowed := by
  have hsize : c.buffer.size = c.buffer.capacity := by simpa [CodeBuffer.isFull] using hfull
  rw [hc.capacity] at hsize ⊢
  exact ⟨rfl, p, bodies, c, hc, hsize, rfl⟩

private theorem logs_emit (p : List Nat) (op : Opcode) (l m : Int32) : Logs capacity (emit op l m) p fun _ => p := by
  intro bodies c hc
  rw [wp_emit]
  exact ⟨hc.emit _, fun hfull => stopsLogged_overflowed hc hfull bodies⟩

private theorem logs_expect (p : List Nat) (t : Token) (e : CompileError) :
    Logs capacity (expect t e) p fun _ => p := by
  intro bodies c hc
  rw [wp_expect]
  exact ⟨fun _ => hc.advanced, fun _ => ⟨p, hc⟩⟩

/-- The body is left again, also when it is rejected. -/
private theorem logs_inBody (name : String) (id : Nat) {body : Gen Unit} {p : List Nat}
    (h : Logs capacity body p fun _ => p) : Logs capacity (inBody name id body) p fun _ => p := by
  intro bodies c hc
  rw [wp_inBody]
  refine wp_mono (h (name :: bodies) _ (hc.enter name id)) ?_ ?_
  · intro _ c' hc'
    exact hc'.leave hc.level c.scope
  · intro stop c' hstop
    cases stop with
    | rejected e =>
      obtain ⟨q, hc'⟩ := hstop
      exact ⟨q, hc'.leave hc.level c.scope⟩
    | fault f => exact hstop

private theorem logs_rules : Rules (fun _ p g q => Logs capacity g p q) fun _ => True where
  pure _ _ _ _ hc := hc
  bind := Logs.bind
  reject p _ _ _ _ hc := ⟨p, hc⟩
  peek _ _ _ hc := hc
  advance _ _ _ hc := hc.advanced
  nextAddress _ _ _ hc := hc
  declare _ name kind _ _ hc := hc.declare name kind
  lookUp {_ p _ _} x hf bodies c hc := by
    rw [wp_bind, wp_lookUp]
    exact ⟨fun _ _ => hf _ trivial bodies c hc, fun _ => ⟨p, hc⟩⟩
  emit p op m := logs_emit p op 0 m
  emitFor p op m _ := logs_emit p op _ m
  openJump {op} p hop bodies c hc := by
    rw [wp_openJump hop]
    exact ⟨hc.openJump op, fun hfull => stopsLogged_overflowed hc hfull bodies⟩
  closeJump {p a} ha bodies c hc := by
    rw [wp_closeJump]
    exact hc.closeJump ha
  body {_ _ p} name address e hblock hnext := by
    have hdeclare : Logs capacity (declare name (.proc address)) p fun _ => p :=
      fun bodies c hc => hc.declare name (.proc address)
    exact hdeclare.bind fun id => (logs_expect p _ e).bind fun _ => (logs_inBody name id (hblock p)).bind fun _ => hnext

theorem logs_program (capacity n : Nat) : Logs capacity (program n) [] fun _ => [] :=
  logs_rules.program n []

end Gen

/-! ### Compilations -/

/-- What a compilation reports when nothing is left out. -/
def Compilation.fullLog (compilation : Compilation) : List Event :=
  compilation.log.filter (·.isShown .trace)

theorem fullLog_eq (compilation : Compilation) : compilation.fullLog = compilation.log := by
  refine List.filter_eq_self.2 fun e _ => ?_
  cases e <;> rfl

theorem compile_logged (tokens : List Token) (capacity : Nat) :
    (∀ compiled, (compile tokens capacity).outcome = .ok compiled →
      (compile tokens capacity).final.Logged capacity [] [] ∧
      compiled = ⟨⟨(compile tokens capacity).final.buffer.code⟩, (compile tokens capacity).final.symbols⟩) ∧
    (∀ stop, (compile tokens capacity).outcome = .error stop →
      Gen.StopsLogged capacity [] stop (compile tokens capacity).final) := by
  have hwp : Gen.wp (Gen.wholeProgram tokens.length) (.start tokens capacity)
      (fun compiled c => c.Logged capacity [] [] ∧ compiled = ⟨⟨c.buffer.code⟩, c.symbols⟩)
      (Gen.StopsLogged capacity []) := by
    rw [Gen.wp_wholeProgram]
    refine Gen.wp_mono (Gen.logs_program capacity _ [] _ (.start tokens capacity)) ?_ fun _ _ h => h
    intro _ c hc
    exact ⟨fun _ => ⟨hc, rfl⟩, fun hne => absurd hc.pending.count hne⟩
  exact Gen.outcome_of_wp hwp

/-- What the log tells of the code and the symbols is right at the end, whatever the outcome. -/
theorem compile_told (tokens : List Token) (capacity : Nat) :
    replay (compile tokens capacity).final.log.toList = some (compile tokens capacity).final.buffer.code ∧
    declaredIn (compile tokens capacity).final.log.toList = some (compile tokens capacity).final.symbols.symbols := by
  obtain ⟨hok, hstop⟩ := compile_logged tokens capacity
  cases h : (compile tokens capacity).outcome with
  | ok compiled =>
    obtain ⟨hc, -⟩ := hok compiled h
    exact ⟨hc.code, hc.declared⟩
  | error stop =>
    cases stop with
    | rejected e =>
      obtain ⟨p, hc⟩ := hstop _ h
      exact ⟨hc.code, hc.declared⟩
    | fault f =>
      -- the last event is neither about the code nor about a symbol
      obtain ⟨-, p, bodies, c, hc, -, hfinal⟩ := hstop _ h
      rw [hfinal, hc.log_overflowed]
      constructor
      · rw [replay, tell_concat, ← replay, hc.code]
        rfl
      · rw [declaredIn, tell_concat, ← declaredIn, hc.declared]
        rfl

/-- The log of a compilation, with nothing left out, tells what the compilation did, whatever its outcome.  Its messages
about the code tell the code in the buffer at the end, which is the program if there is one, and its messages about
declarations tell the symbols.  A full code buffer is reported once, at the end and after as many instructions as it
takes.  Otherwise every body that is entered, on the level of its nesting, is left again, also when the program is
rejected somewhere inside. -/
theorem log_replays (tokens : List Token) (capacity : Nat) :
    replay (compile tokens capacity).fullLog = some (compile tokens capacity).final.buffer.code ∧
    declaredIn (compile tokens capacity).fullLog = some (compile tokens capacity).final.symbols.symbols ∧
    (∀ compiled, (compile tokens capacity).outcome = .ok compiled →
      replay (compile tokens capacity).fullLog = some compiled.program.instructions ∧
      declaredIn (compile tokens capacity).fullLog = some compiled.symbols.symbols) ∧
    (∀ f, (compile tokens capacity).outcome = .error (.fault f) → f = .full capacity ∧
      ∃ before code, (compile tokens capacity).fullLog = before ++ [.full capacity] ∧ messages .error before = [] ∧
        replay before = some code ∧ code.size = capacity) ∧
    ((∀ f, (compile tokens capacity).outcome ≠ .error (.fault f)) →
      openBodies (compile tokens capacity).fullLog = some [] ∧
      messages .error (compile tokens capacity).fullLog = []) := by
  rw [fullLog_eq, Compilation.log]
  obtain ⟨hok, hstop⟩ := compile_logged tokens capacity
  obtain ⟨hcode, hdeclared⟩ := compile_told tokens capacity
  refine ⟨hcode, hdeclared, ?_, ?_, ?_⟩
  · intro compiled h
    obtain ⟨-, rfl⟩ := hok compiled h
    exact ⟨hcode, hdeclared⟩
  · intro f h
    obtain ⟨rfl, p, bodies, c, hc, hsize, hfinal⟩ := hstop _ h
    refine ⟨rfl, c.log.toList, c.buffer.code, ?_, hc.clean, hc.code, hsize⟩
    rw [hfinal, hc.log_overflowed]
  · intro hfault
    cases h : (compile tokens capacity).outcome with
    | ok compiled =>
      obtain ⟨hc, -⟩ := hok compiled h
      exact ⟨hc.nested, hc.clean⟩
    | error stop =>
      cases stop with
      | rejected e =>
        obtain ⟨p, hc⟩ := hstop _ h
        exact ⟨hc.nested, hc.clean⟩
      | fault f => exact absurd h (hfault f)

/-- The name `y` is not declared in the inner one of two procedures, and three instructions are needed to get there. -/
theorem log_replays_inner :
    ∃ tokens, tokens = [.procSym, .ident "p", .semicolon, .procSym, .ident "q", .semicolon, .writeSym, .ident "y"] ∧
      .entered "p" 1 ∈ (compile tokens 20).fullLog ∧ .entered "q" 2 ∈ (compile tokens 20).fullLog ∧
      openBodies (compile tokens 20).fullLog = some [] ∧
      ∃ before code, (compile tokens 2).fullLog = before ++ [.full 2] ∧
        replay before = some code ∧ code.size = 2 := by
  obtain ⟨tokens, htokens⟩ : ∃ tokens : List Token,
      tokens = [.procSym, .ident "p", .semicolon, .procSym, .ident "q", .semicolon, .writeSym, .ident "y"] := ⟨_, rfl⟩
  have hrejected : (compile tokens 20).outcome = .error (.rejected .undeclared) := by
    rw [htokens]
    decide +kernel
  have hfull : (compile tokens 2).outcome = .error (.fault (.full 2)) := by
    rw [htokens]
    decide +kernel
  obtain ⟨-, -, -, -, hbodies⟩ := log_replays tokens 20
  obtain ⟨-, -, -, hfault, -⟩ := log_replays tokens 2
  obtain ⟨hnested, -⟩ := hbodies fun f h => by simp [hrejected] at h
  obtain ⟨-, before, code, hlog, -, hcode, hsize⟩ := hfault _ hfull
  refine ⟨tokens, htokens, ?_, ?_, hnested, before, code, hlog, hcode, hsize⟩
  · rw [htokens]
    decide +kernel
  · rw [htokens]
    decide +kernel

end PL0
