import FlowLang.Proofs.Diagnostics
import FlowLang.Proofs.Files
import FlowLang.Proofs.GraphShape
import FlowLang.Proofs.MachineSteps

/-!
# What a call prints and writes

A call (`main`, `run`) writes at most its object file, and only when the program was compiled. Its
exit code says whether it did what was asked for. All this is so whatever is around the call: the
argument parser, the files, the standard output, the log and the translator are parameters (`Host`,
`FileSystem`, `Writer`).

* `Options.Reaches`: a source leads to a module, and the standard output takes what is to be printed
  before it is used. `Options.prepare_cases`: a call gets there, or it stops with a code that is not
  zero.
* `compile_run_eq_zero`: a compiled program returns no code but zero, so the exit code of a run
  cannot be zero by chance.
* **`Command.callOn_effects`**: what calls of the compiler, and its use as a library
  (`generate_object`, `compile_to_object`), write and report.

Named assumptions, each of something that is not the compiler's own:

* `Host.Quiet`: the environment asks for no log filter, logging starts, and the filter `emjc=warn`
  lets nothing through that is less important than a warning. Only the text of the standard error
  rests on it.
* `FileSystem.Honest`, of the output path of the call: what is reported as written there is there in
  full.
-/

namespace FlowLang

variable {W : Type} [Writer W]

/-- A compiled program returns no code but zero. -/
theorem compile_run_eq_zero {t : Tree} {m : Module} (h : t.compile = .ok m) {limit : Nat}
    {μ : Machine W} {code : Int} (hr : (m.runFrom limit μ).1.result = .ok code) : code = 0 := by
  obtain ⟨block, hb, he⟩ := Module.exit_of_runFrom hr
  exact Tree.lower_ret (Tree.compile_eq_ok.mp h).2 hb he

/-! ## Printing -/

/-- Writes texts one after the other, up to the first that fails. -/
def Writer.takeAll (w : W) : List String → Bool × W
  | [] => (true, w)
  | text :: texts =>
    if (Writer.write w text).1 then takeAll (Writer.write w text).2 texts else Writer.write w text

theorem Writer.takeAll_append (w : W) (texts more : List String) :
    takeAll w (texts ++ more) =
      if (takeAll w texts).1 then takeAll (takeAll w texts).2 more else takeAll w texts := by
  induction texts generalizing w with
  | nil => rfl
  | cons text texts ih =>
    rw [List.cons_append, takeAll, takeAll]
    by_cases h : (Writer.write w text).1
    · rw [if_pos h, if_pos h, ih]
    · rw [if_neg h, if_neg h, if_neg h]

/-- Printing a text if a flag is set. -/
theorem Session.printOr_apply (flag : Bool) (text : String) (code : Nat) (why : W → List String)
    (c : Console W) :
    (if flag then printOr text code why else pure () : Session W Unit) c =
      if (Writer.takeAll c.stdout (if flag then [text] else [])).1 then
        .ok () ⟨(Writer.takeAll c.stdout (if flag then [text] else [])).2, c.stderr⟩
      else .error code ⟨(Writer.takeAll c.stdout (if flag then [text] else [])).2,
        c.stderr ++ unlines (why (Writer.takeAll c.stdout (if flag then [text] else [])).2)⟩ := by
  cases flag with
  | false => rfl
  | true =>
    have hp : print text c = .ok (Writer.write c.stdout text).1
        ⟨(Writer.write c.stdout text).2, c.stderr⟩ := rfl
    simp only [if_true, printOr, Writer.takeAll]
    rw [bind_apply, hp]
    cases hw : (Writer.write c.stdout text).1 <;> simp [hw] <;> rfl

namespace Options

/-- What is printed of a tree: the drawing, if it is asked for. -/
def drawing (o : Options) (t : Tree) : List String := if o.drawTree then [t.diagram] else []

/-- What is printed of a module: the listing, if it is asked for. -/
def listing (o : Options) (m : Module) : List String := if o.listModule then [m.listing] else []

/-- What is printed of the tree of a source, if it has one. -/
def drawingOf (o : Options) (text : String) : List String :=
  match parseSource text with
  | .ok t => o.drawing t
  | .error _ => []

theorem drawingOf_of_ok (o : Options) {text : String} {t : Tree} (h : parseSource text = .ok t) :
    o.drawingOf text = o.drawing t := by
  rw [drawingOf, h]

theorem drawingOf_of_error (o : Options) {text : String} {e : CompileFault}
    (h : parseSource text = .error e) : o.drawingOf text = [] := by
  rw [drawingOf, h]

/-- The source leads to the module `m`, and the standard output takes the drawing and the listing,
which leads from `w` to `w'`. -/
def Reaches (o : Options) (source : Except (List String) String) (w : W) (m : Module) (w' : W) :
    Prop :=
  ∃ text t, source = .ok text ∧ parseSource text = .ok t ∧ t.compile = .ok m ∧
    Writer.takeAll w (o.drawing t ++ o.listing m) = (true, w')

/-- Once there is a tree, what is left is to compile it and to print. -/
theorem reaches_iff {o : Options} {text : String} {t : Tree} (hp : parseSource text = .ok t)
    {w w' : W} {m : Module} : o.Reaches (.ok text) w m w' ↔ t.compile = .ok m ∧
      Writer.takeAll w (o.drawing t ++ o.listing m) = (true, w') := by
  constructor
  · rintro ⟨text', t', hs, ht, hm, hw⟩
    cases hs
    cases hp.symm.trans ht
    exact ⟨hm, hw⟩
  · rintro ⟨hm, hw⟩
    exact ⟨text, t, rfl, hp, hm, hw⟩

theorem Reaches.unique {o : Options} {source : Except (List String) String} {w w₁ w₂ : W}
    {m₁ m₂ : Module} (h₁ : o.Reaches source w m₁ w₁) (h₂ : o.Reaches source w m₂ w₂) :
    m₁ = m₂ ∧ w₁ = w₂ := by
  obtain ⟨text, t, rfl, ht, hm, hw⟩ := h₁
  obtain ⟨text', t', hs', ht', hm', hw'⟩ := h₂
  cases hs'
  cases ht.symm.trans ht'
  cases hm.symm.trans hm'
  cases hw.symm.trans hw'
  exact ⟨rfl, rfl⟩

section Stages

variable {host : Host W} {o : Options} {text : String} {t : Tree} {m : Module} {e : CompileFault}

theorem prepare_of_unparsed (c : Console W) (hp : parseSource text = .error e) :
    o.prepare host (.ok text) c = .error 1 ⟨c.stdout, c.stderr ++ unlines e.diagnostics⟩ := by
  simp only [prepare, hp]
  rfl

theorem prepare_of_undrawn (c : Console W) (hp : parseSource text = .ok t)
    (hd : (Writer.takeAll c.stdout (o.drawing t)).1 = false) :
    o.prepare host (.ok text) c = .error 1 ⟨(Writer.takeAll c.stdout (o.drawing t)).2,
      c.stderr ++ unlines [host.reason (Writer.takeAll c.stdout (o.drawing t)).2]⟩ := by
  simp only [prepare, hp]
  unfold drawing at hd ⊢
  rw [bind_apply, draw, Session.printOr_apply, hd]
  rfl

theorem prepare_of_refused (c : Console W) (hp : parseSource text = .ok t)
    (hd : (Writer.takeAll c.stdout (o.drawing t)).1 = true) (hc : t.compile = .error e) :
    o.prepare host (.ok text) c = .error 1 ⟨(Writer.takeAll c.stdout (o.drawing t)).2,
      c.stderr ++ unlines (host.lines o (.compile t)) ++ unlines e.diagnostics⟩ := by
  simp only [prepare, hp, hc]
  unfold drawing at hd ⊢
  rw [bind_apply, draw, Session.printOr_apply, hd]
  rfl

theorem prepare_of_compiled (c : Console W) (hp : parseSource text = .ok t)
    (hd : (Writer.takeAll c.stdout (o.drawing t)).1 = true) (hc : t.compile = .ok m) :
    o.prepare host (.ok text) c = (o.list host m >>= fun _ => pure m)
      ⟨(Writer.takeAll c.stdout (o.drawing t)).2,
        c.stderr ++ unlines (host.lines o (.compile t))⟩ := by
  simp only [prepare, hp, hc]
  unfold drawing at hd ⊢
  rw [bind_apply, draw, Session.printOr_apply, hd]
  rfl

theorem list_of_taken (c : Console W) (h : (Writer.takeAll c.stdout (o.listing m)).1 = true) :
    o.list host m c = .ok () ⟨(Writer.takeAll c.stdout (o.listing m)).2, c.stderr⟩ := by
  unfold listing at h ⊢
  rw [list, Session.printOr_apply, h]
  rfl

theorem list_of_failed (host : Host W) (c : Console W)
    (h : (Writer.takeAll c.stdout (o.listing m)).1 = false) :
    ∃ c', o.list host m c = .error 101 c' := by
  unfold listing at h
  rw [list, Session.printOr_apply, h]
  exact ⟨_, rfl⟩

end Stages

/-- How far a call gets with its source: to the module, or to a code that is not zero. -/
theorem prepare_cases (host : Host W) (o : Options) (source : Except (List String) String)
    (c : Console W) :
    (∃ m w' stderr, o.Reaches source c.stdout m w' ∧
      o.prepare host source c = .ok m ⟨w', stderr⟩) ∨
    (∀ m w', ¬o.Reaches source c.stdout m w') ∧
      ∃ code c', o.prepare host source c = .error code c' ∧ code ≠ 0 := by
  cases source with
  | error reasons =>
    refine .inr ⟨?_, 1, _, rfl, one_ne_zero⟩
    rintro m w' ⟨text, t, hs, -⟩
    cases hs
  | ok text =>
    cases hp : parseSource text with
    | error e =>
      refine .inr ⟨?_, 1, _, prepare_of_unparsed c hp, one_ne_zero⟩
      rintro m w' ⟨text', t, hs, ht, -⟩
      cases hs
      cases hp.symm.trans ht
    | ok t =>
      simp only [reaches_iff hp, Writer.takeAll_append]
      cases hd : (Writer.takeAll c.stdout (o.drawing t)).1 with
      | false =>
        refine .inr ⟨fun m w' h => ?_, 1, _, prepare_of_undrawn c hp hd, one_ne_zero⟩
        have hfst := congrArg Prod.fst h.2
        simp [hd] at hfst
      | true =>
        cases hc : t.compile with
        | error e =>
          exact .inr ⟨by simp, 1, _, prepare_of_refused c hp hd hc, one_ne_zero⟩
        | ok m =>
          rw [prepare_of_compiled c hp hd hc, bind_apply]
          cases hl : (Writer.takeAll (Writer.takeAll c.stdout (o.drawing t)).2 (o.listing m)).1 with
          | false =>
            obtain ⟨c', hlist⟩ := list_of_failed host ⟨_, c.stderr ++ unlines _⟩ hl
            refine .inr ⟨fun m' w' h => ?_, 101, c', by rw [hlist], by decide⟩
            cases h.1
            have hfst := congrArg Prod.fst h.2
            simp [hl] at hfst
          | true =>
            refine .inl ⟨m, _, _, ⟨rfl, ?_⟩, by rw [list_of_taken _ hl]; rfl⟩
            rw [if_pos rfl]
            exact Prod.ext hl rfl

/-- The exit code of a run is zero if the program returns. -/
theorem interpret_code {host : Host W} {o : Options} {t : Tree} {m : Module} (h : t.compile = .ok m)
    (c : Console W) : ((o.interpret host m).outcome c).code = 0 ↔
      ∃ code, (m.runInto o.maxSteps c.stdout).result = .ok code := by
  have hinterpret : ∃ c' : Console W, o.interpret host m c =
      ended host (m.runFrom o.maxSteps (m.machineInto c.stdout)).2.sink
        (m.runInto o.maxSteps c.stdout).result c' := ⟨_, rfl⟩
  obtain ⟨c', hc'⟩ := hinterpret
  rw [Session.outcome, hc']
  cases hr : (m.runInto o.maxSteps c.stdout).result with
  | ok code =>
    obtain rfl := compile_run_eq_zero h hr
    exact iff_of_true rfl ⟨0, rfl⟩
  | error e => exact iff_of_false one_ne_zero nofun

omit [Writer W] in
/-- The exit code of a call that was to write an object file is zero if it was written. -/
theorem conclude_code (host : Host W) (o : Options) (m : Module) (result : Except EmitFault Unit)
    (c : Console W) : ((o.conclude host m result).outcome c).code = 0 ↔ result = .ok () := by
  cases result with
  | ok _ => exact iff_of_true rfl rfl
  | error e => cases e <;> exact iff_of_false one_ne_zero nofun

end Options

namespace Host

/-- The environment asks for no log filter, logging starts, and the filter that asks for warnings
lets nothing through that is less important. -/
structure Quiet (host : Host W) : Prop where
  environment : host.environment = none
  subscriber : host.subscriber = .ok ()
  hides : ∀ phase : Phase, LogLevel.warn.detail < phase.level.detail →
    host.shown "emjc=warn" phase = []

omit [Writer W] in
theorem Quiet.lines {host : Host W} {o : Options} (h : host.Quiet) (ho : o.verbose = false)
    (phase : Phase) : host.lines o phase = [] := by
  rw [Host.lines, h.subscriber, filter, h.environment, ho]
  exact h.hides phase (by cases phase <;> simp [Phase.level, LogLevel.detail])

end Host

namespace Command

section

variable {F : Type} {host : Host W} {fs : FileSystem F} {arguments : List String} {o : Options}
  {files : F} {w : W}

omit [Writer W] in
theorem startLog_apply (host : Host W) (c : Console W) :
    ∃ notice, startLog host c = .ok () ⟨c.stdout, c.stderr ++ notice⟩ ∧
      (host.subscriber = .ok () → notice = "") := by
  unfold startLog
  cases host.subscriber with
  | ok _ => exact ⟨"", by rw [String.append_empty]; rfl, fun _ => rfl⟩
  | error e => exact ⟨_, rfl, nofun⟩

/-- After logging was started, the source is prepared. -/
theorem opening_eq (host : Host W) (o : Options) (source : Except (List String) String) (w : W) :
    ∃ notice, opening host o source w = o.prepare host source ⟨w, notice⟩ ∧
      (host.subscriber = .ok () → notice = "") := by
  obtain ⟨notice, hstart, hquiet⟩ := startLog_apply host ⟨w, ""⟩
  refine ⟨notice, ?_, hquiet⟩
  rw [opening, bind_apply, hstart, String.empty_append]

/-- A call with valid arguments opens its source and then closes. -/
theorem callOn_eq (fs : FileSystem F) (ho : host.parse arguments = .ok o) (files : F) (w : W) :
    callOn host fs arguments files w =
      closing host fs.files o (opening host o (fs.contents files o.source) w) files := by
  rw [callOn, callWith, ho]
  rfl

theorem callOn_of_stopped (ho : host.parse arguments = .ok o) {code : Nat} {c : Console W}
    (h : opening host o (fs.contents files o.source) w = .error code c) :
    callOn host fs arguments files w = (⟨code, c⟩, files) := by
  rw [callOn_eq fs ho, h]
  rfl

theorem callOn_of_run (ho : host.parse arguments = .ok o) (hr : o.run = true) {m : Module}
    {c : Console W} (h : opening host o (fs.contents files o.source) w = .ok m c) :
    callOn host fs arguments files w = ((o.interpret host m).outcome c, files) := by
  rw [callOn_eq fs ho, h, closing, if_pos hr]
  rfl

theorem callOn_of_emit (ho : host.parse arguments = .ok o) (hr : o.run = false) {m : Module}
    {c : Console W} (h : opening host o (fs.contents files o.source) w = .ok m c) :
    callOn host fs arguments files w =
      ((o.conclude host m (fs.emit host.translator o.output m files).1).outcome c,
        (fs.emit host.translator o.output m files).2) := by
  rw [callOn_eq fs ho, h, closing, if_neg (by simp [hr])]
  rfl

/-- A call gets to its module, or it stops with a code that is not zero and changes no file. -/
theorem callOn_cases (fs : FileSystem F) (ho : host.parse arguments = .ok o) (files : F) (w : W) :
    (∃ m w' stderr, o.Reaches (fs.contents files o.source) w m w' ∧
      opening host o (fs.contents files o.source) w = .ok m ⟨w', stderr⟩) ∨
    (∀ m w', ¬o.Reaches (fs.contents files o.source) w m w') ∧
      ∃ code c', callOn host fs arguments files w = (⟨code, c'⟩, files) ∧ code ≠ 0 := by
  obtain ⟨notice, hopening, -⟩ := opening_eq host o (fs.contents files o.source) w
  rcases o.prepare_cases host (fs.contents files o.source) ⟨w, notice⟩ with
    ⟨m, w', stderr, hm, hp⟩ | ⟨hnot, code, c', hp, hcode⟩
  · exact .inl ⟨m, w', stderr, hm, hopening.trans hp⟩
  · exact .inr ⟨hnot, code, c', callOn_of_stopped ho (hopening.trans hp), hcode⟩

/-- A call that runs the program. -/
theorem callOn_run_effects (fs : FileSystem F) (ho : host.parse arguments = .ok o)
    (hr : o.run = true) (files : F) (w : W) :
    (callOn host fs arguments files w).2 = files ∧
    ((callOn host fs arguments files w).1.code = 0 ↔ ∃ m w' code,
      o.Reaches (fs.contents files o.source) w m w' ∧
        (m.runInto o.maxSteps w').result = .ok code) := by
  rcases callOn_cases fs ho files w with ⟨m, w', stderr, hm, h⟩ | ⟨hnot, code, c', h, hcode⟩
  · obtain ⟨text, t, -, -, hc, -⟩ := id hm
    rw [callOn_of_run ho hr h]
    refine ⟨rfl, (Options.interpret_code hc _).trans ⟨?_, ?_⟩⟩
    · rintro ⟨code, hcode⟩
      exact ⟨m, w', code, hm, hcode⟩
    · rintro ⟨m', w'', code, hm', hcode⟩
      obtain ⟨rfl, rfl⟩ := hm.unique hm'
      exact ⟨code, hcode⟩
  · rw [h]
    refine ⟨rfl, iff_of_false hcode ?_⟩
    rintro ⟨m, w', code', hm, -⟩
    exact hnot m w' hm

/-- A call that writes an object file. -/
theorem callOn_emit_effects {Holds : F → String → Object → Prop}
    (ho : host.parse arguments = .ok o) (hr : o.run = false)
    (hh : fs.Honest Holds files o.output) (w : W) :
    ((callOn host fs arguments files w).2 = files ∨
      ∃ object, (callOn host fs arguments files w).2 = (fs.write files o.output object).2) ∧
    ((callOn host fs arguments files w).1.code = 0 ↔ ∃ m w' object,
      o.Reaches (fs.contents files o.source) w m w' ∧ host.translator.object m = .ok object ∧
      fs.write files o.output object = (.ok (), (callOn host fs arguments files w).2) ∧
      Holds (callOn host fs arguments files w).2 o.output object) := by
  rcases callOn_cases fs ho files w with ⟨m, w', stderr, hm, h⟩ | ⟨hnot, code, c', h, hcode⟩
  · rw [callOn_of_emit ho hr h]
    refine ⟨fs.emit_files files _ _ m, (Options.conclude_code ..).trans ⟨fun hok => ?_, ?_⟩⟩
    · obtain ⟨object, hobject, hwrite⟩ := FileSystem.emit_eq_ok.mp (Prod.ext hok rfl)
      have hholds := hh object (congrArg Prod.fst hwrite)
      rw [hwrite] at hholds
      exact ⟨m, w', object, hm, hobject, hwrite, hholds⟩
    · rintro ⟨m', w'', object, hm', hobject, hwrite, -⟩
      obtain ⟨rfl, rfl⟩ := hm.unique hm'
      exact congrArg Prod.fst (FileSystem.emit_eq_ok.mpr ⟨object, hobject, hwrite⟩)
  · rw [h]
    refine ⟨.inl rfl, iff_of_false hcode ?_⟩
    rintro ⟨m, w', object, hm, -⟩
    exact hnot m w' hm

/-- A call with a program that is refused. -/
theorem callOn_refused_effects (fs : FileSystem F) (ho : host.parse arguments = .ok o) (files : F)
    (w : W) {text : String} {e : CompileFault} (hs : fs.contents files o.source = .ok text)
    (hc : compile text = .error e) :
    let drawn := Writer.takeAll w (o.drawingOf text)
    (callOn host fs arguments files w).1.code = 1 ∧
    (callOn host fs arguments files w).2 = files ∧
    (callOn host fs arguments files w).1.console.stdout = drawn.2 ∧
    (drawn.1 = true → ∃ logged,
      (callOn host fs arguments files w).1.console.stderr = logged ++ unlines e.diagnostics ∧
      (host.Quiet → o.verbose = false → logged = "")) := by
  obtain ⟨notice, hopening, hnotice⟩ := opening_eq host o (fs.contents files o.source) w
  rw [hs] at hopening
  cases hp : parseSource text with
  | error e' =>
    obtain rfl : e' = e := by
      rw [compile, hp] at hc
      exact Except.error.inj hc
    rw [o.drawingOf_of_error hp]
    rw [callOn_of_stopped ho (by rw [hs, hopening, Options.prepare_of_unparsed _ hp])]
    exact ⟨rfl, rfl, rfl, fun _ => ⟨notice, rfl, fun hq _ => hnotice hq.subscriber⟩⟩
  | ok t =>
    have hc' : t.compile = .error e := by
      rw [compile, hp] at hc
      exact hc
    rw [o.drawingOf_of_ok hp]
    dsimp only
    cases hd : (Writer.takeAll w (o.drawing t)).1 with
    | false =>
      rw [callOn_of_stopped ho (by rw [hs, hopening, Options.prepare_of_undrawn _ hp hd])]
      exact ⟨rfl, rfl, rfl, fun hdrawn => absurd hdrawn Bool.false_ne_true⟩
    | true =>
      rw [callOn_of_stopped ho (by rw [hs, hopening, Options.prepare_of_refused _ hp hd hc'])]
      refine ⟨rfl, rfl, rfl, fun _ => ⟨_, rfl, fun hq hv => ?_⟩⟩
      rw [hnotice hq.subscriber, hq.lines hv]
      exact String.empty_append

/-- **Nothing is written without success.** Take any call that compiles, with any argument parser,
files, standard output, log and translator around it.

* A program that is refused gives the exit code 1 and changes no file. It prints the drawing of the
  tree, if that was asked for and there is one. If that can be printed, the standard error ends with
  the diagnostics in order, each of them one line. Before them stands only what was logged, which is
  nothing if the environment is quiet and the call not verbose.
* A call that runs the program changes no file. Its exit code is zero iff the program returns.
* Any other call changes files at most by one write to its output path. Its exit code is zero iff
  the program was compiled and its object file written, and if the system reports honestly what it
  wrote to that path, then the file is there in full.

The same holds if the compiler is used as a library: where no system call failed, a fault means that
nothing was written. -/
theorem callOn_effects (fs : FileSystem F) {Holds : F → String → Object → Prop}
    (ho : host.parse arguments = .ok o) (hh : fs.Honest Holds files o.output) (w : W) :
    let outcome := (callOn host fs arguments files w).1
    let after := (callOn host fs arguments files w).2
    let source := fs.contents files o.source
    (∀ text e, source = .ok text → compile text = .error e →
      let drawn := Writer.takeAll w (o.drawingOf text)
      outcome.code = 1 ∧ after = files ∧ outcome.console.stdout = drawn.2 ∧
      (∀ line ∈ e.diagnostics, OneLine line) ∧
      (drawn.1 = true → ∃ logged, outcome.console.stderr = logged ++ unlines e.diagnostics ∧
        (host.Quiet → o.verbose = false → logged = ""))) ∧
    (o.run = true → after = files ∧
      (outcome.code = 0 ↔ ∃ m w' code, o.Reaches source w m w' ∧
        (m.runInto o.maxSteps w').result = .ok code)) ∧
    (o.run = false →
      (after = files ∨ ∃ object, after = (fs.write files o.output object).2) ∧
      (outcome.code = 0 ↔ ∃ m w' object, o.Reaches source w m w' ∧
        host.translator.object m = .ok object ∧ fs.write files o.output object = (.ok (), after) ∧
        Holds after o.output object)) ∧
    (∀ path t e after', fs.emitTree host.translator path t files = (.error e, after') →
      (∀ reason, e ≠ .emit (.system reason)) → after' = files) ∧
    ∀ path text e after', fs.emitSource host.translator path text files = (.error e, after') →
      (∀ reason, e ≠ .emit (.system reason)) → after' = files := by
  intro outcome after source
  refine ⟨fun text e hs hc => ?_, fun hr => callOn_run_effects fs ho hr files w,
    fun hr => callOn_emit_effects ho hr hh w, fun path t e after' => FileSystem.emitTree_error,
    fun path text e after' => FileSystem.emitSource_error⟩
  obtain ⟨hcode, hafter, hstdout, hstderr⟩ := callOn_refused_effects fs ho files w hs hc
  exact ⟨hcode, hafter, hstdout, compile_oneLine hc, hstderr⟩

/-- A name is declared twice, and another one not at all. -/
def redeclaring : String := "num x;\nnum x;\ny = 1;\n"

/-- A folder with an object file from before. -/
def builtBefore : Folder := ⟨[(["out.o"], .bytes .empty)]⟩

theorem plainHost_quiet : plainHost.Quiet := ⟨rfl, rfl, fun _ _ => rfl⟩

theorem redeclaring_effects :
    let ended := call builtBefore redeclaring.toUTF8 ["--dump-ast", "-", "out.o"]
    ended.1.code = 1 ∧ ended.1.console.stderr = "redeclared var x\nundeclared var y\n" ∧
      ended.2 = builtBefore := by
  let o : Options := ⟨"-", "out.o", true, false, false, Module.defaultLimit, false⟩
  have ho : plainHost.parse ["--dump-ast", "-", "out.o"] = .ok o := by rfl
  have hs : (folderSystem redeclaring.toUTF8).contents builtBefore o.source =
      .ok "num x;\nnum x;\ny = 1;" := by decide +kernel
  have hc : compile "num x;\nnum x;\ny = 1;" =
      .error (.declarations [.redeclared "x", .undeclared "y"]) := by
    decide +kernel
  have hh := folderSystem_honest redeclaring.toUTF8 builtBefore o.output
  obtain ⟨hcode, hafter, -, -, hprinted⟩ := (callOn_effects _ ho hh .unlimited).1 _ _ hs hc
  obtain ⟨logged, hstderr, hquiet⟩ := hprinted (by decide +kernel)
  rw [hquiet plainHost_quiet rfl, String.empty_append] at hstderr
  exact ⟨hcode, hstderr.trans (by decide +kernel), hafter⟩

end

end Command

end FlowLang
