import FlowLang.Command.Arguments
import FlowLang.Emission
import FlowLang.Text.Blank
import FlowLang.Tree.Diagram

/-!
# Calls of the compiler

What the compiler does when it is called with arguments (`main`, `run`): it reads the source, parses
it, draws the tree if asked to, compiles it, lists the module if asked to, and at last runs it or
writes an object file.

What a call finds around it is not the compiler's own. It is in the parameters:

* `Host`: the argument parser, the log filter that the environment asks for, the log itself, the
  translator, and what is said of a failed write to the standard output.
* `Files`: reading the source and writing the object file.
* a `Writer` for the standard output, which may fail at any time. A tree that cannot be drawn ends
  the call with an error. A module that cannot be listed ends it as a panic does, with the code 101.
  A program that cannot write its output fails as on any other writer.

The standard error takes everything. The lines that a phase logs are the host's to render, since
they have times in them; what is said here is which phases log, and at what level (`Phase.level`).

`Command.callWith` is a whole call, `Command.callOn` one on a file system, `Command.call` one on a
plain host.
-/

namespace FlowLang

/-- Lines, each ended by a newline. -/
def unlines (lines : List String) : String := String.join (lines.map (· ++ "\n"))

/-- How important a log event is, most important first. -/
inductive LogLevel where
  | error | warn | info | debug | trace

/-- How much has to be asked for to see the events of a level. -/
def LogLevel.detail : LogLevel → Nat
  | .error => 0
  | .warn => 1
  | .info => 2
  | .debug => 3
  | .trace => 4

/-- What the compiler logs about. -/
inductive Phase where
  | compile (t : Tree)
  | run (m : Module) (ran : Module.Transcript)
  | translate (m : Module)
  | write (path : String) (m : Module)

/-- The level at which a phase logs. -/
def Phase.level : Phase → LogLevel
  | .compile _ => .debug
  | .run _ _ => .debug
  | .translate _ => .debug
  | .write _ _ => .info

/-- What the argument parser prints by itself: the version, a help text, or an error. -/
structure Answer where
  code : Nat
  stdout : String
  stderr : String

/-- What a call finds around it. -/
structure Host (W : Type) where
  /-- The options of a call, or the answer that ends it. -/
  parse : List String → Except Answer Options
  /-- The log filter of the environment, if it has one that makes sense. -/
  environment : Option String
  /-- Whether logging can be started, or why not. -/
  subscriber : Except String Unit
  /-- The lines that a filter lets through of what a phase logs. -/
  shown : String → Phase → List String
  translator : Translator
  /-- Why the last write to the standard output failed. -/
  reason : W → String
  /-- What is printed when the program gives up with a message. -/
  panicText : String → List String

namespace Host

variable {W : Type}

/-- The filter of a call. The environment comes first. -/
def filter (host : Host W) (o : Options) : String :=
  host.environment.getD (if o.verbose then "emjc=debug" else "emjc=warn")

/-- What is seen of the log of a phase. -/
def lines (host : Host W) (o : Options) (phase : Phase) : List String :=
  match host.subscriber with
  | .ok () => host.shown (host.filter o) phase
  | .error _ => []

end Host

/-- What was printed. -/
structure Console (W : Type) where
  stdout : W
  stderr : String

/-- What a call printed, and its exit code. -/
structure Outcome (W : Type) where
  code : Nat
  console : Console W

/-- Work that prints, and that may end the call with an exit code. -/
abbrev Session (W : Type) := EStateM Nat (Console W)

namespace Session

variable {W : Type} {α : Type}

/-- Prints lines to the standard error. -/
def report (lines : List String) : Session W Unit :=
  modify fun c => { c with stderr := c.stderr ++ unlines lines }

/-- Ends the call with lines of explanation. -/
def stop (code : Nat) (lines : List String) : Session W α := do
  report lines
  throw code

/-- Ends the call with an error and its causes. -/
def fail (causes : List String) : Session W α := stop 1 [": ".intercalate causes]

/-- Ends the call with the diagnostics of a program. -/
def refuse (e : CompileFault) : Session W α := stop 1 e.diagnostics

/-- Prints to the standard output, and says whether that went well. -/
def print [Writer W] (text : String) : Session W Bool :=
  modifyGet fun c =>
    match Writer.write c.stdout text with
    | (fits, stdout) => (fits, { c with stdout })

/-- Prints to the standard output, and ends the call if that fails. -/
def printOr [Writer W] (text : String) (code : Nat) (why : W → List String) : Session W Unit := do
  unless ← print text do stop code (why (← get).stdout)

/-- The outcome of a call whose work gives an exit code. -/
def outcome (work : Session W Nat) (c : Console W) : Outcome W :=
  match work c with
  | .ok code c => ⟨code, c⟩
  | .error code c => ⟨code, c⟩

end Session

/-- Why a run failed, with the causes. A failed write has one, which its message repeats. -/
def MachineFault.causes (reason : String) : MachineFault → List String
  | .outputFull => ["failed to write output: " ++ reason, reason]
  | e => [e.message]

namespace Options

open Session

variable {W : Type} [Writer W]

/-- Draws a tree, if that is asked for. -/
def draw (host : Host W) (o : Options) (t : Tree) : Session W Unit :=
  if o.drawTree then printOr t.diagram 1 fun w => [host.reason w] else return ()

/-- Lists a module, if that is asked for. -/
def list (host : Host W) (o : Options) (m : Module) : Session W Unit :=
  if o.listModule then
    printOr m.listing 101 fun w => host.panicText ("failed printing to stdout: " ++ host.reason w)
  else return ()

/-- Everything that a call does with the source, up to its module. -/
def prepare (host : Host W) (o : Options) : Except (List String) String → Session W Module
  | .error reasons => fail ("Could not open source file" :: reasons)
  | .ok text =>
    match parseSource text with
    | .error e => refuse e
    | .ok t => do
      o.draw host t
      report (host.lines o (.compile t))
      match t.compile with
      | .error e => refuse e
      | .ok m => do
        o.list host m
        return m

/-- Says how a run ended that left the standard output as `w`. The exit code has eight bits. -/
def ended (host : Host W) (w : W) : Except MachineFault Int → Session W Nat
  | .ok code => return (code % 256).toNat
  | .error e => fail (e.causes (host.reason w))

/-- Runs a module on the standard output. -/
def interpret (host : Host W) (o : Options) (m : Module) : Session W Nat := do
  let console ← get
  let (ran, machine) := m.runFrom o.maxSteps (m.machineInto console.stdout)
  set { console with stdout := machine.sink }
  report (host.lines o (.run m ran))
  ended host machine.sink ran.result

/-- Says what became of the object file. The system's reason stands once in the message and once as
its cause. -/
def conclude (host : Host W) (o : Options) (m : Module) : Except EmitFault Unit → Session W Nat
  | .ok () => do
    report (host.lines o (.translate m))
    report (host.lines o (.write o.output m))
    return 0
  | .error (.noTranslator fault) => fail [fault.message]
  | .error (.system reason) => do
    report (host.lines o (.translate m))
    fail [s!"Could not write {o.output}", Object.writeMessage reason, reason]
  | .error e => fail [s!"Could not write {o.output}", e.message]

end Options

namespace Command

section

variable {W : Type} [Writer W]

/-- The start of logging. If it fails, the call goes on without. -/
def startLog (host : Host W) : Session W Unit :=
  match host.subscriber with
  | .ok () => return ()
  | .error e => Session.report ["Failed to initialize tracing: " ++ e]

/-- What a call does before it has a module. -/
def opening (host : Host W) (o : Options) (source : Except (List String) String) (stdout : W) :
    EStateM.Result Nat (Console W) Module :=
  (startLog host >>= fun _ => o.prepare host source) ⟨stdout, ""⟩

variable {M : Type → Type} [Monad M]

/-- What a call does with its module: it runs it, or it writes an object file. -/
def closing (host : Host W) (files : Files M) (o : Options) :
    EStateM.Result Nat (Console W) Module → M (Outcome W)
  | .error code console => return ⟨code, console⟩
  | .ok m console =>
    if o.run then return (o.interpret host m).outcome console
    else do return (o.conclude host m (← files.emit host.translator o.output m)).outcome console

/-- A call, whatever its files are: what it printed, and its exit code. -/
def callWith (host : Host W) (files : Files M) (arguments : List String) (stdout : W) :
    M (Outcome W) :=
  match host.parse arguments with
  | .error answer =>
    return ⟨answer.code, ⟨(Writer.write stdout answer.stdout).2, answer.stderr⟩⟩
  | .ok o => do closing host files o (opening host o (← files.contents o.source) stdout)

/-- A call on a file system: its outcome, and the files after it. -/
def callOn {F : Type} (host : Host W) (fs : FileSystem F) (arguments : List String) (files : F)
    (stdout : W) : Outcome W × F :=
  callWith host fs.files arguments stdout files

end

/-! ## The plain host -/

def versionText : String := "emjc 0.1.0\n"

def helpText : String := unlines
  ["Compiler for .emj programs", "",
   "Usage: emjc [OPTIONS] <SOURCE> [OUTPUT]", "",
   "Arguments:",
   "  <SOURCE>  Source file, or `-` for stdin",
   "  [OUTPUT]  Object file to write [default: program.o]", "",
   "Options:",
   "      --dump-ast               Print the syntax tree as a Graphviz graph",
   "      --emit-ir                Print the generated IR",
   "      --run                    Interpret the program instead of writing an object file",
   "      --max-steps <MAX_STEPS>  Instruction limit for --run [default: 1000000]",
   "  -v, --verbose                Log phase progress to stderr",
   "  -h, --help                   Print help",
   "  -V, --version                Print version"]

/-- The options of a call by the rules of `Request.ofArguments`. -/
def parse (arguments : List String) : Except Answer Options :=
  match Request.ofArguments arguments with
  | .ok (.compile o) => .ok o
  | .ok .version => .error ⟨0, versionText, ""⟩
  | .ok .help => .error ⟨0, helpText, ""⟩
  | .error e => .error ⟨2, "", unlines [e.message]⟩

/-- What a phase says of itself. A run says that it returned. -/
def messages : Phase → List String
  | .compile _ => ["checked program"]
  | .run _ ran => if ran.result.isOk then ["interpreter finished"] else []
  | .translate _ => ["emitted object"]
  | .write path _ => [s!"wrote {path}"]

/-- The filters that name a level let through what is at least as important. -/
def shown (filter : String) (phase : Phase) : List String :=
  match [("emjc=trace", LogLevel.trace), ("emjc=debug", .debug),
      ("emjc=info", .info)].lookup filter with
  | some level => if phase.level.detail ≤ level.detail then messages phase else []
  | none => []

/-- A host that translates every module, in an environment that asks for nothing. -/
def plainHost : Host Sink where
  parse := parse
  environment := none
  subscriber := .ok ()
  shown := shown
  translator := .plain
  reason _ := Sink.fullMessage
  panicText message := [message]

/-- The text of a source: it has to be UTF-8, and blank characters at its end do not belong to
it. -/
def sourceText (bytes : ByteArray) : Except (List String) String :=
  match String.fromUTF8? bytes with
  | some s => .ok (String.ofList (s.toList.reverse.dropWhile Text.isBlank).reverse)
  | none => .error ["stream did not contain valid UTF-8"]

/-- The bytes of the source: a file, or the standard input for `-`. -/
def sourceBytes (folder : Folder) (stdin : ByteArray) (source : String) :
    Except (List String) ByteArray :=
  if source = "-" then .ok stdin
  else
    match folder.read source with
    | .ok (.bytes data) => .ok data
    | .ok (.object _) => .error ["stream did not contain valid UTF-8"]
    | .error e => .error [e.message]

/-- A folder, and a standard input beside it. -/
def folderSystem (stdin : ByteArray) : FileSystem Folder where
  contents folder source := sourceBytes folder stdin source >>= sourceText
  write folder path object :=
    match folder.write path (.object object) with
    | .ok after => (.ok (), after)
    | .error e => (.error e.message, folder)

/-- A call on a plain host, in a folder and with a standard input. -/
def call (folder : Folder) (stdin : ByteArray) (arguments : List String) : Outcome Sink × Folder :=
  callOn plainHost (folderSystem stdin) arguments folder .unlimited

end Command

end FlowLang
