import Std.Data.TreeMap
import FlowLang.Graph.Listing
import FlowLang.Sink

/-!
# Running modules

A machine holds the values computed so far, the contents of the slots, and a sink for output. It can
run any module, also one that makes no sense, and says what went wrong.

* Every instruction and every terminator is a step. `run` takes a limit on their number, so it
  always ends.
* Values and slots stay when a run ends, and the next run of the machine finds them.
* The two printers write one line each.

A `Machine` is the state of an `Interpreter`, and `runFrom` is its `run` with the output that is
handed to it. `read`, `readNumber` and `readTruth` are `get`, `get_f64` and `get_bool`, `readSlot`
and `writeSlot` use what `slot_mut` does, `instr` is `exec`, and `resume` is the loop of `run`. That
counts steps upwards to the limit; `resume` counts down from it, and is structural in what is left.
The values are an ordered map where the interpreter has a hash map.
-/

namespace FlowLang

/-- What a value or a slot holds. -/
inductive Scalar where
  | number (x : Binary64)
  | truth (b : Bool)
  | text (id : Nat)
  deriving DecidableEq

/-- How a message names a scalar. -/
def Scalar.describe : Scalar → String
  | .number x => s!"F64({x.text .marked})"
  | .truth b => s!"Bool({b})"
  | .text id => s!"Str(StringId({id}))"

/-- What makes a module impossible to run. -/
inductive Malformed where
  | unknownBlock (index : Nat)
  | missingTerminator (label : String)
  | unknownSlot (index : Nat)
  | unknownString (id : Nat)
  | wrongType (v : Value) (found : Scalar) (expected : Ty)
  | noArgument (callee : Printer)
  | wrongArgument (callee : Printer) (found : Scalar)
  deriving DecidableEq

def Malformed.message : Malformed → String
  | .unknownBlock index => s!"unknown block #{index}"
  | .missingTerminator label => s!"block {label} has no terminator"
  | .unknownSlot index => s!"unknown slot {slotListing index}"
  | .unknownString id => s!"unknown string {stringListing id}"
  | .wrongType v found expected => s!"{v.listing} is {found.describe}, not {expected.title}"
  | .noArgument callee => s!"{callee.symbol} called without argument"
  | .wrongArgument callee found => s!"{callee.symbol} called with {found.describe}"

/-- Why a run ended before the routine returned. -/
inductive MachineFault where
  | stepLimit (limit : Nat)
  | undefinedValue (index : Nat)
  | uninitializedSlot (index : Nat)
  | malformed (reason : Malformed)
  | outputFull
  deriving DecidableEq

/-- The fault in one line of text. -/
def MachineFault.message : MachineFault → String
  | .stepLimit limit => s!"step limit of {limit} exceeded"
  | .undefinedValue index => s!"read of uninitialized value v{index}"
  | .uninitializedSlot index => s!"read of uninitialized stack slot #{index}"
  | .malformed reason => "invalid IR: " ++ reason.message
  | .outputFull => "failed to write output: " ++ Sink.fullMessage

/-- The state of a run. -/
structure Machine (W : Type := Sink) where
  values : Std.TreeMap Nat Scalar
  slots : List (Option Scalar)
  sink : W

/-- A step of a run with any writer: a result or a fault, and the machine after it. -/
abbrev ExecInto (W : Type) := EStateM MachineFault (Machine W)

/-- A step of a run that writes into a sink. -/
abbrev Exec := ExecInto Sink

namespace Exec

variable {W : Type}

def malformed {α : Type} (reason : Malformed) : ExecInto W α := throw (.malformed reason)

/-! ## Values, slots and output -/

/-- The scalar that a value holds. -/
def read (v : Value) : ExecInto W Scalar := do
  match (← get).values[v.index]? with
  | some s => return s
  | none => throw (.undefinedValue v.index)

def readNumber (v : Value) : ExecInto W Binary64 := do
  match ← read v with
  | .number x => return x
  | s => malformed (.wrongType v s .number)

def readTruth (v : Value) : ExecInto W Bool := do
  match ← read v with
  | .truth b => return b
  | s => malformed (.wrongType v s .truth)

/-- Sets a value. Only its number counts. -/
def define (v : Value) (s : Scalar) : ExecInto W Unit :=
  modify fun m => { m with values := m.values.insert v.index s }

def readSlot (slot : Nat) : ExecInto W Scalar := do
  match (← get).slots[slot]? with
  | some (some s) => return s
  | some none => throw (.uninitializedSlot slot)
  | none => malformed (.unknownSlot slot)

def writeSlot (slot : Nat) (s : Scalar) : ExecInto W Unit := do
  if slot < (← get).slots.length then modify fun m => { m with slots := m.slots.set slot (some s) }
  else malformed (.unknownSlot slot)

variable [Writer W]

def write (text : String) : ExecInto W Unit := do
  let fits ← modifyGet fun ⟨values, slots, sink⟩ =>
    match Writer.write sink text with
    | (fits, sink) => (fits, ⟨values, slots, sink⟩)
  if fits then return () else throw .outputFull

/-- Writes a line: the text, and then its end. -/
def writeLine (text : String) : ExecInto W Unit := do
  write text
  write "\n"

/-! ## Instructions -/

/-- Calls a printer, which looks at its first argument only. -/
def call (m : Module) (callee : Printer) : List Value → ExecInto W Unit
  | [] => malformed (.noArgument callee)
  | arg :: _ => do
    match callee, ← read arg with
    | .number, .number x => writeLine (x.text .plain)
    | .text, .text id =>
      match m.strings[id]? with
      | some s => writeLine s
      | none => malformed (.unknownString id)
    | _, s => malformed (.wrongArgument callee s)

def instr (m : Module) : Instr → ExecInto W Unit
  | .constant dest x => define dest (.number x)
  | .string dest id => define dest (.text id)
  | .load dest slot => do define dest (← readSlot slot)
  | .store slot value => do writeSlot slot (← read value)
  | .arithmetic dest op lhs rhs => do
    let x ← readNumber lhs
    let y ← readNumber rhs
    define dest (.number (op.apply x y))
  | .compare dest op lhs rhs => do
    let x ← readNumber lhs
    let y ← readNumber rhs
    define dest (.truth (op.holds x y))
  | .connect dest op lhs rhs => do
    let x ← readTruth lhs
    let y ← readTruth rhs
    define dest (.truth (op.apply x y))
  | .negate dest operand => do define dest (.truth (!(← readTruth operand)))
  | .call callee args => call m callee args

/-- Where control goes at the end of a block. -/
inductive Next where
  | stop (code : Int)
  | block (index : Nat)

def leave (b : Block) : ExecInto W Next :=
  match b.exit? with
  | some (.jump target) => return .block target
  | some (.branch test yes no) => do return .block (if ← readTruth test then yes else no)
  | some (.ret code) => return .stop code
  | none => malformed (.missingTerminator b.label)

/-! ## Runs -/

/-- Runs for at most `fuel` steps from the middle of a block, whose instructions `rest` are still to
be run. -/
def resume (m : Module) (limit : Nat) : Nat → Block → List Instr → ExecInto W Int
  | 0, _, _ => throw (.stepLimit limit)
  | fuel + 1, b, i :: rest => do
    instr m i
    resume m limit fuel b rest
  | fuel + 1, b, [] => do
    match ← leave b with
    | .stop code => return code
    | .block index =>
      match m.graph.blocks[index]? with
      | some next => resume m limit fuel next next.instrs
      | none => malformed (.unknownBlock index)

end Exec

namespace Module

/-- The limit on steps if none is given. -/
def defaultLimit : Nat := 1000000

/-- A machine for a module: no values, and as many empty slots as the routine has. -/
def machine (m : Module) : Machine := ⟨∅, m.graph.slots.map fun _ => none, .unlimited⟩

/-- A new machine that writes to `w`. -/
def machineInto {W : Type} (m : Module) (w : W) : Machine W := { m.machine with sink := w }

variable {W : Type} [Writer W]

/-- Runs a module from its first block for at most `limit` steps, and gives the code that it
returns. -/
def exec (m : Module) (limit : Nat) : ExecInto W Int :=
  match m.graph.blocks[0]? with
  | some b => Exec.resume m limit limit b b.instrs
  | none => Exec.malformed (.unknownBlock 0)

/-- How a run ended, and what it wrote. -/
structure Transcript where
  result : Except MachineFault Int
  output : ByteArray

/-- One run of a machine, whatever it writes to. -/
def runFrom (m : Module) (limit : Nat) (machine : Machine W) : Transcript × Machine W :=
  match m.exec limit machine with
  | .ok code after => (⟨.ok code, Writer.written after.sink⟩, after)
  | .error e after => (⟨.error e, Writer.written after.sink⟩, after)

/-- One run of a new machine that writes to `w`. -/
def runInto (m : Module) (limit : Nat) (w : W) : Transcript := (m.runFrom limit (m.machineInto w)).1

/-- One run of a machine into a new sink. -/
def runOn (m : Module) (limit : Nat) (capacity? : Option Nat) (machine : Machine) :
    Transcript × Machine :=
  m.runFrom limit { machine with sink := .ofCapacity capacity? }

/-- Several runs of one machine, each into a new sink. -/
def runsOn (m : Module) (limit : Nat) (capacity? : Option Nat) : Nat → Machine → List Transcript
  | 0, _ => []
  | count + 1, machine =>
    let (ran, after) := m.runOn limit capacity? machine
    ran :: m.runsOn limit capacity? count after

/-- One run of a new machine. -/
def run (m : Module) (limit : Nat) (capacity? : Option Nat) : Transcript :=
  (m.runOn limit capacity? m.machine).1

end Module

end FlowLang
