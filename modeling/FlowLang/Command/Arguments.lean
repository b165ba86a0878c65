import FlowLang.Decimal.Numeral
import FlowLang.Machine

/-!
# Command line arguments

A call names a source file and perhaps an output file, and has options. Arguments are read from left
to right, and the first one that is wrong, or that asks for the version or for help, decides.

* A flag stands at most once, and takes no value. Letters after one `-` may stand together.
* `--max-steps` takes its value after `=` or from the next argument.
* A single `-` is a file. After `--` everything is a file.

`Options` has the fields of `Cli`. How arguments are read is not the compiler's own, so it is a
parameter of a call (`Host.parse`). The rules here are those of the plain host. No result about
calls depends on them.
-/

namespace FlowLang

/-- What a call asks for. -/
structure Options where
  source : String
  output : String
  drawTree : Bool
  listModule : Bool
  run : Bool
  maxSteps : Nat
  verbose : Bool

/-- Why arguments make no sense. -/
inductive UsageFault where
  | missingSource
  | unknownOption (argument : String)
  | extraArgument (argument : String)
  | repeated (option : String)
  | missingValue (option : String)
  | invalidValue (option value : String)
  | unwantedValue (option : String)
  deriving DecidableEq

def UsageFault.message : UsageFault → String
  | .missingSource => "error: the source file is missing"
  | .unknownOption argument => s!"error: unknown option '{argument}'"
  | .extraArgument argument => s!"error: unexpected argument '{argument}'"
  | .repeated option => s!"error: '{option}' is given twice"
  | .missingValue option => s!"error: '{option}' needs a value"
  | .invalidValue option value => s!"error: '{value}' is no value for '{option}'"
  | .unwantedValue option => s!"error: '{option}' takes no value"

inductive Request where
  | compile (o : Options)
  | version
  | help

/-- What one argument is, seen alone. -/
inductive Argument where
  | file (name : String)
  | letters (cs : List Char)
  | long (name : String) (value? : Option String)
  | endOfOptions
  deriving DecidableEq

/-- An argument that starts with `-` and goes on is an option, a long one if it starts with `--`.
The value of a long option stands after the first equals sign. -/
def Argument.ofString (s : String) : Argument :=
  match s.toList with
  | ['-', '-'] => .endOfOptions
  | '-' :: '-' :: cs =>
    let name := String.ofList (cs.takeWhile (· ≠ '='))
    match cs.dropWhile (· ≠ '=') with
    | [] => .long name none
    | _ :: value => .long name (some (String.ofList value))
  | '-' :: c :: cs => .letters (c :: cs)
  | _ => .file s

/-- The arguments read so far. -/
structure Arguments where
  source? : Option String
  output? : Option String
  drawTree : Bool
  listModule : Bool
  run : Bool
  maxSteps? : Option Nat
  verbose : Bool

namespace Arguments

/-- No arguments read yet. -/
def start : Arguments := ⟨none, none, false, false, false, none, false⟩

/-- The request, when all arguments are read. -/
def request (a : Arguments) : Except UsageFault Request :=
  match a.source? with
  | none => .error .missingSource
  | some source =>
    .ok (.compile
      { source
        output := a.output?.getD "program.o"
        drawTree := a.drawTree
        listModule := a.listModule
        run := a.run
        maxSteps := a.maxSteps?.getD Module.defaultLimit
        verbose := a.verbose })

/-- The first argument that is no option is the source, the second the output, which is not
empty. -/
def addFile (a : Arguments) (file : String) : Except UsageFault Arguments :=
  match a.source?, a.output? with
  | none, _ => .ok { a with source? := some file }
  | some _, none =>
    if file.isEmpty then .error (.invalidValue "OUTPUT" file)
    else .ok { a with output? := some file }
  | some _, some _ => .error (.extraArgument file)

/-- A count of at most 64 bits: digits, perhaps after a plus sign. -/
def count? (s : String) : Option Nat :=
  let digits := match s.toList with
    | '+' :: rest => rest
    | cs => cs
  let n := Numeral.digitsValue digits
  if digits.isEmpty ∨ !digits.all Char.isDigit ∨ UInt64.size ≤ n then none else some n

def addMaxSteps (a : Arguments) (value : String) : Except UsageFault Arguments :=
  if a.maxSteps?.isSome then .error (.repeated "--max-steps")
  else
    match count? value with
    | some n => .ok { a with maxSteps? := some n }
    | none => .error (.invalidValue "--max-steps" value)

/-- Options that are there or not. -/
inductive Flag where
  | drawTree | listModule | run | verbose

def Flag.title : Flag → String
  | .drawTree => "dump-ast"
  | .listModule => "emit-ir"
  | .run => "run"
  | .verbose => "verbose"

def Flag.ofName? (name : String) : Option Flag :=
  [drawTree, listModule, run, verbose].find? (·.title = name)

def hasFlag (a : Arguments) : Flag → Bool
  | .drawTree => a.drawTree
  | .listModule => a.listModule
  | .run => a.run
  | .verbose => a.verbose

def setFlag (a : Arguments) : Flag → Arguments
  | .drawTree => { a with drawTree := true }
  | .listModule => { a with listModule := true }
  | .run => { a with run := true }
  | .verbose => { a with verbose := true }

def addFlag (a : Arguments) (flag : Flag) : Except UsageFault Arguments :=
  if a.hasFlag flag then .error (.repeated ("--" ++ flag.title)) else .ok (a.setFlag flag)

/-- What reading an option leads to: more arguments to read, or the answer to the call. -/
inductive Progress where
  | more (a : Arguments)
  | done (r : Request)

/-- Reads the letters of an argument such as `-v`. -/
def addLetters (a : Arguments) : List Char → Except UsageFault Progress
  | [] => .ok (.more a)
  | 'v' :: rest => do (← a.addFlag .verbose).addLetters rest
  | 'V' :: _ => .ok (.done .version)
  | 'h' :: _ => .ok (.done .help)
  | c :: _ => .error (.unknownOption (String.ofList ['-', c]))

/-- Reads a long option other than `--max-steps`. -/
def addLong (a : Arguments) (name : String) : Except UsageFault Progress :=
  match Flag.ofName? name with
  | some flag => do return .more (← a.addFlag flag)
  | none =>
    if name = "version" then .ok (.done .version)
    else if name = "help" then .ok (.done .help)
    else .error (.unknownOption ("--" ++ name))

/-- Reads arguments after which there are no options. -/
def readFiles (a : Arguments) (files : List String) : Except UsageFault Request := do
  (← files.foldlM addFile a).request

/-- Reads arguments from left to right. -/
def readAll (a : Arguments) : List String → Except UsageFault Request
  | [] => a.request
  | argument :: rest =>
    match Argument.ofString argument with
    | .file name => do (← a.addFile name).readAll rest
    | .endOfOptions => a.readFiles rest
    | .letters cs => do
      match ← a.addLetters cs with
      | .more a => a.readAll rest
      | .done r => .ok r
    | .long "max-steps" (some value) => do (← a.addMaxSteps value).readAll rest
    | .long "max-steps" none =>
      match rest with
      | [] => .error (.missingValue argument)
      | value :: rest =>
        match Argument.ofString value with
        | .file value => do (← a.addMaxSteps value).readAll rest
        | _ => .error (.missingValue argument)
    | .long name value? => do
      match ← a.addLong name, value? with
      | _, some _ => .error (.unwantedValue argument)
      | .more a, none => a.readAll rest
      | .done r, none => .ok r

end Arguments

/-- What arguments ask for. -/
def Request.ofArguments (arguments : List String) : Except UsageFault Request :=
  Arguments.start.readAll arguments

end FlowLang
