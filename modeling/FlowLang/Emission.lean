import FlowLang.Compile
import FlowLang.Folder

/-!
# Writing object files

A module is checked, translated to machine code, and written to a file (`emit_to_file`). The machine
code and the files are not the compiler's own, so they are parameters here:

* `Translator` is what `ObjectBackend` asks of its code generator.
* `Files M` are the two things that are done to files, in whatever monad they are done: in the
  running program they are actions, and for `FileSystem F` they are changes to a state of any type
  `F`.

`emit` writes the object file of a module, `emitTree` (`generate_object`) that of a program,
`emitSource` (`compile_to_object`) that of a source. Of the bytes of an object file only what a
linker sees is kept (`Object`).
-/

namespace FlowLang

/-- Why there is no machine code. -/
inductive TranslationFault where
  | unsupported (reason : String)
  | failed (reason : String)
  deriving DecidableEq

def TranslationFault.message : TranslationFault → String
  | .unsupported reason => "host machine is not supported: " ++ reason
  | .failed reason => "code generation failed: " ++ reason

/-- The translator to machine code, if there is one for the machine. -/
abbrev Translator := Except TranslationFault (Module → Except TranslationFault Object)

/-- A translator that takes every module. -/
def Translator.plain : Translator := .ok fun m => .ok ⟨Object.symbolsOf m⟩

/-- What is done to files. -/
structure Files (M : Type → Type) where
  /-- The text of a source, or the reasons why there is none. -/
  contents : String → M (Except (List String) String)
  /-- Writes a file, and says whether that succeeded or why not. -/
  write : String → Object → M (Except String Unit)

/-- Files as the states `F` of something. Only a write changes them, and one that fails may have
written a part. -/
structure FileSystem (F : Type) where
  contents : F → String → Except (List String) String
  write : F → String → Object → Except String Unit × F

/-- The actions on the state. -/
def FileSystem.files {F : Type} (fs : FileSystem F) : Files (StateM F) where
  contents source := do return fs.contents (← get) source
  write path object := modifyGet (fs.write · path object)

/-- Why no object file was written. -/
inductive EmitFault where
  | noTranslator (fault : TranslationFault)
  | malformed (fault : ObjectFault)
  | translation (fault : TranslationFault)
  | system (reason : String)
  deriving DecidableEq

/-- The fault in one line of text. -/
def EmitFault.message : EmitFault → String
  | .noTranslator fault => fault.message
  | .malformed fault => fault.message
  | .translation fault => fault.message
  | .system reason => Object.writeMessage reason

/-- The stage at which a program did not become an object file, and why. -/
inductive BuildFault where
  | compile (fault : CompileFault)
  | emit (fault : EmitFault)
  deriving DecidableEq

/-- The object file of a module, which is checked before it is translated. -/
def Translator.object (translator : Translator) (m : Module) : Except EmitFault Object := do
  let translate ← translator.mapError .noTranslator
  (Object.check m).mapError .malformed
  (translate m).mapError .translation

namespace Files

variable {M : Type → Type} [Monad M]

/-- Writes the object file of a module. -/
def emit (files : Files M) (translator : Translator) (path : String) (m : Module) :
    M (Except EmitFault Unit) :=
  match translator.object m with
  | .error e => return .error e
  | .ok object => do return (← files.write path object).mapError .system

/-- Compiles a program, and writes its object file. -/
def emitTree (files : Files M) (translator : Translator) (path : String) (t : Tree) :
    M (Except BuildFault Unit) :=
  match t.compile with
  | .error e => return .error (.compile e)
  | .ok m => do return (← files.emit translator path m).mapError .emit

/-- Reads a source, compiles it, and writes its object file. -/
def emitSource (files : Files M) (translator : Translator) (path source : String) :
    M (Except BuildFault Unit) :=
  match parseSource source with
  | .error e => return .error (.compile e)
  | .ok t => files.emitTree translator path t

end Files

/-! ## On a file system -/

namespace FileSystem

variable {F : Type}

def emit (fs : FileSystem F) (translator : Translator) (path : String) (m : Module) (files : F) :
    Except EmitFault Unit × F :=
  fs.files.emit translator path m files

def emitTree (fs : FileSystem F) (translator : Translator) (path : String) (t : Tree) (files : F) :
    Except BuildFault Unit × F :=
  fs.files.emitTree translator path t files

def emitSource (fs : FileSystem F) (translator : Translator) (path source : String) (files : F) :
    Except BuildFault Unit × F :=
  fs.files.emitSource translator path source files

end FileSystem

end FlowLang
