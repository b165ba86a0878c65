import FlowLang.Graph.Listing

/-!
# Object files

What an object file shows to a linker: the printers that it needs, the routine that it offers, and
the string constants as data. A module is checked before: its graph is verified and not empty, the
slots and strings that it uses exist, and every operand is computed by an instruction further up.

`check` is what `emit` of `ObjectBackend` checks, part of it before and part while the function is
translated (`lower`, `lower_inst`, `get`); here it is a pass of its own. `symbolsOf` is what
`define_strings` and `declare_runtime_imports` declare. The code itself is left to the translator
(`Emission`).
-/

namespace FlowLang

/-- Why a module cannot be made into an object file. -/
inductive ObjectFault where
  | graph (fault : GraphFault)
  | noBlocks (name : String)
  | unknownString (id : Nat)
  | unknownSlot (index : Nat)
  | undefinedValue (v : Value)
  deriving DecidableEq

/-- The fault in one line of text. -/
def ObjectFault.message (e : ObjectFault) : String :=
  "invalid IR: " ++
    match e with
    | .graph fault => fault.message
    | .noBlocks name => s!"function {name} has no blocks"
    | .unknownString id => s!"unknown string constant {stringListing id}"
    | .unknownSlot index => s!"unknown stack slot #{index}"
    | .undefinedValue v => s!"use of undefined value {v.listing}"

/-- What a name in an object file stands for. -/
inductive Linkage where
  | imported
  | exported
  | data (bytes : List UInt8)
  deriving DecidableEq

/-- The names in an object file. -/
structure Object where
  symbols : List (String × Linkage)

namespace Object

/-- The numbers of the values that are computed so far. -/
abbrev Defined := List Nat

/-- Refuses a value that is not computed yet. -/
def checkValue (defined : Defined) (v : Value) : Except ObjectFault Unit :=
  if v.index ∈ defined then .ok () else .error (.undefinedValue v)

def checkSlot (m : Module) (slot : Nat) : Except ObjectFault Unit :=
  if slot < m.graph.slots.length then .ok () else .error (.unknownSlot slot)

def checkString (m : Module) (id : Nat) : Except ObjectFault Unit :=
  if id < m.strings.length then .ok () else .error (.unknownString id)

/-- Checks an instruction, and adds what it computes. -/
def checkInstr (m : Module) (defined : Defined) : Instr → Except ObjectFault Defined
  | .constant dest _ => .ok (dest.index :: defined)
  | .string dest id => do
    checkString m id
    return dest.index :: defined
  | .load dest slot => do
    checkSlot m slot
    return dest.index :: defined
  | .store slot value => do
    checkValue defined value
    checkSlot m slot
    return defined
  | .arithmetic dest _ lhs rhs | .compare dest _ lhs rhs | .connect dest _ lhs rhs => do
    checkValue defined lhs
    checkValue defined rhs
    return dest.index :: defined
  | .negate dest operand => do
    checkValue defined operand
    return dest.index :: defined
  | .call _ args => do
    args.forM (checkValue defined)
    return defined

def checkExit (defined : Defined) : Option Terminator → Except ObjectFault Unit
  | some (.branch test _ _) => checkValue defined test
  | _ => .ok ()

/-- Checks the instructions of a block in order, and then its terminator. -/
def checkBlock (m : Module) (defined : Defined) (b : Block) : Except ObjectFault Defined := do
  let defined ← b.instrs.foldlM (checkInstr m) defined
  checkExit defined b.exit?
  return defined

/-- All checks, and the first fault that they find. -/
def check (m : Module) : Except ObjectFault Unit := do
  match m.graph.verify with
  | .error e => throw (.graph e)
  | .ok () =>
    if m.graph.blocks.isEmpty then throw (.noBlocks m.graph.name)
    let _ ← m.graph.blocks.foldlM (checkBlock m) []

/-- The name of the data of a string constant. -/
def stringName (i : Nat) : String := s!"__emj_str{i}"

/-- The data of a string constant: its UTF-8 bytes and a zero byte. -/
def stringData (s : String) : List UInt8 := s.toUTF8.data.toList ++ [0]

/-- The names in the object file of a module. -/
def symbolsOf (m : Module) : List (String × Linkage) :=
  [(Printer.number.symbol, .imported), (Printer.text.symbol, .imported),
    (m.graph.name, .exported)] ++
    m.strings.zipIdx.map fun (s, i) => (stringName i, .data (stringData s))

/-- The object file of a module. -/
def ofModule (m : Module) : Except ObjectFault Object := do
  check m
  return ⟨symbolsOf m⟩

/-- The message of a failure to write an object file for a reason. -/
def writeMessage (reason : String) : String := "failed to write object file: " ++ reason

/-- One line for each name: how it is linked, the name, and the bytes of data in decimal. -/
def listing (o : Object) : String :=
  String.join (o.symbols.map fun (name, linkage) =>
    match linkage with
    | .imported => s!"import {name}\n"
    | .exported => s!"export {name}\n"
    | .data bytes => s!"local {name} = {bytes}\n")

end Object

end FlowLang
