import FlowLang.Operator

/-!
# Flow graphs

A module holds string constants and one routine, which is a graph of blocks. A block is a list of
instructions and then at most one terminator, which says where control goes next. Variables live in
slots. Instructions compute values, which are numbered over the whole routine.

Nothing here forces a graph to make sense. `Graph.verify` says whether all blocks are terminated and
all targets exist.

A `Graph` is a `Function`, with `Block`, `StackSlot` (`Slot`), `Inst` (`Instr`) and `Terminator`;
`Ty` is `Type`, `Printer` is `Runtime`, and `GraphFault` is `IrError`. `successors`, `predecessors`,
`blockByLabel?` and `verify` are its methods. The numbers of blocks, slots and strings are natural
numbers here, without the limit of a machine word. So is the index of a value, which has 32 bits in
the program; `Counter` is about that.
-/

namespace FlowLang

/-- The types of values. -/
inductive Ty where
  | number | pointer | truth
  deriving DecidableEq

/-- The type's name in listings and messages. -/
def Ty.title : Ty → String
  | .number => "f64"
  | .pointer => "ptr"
  | .truth => "bool"

/-- The result of an instruction, by its number. -/
structure Value where
  index : Nat
  ty : Ty
  deriving DecidableEq

/-- The routines outside of the module that print one line. -/
inductive Printer where
  | number | text
  deriving DecidableEq

/-- The name under which a printer is linked. -/
def Printer.symbol : Printer → String
  | .number => "emj_print_float"
  | .text => "emj_print_str"

/-- The type of a printer's argument. -/
def Printer.parameter : Printer → Ty
  | .number => .number
  | .text => .pointer

inductive Instr where
  | constant (dest : Value) (x : Binary64)
  | string (dest : Value) (id : Nat)
  | load (dest : Value) (slot : Nat)
  | store (slot : Nat) (value : Value)
  | arithmetic (dest : Value) (op : Arithmetic) (lhs rhs : Value)
  | compare (dest : Value) (op : Comparison) (lhs rhs : Value)
  | connect (dest : Value) (op : Connective) (lhs rhs : Value)
  | negate (dest operand : Value)
  | call (callee : Printer) (args : List Value)
  deriving DecidableEq

/-- What ends a block. -/
inductive Terminator where
  | jump (target : Nat)
  | branch (test : Value) (yes no : Nat)
  | ret (code : Int)
  deriving DecidableEq

/-- The blocks to which a terminator may lead, one entry per edge. -/
def Terminator.successors : Terminator → List Nat
  | .jump target => [target]
  | .branch _ yes no => [yes, no]
  | .ret _ => []

/-- The place of a variable. -/
structure Slot where
  name : String
  ty : Ty
  deriving DecidableEq

structure Block where
  label : String
  instrs : List Instr
  exit? : Option Terminator
  deriving DecidableEq

/-- Control starts at the first block. -/
structure Graph where
  name : String
  slots : List Slot
  blocks : List Block
  deriving DecidableEq

structure Module where
  name : String
  strings : List String
  graph : Graph
  deriving DecidableEq

/-- Where an operand has the wrong type. -/
inductive Use where
  | arithmetic | comparison | connective | negation | store | branch
  | call (callee : Printer)
  deriving DecidableEq

def Use.title : Use → String
  | .arithmetic => "arithmetic"
  | .comparison => "comparison"
  | .connective => "logical"
  | .negation => "not"
  | .store => "store"
  | .branch => "branch"
  | .call callee => callee.symbol

/-- What is wrong with a graph, or with a step of building one. -/
inductive GraphFault where
  | noInsertionPoint
  | blockTerminated (label : String)
  | missingTerminator (label : String)
  | unknownBlock (index : Nat)
  | unknownSlot (index : Nat)
  | typeMismatch (use : Use) (expected found : Ty)
  deriving DecidableEq

/-- The fault in one line of text. -/
def GraphFault.message : GraphFault → String
  | .noInsertionPoint => "no insertion point set"
  | .blockTerminated label => s!"block {label} already has a terminator"
  | .missingTerminator label => s!"block {label} has no terminator"
  | .unknownBlock index => s!"unknown block #{index}"
  | .unknownSlot index => s!"unknown stack slot #{index}"
  | .typeMismatch use expected found =>
    s!"{use.title}: expected operand of type {expected.title}, found {found.title}"

namespace Graph

/-- The index of the first block with a label. -/
def blockByLabel? (g : Graph) (label : String) : Option Nat :=
  g.blocks.findIdx? (·.label = label)

/-- The blocks to which a block leads, one entry per edge. -/
def successors (g : Graph) (i : Nat) : List Nat :=
  match g.blocks[i]?.bind (·.exit?) with
  | some t => t.successors
  | none => []

/-- The blocks that lead to a block in increasing order, one entry per edge. -/
def predecessors (g : Graph) (i : Nat) : List Nat :=
  (List.range g.blocks.length).flatMap fun j =>
    (g.successors j).filterMap fun k => if k = i then some j else none

/-- The first of some targets that is no block of the graph. -/
def missingTarget? (g : Graph) (t : Terminator) : Option Nat :=
  t.successors.find? (g.blocks.length ≤ ·)

/-- Whether a block of the graph is terminated and leads to blocks of the graph only. -/
def verifyBlock (g : Graph) (b : Block) : Except GraphFault Unit :=
  match b.exit? with
  | none => .error (.missingTerminator b.label)
  | some t =>
    match g.missingTarget? t with
    | some i => .error (.unknownBlock i)
    | none => .ok ()

/-- Looks at the blocks in order, and stops at the first fault. -/
def verify (g : Graph) : Except GraphFault Unit := g.blocks.forM g.verifyBlock

end Graph

end FlowLang
