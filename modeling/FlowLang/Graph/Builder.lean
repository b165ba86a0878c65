import FlowLang.Graph.Basic
import FlowLang.Graph.Counter

/-!
# Building flow graphs

A `Builder` is a graph under construction with an insertion point, the block to which instructions
are added. It renders `FunctionBuilder`, operation by operation. The operations check what they are
given: operands have the right types, slots and blocks exist, and nothing is added to a block that
is terminated. An operation that fails changes nothing.

An operation that computes a value (`Build.define`) asks for an open block, takes the next number,
and then adds its instruction, which asks for an open block once more. The numbers come from a
register of any kind (`Counter`), natural numbers where nothing else is said. A value shows its
number as a natural number.
-/

namespace FlowLang

/-- A graph under construction. -/
structure Builder (N : Type := Nat) where
  graph : Graph
  current? : Option Nat
  nextValue : N

variable {N : Type}

namespace Builder

/-- An empty graph. -/
def start [Counter N] (name : String) : Builder N := ⟨⟨name, [], []⟩, none, Counter.first⟩

/-- Changes one block. -/
def modifyBlock (b : Builder N) (i : Nat) (f : Block → Block) : Builder N :=
  { b with graph := { b.graph with blocks := b.graph.blocks.modify i f } }

/-- The insertion point, if instructions can be added there. -/
def openBlock (b : Builder N) : Except GraphFault Nat :=
  match b.current? with
  | none => .error .noInsertionPoint
  | some i =>
    match b.graph.blocks[i]? with
    | none => .error (.unknownBlock i)
    | some block => if block.exit?.isSome then .error (.blockTerminated block.label) else .ok i

end Builder

/-- A step of building: a result or a fault, and the builder after it. -/
abbrev Build (N : Type) := EStateM GraphFault (Builder N)

namespace Build

/-! ## Blocks and slots -/

/-- Adds a block and gives its index. The insertion point stays. -/
def createBlock (label : String) : Build N Nat := do
  let b ← get
  let block : Block := ⟨label, [], none⟩
  set { b with graph := { b.graph with blocks := b.graph.blocks ++ [block] } }
  return b.graph.blocks.length

/-- Moves the insertion point. -/
def switchTo (i : Nat) : Build N Unit := do
  let b ← get
  if i < b.graph.blocks.length then set { b with current? := some i }
  else throw (.unknownBlock i)

/-- Adds a slot and gives its index. -/
def createSlot (name : String) (ty : Ty) : Build N Nat := do
  let b ← get
  let slot : Slot := ⟨name, ty⟩
  set { b with graph := { b.graph with slots := b.graph.slots ++ [slot] } }
  return b.graph.slots.length

/-- The type of a slot. -/
def slotType (i : Nat) : Build N Ty := do
  let b ← get
  match b.graph.slots[i]? with
  | some slot => return slot.ty
  | none => throw (.unknownSlot i)

/-! ## Instructions -/

/-- Refuses an operand of the wrong type. -/
def require (use : Use) (v : Value) (ty : Ty) : Build N Unit :=
  if v.ty = ty then return () else throw (.typeMismatch use ty v.ty)

/-- Refuses to go on without an open block. -/
def requireOpen : Build N Unit := do
  match (← get).openBlock with
  | .ok _ => return ()
  | .error e => throw e

/-- Adds an instruction to the open block. -/
def append (instr : Instr) : Build N Unit := do
  let b ← get
  match b.openBlock with
  | .ok i => set (b.modifyBlock i fun block => { block with instrs := block.instrs ++ [instr] })
  | .error e => throw e

variable [Counter N]

/-- A value with the next number. -/
def newValue (ty : Ty) : Build N Value := do
  let b ← get
  set { b with nextValue := Counter.next b.nextValue }
  return ⟨Counter.index b.nextValue, ty⟩

/-- Adds an instruction that computes a value of a type. -/
def define (ty : Ty) (instr : Value → Instr) : Build N Value := do
  requireOpen
  let dest ← newValue ty
  append (instr dest)
  return dest

def constant (x : Binary64) : Build N Value := define .number (.constant · x)

def string (id : Nat) : Build N Value := define .pointer (.string · id)

def load (slot : Nat) : Build N Value := do
  let ty ← slotType slot
  define ty (.load · slot)

def store (slot : Nat) (v : Value) : Build N Unit := do
  let ty ← slotType slot
  require .store v ty
  append (.store slot v)

def arithmetic (op : Arithmetic) (lhs rhs : Value) : Build N Value := do
  require .arithmetic lhs .number
  require .arithmetic rhs .number
  define .number (.arithmetic · op lhs rhs)

def compare (op : Comparison) (lhs rhs : Value) : Build N Value := do
  require .comparison lhs .number
  require .comparison rhs .number
  define .truth (.compare · op lhs rhs)

def connect (op : Connective) (lhs rhs : Value) : Build N Value := do
  require .connective lhs .truth
  require .connective rhs .truth
  define .truth (.connect · op lhs rhs)

def negate (operand : Value) : Build N Value := do
  require .negation operand .truth
  define .truth (.negate · operand)

def call (callee : Printer) (arg : Value) : Build N Unit := do
  require (.call callee) arg callee.parameter
  append (.call callee [arg])

/-! ## Terminators -/

/-- Ends the current block. -/
def terminate (t : Terminator) : Build N Unit := do
  let b ← get
  match b.graph.missingTarget? t with
  | some i => throw (.unknownBlock i)
  | none =>
    match b.openBlock with
    | .ok i => set (b.modifyBlock i fun block => { block with exit? := some t })
    | .error e => throw e

def jump (target : Nat) : Build N Unit := terminate (.jump target)

def branch (test : Value) (yes no : Nat) : Build N Unit := do
  require .branch test .truth
  terminate (.branch test yes no)

def ret (code : Int) : Build N Unit := terminate (.ret code)

end Build

end FlowLang
