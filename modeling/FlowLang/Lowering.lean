import FlowLang.Graph.Builder
import FlowLang.Graph.Interner
import FlowLang.Scope

/-!
# Lowering trees to flow graphs

`Tree.lower` turns a tree of any shape into a module with one routine. A node gives a value, nothing
if it is a statement, or a fault.

* A fault in a statement list, in the body of a loop or choice, or in a condition is recorded, and
  lowering goes on after it. A condition that failed is replaced by a jump past the body, so every
  block is terminated.
* A module is given out only if no fault was recorded.
* A loop is the blocks `cond`, `body` and `contin`, a condition the same three, and a choice the
  four blocks `cond`, `ifBody`, `elseBody` and `contin`, each with a number of its own.

`Tree.lower` is `generate` of a `Codegen`, which starts from nothing whatever was generated before.
`lowerNode` is `gen_node` with the functions that it calls: `lowerAll` is `gen_stmts`, `valueOf` is
`gen_expr`, `declare` is `gen_decl`, `stepBy` is `gen_step`, `branchOn` is `gen_condition`, `body`
is `gen_body`, `freshLabel` is `new_index`, and `attempt` with the recorded fault is `record`. A
`LoweringFault` is a `CodegenError`. What is logged of a fault is left to `Phase`.
-/

namespace FlowLang

/-- Why a node cannot be lowered. -/
inductive LoweringFault where
  | undeclared (x : String)
  | arity (label : String) (expected found : Nat)
  | unprintable (ty : Ty)
  | noValue (label : String)
  | graph (fault : GraphFault)
  deriving DecidableEq

/-- The fault in one line of text. -/
def LoweringFault.message : LoweringFault → String
  | .undeclared x => s!"undeclared var {x}"
  | .arity label expected found => s!"node `{label}` expects {expected} children, found {found}"
  | .unprintable ty => s!"unable to print value of type {ty.title}"
  | .noValue label => s!"`{label}` does not produce a value"
  | .graph fault => fault.message

/-- A lowering under way. -/
structure Lowering (N : Type := Nat) where
  interner : Interner
  builder : Builder N
  scope : Scope
  faults : List LoweringFault
  nextLabel : Nat

variable {N : Type}

/-- The string constants so far. -/
abbrev Lowering.strings (s : Lowering N) : List String := s.interner.texts

/-- A step of lowering: a result or a fault, and the lowering after it. -/
abbrev Lower (N : Type) := EStateM LoweringFault (Lowering N)

namespace Lower

/-- A step of building the graph. -/
def build {α : Type} (step : Build N α) : Lower N α := fun s =>
  match step s.builder with
  | .ok a b => .ok a { s with builder := b }
  | .error e b => .error (.graph e) { s with builder := b }

/-- Records the fault of a step, and goes on. -/
def attempt {α : Type} (step : Lower N α) : Lower N (Option α) := fun s =>
  match step s with
  | .ok a s => .ok (some a) s
  | .error e s => .ok none { s with faults := s.faults ++ [e] }

/-- The value of a tree that has to have one. -/
def valueOf (t : Tree) (step : Lower N (Option Value)) : Lower N Value := do
  match ← step with
  | some v => return v
  | none => throw (.noValue t.node.label)

/-- A number for the labels of one loop, condition or choice. -/
def freshLabel : Lower N Nat := do
  let s ← get
  set { s with nextLabel := s.nextLabel + 1 }
  return s.nextLabel

/-- The slot of a declared variable. -/
def slotOf (x : String) : Lower N Nat := do
  match (← get).scope.lookup? x with
  | some b => return b.slot
  | none => throw (.undeclared x)

variable [Counter N]

/-- The address of a string constant. -/
def stringConstant (text : String) : Lower N Value := do
  let s ← get
  let (id, interner) := s.interner.intern text
  set { s with interner }
  build (.string id)

/-- The type of the variables of a kind. -/
def typeOf : Kind → Ty
  | .number => .number
  | .text => .pointer

/-- What a variable of a kind holds at first: zero or the empty string. -/
def initial : Kind → Lower N Value
  | .number => build (.constant .zero)
  | .text => stringConstant ""

/-- Gives a variable a slot with its first value. -/
def declare (x : String) (kind : Kind) : Lower N Unit := do
  let value ← initial kind
  let slot ← build (.createSlot x (typeOf kind))
  build (.store slot value)
  modify fun s => { s with scope := s.scope.declare x ⟨slot, kind⟩ }

def load (x : String) : Lower N Value := do
  let slot ← slotOf x
  build (.load slot)

def store (x : String) (v : Value) : Lower N Unit := do
  let slot ← slotOf x
  build (.store slot v)

/-- Prints a number or a text. -/
def print (v : Value) : Lower N Unit :=
  match v.ty with
  | .number => build (.call .number v)
  | .pointer => build (.call .text v)
  | .truth => throw (.unprintable .truth)

/-- Adds one to a value or subtracts it, and stores the result. -/
def stepBy (op : Arithmetic) (x : String) (v : Value) : Lower N Unit := do
  let one ← build (.constant .one)
  let next ← build (.arithmetic op v one)
  store x next

/-- Ends the current block with a branch. If the condition fails, that is recorded and the block
ends with a jump to `no`. -/
def branchOn (test : Lower N Value) (yes no : Nat) : Lower N Unit := do
  let branched ← attempt do
    let v ← test
    build (.branch v yes no)
  if branched.isNone then build (.jump no)

/-- Lowers a body into its own block, which then leads to `next`. -/
def body (block next : Nat) (step : Lower N (Option Value)) : Lower N Unit := do
  build (.switchTo block)
  let _ ← attempt step
  build (.jump next)

end Lower

/-! ## Operators -/

/-- The instruction's operation for an operation of trees. -/
def ArithOp.lower : ArithOp → Arithmetic
  | .add => .add
  | .sub => .sub
  | .mul => .mul
  | .div => .div

/-- The instruction's comparison for a comparison of trees. -/
def RelOp.lower : RelOp → Comparison
  | .eq => .eq
  | .ne => .ne
  | .gt => .gt
  | .lt => .lt
  | .ge => .ge
  | .le => .le

/-- The instruction's connective for a connective of trees. -/
def LogicalOp.lower : LogicalOp → Connective
  | .and => .and
  | .or => .or

namespace Tree

open Lower

variable [Counter N]

mutual

/-- Lowers a tree at the insertion point. -/
def lowerNode : Tree → Lower N (Option Value)
  | mk .program ts => lowerAll none ts
  | mk .block ts => lowerAll none ts
  | mk (.name x) [] => do return some (← load x)
  | mk (.real x) [] => do return some (← build (.constant x))
  | mk (.integer n) [] => do return some (← build (.constant (.ofInt n)))
  | mk (.text s) [] => do return some (← stringConstant s)
  | mk (.declare x kind) [] => do
    declare x kind
    return none
  | mk (.assign x) [e] => do
    let v ← valueOf e (lowerNode e)
    store x v
    return none
  | mk .print [e] => do
    let v ← valueOf e (lowerNode e)
    print v
    return none
  | mk (.arithmetic op) [l, r] => do
    let lhs ← valueOf l (lowerNode l)
    let rhs ← valueOf r (lowerNode r)
    return some (← build (.arithmetic op.lower lhs rhs))
  | mk (.increment x) [e] => do
    let v ← valueOf e (lowerNode e)
    stepBy .add x v
    return none
  | mk (.decrement x) [e] => do
    let v ← valueOf e (lowerNode e)
    stepBy .sub x v
    return none
  | mk .loop [c, b] => do
    let i ← freshLabel
    let test ← build (.createBlock s!"cond{i}")
    let inside ← build (.createBlock s!"body{i}")
    let after ← build (.createBlock s!"contin{i}")
    build (.jump test)
    build (.switchTo test)
    branchOn (valueOf c (lowerNode c)) inside after
    body inside test (lowerNode b)
    build (.switchTo after)
    return none
  | mk .condition [c, b] => do
    let i ← freshLabel
    let test ← build (.createBlock s!"cond{i}")
    let inside ← build (.createBlock s!"body{i}")
    let after ← build (.createBlock s!"contin{i}")
    build (.jump test)
    build (.switchTo test)
    branchOn (valueOf c (lowerNode c)) inside after
    body inside after (lowerNode b)
    build (.switchTo after)
    return none
  | mk .choice [c, b, e] => do
    let i ← freshLabel
    let test ← build (.createBlock s!"cond{i}")
    let yes ← build (.createBlock s!"ifBody{i}")
    let no ← build (.createBlock s!"elseBody{i}")
    let after ← build (.createBlock s!"contin{i}")
    build (.jump test)
    build (.switchTo test)
    branchOn (valueOf c (lowerNode c)) yes no
    body yes after (lowerNode b)
    body no after (lowerNode e)
    build (.switchTo after)
    return none
  | mk (.compare op) [l, r] => do
    let lhs ← valueOf l (lowerNode l)
    let rhs ← valueOf r (lowerNode r)
    return some (← build (.compare op.lower lhs rhs))
  | mk (.connect op) [l, r] => do
    let lhs ← valueOf l (lowerNode l)
    let rhs ← valueOf r (lowerNode r)
    return some (← build (.connect op.lower lhs rhs))
  | mk .negate [e] => do
    let v ← valueOf e (lowerNode e)
    return some (← build (.negate v))
  | mk n ts => throw (.arity n.label (n.arity?.getD 0) ts.length)

/-- Lowers trees one after the other, recording their faults. The value is that of the last one. -/
def lowerAll (last : Option Value) : List Tree → Lower N (Option Value)
  | [] => return last
  | t :: ts => do
    let v ← attempt (lowerNode t)
    lowerAll v.join ts

end

/-- Lowers a whole program into a block `entry`, and returns zero at its end. -/
def lowerProgram (t : Tree) : Lower N Unit := do
  let entry ← build (.createBlock "entry")
  build (.switchTo entry)
  let _ ← attempt t.lowerNode
  let _ ← attempt (build (.ret 0))

end Tree

/-- What lowering a program gives: a module or all faults, and the variables of the program. -/
structure Lowered where
  result : Except (List LoweringFault) Module
  scope : Scope

namespace Lowering

/-- Nothing lowered yet. -/
def start [Counter N] : Lowering N := ⟨.empty, .start "main", .empty, [], 0⟩

/-- The module, if no fault was recorded and all blocks are terminated. -/
def finish (s : Lowering N) : Except (List LoweringFault) Module :=
  if s.faults.isEmpty then
    match s.builder.graph.verify with
    | .ok () => .ok ⟨"emj", s.strings, s.builder.graph⟩
    | .error e => .error [.graph e]
  else .error s.faults

end Lowering

/-- Lowers a tree of any shape. -/
def Tree.lower (t : Tree) (N : Type := Nat) [Counter N] : Lowered :=
  match t.lowerProgram (Lowering.start : Lowering N) with
  | .ok () s => ⟨s.finish, s.scope⟩
  | .error e s => ⟨.error [e], s.scope⟩

end FlowLang
