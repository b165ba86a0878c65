import FlowLang.Graph.Builder
import FlowLang.Graph.Interner

/-!
# Building operations as data

A module can be built by any list of operations, in any order and with any operands. A `Draft` is
the module so far. An operation that fails is answered with its fault, and the next one goes on.

An `Operation` is a call of a method of `FunctionBuilder`, or of `intern_string` of `ModuleBuilder`,
with its arguments. `Draft.apply` makes the call, and `Draft.toModule` is what the two `build` give
together.
-/

namespace FlowLang

/-- A step in building a module. -/
inductive Operation where
  | intern (text : String)
  | createBlock (label : String)
  | switchTo (block : Nat)
  | createSlot (name : String) (ty : Ty)
  | slotType (slot : Nat)
  | constant (x : Binary64)
  | string (id : Nat)
  | load (slot : Nat)
  | store (slot : Nat) (v : Value)
  | arithmetic (op : Arithmetic) (lhs rhs : Value)
  | compare (op : Comparison) (lhs rhs : Value)
  | connect (op : Connective) (lhs rhs : Value)
  | negate (operand : Value)
  | call (callee : Printer) (arg : Value)
  | jump (target : Nat)
  | branch (test : Value) (yes no : Nat)
  | ret (code : Int)
  deriving DecidableEq

/-- The answer to an operation that did not fail. -/
inductive Reply where
  | done
  | index (i : Nat)
  | ty (t : Ty)
  | value (v : Value)
  deriving DecidableEq

/-- String constants and a graph under construction. -/
structure Draft (N : Type := Nat) where
  interner : Interner
  builder : Builder N

namespace Draft

variable {N : Type}

/-- The texts so far. -/
abbrev strings (d : Draft N) : List String := d.interner.texts

/-- A step of building the graph. -/
def build {α : Type} (d : Draft N) (step : Build N α) (reply : α → Reply) :
    Except GraphFault Reply × Draft N :=
  match step d.builder with
  | .ok a b => (.ok (reply a), { d with builder := b })
  | .error e b => (.error e, { d with builder := b })

/-- The module as it is now. -/
def toModule (d : Draft N) (name : String) : Module := ⟨name, d.strings, d.builder.graph⟩

variable [Counter N]

/-- Nothing but the name of the routine. -/
def start (name : String) : Draft N := ⟨.empty, .start name⟩

/-- Does an operation. -/
def apply (d : Draft N) : Operation → Except GraphFault Reply × Draft N
  | .intern text =>
    let (id, interner) := d.interner.intern text
    (.ok (.index id), { d with interner })
  | .createBlock label => d.build (.createBlock label) .index
  | .switchTo block => d.build (.switchTo block) fun _ => .done
  | .createSlot name ty => d.build (.createSlot name ty) .index
  | .slotType slot => d.build (.slotType slot) .ty
  | .constant x => d.build (.constant x) .value
  | .string id => d.build (.string id) .value
  | .load slot => d.build (.load slot) .value
  | .store slot v => d.build (.store slot v) fun _ => .done
  | .arithmetic op lhs rhs => d.build (.arithmetic op lhs rhs) .value
  | .compare op lhs rhs => d.build (.compare op lhs rhs) .value
  | .connect op lhs rhs => d.build (.connect op lhs rhs) .value
  | .negate operand => d.build (.negate operand) .value
  | .call callee arg => d.build (.call callee arg) fun _ => .done
  | .jump target => d.build (.jump target) fun _ => .done
  | .branch test yes no => d.build (.branch test yes no) fun _ => .done
  | .ret code => d.build (.ret code) fun _ => .done

end Draft

end FlowLang
