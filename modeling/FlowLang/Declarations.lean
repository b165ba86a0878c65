import FlowLang.Tree

/-!
# Checking declarations

Every variable is declared once, before its first use, and is assigned only what has its own kind.
A `Checker` looks at the nodes of a tree in post-order. It goes on after a fault, and keeps its
variables and faults when it is given another tree.

`Checker` is `SemanticVisitor`, and `check`, `report` and `reset` are its methods. `examine` is what
`visit` does at a node after its children, with `visit_decl` and `visit_assign`; `kindOfValue?` is
`infer_kind`. `isOk`, `count` and `toExcept` are those of a `CheckReport`, which holds the faults of
the checker at the end of a check. The table of variables is a list where the visitor has a hash
map. A name gets into it once, and no order of it is read.
-/

namespace FlowLang

/-- What is wrong with the use of a variable. -/
inductive DeclarationFault where
  | redeclared (x : String)
  | undeclared (x : String)
  | incorrectKind (x : String) (declared found : Kind)
  deriving DecidableEq

namespace DeclarationFault

/-- The variable in question. -/
def name : DeclarationFault → String
  | .redeclared x | .undeclared x | .incorrectKind x _ _ => x

/-- The fault in one line of text. -/
def message : DeclarationFault → String
  | .redeclared x => s!"redeclared var {x}"
  | .undeclared x => s!"undeclared var {x}"
  | .incorrectKind x declared found =>
    s!"type mismatch: incorrect type assigned to {x} (declared {declared.title}, got {found.title})"

end DeclarationFault

/-- The variables declared so far with their kinds, and the faults found so far. -/
structure Checker where
  kinds : List (String × Kind)
  faults : List DeclarationFault

namespace Checker

/-- Nothing declared, nothing found. -/
def fresh : Checker := ⟨[], []⟩

/-- The kind of a declared variable. -/
def kindOf? (c : Checker) (x : String) : Option Kind := c.kinds.lookup x

def report (c : Checker) (e : DeclarationFault) : Checker := { c with faults := c.faults ++ [e] }

/-- The kind of an assigned expression, as far as it shows at its root: an undeclared variable has
none, and everything but a text literal and a variable is a number. -/
def kindOfValue? (c : Checker) (value : Tree) : Option Kind :=
  match value.node with
  | .text _ => some .text
  | .name x => c.kindOf? x
  | _ => some .number

/-- Looks at the root of a tree. A second declaration does not change the kind of a variable, and an
assignment is compared with its first child only. -/
def examine (c : Checker) (t : Tree) : Checker :=
  match t.node with
  | .declare x kind =>
    if (c.kindOf? x).isSome then c.report (.redeclared x)
    else { c with kinds := (x, kind) :: c.kinds }
  | .name x => if (c.kindOf? x).isSome then c else c.report (.undeclared x)
  | .assign x =>
    match c.kindOf? x with
    | none => c.report (.undeclared x)
    | some declared =>
      match t.children.head?.bind c.kindOfValue? with
      | none => c
      | some found => if declared = found then c else c.report (.incorrectKind x declared found)
  | _ => c

mutual

/-- Looks at every node of a tree, children before their parent. -/
def check (c : Checker) : Tree → Checker
  | .mk n ts => (checkAll c ts).examine (.mk n ts)

/-- Looks at every node of some trees, one after the other. -/
def checkAll (c : Checker) : List Tree → Checker
  | [] => c
  | t :: ts => checkAll (check c t) ts

end

/-- Forgets all variables and faults. -/
def reset (c : Checker) : Checker := { c with kinds := [], faults := [] }

/-- Whether no fault was found. -/
def isOk (c : Checker) : Bool := c.faults.isEmpty

/-- The number of faults. -/
def count (c : Checker) : Nat := c.faults.length

/-- The faults, if there are any. -/
def toExcept (c : Checker) : Except (List DeclarationFault) Unit :=
  if c.faults.isEmpty then .ok () else .error c.faults

end Checker

end FlowLang
