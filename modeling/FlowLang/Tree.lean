import FlowLang.Decimal.Layout

/-!
# Syntax trees

A tree is a node with any number of children. Trees read from a source always have the number of
children that their node expects (`Node.arity?`); trees put together by hand need not, and nothing
in this module depends on it.

* `Node.label` is the text that stands for a node in a drawing and in messages.
* `Tree.postorder` and `Tree.preorder` list all subtrees, children before or after their parent.

A `Tree` renders `Node`, and `Node` here renders `NodeKind`. `Node.arity?` is `expected_arity`,
`Node.label` is `label`, and `escapeLabel` is what `escape_label` does to one character. The
functions that make a node of each kind (`while_loop`, `if_then`, ...) are not rendered: they are
`Tree.mk` at that node.
-/

namespace FlowLang

/-- The two kinds of variables. -/
inductive Kind where
  | number | text
  deriving DecidableEq

/-- The kind's name in messages. -/
def Kind.title : Kind → String
  | .number => "NUM"
  | .text => "STR"

/-- The operations on numbers of trees. -/
inductive ArithOp where
  | add | sub | mul | div
  deriving DecidableEq

/-- The comparisons of trees. -/
inductive RelOp where
  | eq | ne | gt | lt | ge | le
  deriving DecidableEq

/-- The connectives of trees. Negation, which has one operand, is a node of its own. -/
inductive LogicalOp where
  | and | or
  deriving DecidableEq

/-- What a tree is at its root. -/
inductive Node where
  | program
  | block
  | name (x : String)
  | real (value : Binary64)
  | integer (value : Int)
  | text (value : String)
  | assign (x : String)
  | declare (x : String) (kind : Kind)
  | print
  | arithmetic (op : ArithOp)
  | increment (x : String)
  | decrement (x : String)
  | loop
  | condition
  | choice
  | compare (op : RelOp)
  | connect (op : LogicalOp)
  | negate
  deriving DecidableEq

namespace Node

/-- How many children the node expects; `none` if any number will do. -/
def arity? : Node → Option Nat
  | .program | .block => none
  | .name _ | .real _ | .integer _ | .text _ | .declare _ _ => some 0
  | .assign _ | .print | .increment _ | .decrement _ | .negate => some 1
  | .arithmetic _ | .compare _ | .connect _ | .loop | .condition => some 2
  | .choice => some 3

/-- A character of a text literal inside a label. -/
def escapeLabel (c : Char) : List Char :=
  if c = '\\' then ['\\', '\\']
  else if c = '\x22' then ['\\', '\x22']
  else if c = '\n' then ['\\', 'n']
  else if c = '\t' then ['\\', 't']
  else [c]

/-- The label of a text literal: escaped, between escaped quotation marks. -/
def textLabel (s : String) : String :=
  String.ofList ('\\' :: '\x22' :: s.toList.flatMap escapeLabel ++ ['\\', '\x22'])

/-- The text that stands for the node. -/
def label : Node → String
  | .program => "program"
  | .block => "stmts"
  | .name x => x
  | .real value => value.fixed 6
  | .integer value => toString value
  | .text value => textLabel value
  | .assign x => x ++ "="
  | .declare x kind => kind.title ++ " " ++ x
  | .print => "print"
  | .arithmetic .add => "+"
  | .arithmetic .sub => "-"
  | .arithmetic .mul => "*"
  | .arithmetic .div => "/"
  | .increment _ => "++"
  | .decrement _ => "--"
  | .loop => "while"
  | .condition => "if"
  | .choice => "ifElse"
  | .compare .eq => "="
  | .compare .ne => "!="
  | .compare .gt => ">"
  | .compare .lt => "<"
  | .compare .ge => ">="
  | .compare .le => "<="
  | .connect .and => "&&"
  | .connect .or => "||"
  | .negate => "!"

end Node

/-- A syntax tree. -/
inductive Tree where
  | mk (node : Node) (children : List Tree)

namespace Tree

/-- What the tree is at its root. -/
def node : Tree → Node
  | mk n _ => n

/-- The trees below the root. -/
def children : Tree → List Tree
  | mk _ ts => ts

mutual

/-- Whether two trees are the same. -/
def decEq : (s t : Tree) → Decidable (s = t)
  | mk m ss, mk n ts =>
    if h : m = n then
      match decEqAll ss ts with
      | .isTrue e => .isTrue (by rw [h, e])
      | .isFalse e => .isFalse fun eq => e (by cases eq; rfl)
    else .isFalse fun eq => h (by cases eq; rfl)

/-- Whether two lists of trees are the same. -/
def decEqAll : (ss ts : List Tree) → Decidable (ss = ts)
  | [], [] => .isTrue rfl
  | [], _ :: _ => .isFalse (by simp)
  | _ :: _, [] => .isFalse (by simp)
  | s :: ss, t :: ts =>
    match decEq s t, decEqAll ss ts with
    | .isTrue h, .isTrue e => .isTrue (by rw [h, e])
    | .isFalse h, _ => .isFalse fun eq => h (by cases eq; rfl)
    | _, .isFalse h => .isFalse fun eq => h (by cases eq; rfl)

end

instance : DecidableEq Tree := decEq

mutual

/-- All subtrees, each after those below it. -/
def postorder : Tree → List Tree
  | mk n ts => postorderAll ts ++ [mk n ts]

/-- All subtrees of a list of trees, each after those below it. -/
def postorderAll : List Tree → List Tree
  | [] => []
  | t :: ts => t.postorder ++ postorderAll ts

end

theorem postorderAll_eq (ts : List Tree) : postorderAll ts = ts.flatMap postorder := by
  induction ts with
  | nil => rw [postorderAll, List.flatMap_nil]
  | cons t ts ih => rw [postorderAll, ih, List.flatMap_cons]

mutual

/-- All subtrees, each before those below it. -/
def preorder : Tree → List Tree
  | mk n ts => mk n ts :: preorderAll ts

/-- All subtrees of a list of trees, each before those below it. -/
def preorderAll : List Tree → List Tree
  | [] => []
  | t :: ts => t.preorder ++ preorderAll ts

end

end Tree

end FlowLang
