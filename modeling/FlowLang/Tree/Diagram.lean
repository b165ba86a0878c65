import FlowLang.Tree

/-!
# Drawings of trees

A tree as an undirected graph in the DOT language. Nodes are numbered in post-order. Each node has
one line, after the lines of everything below it, and then one line for the edge to each child.

`diagram` is `render` of a `TreeVisualizer`, and `linesFrom` is `render_recursive`, which hands on
the next number and the lines where the visualizer keeps them.
-/

namespace FlowLang.Tree

/-- The line of a node. -/
def nodeLine (id : Nat) (n : Node) : String := s!"n{id}[label=\x22{n.label}\x22];"

/-- The line of an edge from a node to its child. -/
def edgeLine (id child : Nat) : String := s!"n{id} -- n{child};"

mutual

/-- The lines of a tree whose first number is `next`, and the number of its root. -/
def linesFrom (next : Nat) : Tree → List String × Nat
  | mk n ts =>
    let (lines, ids, id) := linesOfAll next ts
    (lines ++ nodeLine id n :: ids.map (edgeLine id), id)

/-- The lines of several trees, the numbers of their roots, and the next free number. -/
def linesOfAll (next : Nat) : List Tree → List String × List Nat × Nat
  | [] => ([], [], next)
  | t :: ts =>
    let (lines, id) := t.linesFrom next
    let (more, ids, free) := linesOfAll (id + 1) ts
    (lines ++ more, id :: ids, free)

end

/-- The lines of the drawing. -/
def diagramLines (t : Tree) : List String := "graph \x7b" :: (t.linesFrom 0).1 ++ ["\x7d"]

/-- The drawing, every line ended by a newline. -/
def diagram (t : Tree) : String := String.join (t.diagramLines.map (· ++ "\n"))

end FlowLang.Tree
