import FlowLang.Proofs.Labels

/-!
# What a drawing shows

Between its first and its last line a drawing (`render` of a `TreeVisualizer`) has a line for each
node and a line for each edge. The node at the end of a path from the root is numbered by its place
among all nodes in post-order.

* `Stroke`: what such a line says. It can be read from the text of the line
  (`Stroke.text_injective`).
* `Tree.nodes`: the nodes of a tree in post-order, each with the path to it. No node comes before
  one below it (`Tree.pairwise_nodes`), and the paths to children are the paths to all nodes but the
  root (`Tree.perm_childPaths`).
* `Tree.diagramLines_eq`: the lines are those of the nodes in this order, each node with its edges.
* `Tree.foldl_push_code`: labels and numbers of children in post-order are enough to put the tree
  together again.
* **`Tree.diagram_faithful`**: a drawing shows all nodes and edges once, and determines shape and
  labels.
* **`Tree.diagram_quoted`**: in a drawing of a tree that was read, each node is one well-formed
  quoted attribute.
-/

namespace FlowLang

/-! ## Lines -/

/-- What a line of a drawing shows: a node and its label, or the edge from a node to its child. -/
inductive Stroke where
  | node (id : Nat) (label : String)
  | edge (id child : Nat)
  deriving DecidableEq

namespace Stroke

def text : Stroke → String
  | node id label => s!"n{id}[label=\x22{label}\x22];"
  | edge id child => s!"n{id} -- n{child};"

/-- The number with which the line begins. -/
def id : Stroke → Nat
  | node id _ | edge id _ => id

/-- What follows the number. -/
def tail : Stroke → List Char
  | node _ label => '[' :: ("label=\x22".toList ++ label.toList ++ "\x22];".toList)
  | edge _ child => ' ' :: ("-- n".toList ++ Nat.toDigits 10 child ++ [';'])

/-- The node that the line shows. -/
def node? : Stroke → Option (Nat × String)
  | node id label => some (id, label)
  | edge _ _ => none

/-- The child to which the line leads. -/
def child? : Stroke → Option Nat
  | node _ _ => none
  | edge _ child => some child

theorem toList_text (l : Stroke) : l.text.toList = 'n' :: (Nat.toDigits 10 l.id ++ l.tail) := by
  cases l <;> simp [text, id, tail, toString]

/-- **A line says what it shows.** -/
theorem text_injective : Function.Injective text := by
  intro l l' h
  have hdigits : ∀ n, ∀ c ∈ Nat.toDigits 10 n, c.isDigit :=
    fun n c hc => Nat.isDigit_of_mem_toDigits (by omega) (by omega) hc
  have htail : ∀ l : Stroke, ∀ c ∈ l.tail.head?, c.isDigit = false := by
    rintro (_ | _) _ ⟨⟩ <;> rfl
  have hl := congrArg String.toList h
  rw [toList_text, toList_text] at hl
  obtain ⟨hid, hrest⟩ :=
    append_inj_of_run (hdigits _) (hdigits _) (htail l) (htail l') (List.cons.inj hl).2
  have hid := toDigits_inj (by omega) (by omega) hid
  cases l with
  | node i label =>
    cases l' with
    | node j label' =>
      have hlabel := List.append_cancel_left (List.append_cancel_right (List.cons.inj hrest).2)
      exact congrArg₂ node hid (String.toList_inj.mp hlabel)
    | edge j child => exact absurd (List.cons.inj hrest).1 (by decide)
  | edge i child =>
    cases l' with
    | node j label => exact absurd (List.cons.inj hrest).1 (by decide)
    | edge j child' =>
      have hchild := List.append_cancel_left (List.append_cancel_right (List.cons.inj hrest).2)
      exact congrArg₂ edge hid (toDigits_inj (by omega) (by omega) hchild)

theorem oneLine_text {l : Stroke} (h : ∀ id label, l = node id label → OneLine label) :
    OneLine l.text := by
  cases l with
  | node i label =>
    have hlabel : '\n' ∉ label.toList := h i label rfl
    simp [OneLine, text, toString, hlabel]
  | edge i child => simp [OneLine, text, toString]

/-- The text of a drawing with these lines. -/
def sheet (ls : List Stroke) : String :=
  String.join (("graph \x7b" :: ls.map text ++ ["\x7d"]).map (· ++ "\n"))

/-- **The lines of a drawing can be read from its text.** -/
theorem sheet_inj {ls ls' : List Stroke} (hl : ∀ l ∈ ls, OneLine l.text)
    (hl' : ∀ l ∈ ls', OneLine l.text) (h : sheet ls = sheet ls') : ls = ls' := by
  have hlines : ∀ {ls : List Stroke}, (∀ l ∈ ls, OneLine l.text) →
      ∀ line ∈ "graph \x7b" :: ls.map text ++ ["\x7d"], OneLine line := by
    intro ls hl
    refine List.forall_mem_append.mpr ⟨List.forall_mem_cons.mpr ⟨by simp [OneLine], ?_⟩,
      by simp [OneLine]⟩
    exact List.forall_mem_map.mpr hl
  have heq := lines_inj (hlines hl) (hlines hl') h
  exact List.map_injective_iff.mpr text_injective (List.append_cancel_right (List.cons.inj heq).2)

end Stroke

namespace Tree

/-! ## Nodes in post-order -/

/-- The subtree at the end of a path of child numbers. -/
def at? : Tree → List Nat → Option Tree
  | t, [] => some t
  | t, i :: path => t.children[i]?.bind fun u => u.at? path

/-- A node of the `i`th child. -/
def inChild (i : Nat) (x : List Nat × Tree) : List Nat × Tree := (i :: x.1, x.2)

mutual

/-- The nodes in post-order: the path to each, and the subtree there. -/
def nodes : Tree → List (List Nat × Tree)
  | mk n ts => nodesFrom 0 ts ++ [([], mk n ts)]

/-- The nodes of several trees, which are children from the `i`th on. -/
def nodesFrom (i : Nat) : List Tree → List (List Nat × Tree)
  | [] => []
  | t :: ts => t.nodes.map (inChild i) ++ nodesFrom (i + 1) ts

end

/-- The number of the node at the end of a path. -/
def number (t : Tree) (path : List Nat) : Nat := (t.nodes.map Prod.fst).idxOf path

theorem map_nodes (t : Tree) : t.nodes.map (·.2) = t.postorder := by
  refine postorder.induct (fun t => t.nodes.map (·.2) = t.postorder)
    (fun ts => ∀ i, (nodesFrom i ts).map (·.2) = postorderAll ts) (fun n ts ih => ?_) (fun i => ?_)
    (fun t ts ih ihs i => ?_) t
  · rw [nodes, postorder, List.map_append, ih 0]
    rfl
  · rw [nodesFrom, postorderAll, List.map_nil]
  · rw [nodesFrom, postorderAll, List.map_append, ihs, List.map_map, ← ih]
    rfl

theorem length_nodes (t : Tree) : t.nodes.length = t.postorder.length := by
  rw [← map_nodes, List.length_map]

theorem mem_nodesFrom {i : Nat} {ts : List Tree} {x : List Nat × Tree} :
    x ∈ nodesFrom i ts ↔ ∃ j t y, ts[j]? = some t ∧ y ∈ t.nodes ∧ x = inChild (i + j) y := by
  induction ts generalizing i with
  | nil => simp [nodesFrom]
  | cons t ts ih =>
    rw [nodesFrom, List.mem_append, List.mem_map, ih]
    constructor
    · rintro (⟨y, hy, rfl⟩ | ⟨j, u, y, hu, hy, rfl⟩)
      · exact ⟨0, t, y, rfl, hy, rfl⟩
      · exact ⟨j + 1, u, y, hu, hy, by rw [Nat.add_right_comm, Nat.add_assoc]⟩
    · rintro ⟨_ | j, u, y, hu, hy, rfl⟩
      · cases hu
        exact .inl ⟨y, hy, rfl⟩
      · exact .inr ⟨j, u, y, hu, hy, by rw [Nat.add_right_comm, Nat.add_assoc]⟩

/-- The nodes are all that paths lead to. -/
theorem mem_nodes {t u : Tree} {path : List Nat} : (path, u) ∈ t.nodes ↔ t.at? path = some u := by
  induction path generalizing t with
  | nil =>
    obtain ⟨n, ts⟩ := t
    rw [nodes, List.mem_append, List.mem_singleton, mem_nodesFrom]
    simp [at?, inChild, eq_comm]
  | cons i path ih =>
    obtain ⟨n, ts⟩ := t
    rw [nodes, List.mem_append, List.mem_singleton, mem_nodesFrom]
    constructor
    · rintro (⟨j, v, y, hv, hy, he⟩ | he)
      · cases he
        show ts[0 + j]?.bind _ = _
        rw [Nat.zero_add, hv]
        exact ih.mp hy
      · cases he
    · intro h
      obtain ⟨v, hv, hu⟩ := Option.bind_eq_some_iff.mp h
      exact .inl ⟨i, v, (path, u), hv, ih.mpr hu, by rw [Nat.zero_add]; rfl⟩

/-- **No node comes before one below it.** -/
theorem pairwise_nodes (t : Tree) : t.nodes.Pairwise fun x y => ¬x.1 <+: y.1 := by
  refine postorder.induct (fun t => t.nodes.Pairwise fun x y => ¬x.1 <+: y.1)
    (fun ts => ∀ i, (nodesFrom i ts).Pairwise fun x y => ¬x.1 <+: y.1) (fun n ts ih => ?_)
    (fun i => ?_) (fun t ts ih ihs i => ?_) t
  · rw [nodes]
    refine List.pairwise_append.mpr ⟨ih 0, List.pairwise_singleton .., fun x hx y hy => ?_⟩
    obtain ⟨j, u, z, -, -, rfl⟩ := mem_nodesFrom.mp hx
    rw [List.mem_singleton.mp hy, List.prefix_nil]
    exact List.cons_ne_nil _ _
  · rw [nodesFrom]
    exact .nil
  · rw [nodesFrom]
    refine List.pairwise_append.mpr ⟨List.pairwise_map.mpr (ih.imp fun h => ?_), ihs (i + 1),
      fun x hx y hy => ?_⟩
    · exact fun hp => h (List.cons_prefix_cons.mp hp).2
    · obtain ⟨z, -, rfl⟩ := List.mem_map.mp hx
      obtain ⟨j, u, w, -, -, rfl⟩ := mem_nodesFrom.mp hy
      intro hp
      have hij : i = i + 1 + j := (List.cons_prefix_cons.mp hp).1
      omega

theorem pairwise_paths (t : Tree) : (t.nodes.map Prod.fst).Pairwise fun p q => ¬p <+: q :=
  List.pairwise_map.mpr t.pairwise_nodes

theorem nodup_paths (t : Tree) : (t.nodes.map Prod.fst).Nodup :=
  t.pairwise_paths.imp fun h he => h (by rw [he])

/-- The nodes are numbered in their order. -/
theorem map_number (t : Tree) :
    t.nodes.map (fun x => t.number x.1) = List.range' 0 t.nodes.length := by
  rw [← List.range_eq_range']
  refine List.ext_getElem (by simp) fun i hi _ => ?_
  rw [List.getElem_map, List.getElem_range]
  have hpath : i < (t.nodes.map Prod.fst).length := by simpa using hi
  have hindex := t.nodup_paths.idxOf_getElem i hpath
  rwa [List.getElem_map] at hindex

/-! ## The lines of the nodes -/

/-- The edges of a node to its children, if the nodes are numbered so. -/
def edgesWith (number : List Nat → Nat) (x : List Nat × Tree) : List Stroke :=
  (List.range x.2.children.length).map fun i => .edge (number x.1) (number (x.1 ++ [i]))

/-- A node, and then its edges. -/
def strokesWith (number : List Nat → Nat) (x : List Nat × Tree) : List Stroke :=
  .node (number x.1) x.2.node.label :: edgesWith number x

/-- What a drawing of the tree has to show: the nodes in post-order, each with its edges. -/
def strokes (t : Tree) : List Stroke := t.nodes.flatMap (strokesWith t.number)

/-- Numbers that go up by one from node to node end at the root. -/
theorem number_root {t : Tree} {next : Nat} (number : List Nat → Nat)
    (h : t.nodes.map (fun x => number x.1) = List.range' next t.nodes.length) :
    number [] + 1 = next + t.nodes.length := by
  obtain ⟨n, ts⟩ := t
  rw [nodes, List.map_append, List.length_append, List.length_singleton, List.range'_1_concat] at h
  have hroot : number [] = next + (nodesFrom 0 ts).length :=
    List.singleton_inj.mp (List.append_inj' h rfl).2
  rw [nodes, List.length_append, List.length_singleton, hroot, Nat.add_assoc]

/-- In a numbering that goes up by one from node to node, the lines are those of the nodes. -/
theorem linesFrom_eq (t : Tree) (next : Nat) (number : List Nat → Nat)
    (h : t.nodes.map (fun x => number x.1) = List.range' next t.nodes.length) :
    t.linesFrom next = ((t.nodes.flatMap (strokesWith number)).map Stroke.text, number []) := by
  refine postorder.induct
    (fun t => ∀ (next : Nat) (number : List Nat → Nat),
      t.nodes.map (fun x => number x.1) = List.range' next t.nodes.length →
      t.linesFrom next = ((t.nodes.flatMap (strokesWith number)).map Stroke.text, number []))
    (fun ts => ∀ (i next : Nat) (number : List Nat → Nat),
      (nodesFrom i ts).map (fun x => number x.1) = List.range' next (nodesFrom i ts).length →
      linesOfAll next ts = (((nodesFrom i ts).flatMap (strokesWith number)).map Stroke.text,
        (List.range' i ts.length).map (fun j => number [j]), next + (nodesFrom i ts).length))
    (fun n ts ih next number h => ?_) (fun i next number h => ?_)
      (fun t ts ih ihs i next number h => ?_)
    t next number h
  · have hroot := number_root number h
    rw [nodes, List.map_append, List.length_append, List.length_singleton,
      List.range'_1_concat] at h
    rw [nodes, List.length_append, List.length_singleton] at hroot
    have hid : next + (nodesFrom 0 ts).length = number [] := by omega
    rw [linesFrom, ih 0 next number (List.append_inj' h rfl).1, hid, nodes, List.flatMap_append,
      List.map_append]
    simp [strokesWith, edgesWith, children, node, nodeLine, edgeLine, Stroke.text,
      List.range_eq_range']
  · rw [linesOfAll, nodesFrom]
    rfl
  · rw [nodesFrom, List.map_append, List.length_append, List.length_map, ← List.range'_append,
      Nat.one_mul, List.map_map] at h
    obtain ⟨hfirst, hrest⟩ := List.append_inj h (by simp)
    have hlast : number [i] + 1 = next + t.nodes.length :=
      number_root (fun path => number (i :: path)) hfirst
    rw [linesOfAll, ih next (fun path => number (i :: path)) hfirst]
    dsimp only
    rw [hlast, ihs (i + 1) _ number hrest, nodesFrom, List.flatMap_append, List.map_append,
      List.flatMap_map, List.length_cons, List.range'_succ, List.length_append, List.length_map,
      Nat.add_assoc]
    rfl

/-- **The lines of a drawing** are those of the nodes in post-order, each node with its edges. -/
theorem diagramLines_eq (t : Tree) :
    t.diagramLines = "graph \x7b" :: t.strokes.map Stroke.text ++ ["\x7d"] := by
  rw [diagramLines, linesFrom_eq t 0 t.number t.map_number]
  rfl

theorem diagram_eq (t : Tree) : t.diagram = Stroke.sheet t.strokes := by
  rw [diagram, diagramLines_eq]
  rfl

/-- Each line shows a node of the tree or an edge. -/
theorem mem_strokes {t : Tree} {l : Stroke} (h : l ∈ t.strokes) :
    (∃ u ∈ t.postorder, ∃ id, l = .node id u.node.label) ∨ ∃ id child, l = .edge id child := by
  obtain ⟨x, hx, hl⟩ := List.mem_flatMap.mp h
  rcases List.mem_cons.mp hl with rfl | hl
  · exact .inl ⟨x.2, by rw [← map_nodes]; exact List.mem_map_of_mem hx, _, rfl⟩
  · obtain ⟨i, -, rfl⟩ := List.mem_map.mp hl
    exact .inr ⟨_, _, rfl⟩

theorem oneLine_strokes {t : Tree} (h : ∀ u ∈ t.postorder, OneLine u.node.label) :
    ∀ l ∈ t.strokes, OneLine l.text := by
  intro l hl
  refine Stroke.oneLine_text fun id label he => ?_
  rcases mem_strokes hl with ⟨u, hu, i, rfl⟩ | ⟨i, child, rfl⟩
  · cases he
    exact h u hu
  · cases he

/-! ## Numbers -/

/-- Each node has one line, with its number and its label. -/
theorem filterMap_node? (t : Tree) :
    t.strokes.filterMap Stroke.node? = t.postorder.zipIdx.map fun x => (x.2, x.1.node.label) := by
  have hnode :
      ∀ x, (strokesWith t.number x).filterMap Stroke.node? = [(t.number x.1, x.2.node.label)] := by
    intro x
    simp [strokesWith, edgesWith, Stroke.node?]
  have hplaces : t.postorder.zipIdx = t.nodes.map fun x => (x.2, t.number x.1) := by
    rw [List.zipIdx_eq_zip_range', ← length_nodes, ← map_number, ← map_nodes, List.zip_map']
  rw [strokes, List.filterMap_flatMap, List.flatMap_congr fun x _ => hnode x, ← List.map_eq_flatMap,
    hplaces, List.map_map]
  rfl

/-- The lines of what is below a node come before its own. -/
theorem number_lt {t u v : Tree} {p q : List Nat} (hp : t.at? p = some u) (hq : t.at? q = some v)
    (h : p <+: q) (hne : p ≠ q) : t.number q < t.number p := by
  have hmem : ∀ {w u}, t.at? w = some u → w ∈ t.nodes.map Prod.fst :=
    fun h => List.mem_map_of_mem (mem_nodes.mpr h)
  have hindex : ∀ {w}, w ∈ t.nodes.map Prod.fst → ∃ h : t.number w < (t.nodes.map Prod.fst).length,
      (t.nodes.map Prod.fst)[t.number w] = w := by
    intro w hw
    exact ⟨List.idxOf_lt_length_of_mem hw, List.getElem_idxOf _⟩
  obtain ⟨hlp, hgp⟩ := hindex (hmem hp)
  obtain ⟨hlq, hgq⟩ := hindex (hmem hq)
  by_contra hle
  rcases Nat.lt_or_eq_of_le (Nat.not_lt.mp hle) with hlt | heq
  · have hpair := List.pairwise_iff_getElem.mp t.pairwise_paths _ _ hlp hlq hlt
    rw [hgp, hgq] at hpair
    exact hpair h
  · exact hne ((hgp.symm.trans (by simp only [heq])).trans hgq)

/-- The paths to the children of a node. -/
def childPaths (x : List Nat × Tree) : List (List Nat) :=
  (List.range x.2.children.length).map fun i => x.1 ++ [i]

/-- **Every node but the root is a child of one node.** -/
theorem perm_childPaths (t : Tree) :
    (t.nodes.flatMap childPaths ++ [[]]).Perm (t.nodes.map Prod.fst) := by
  have hchild : ∀ (i : Nat) (l : List (List Nat × Tree)),
      (l.map (inChild i)).flatMap childPaths = (l.flatMap childPaths).map (i :: ·) := by
    intro i l
    rw [List.flatMap_map, List.map_flatMap]
    exact List.flatMap_congr fun x _ => by simp [childPaths, inChild]
  refine postorder.induct
    (fun t => (t.nodes.flatMap childPaths ++ [[]]).Perm (t.nodes.map Prod.fst))
    (fun ts => ∀ i,
      ((nodesFrom i ts).flatMap childPaths ++ (List.range' i ts.length).map ([·])).Perm
        ((nodesFrom i ts).map Prod.fst))
    (fun n ts ih => ?_) (fun i => ?_) (fun t ts ih ihs i => ?_) t
  · rw [nodes, List.flatMap_append, List.map_append]
    refine List.Perm.append_right _ (.trans (.of_eq ?_) (ih 0))
    simp [childPaths, children, List.range_eq_range']
  · simp [nodesFrom]
  · rw [nodesFrom, List.flatMap_append, hchild, List.map_append, List.length_cons, List.range'_succ,
      List.map_cons]
    have hfirst := ih.map (i :: ·)
    rw [List.map_append, List.map_map] at hfirst
    rw [List.map_map]
    -- the path to the child itself moves to the paths below it
    refine .trans ?_ (hfirst.append (ihs (i + 1)))
    rw [List.append_assoc, List.append_assoc]
    exact List.perm_middle.append_left _

/-- **Every number but that of the root is that of one child.** -/
theorem perm_child? (t : Tree) :
    (t.strokes.filterMap Stroke.child?).Perm (List.range (t.postorder.length - 1)) := by
  have hchild :
      ∀ x, (strokesWith t.number x).filterMap Stroke.child? = (childPaths x).map t.number := by
    intro x
    rw [strokesWith, List.filterMap_cons_none rfl, edgesWith, List.filterMap_map, childPaths,
      List.map_map, ← List.filterMap_eq_map]
    rfl
  have hall :
      (t.strokes.filterMap Stroke.child? ++ [t.number []]).Perm (List.range t.nodes.length) := by
    have hperm := t.perm_childPaths.map t.number
    rw [List.map_append, List.map_flatMap, List.map_map] at hperm
    rw [strokes, List.filterMap_flatMap, List.flatMap_congr fun x _ => hchild x,
      List.range_eq_range', ← map_number]
    exact hperm
  have hroot := number_root t.number t.map_number
  rw [show t.nodes.length = t.number [] + 1 by omega, List.range_succ] at hall
  rw [← length_nodes, show t.nodes.length - 1 = t.number [] by omega]
  exact (List.perm_append_right_iff _).mp hall

/-! ## Trees from their drawings -/

/-- The labels in post-order, each with the number of children. -/
def code (t : Tree) : List (String × Nat) :=
  t.postorder.map fun u => (u.node.label, u.children.length)

/-- The lines that show nodes, each with the edges that follow it. -/
def chunks (t : Tree) : List (Stroke × List Stroke) :=
  t.nodes.map fun x => (.node (t.number x.1) x.2.node.label, edgesWith t.number x)

theorem strokes_eq (t : Tree) : t.strokes = t.chunks.flatMap fun c => c.1 :: c.2 := by
  rw [chunks, List.flatMap_map]
  rfl

/-- The code can be read from the lines: a node has as many children as edges follow it. -/
theorem code_eq_of_strokes {s t : Tree} (h : s.strokes = t.strokes) : s.code = t.code := by
  have hheads : ∀ t : Tree, ∀ c ∈ t.chunks, c.1.node?.isNone = false ∧
      ∀ l ∈ c.2, l.node?.isNone := by
    intro t
    exact List.forall_mem_map.mpr fun x _ => ⟨rfl, List.forall_mem_map.mpr fun i _ => rfl⟩
  have hcode : ∀ t : Tree, t.code.map (fun y => (some y.1, y.2)) =
      t.chunks.map fun c => (c.1.node?.map (·.2), c.2.length) := by
    intro t
    rw [code, chunks, ← map_nodes, List.map_map, List.map_map, List.map_map]
    refine List.map_congr_left fun x _ => ?_
    simp [edgesWith, Stroke.node?]
  rw [strokes_eq, strokes_eq] at h
  have heq := flatMap_chunks_inj (p := fun l : Stroke => l.node?.isNone) (hheads s) (hheads t) h
  refine eq_of_map_eq (f := fun y : String × Nat => (some y.1, y.2))
    ((hcode s).trans (heq ▸ (hcode t).symm)) ?_
  rintro ⟨a, m⟩ - ⟨b, n⟩ - hab
  cases hab
  rfl

mutual

/-- The tree with a name in place of every node, which has the same label. -/
def sketch : Tree → Tree
  | mk n ts => mk (.name n.label) (sketchAll ts)

def sketchAll : List Tree → List Tree
  | [] => []
  | t :: ts => t.sketch :: sketchAll ts

end

theorem sketchAll_eq (ts : List Tree) : sketchAll ts = ts.map sketch := by
  induction ts with
  | nil => rw [sketchAll, List.map_nil]
  | cons t ts ih => rw [sketchAll, ih, List.map_cons]

theorem at?_sketch (t : Tree) (path : List Nat) : t.sketch.at? path = (t.at? path).map sketch := by
  induction path generalizing t with
  | nil => rfl
  | cons i path ih =>
    obtain ⟨n, ts⟩ := t
    rw [sketch, sketchAll_eq]
    show (ts.map sketch)[i]?.bind _ = (ts[i]?.bind _).map sketch
    rw [List.getElem?_map]
    cases ts[i]? with
    | none => rfl
    | some u => exact ih u

theorem label_sketch (t : Tree) : t.sketch.node.label = t.node.label := by
  obtain ⟨n, ts⟩ := t
  rw [sketch]
  rfl

/-- Puts a node on top of its children, which are the last trees on the stack. -/
def push (stack : List Tree) (c : String × Nat) : List Tree :=
  mk (.name c.1) (stack.take c.2).reverse :: stack.drop c.2

/-- **A tree can be put together from its code.** -/
theorem foldl_push_code (t : Tree) (stack : List Tree) :
    t.code.foldl push stack = t.sketch :: stack := by
  refine postorder.induct (fun t => ∀ stack, t.code.foldl push stack = t.sketch :: stack)
    (fun ts => ∀ stack,
      ((postorderAll ts).map fun u => (u.node.label, u.children.length)).foldl push stack =
        (sketchAll ts).reverse ++ stack)
    (fun n ts ih stack => ?_) (fun stack => ?_) (fun t ts ih ihs stack => ?_) t stack
  · have hlength : (sketchAll ts).reverse.length = ts.length := by
      rw [List.length_reverse, sketchAll_eq, List.length_map]
    rw [code, postorder, List.map_append, List.foldl_append, ih]
    show push _ (n.label, ts.length) = _
    rw [push, List.take_left' hlength, List.drop_left' hlength, List.reverse_reverse, sketch]
  · rw [postorderAll, sketchAll]
    rfl
  · rw [postorderAll, List.map_append, List.foldl_append, sketchAll, List.reverse_cons,
      List.append_assoc]
    rw [show (t.postorder.map _).foldl push stack = _ from ih stack]
    exact ihs (t.sketch :: stack)

/-- Trees with the same code have the same shape, and the same labels. -/
theorem labels_eq_of_code {s t : Tree} (h : s.code = t.code) (path : List Nat) :
    (s.at? path).map (·.node.label) = (t.at? path).map (·.node.label) := by
  have hsketch : s.sketch = t.sketch := by
    have hs := s.foldl_push_code []
    rw [h, foldl_push_code] at hs
    exact (List.cons.inj hs).1.symm
  have hlabel :
      ∀ t : Tree, (t.at? path).map (·.node.label) = (t.sketch.at? path).map (·.node.label) := by
    intro t
    rw [at?_sketch, Option.map_map]
    exact Option.map_congr fun u _ => u.label_sketch.symm
  rw [hlabel s, hlabel t, hsketch]

/-- **A drawing shows every node and every edge once, and determines the tree** up to what labels do
not say.

Take a tree with `n` nodes whose labels have no line breaks. Between the first and the last line the
drawing has lines `ls`, and no others can be read from it. Those that show a node are `n`, with the
numbers from `0` up and the labels in post-order. The lines of a node come after those of everything
below it, and are the one that shows it and then one for the edge to each child, in the order of the
children. Each number is the child end of one edge, and only that of the root, `n - 1`, is not.

Trees that are read from a source have such labels. Two trees with such labels and the same drawing
have the same paths, and the same label at the end of each. -/
theorem diagram_faithful :
    (∀ t : Tree, (∀ u ∈ t.postorder, OneLine u.node.label) →
      ∃ ls : List Stroke, t.diagram = Stroke.sheet ls ∧ (∀ l ∈ ls, OneLine l.text) ∧
        (∀ ls', (∀ l ∈ ls', OneLine l.text) → t.diagram = Stroke.sheet ls' → ls' = ls) ∧
        ls.filterMap Stroke.node? = t.postorder.zipIdx.map (fun x => (x.2, x.1.node.label)) ∧
        ls = t.nodes.flatMap (fun x => .node (t.number x.1) x.2.node.label ::
          (List.range x.2.children.length).map fun i =>
            .edge (t.number x.1) (t.number (x.1 ++ [i]))) ∧
        t.nodes.map (fun x => t.at? x.1) = t.postorder.map some ∧
        (∀ p q u v, t.at? p = some u → t.at? q = some v → p <+: q → p ≠ q →
          t.number q < t.number p) ∧
        (ls.filterMap Stroke.child?).Perm (List.range (t.postorder.length - 1))) ∧
    (∀ source t, parseSource source = .ok t → ∀ u ∈ t.postorder, OneLine u.node.label) ∧
    ∀ s t : Tree, (∀ u ∈ s.postorder, OneLine u.node.label) →
      (∀ u ∈ t.postorder, OneLine u.node.label) →
      s.diagram = t.diagram →
      ∀ path, (s.at? path).map (·.node.label) = (t.at? path).map (·.node.label) := by
  refine ⟨fun t ht => ⟨t.strokes, t.diagram_eq, oneLine_strokes ht, fun ls hl h => ?_,
    t.filterMap_node?, rfl, ?_, fun p q u v => number_lt, t.perm_child?⟩,
    fun source t h u hu => ((parseSource_writable h).label hu).2, fun s t hs ht h => ?_⟩
  · exact Stroke.sheet_inj hl (oneLine_strokes ht) (h.symm.trans t.diagram_eq)
  · rw [← map_nodes, List.map_map]
    exact List.map_congr_left fun x hx => mem_nodes.mp hx
  · rw [diagram_eq, diagram_eq] at h
    exact labels_eq_of_code
      (code_eq_of_strokes (Stroke.sheet_inj (oneLine_strokes hs) (oneLine_strokes ht) h))

/-- A tree with names that look like parts of a drawing. -/
def disguised : Tree :=
  mk .block [mk (.name "n1 -- n0;") [mk (.name "\x22];") []], mk (.text "a\nb") []]

theorem disguised_faithful : (∀ u ∈ disguised.postorder, OneLine u.node.label) ∧
    ∃ ls : List Stroke, disguised.diagram = Stroke.sheet ls ∧
      ls.filterMap Stroke.node? = [(0, "\x22];"), (1, "n1 -- n0;"), (2, "\\\x22a\\nb\\\x22"),
        (3, "stmts")] ∧
      (ls.filterMap Stroke.child?).Perm [0, 1, 2] := by
  have hlabels : ∀ u ∈ disguised.postorder, OneLine u.node.label := by
    simp [disguised, postorder, postorderAll, node, Node.label, Node.textLabel, Node.escapeLabel,
      OneLine]
  obtain ⟨ls, hdiagram, -, -, hnodes, -, -, -, hchildren⟩ := diagram_faithful.1 disguised hlabels
  refine ⟨hlabels, ls, hdiagram, hnodes.trans ?_, hchildren⟩
  decide +kernel

/-! ## Attributes -/

/-- The line shows a node with one attribute in quotation marks. There is no line break in it, and
the first quotation mark after the opening one that no backslash takes is the one before the end. -/
structure HasAttribute (line : String) (id : Nat) (label : String) : Prop where
  text : line = s!"n{id}[label=\x22{label}\x22];"
  oneLine : OneLine label
  quotable : Text.Quotable label.toList
  closing : Text.closing? (label ++ "\x22];").toList = some label.length

theorem hasAttribute {label : String} (hq : Text.Quotable label.toList) (ho : OneLine label)
    (id : Nat) : HasAttribute (Stroke.node id label).text id label := by
  refine ⟨rfl, ho, hq, ?_⟩
  rw [String.toList_append, ← String.length_toList]
  exact Text.closing?_append hq _

/-- **Labels are safe between quotation marks, and say which text they stand for.**

* The label of a text literal has no line break and no tab. With every backslash taken together with
  the next character, it has no quotation mark, and no backslash at its end. So it ends in the line
  of its node at the first quotation mark that stands alone.
* Different texts have different labels.
* In the drawing of a tree that was read from a source, each line between the first and the last is
  that of an edge, or one well-formed attribute of a node. -/
theorem diagram_quoted :
    (∀ s : String, '\n' ∉ (Node.text s).label.toList ∧ '\t' ∉ (Node.text s).label.toList ∧
      ∀ id, HasAttribute (nodeLine id (.text s)) id (Node.text s).label) ∧
    (∀ s s' : String, (Node.text s).label = (Node.text s').label → s = s') ∧
    ∀ source t, parseSource source = .ok t →
      ∃ lines, t.diagramLines = "graph \x7b" :: lines ++ ["\x7d"] ∧
      ∀ line ∈ lines, (∃ id child, line = edgeLine id child) ∨
        ∃ id label, HasAttribute line id label := by
  refine ⟨fun s => ⟨(Node.not_mem_textLabel s).1, (Node.not_mem_textLabel s).2, ?_⟩,
    fun s s' h => Node.textLabel_injective h, fun source t h => ⟨_, t.diagramLines_eq, ?_⟩⟩
  · exact hasAttribute (Node.quotable_textLabel s) (Node.not_mem_textLabel s).1
  · refine List.forall_mem_map.mpr fun l hl => ?_
    rcases mem_strokes hl with ⟨u, hu, id, rfl⟩ | ⟨id, child, rfl⟩
    · obtain ⟨hq, ho⟩ := (parseSource_writable h).label hu
      exact .inr ⟨id, _, hasAttribute hq ho id⟩
    · exact .inl ⟨id, child, rfl⟩

/-- A source with a text that holds a quotation mark, a backslash and a line break. -/
def escaping : String := "print \x22a\\\x22b\\\\\\n\x22;"

theorem escaping_quoted : ∃ t lines, parseSource escaping = .ok t ∧
    t.diagramLines = "graph \x7b" :: lines ++ ["\x7d"] ∧
    nodeLine 0 (.text "a\x22b\\\n") ∈ lines ∧
    ∀ line ∈ lines, (∃ id child, line = edgeLine id child) ∨
      ∃ id label, HasAttribute line id label := by
  let t := mk .program [mk .block [mk .print [mk (.text "a\x22b\\\n") []]]]
  have ht : parseSource escaping = .ok t := by decide +kernel
  obtain ⟨lines, hlines, hattributes⟩ := diagram_quoted.2.2 escaping t ht
  have hmem : nodeLine 0 (.text "a\x22b\\\n") ∈ t.diagramLines := by decide +kernel
  rw [hlines, List.cons_append, List.mem_cons, List.mem_append, List.mem_singleton] at hmem
  refine ⟨t, lines, ht, hlines, (hmem.resolve_left ?_).resolve_right ?_, hattributes⟩ <;>
    decide +kernel

end Tree

end FlowLang
