import FlowLang.Proofs.LoweringRules
import Mathlib.Logic.Relation

/-!
# The shape of lowered graphs

Every loop, condition and choice of a tree gets blocks of its own (`gen_while`, `gen_if`,
`gen_if_else`), in the order in which the tree is read. How many there are, what they are called and
how many edges lead to each depends on nothing else, whatever is nested inside (`Control.blocks`).

* `Control.layout`: the labels and in-degrees of the blocks for a list of controls.
* `Tree.Lowers.lays`: lowering a tree adds the blocks and edges of its controls, and no others.
* `Tree.Lowers.threads`: in the finished graph, control can go from the insertion point before to
  each new block, and from there to the insertion point after.
* **`Tree.lower_shape`**: so much for whole programs.
-/

namespace FlowLang

/-! ## Edges -/

/-- The targets of the edges that leave the block. -/
def Block.targets (block : Block) : List Nat := (block.exit?.map (·.successors)).getD []

namespace Graph

def labels (g : Graph) : List String := g.blocks.map (·.label)

/-- The targets of all edges. -/
def targets (g : Graph) : List Nat := g.blocks.flatMap (·.targets)

theorem successors_eq (g : Graph) {i : Nat} {block : Block} (h : g.blocks[i]? = some block) :
    g.successors i = block.targets := by
  unfold successors Block.targets
  rw [h, Option.bind_some]
  cases block.exit? <;> rfl

theorem flatMap_successors (g : Graph) :
    (List.range g.blocks.length).flatMap g.successors = g.targets := by
  have h : (List.range g.blocks.length).map g.successors = g.blocks.map (·.targets) := by
    refine List.ext_getElem? fun k => ?_
    by_cases hk : k < g.blocks.length
    · simp [hk, g.successors_eq (List.getElem?_eq_getElem hk)]
    · simp [Nat.le_of_not_lt hk]
  rw [targets, List.flatMap_def, List.flatMap_def, h]

/-- One predecessor is listed for each edge. -/
theorem length_predecessors (g : Graph) (k : Nat) :
    (g.predecessors k).length = g.targets.count k := by
  have hone : ∀ (ts : List Nat) (j : Nat),
      (ts.filterMap fun i => if i = k then some j else none).length = ts.count k := by
    intro ts j
    induction ts with
    | nil => rfl
    | cons t ts ih => by_cases h : t = k <;> simp [h, ih]
  rw [← flatMap_successors, List.count_flatMap, predecessors, List.length_flatMap]
  simp only [hone, Function.comp_def]

/-- If all labels differ, then each of them finds its block. -/
theorem blockByLabel?_of_nodup {g : Graph} (hn : g.labels.Nodup) {k : Nat} {label : String}
    (hk : g.labels[k]? = some label) : g.blockByLabel? label = some k := by
  unfold labels at hn hk
  obtain ⟨hlt, rfl⟩ := List.getElem?_eq_some_iff.mp hk
  have hlt' : k < g.blocks.length := by simpa using hlt
  refine List.findIdx?_eq_some_iff_getElem.mpr ⟨hlt', by simp, fun j hj => ?_⟩
  have hne := List.pairwise_iff_getElem.mp hn j k (by simp; omega) hlt hj
  simpa using hne

/-- Control can go from one block to the other. -/
def Reaches (g : Graph) : Nat → Nat → Prop := Relation.ReflTransGen fun i j => j ∈ g.successors i

/-- From a block that returns, no other can be reached. -/
theorem Reaches.eq_of_ret {g : Graph} {i j : Nat} {code : Int} (h : g.Reaches i j)
    (hi : g.blocks[i]?.bind (·.exit?) = some (.ret code)) : i = j := by
  rcases h.cases_head with rfl | ⟨k, hk, -⟩
  · rfl
  · rw [successors, hi] at hk
    cases hk

end Graph

/-! ## Labels -/

theorem isDigit_of_mem_toString {n : Nat} {c : Char} (h : c ∈ (toString n).toList) : c.isDigit := by
  rw [Nat.toString_eq_repr, Nat.toList_repr] at h
  exact Nat.isDigit_of_mem_toDigits (by omega) (by omega) h

/-- A text without digits can be told from the number after it. -/
theorem filter_numbered {stem : String} (hs : ∀ c ∈ stem.toList, !c.isDigit) (i : Nat) :
    (stem ++ toString i).toList.filter (!·.isDigit) = stem.toList := by
  have hnil : (toString i).toList.filter (!·.isDigit) = [] :=
    List.filter_eq_nil_iff.mpr fun c hc => by simp [isDigit_of_mem_toString hc]
  rw [String.toList_append, List.filter_append, List.filter_eq_self.mpr hs, hnil, List.append_nil]

theorem numbered_inj {stem stem' : String} {i j : Nat} (hs : ∀ c ∈ stem.toList, !c.isDigit)
    (hs' : ∀ c ∈ stem'.toList, !c.isDigit) (h : stem ++ toString i = stem' ++ toString j) :
    stem = stem' ∧ i = j := by
  have hstem : stem = stem' := by
    rw [← String.toList_inj, ← filter_numbered hs i, h, filter_numbered hs' j]
  subst hstem
  have hl := congrArg String.toList h
  rw [String.toList_append, String.toList_append, List.append_cancel_left_eq] at hl
  have hn := congrArg (Nat.ofDigitChars 10 · 0) hl
  simpa [Nat.toString_eq_repr] using hn

/-! ## Controls -/

/-- The nodes that have blocks of their own. -/
inductive Control where
  | guarded (g : Guard)
  | choice

namespace Control

def of? : Node → Option Control
  | .loop => some (.guarded .loop)
  | .condition => some (.guarded .condition)
  | .choice => some .choice
  | _ => none

/-- What the blocks are called, and how many edges lead to each. -/
def blocks : Control → List (String × Nat)
  | .guarded .loop => [("cond", 2), ("body", 1), ("contin", 1)]
  | .guarded .condition => [("cond", 1), ("body", 1), ("contin", 2)]
  | .choice => [("cond", 1), ("ifBody", 1), ("elseBody", 1), ("contin", 2)]

def labels (c : Control) (i : Nat) : List String := c.blocks.map fun p => p.1 ++ toString i

/-- The targets of the edges, if the blocks start at `n`. -/
def edges : Control → Nat → List Nat
  | .guarded g, n => [n, n + 1, n + 2, g.exit n]
  | .choice, n => [n, n + 1, n + 2, n + 3, n + 3]

/-- The labels and in-degrees of the blocks, if labels are numbered from `i`. -/
def layout : Nat → List Control → List (String × Nat)
  | _, [] => []
  | i, c :: cs => c.blocks.map (fun p => (p.1 ++ toString i, p.2)) ++ layout (i + 1) cs

/-- The targets of the edges, if the blocks start at `n`. -/
def edgesFrom : Nat → List Control → List Nat
  | _, [] => []
  | n, c :: cs => c.edges n ++ edgesFrom (n + c.blocks.length) cs

theorem layout_append (i : Nat) (cs ds : List Control) :
    layout i (cs ++ ds) = layout i cs ++ layout (i + cs.length) ds := by
  induction cs generalizing i with
  | nil => rfl
  | cons c cs ih => simp [layout, ih, Nat.add_assoc, Nat.add_comm 1]

theorem edgesFrom_append (n i : Nat) (cs ds : List Control) :
    edgesFrom n (cs ++ ds) = edgesFrom n cs ++ edgesFrom (n + (layout i cs).length) ds := by
  induction cs generalizing n i with
  | nil => rfl
  | cons c cs ih => simp [edgesFrom, layout, ih _ (i + 1), Nat.add_assoc]

theorem count_edges (c : Control) (n k : Nat) :
    (c.edges n).count (n + k) = (c.blocks[k]?.map (·.2)).getD 0 := by
  rcases c with (_ | _) | _ <;> rcases k with _ | _ | _ | _ | k <;>
    simp [edges, blocks, Guard.exit]

theorem count_edges_of_lt (c : Control) {n k : Nat} (h : k < n) : (c.edges n).count k = 0 := by
  rw [List.count_eq_zero]
  rcases c with (_ | _) | _ <;> simp [edges, Guard.exit] <;> omega

theorem count_edgesFrom_of_lt {n k : Nat} (h : k < n) (cs : List Control) :
    (edgesFrom n cs).count k = 0 := by
  induction cs generalizing n with
  | nil => rfl
  | cons c cs ih => rw [edgesFrom, List.count_append, c.count_edges_of_lt h, ih (by omega)]

/-- As many edges lead to a block as the layout says. -/
theorem count_edgesFrom (n i k : Nat) (cs : List Control) :
    (edgesFrom n cs).count (n + k) = ((layout i cs)[k]?.map (·.2)).getD 0 := by
  induction cs generalizing n i k with
  | nil => rfl
  | cons c cs ih =>
    rw [edgesFrom, layout, List.count_append, c.count_edges]
    by_cases hk : k < c.blocks.length
    · rw [count_edgesFrom_of_lt (by omega), List.getElem?_append_left (by simpa using hk)]
      simp [Function.comp_def]
    · obtain ⟨j, rfl⟩ := Nat.exists_eq_add_of_le (Nat.le_of_not_lt hk)
      rw [List.getElem?_append_right (by simp), ← Nat.add_assoc, ih _ (i + 1)]
      simp

/-! ### All labels differ -/

def stems : List String := ["cond", "body", "contin", "ifBody", "elseBody"]

theorem not_isDigit_of_mem_stems : ∀ stem ∈ stems, ∀ c ∈ stem.toList, !c.isDigit := by
  simp [stems]

theorem blocks_stems (c : Control) : (c.blocks.map (·.1)).Nodup ∧ ∀ p ∈ c.blocks, p.1 ∈ stems := by
  rcases c with (_ | _) | _ <;> decide

theorem exists_of_mem_layout {i : Nat} {cs : List Control} {p : String × Nat}
    (h : p ∈ layout i cs) : ∃ stem ∈ stems, ∃ j, i ≤ j ∧ p.1 = stem ++ toString j := by
  induction cs generalizing i with
  | nil => cases h
  | cons c cs ih =>
    rcases List.mem_append.mp h with h | h
    · obtain ⟨q, hq, rfl⟩ := List.mem_map.mp h
      exact ⟨q.1, c.blocks_stems.2 q hq, i, Nat.le_refl i, rfl⟩
    · obtain ⟨stem, hs, j, hj, hp⟩ := ih h
      exact ⟨stem, hs, j, by omega, hp⟩

theorem nodup_layout (i : Nat) (cs : List Control) : ((layout i cs).map (·.1)).Nodup := by
  induction cs generalizing i with
  | nil => exact .nil
  | cons c cs ih =>
    rw [layout, List.map_append, List.nodup_append]
    refine ⟨?_, ih (i + 1), ?_⟩
    · -- the same number, but different stems
      obtain ⟨hnodup, hmem⟩ := c.blocks_stems
      rw [List.map_map]
      refine List.pairwise_map.mpr ((List.pairwise_map.mp hnodup).imp_of_mem ?_)
      intro p q hp hq hne h
      exact hne (numbered_inj (not_isDigit_of_mem_stems _ (hmem p hp))
        (not_isDigit_of_mem_stems _ (hmem q hq)) h).1
    · -- another number
      intro l hl l' hl' he
      subst he
      simp only [List.map_map, List.mem_map, Function.comp_apply] at hl
      obtain ⟨p, hp, rfl⟩ := hl
      obtain ⟨q, hq, he⟩ := List.mem_map.mp hl'
      obtain ⟨stem, hs, j, hj, hq'⟩ := exists_of_mem_layout hq
      have := (numbered_inj (not_isDigit_of_mem_stems _ (c.blocks_stems.2 p hp))
        (not_isDigit_of_mem_stems _ hs) (he.symm.trans hq')).2
      omega

theorem entry_not_mem_layout (i : Nat) (cs : List Control) : "entry" ∉ (layout i cs).map (·.1) := by
  intro h
  obtain ⟨p, hp, he⟩ := List.mem_map.mp h
  obtain ⟨stem, hs, j, -, hp'⟩ := exists_of_mem_layout hp
  have hf := filter_numbered (not_isDigit_of_mem_stems stem hs) j
  rw [← hp', he] at hf
  have hstem : stem = "entry" := by rw [← String.toList_inj, ← hf]; decide
  rw [hstem] at hs
  exact absurd hs (by decide)

theorem mem_layout {i k : Nat} {cs : List Control} {c : Control} {p : String × Nat}
    (hc : cs[k]? = some c) (hp : p ∈ c.blocks) : (p.1 ++ toString (i + k), p.2) ∈ layout i cs := by
  induction cs generalizing i k with
  | nil => simp at hc
  | cons d cs ih =>
    rw [layout, List.mem_append]
    cases k with
    | zero =>
      obtain rfl : d = c := by simpa using hc
      exact .inl (List.mem_map.mpr ⟨p, hp, rfl⟩)
    | succ k =>
      have := ih (i := i + 1) (k := k) (by simpa using hc)
      rw [Nat.add_assoc, Nat.add_comm 1] at this
      exact .inr this

theorem length_layout (i : Nat) (ns : List Node) : (layout i (ns.filterMap of?)).length =
    3 * ns.count .loop + 3 * ns.count .condition + 4 * ns.count .choice := by
  induction ns generalizing i with
  | nil => rfl
  | cons n ns ih =>
    cases n with
    | loop => simp [of?, layout, blocks, ih]; omega
    | condition => simp [of?, layout, blocks, ih]; omega
    | choice => simp [of?, layout, blocks, ih]; omega
    | _ => rw [List.filterMap_cons_none rfl, ih]; simp

end Control

namespace Tree

/-- The loops, conditions and choices of the tree, each before those below it. -/
def controls (t : Tree) : List Control := (t.preorder.map node).filterMap Control.of?

theorem controls_mk (n : Node) (ts : List Tree) :
    (mk n ts).controls = (Control.of? n).toList ++ ts.flatMap controls := by
  unfold controls
  rw [preorder, preorderAll_eq]
  cases h : Control.of? n <;> simp [node, h, List.map_flatMap, List.filterMap_flatMap]

end Tree

/-! ## What lowering adds -/

namespace Builder

variable {b b' : Builder}

/-- A block that is changed keeps its label. -/
theorem labels_modifyBlock (b : Builder) (i : Nat) {f : Block → Block}
    (hf : ∀ block, (f block).label = block.label) :
    (b.modifyBlock i f).graph.labels = b.graph.labels := by
  refine List.ext_getElem? fun j => ?_
  simp only [Graph.labels, modifyBlock, List.getElem?_map, List.getElem?_modify]
  cases b.graph.blocks[j]? with
  | none => rfl
  | some block => by_cases h : i = j <;> simp [h, hf]

theorem count_targets_push {i : Nat} (hi : b.OpenAt i) (ins : Instr) (k : Nat) :
    (b.push i ins).graph.targets.count k = b.graph.targets.count k := by
  obtain ⟨block, hb, -⟩ := hi.2
  exact (flatMap_modify_perm [] hb (.refl _)).count_eq k

/-- Ending a block adds the edges of its terminator. -/
theorem count_targets_close {i : Nat} (hi : b.OpenAt i) (t : Terminator) (k : Nat) :
    (b.close i t).graph.targets.count k = b.graph.targets.count k + t.successors.count k := by
  obtain ⟨block, hb, he⟩ := hi.2
  have hp := flatMap_modify_perm (f := fun block => { block with exit? := some t })
    (g := Block.targets) t.successors hb (by simp [Block.targets, he])
  exact (hp.count_eq k).trans (by rw [List.count_append, Nat.add_comm]; rfl)

theorem Adds.labels (h : b.Adds b') : b'.graph.labels = b.graph.labels := by
  cases h with
  | emits h => obtain ⟨i, -, rfl⟩ := h; exact labels_modifyBlock _ _ fun _ => rfl
  | defines h => obtain ⟨-, i, -, rfl⟩ := h; exact labels_modifyBlock _ _ fun _ => rfl
  | slot => rfl

theorem Adds.count_targets (h : b.Adds b') (k : Nat) :
    b'.graph.targets.count k = b.graph.targets.count k := by
  cases h with
  | emits h => obtain ⟨i, hi, rfl⟩ := h; exact count_targets_push hi _ k
  | defines h => obtain ⟨-, i, hi, rfl⟩ := h; exact count_targets_push hi _ k
  | slot => rfl

end Builder

namespace Lowering

/-- From `s` to `s'` the blocks and edges of some controls were added, and edges to some more
targets. -/
structure Lays (s s' : Lowering) (cs : List Control) (more : List Nat) : Prop where
  labels : s'.builder.graph.labels =
    s.builder.graph.labels ++ (Control.layout s.nextLabel cs).map (·.1)
  edges : ∀ k, s'.builder.graph.targets.count k = s.builder.graph.targets.count k +
    (Control.edgesFrom s.builder.graph.blocks.length cs).count k + more.count k
  nextLabel : s'.nextLabel = s.nextLabel + cs.length

variable {s s₁ s₂ : Lowering} {cs ds : List Control} {more more' : List Nat}

theorem Lays.trans (h : s.Lays s₁ cs more) (h' : s₁.Lays s₂ ds more') :
    s.Lays s₂ (cs ++ ds) (more ++ more') := by
  have hlen : s₁.builder.graph.blocks.length =
      s.builder.graph.blocks.length + (Control.layout s.nextLabel cs).length := by
    simpa [Graph.labels] using congrArg List.length h.labels
  refine ⟨?_, fun k => ?_, ?_⟩
  · rw [h'.labels, h.labels, h.nextLabel, Control.layout_append, List.map_append, List.append_assoc]
  · rw [h'.edges, h.edges, hlen, Control.edgesFrom_append _ s.nextLabel, List.count_append,
      List.count_append]
    omega
  · rw [h'.nextLabel, h.nextLabel, List.length_append, Nat.add_assoc]

theorem lays_of_adds (h : s.builder.Adds s₁.builder) (hn : s₁.nextLabel = s.nextLabel) :
    s.Lays s₁ [] [] :=
  ⟨by rw [h.labels]; simp [Control.layout], h.count_targets, hn⟩

theorem Lays.adds (h : s.Lays s₁ cs more) (ha : s₁.builder.Adds s₂.builder)
    (hn : s₂.nextLabel = s₁.nextLabel) : s.Lays s₂ cs more := by
  simpa using h.trans (lays_of_adds ha hn)

theorem lays_of_ends {b : Builder} {t : Terminator} (h : s.builder.Ends t b) :
    s.Lays { s with builder := b } [] t.successors := by
  obtain ⟨-, i, hi, rfl⟩ := h
  refine ⟨?_, Builder.count_targets_close hi t, rfl⟩
  rw [Control.layout, List.map_nil, List.append_nil]
  exact Builder.labels_modifyBlock _ _ fun _ => rfl

theorem lays_of_switches {b : Builder} {t : Terminator} {k : Nat} (h : s.builder.Switches t k b) :
    s.Lays { s with builder := b } [] t.successors := by
  obtain ⟨b₁, he, -, rfl⟩ := h
  have hl := lays_of_ends he
  exact ⟨hl.labels, hl.edges, rfl⟩

/-- The blocks of a control come first, and then those of the controls inside. -/
theorem lays_fork {c : Control} {labels : List String}
    (hl : labels = c.labels s.nextLabel)
    (h : (s.fork labels).Lays s₁ cs (c.edges s.builder.graph.blocks.length)) :
    s.Lays s₁ (c :: cs) [] := by
  subst hl
  refine ⟨?_, fun k => ?_, ?_⟩
  · rw [h.labels]
    simp [Graph.labels, fork, Builder.addBlocks, Control.layout, Control.labels, Function.comp_def]
  · have hnone :
        (s.fork (c.labels s.nextLabel)).builder.graph.targets = s.builder.graph.targets := by
      simp [Graph.targets, fork, Builder.addBlocks, Block.targets, List.flatMap_map,
        List.flatMap_eq_nil_iff]
    rw [h.edges, hnone, fork_length, Control.labels, List.length_map, Control.edgesFrom,
      List.count_append, List.count_nil]
    omega
  · rw [h.nextLabel, List.length_cons]
    show s.nextLabel + 1 + cs.length = _
    omega

end Lowering

namespace Tree

open Lowering

theorem controls_single {n : Node} (h : Control.of? n = none) (t : Tree) :
    (mk n [t]).controls = t.controls := by
  rw [controls_mk, h]
  simp

theorem controls_first (kind : Kind) : kind.first.controls = [] := by
  cases kind <;> rfl

theorem controls_stepped (k : Step) (x : String) (e : Tree) :
    (stepped k x e).controls = e.controls := by
  simp [stepped, controls_mk, Control.of?]

/-- **Lowering lays out the controls of the tree**, in the order in which it is read. -/
theorem Lowers.lays {t : Tree} {s s' : Lowering} {v : Option Value} (h : t.Lowers s v s') :
    s.Lays s' t.controls [] := by
  induction h with
  | nothing => exact ⟨(List.append_nil _).symm, fun _ => rfl, rfl⟩
  | last _ ih => rwa [controls_single rfl]
  | next _ _ ih ihs =>
    rw [controls_mk] at ihs ⊢
    exact ih.trans ihs
  | program _ ih =>
    rw [controls_mk] at ih ⊢
    exact ih
  | name _ _ _ hd => exact lays_of_adds (.defines hd) rfl
  | @literal l _ _ _ _ hd =>
    have hof : Control.of? l.node = none := by cases l <;> rfl
    rw [controls_mk, hof]
    exact lays_of_adds (.defines hd) rfl
  | text _ hd => exact lays_of_adds (.defines hd) rfl
  | @declare x kind s s₁ v b _ _ he ih =>
    rw [controls_first] at ih
    have hslot : s.Lays { s₁ with builder := s₁.builder.addSlot ⟨x, Lower.typeOf kind⟩ } [] [] :=
      ih.adds (.slot _) rfl
    exact hslot.adds (.emits he) rfl
  | assign _ _ _ _ he ih =>
    rw [controls_single rfl]
    exact ih.adds (.emits he) rfl
  | @step k x e s s' v _ ih =>
    rw [controls_stepped] at ih
    rwa [controls_single (by cases k <;> rfl)]
  | print _ _ he ih =>
    rw [controls_single rfl]
    exact ih.adds (.emits he) rfl
  | @binary op l r s s₁ s₂ lhs rhs v b _ _ _ _ _ hd ihl ihr =>
    have hof : Control.of? op.node = none := by cases op <;> rfl
    have hboth : s.Lays { s₂ with builder := b } (l.controls ++ r.controls) [] :=
      (ihl.trans ihr).adds (.defines hd) rfl
    simpa [controls_mk, hof] using hboth
  | negate _ _ _ hd ih =>
    rw [controls_single rfl]
    exact ih.adds (.defines hd) rfl
  | @guarded g c body s s₁ s₂ n v w b₁ b₂ b₃ hn h₁ _ _ h₂ _ h₃ ihc ihb =>
    subst hn
    have hof : Control.of? g.node = some (.guarded g) := by cases g <;> rfl
    have hl : loopLabels s.nextLabel = (Control.guarded g).labels s.nextLabel := by cases g <;> rfl
    have hin := (lays_of_switches h₁).trans (ihc.trans ((lays_of_switches h₂).trans
      (ihb.trans (lays_of_switches h₃))))
    have hall : s.Lays { s₂ with builder := b₃ } (.guarded g :: (c.controls ++ body.controls)) [] :=
      lays_fork hl (by simpa [Terminator.successors, Control.edges] using hin)
    simpa [controls_mk, hof] using hall
  | @choice c yes no s s₁ s₂ s₃ n v w w' b₁ b₂ b₃ b₄ hn h₁ _ _ h₂ _ h₃ _ h₄ ihc ihy ihn =>
    subst hn
    have hl : choiceLabels s.nextLabel = Control.choice.labels s.nextLabel := rfl
    have hin := (lays_of_switches h₁).trans (ihc.trans ((lays_of_switches h₂).trans
      (ihy.trans ((lays_of_switches h₃).trans (ihn.trans (lays_of_switches h₄))))))
    have hall : s.Lays { s₃ with builder := b₄ }
        (.choice :: (c.controls ++ (yes.controls ++ no.controls))) [] :=
      lays_fork hl (by simpa [Terminator.successors, Control.edges] using hin)
    simpa [controls_mk, Control.of?] using hall

end Tree

/-! ## Ways through the graph -/

namespace Builder

variable {b b' : Builder}

theorem Adds.openAt {i : Nat} (h : b.Adds b') (hi : b.OpenAt i) : b'.OpenAt i := by
  cases h with
  | emits h =>
    obtain ⟨j, hj, rfl⟩ := h
    obtain rfl := hi.unique hj
    exact push_openAt hi _
  | defines h =>
    obtain ⟨-, j, hj, rfl⟩ := h
    obtain rfl := hi.unique hj
    exact push_openAt hi _
  | slot => exact hi

theorem Adds.length (h : b.Adds b') : b'.graph.blocks.length = b.graph.blocks.length := by
  simpa [Graph.labels] using congrArg List.length h.labels

theorem Switches.length {t : Terminator} {k : Nat} (h : b.Switches t k b') :
    b'.graph.blocks.length = b.graph.blocks.length := by
  obtain ⟨b₁, ⟨-, i, -, rfl⟩, -, rfl⟩ := h
  exact close_length b i t

/-- A block that has been ended leads in every larger graph to the targets of its terminator. -/
theorem Ends.successors {g : Graph} {t : Terminator} {i : Nat} (h : b.Ends t b') (hi : b.OpenAt i)
    (hx : b'.graph.Extends g) : g.successors i = t.successors := by
  obtain ⟨-, j, hj, rfl⟩ := h
  obtain rfl := hi.unique hj
  obtain ⟨block, hb, -⟩ := hi.2
  have hb' : (b.close i t).graph.blocks[i]? = some { block with exit? := some t } := by
    rw [close_getElem?, hb]
    simp
  rw [g.successors_eq (hx.terminated hb' rfl)]
  rfl

theorem Switches.successors {g : Graph} {t : Terminator} {i k : Nat} (h : b.Switches t k b')
    (hi : b.OpenAt i) (hx : b'.graph.Extends g) : g.successors i = t.successors := by
  obtain ⟨b₁, he, -, rfl⟩ := h
  exact he.successors hi hx

end Builder

namespace Graph

/-- Control can go from `i` through `k` to `j`. -/
def Between (g : Graph) (i j k : Nat) : Prop := g.Reaches i k ∧ g.Reaches k j

theorem Between.widen {g : Graph} {i j k i' j' : Nat} (h : g.Between i j k) (hi : g.Reaches i' i)
    (hj : g.Reaches j j') : g.Between i' j' k :=
  ⟨hi.trans h.1, h.2.trans hj⟩

/-- In the graph `g`, control can go from the insertion point of `b` to that of `b'`, and through
every block that `b'` has more. -/
def Threads (g : Graph) (b b' : Builder) : Prop := ∀ i, b.OpenAt i → ∃ i', b'.OpenAt i' ∧
  g.Reaches i i' ∧ ∀ k, b.graph.blocks.length ≤ k → k < b'.graph.blocks.length → g.Between i i' k

variable {g : Graph} {b b₁ b₂ : Builder}

theorem Threads.refl (g : Graph) (b : Builder) : g.Threads b b :=
  fun i hi => ⟨i, hi, .refl, fun _ hle hlt => absurd hlt (Nat.not_lt.mpr hle)⟩

theorem Threads.trans (h : g.Threads b b₁) (h' : g.Threads b₁ b₂) : g.Threads b b₂ := by
  intro i hi
  obtain ⟨i₁, hi₁, hr, hk⟩ := h i hi
  obtain ⟨i₂, hi₂, hr', hk'⟩ := h' i₁ hi₁
  refine ⟨i₂, hi₂, hr.trans hr', fun k hle hlt => ?_⟩
  by_cases hlt' : k < b₁.graph.blocks.length
  · exact (hk k hle hlt').widen .refl hr'
  · exact (hk' k (Nat.le_of_not_lt hlt') hlt).widen hr .refl

theorem threads_of_adds (g : Graph) (h : b.Adds b₁) : g.Threads b b₁ := by
  intro i hi
  refine ⟨i, h.openAt hi, .refl, fun k hle hlt => ?_⟩
  rw [h.length] at hlt
  omega

end Graph

namespace Tree

open FlowLang.Graph

/-- **All new blocks lie on the way** from the insertion point before to the insertion point
after. -/
theorem Lowers.threads {t : Tree} {s s' : Lowering} {v : Option Value} (h : t.Lowers s v s')
    {g : Graph} (hx : s'.builder.graph.Extends g) : g.Threads s.builder s'.builder := by
  induction h with
  | nothing => exact .refl g _
  | last _ ih => exact ih hx
  | next _ hs ih ihs => exact (ih (hs.grows.graph.trans hx)).trans (ihs hx)
  | program _ ih => exact ih hx
  | name _ _ _ hd => exact threads_of_adds g (.defines hd)
  | literal _ hd => exact threads_of_adds g (.defines hd)
  | text _ hd => exact threads_of_adds g (.defines hd)
  | declare _ _ he ih =>
    have hx₁ := (Builder.addSlot_extends _ _).trans (he.extends.trans hx)
    exact ((ih hx₁).trans (threads_of_adds g (.slot _))).trans (threads_of_adds g (.emits he))
  | assign _ _ _ _ he ih => exact (ih (he.extends.trans hx)).trans (threads_of_adds g (.emits he))
  | step _ ih => exact ih hx
  | print _ _ he ih => exact (ih (he.extends.trans hx)).trans (threads_of_adds g (.emits he))
  | binary _ hr _ _ _ hd ihl ihr =>
    have hx₂ := hd.extends.trans hx
    exact ((ihl (hr.grows.graph.trans hx₂)).trans (ihr hx₂)).trans (threads_of_adds g (.defines hd))
  | negate _ _ _ hd ih => exact (ih (hd.extends.trans hx)).trans (threads_of_adds g (.defines hd))
  | @guarded k c body s s₁ s₂ n v w b₁ b₂ b₃ hn h₁ hc _ h₂ hb h₃ ihc ihb =>
    intro i hi
    have hx₂ := h₃.extends.trans hx
    have hx₁ := h₂.extends.trans (hb.grows.graph.trans hx₂)
    obtain ⟨i₁, hi₁, hr₁, hk₁⟩ := ihc hx₁ n h₁.openAt
    obtain ⟨i₂, hi₂, hr₂, hk₂⟩ := ihb hx₂ (n + 1) h₂.openAt
    have e₀ := h₁.successors (Builder.addBlocks_openAt hi _) (hc.grows.graph.trans hx₁)
    have e₁ := h₂.successors hi₁ (hb.grows.graph.trans hx₂)
    have e₂ := h₃.successors hi₂ hx
    -- into the condition, from there into the body or on, and from the body back or on
    have htest : g.Reaches i n := .single (by simp [e₀, Terminator.successors])
    have hbody : g.Reaches i₁ (n + 1) := .single (by simp [e₁, Terminator.successors])
    have hon : g.Reaches i₁ (n + 2) := .single (by simp [e₁, Terminator.successors])
    have hexit : g.Reaches i₂ (k.exit n) := .single (by simp [e₂, Terminator.successors])
    have hend : g.Reaches i₂ (n + 2) := by
      cases k with
      | loop => exact (hexit.trans hr₁).trans hon
      | condition => exact hexit
    have hin := htest.trans hr₁
    refine ⟨n + 2, h₃.openAt, hin.trans hon, fun j hle hlt => ?_⟩
    have hnew : j = n ∨ j = n + 1 ∨ j = n + 2 ∨
        (b₁.graph.blocks.length ≤ j ∧ j < s₁.builder.graph.blocks.length) ∨
        (b₂.graph.blocks.length ≤ j ∧ j < s₂.builder.graph.blocks.length) := by
      have l₁ := h₁.length
      rw [Lowering.fork_length, hn] at l₁
      have l₂ := h₂.length
      have l₃ := h₃.length
      simp only [loopLabels, List.length_cons, List.length_nil] at l₁
      dsimp only at hlt
      omega
    rcases hnew with rfl | rfl | rfl | ⟨hle', hlt'⟩ | ⟨hle', hlt'⟩
    · exact ⟨htest, hr₁.trans hon⟩
    · exact ⟨hin.trans hbody, hr₂.trans hend⟩
    · exact ⟨hin.trans hon, .refl⟩
    · exact (hk₁ j hle' hlt').widen htest hon
    · exact (hk₂ j hle' hlt').widen (hin.trans hbody) hend
  | @choice c yes no s s₁ s₂ s₃ n v w w' b₁ b₂ b₃ b₄ hn h₁ hc _ h₂ hy h₃ hno h₄ ihc ihy ihn =>
    intro i hi
    have hx₃ := h₄.extends.trans hx
    have hx₂ := h₃.extends.trans (hno.grows.graph.trans hx₃)
    have hx₁ := h₂.extends.trans (hy.grows.graph.trans hx₂)
    obtain ⟨i₁, hi₁, hr₁, hk₁⟩ := ihc hx₁ n h₁.openAt
    obtain ⟨i₂, hi₂, hr₂, hk₂⟩ := ihy hx₂ (n + 1) h₂.openAt
    obtain ⟨i₃, hi₃, hr₃, hk₃⟩ := ihn hx₃ (n + 2) h₃.openAt
    have e₀ := h₁.successors (Builder.addBlocks_openAt hi _) (hc.grows.graph.trans hx₁)
    have e₁ := h₂.successors hi₁ (hy.grows.graph.trans hx₂)
    have e₂ := h₃.successors hi₂ (hno.grows.graph.trans hx₃)
    have e₃ := h₄.successors hi₃ hx
    -- into the condition, from there into one of the bodies, and on from both
    have htest : g.Reaches i n := .single (by simp [e₀, Terminator.successors])
    have hyes : g.Reaches i₁ (n + 1) := .single (by simp [e₁, Terminator.successors])
    have hnot : g.Reaches i₁ (n + 2) := .single (by simp [e₁, Terminator.successors])
    have hend : g.Reaches i₂ (n + 3) := .single (by simp [e₂, Terminator.successors])
    have hend' : g.Reaches i₃ (n + 3) := .single (by simp [e₃, Terminator.successors])
    have hin := htest.trans hr₁
    have hon := hyes.trans (hr₂.trans hend)
    refine ⟨n + 3, h₄.openAt, hin.trans hon, fun j hle hlt => ?_⟩
    have hnew : j = n ∨ j = n + 1 ∨ j = n + 2 ∨ j = n + 3 ∨
        (b₁.graph.blocks.length ≤ j ∧ j < s₁.builder.graph.blocks.length) ∨
        (b₂.graph.blocks.length ≤ j ∧ j < s₂.builder.graph.blocks.length) ∨
        (b₃.graph.blocks.length ≤ j ∧ j < s₃.builder.graph.blocks.length) := by
      have l₁ := h₁.length
      rw [Lowering.fork_length, hn] at l₁
      have l₂ := h₂.length
      have l₃ := h₃.length
      have l₄ := h₄.length
      simp only [choiceLabels, List.length_cons, List.length_nil] at l₁
      dsimp only at hlt
      omega
    rcases hnew with rfl | rfl | rfl | rfl | ⟨hle', hlt'⟩ | ⟨hle', hlt'⟩ | ⟨hle', hlt'⟩
    · exact ⟨htest, hr₁.trans hon⟩
    · exact ⟨hin.trans hyes, hr₂.trans hend⟩
    · exact ⟨hin.trans hnot, hr₃.trans hend'⟩
    · exact ⟨hin.trans hon, .refl⟩
    · exact (hk₁ j hle' hlt').widen htest hon
    · exact (hk₂ j hle' hlt').widen (hin.trans hyes) hend
    · exact (hk₃ j hle' hlt').widen (hin.trans hnot) hend'

/-! ## Whole programs -/

/-- The blocks of a module are the entry and those of the controls, with their edges. -/
theorem lower_layout {t : Tree} {m : Module} (h : t.lower.result = .ok m) :
    m.graph.labels = "entry" :: (Control.layout 0 t.controls).map (·.1) ∧
    ∀ k, m.graph.targets.count k = (Control.edgesFrom 1 t.controls).count k := by
  obtain ⟨v, s, b, hlow, hends, rfl, -⟩ := lower_eq_ok h
  have hl := hlow.lays.trans (Lowering.lays_of_ends hends)
  rw [List.append_nil] at hl
  refine ⟨hl.labels, fun k => ?_⟩
  have he := hl.edges k
  rwa [show Lowering.entry.builder.graph.targets = [] from rfl, List.count_nil, Nat.zero_add] at he

/-- One block returns, and all blocks are on the way from the entry to it. -/
theorem lower_threads {t : Tree} {m : Module} (h : t.lower.result = .ok m) :
    ∃ last, m.graph.blocks[last]?.bind (·.exit?) = some (.ret 0) ∧
      ∀ k < m.graph.blocks.length, m.graph.Between 0 last k := by
  obtain ⟨v, s, b, hlow, hends, rfl, -⟩ := lower_eq_ok h
  obtain ⟨i, hi, hr, hk⟩ := hlow.threads hends.extends 0 Lowering.entry_openAt
  obtain ⟨-, j, hj, rfl⟩ := hends
  obtain rfl := hi.unique hj
  obtain ⟨block, hb, -⟩ := hi.2
  refine ⟨i, ?_, fun k hlt => ?_⟩
  · simp [Builder.close_getElem?, hb]
  · rw [Builder.close_length] at hlt
    rcases k with _ | k
    · exact ⟨.refl, hr⟩
    · exact hk (k + 1) (Nat.le_add_left 1 k) hlt

/-- A lowered graph returns no code but zero. -/
theorem lower_ret {t : Tree} {m : Module} (h : t.lower.result = .ok m) {block : Block} {code : Int}
    (hb : block ∈ m.graph.blocks) (he : block.exit? = some (.ret code)) : code = 0 := by
  obtain ⟨last, hret, hway⟩ := lower_threads h
  obtain ⟨k, hk⟩ := List.mem_iff_getElem?.mp hb
  have hexit : m.graph.blocks[k]?.bind (·.exit?) = some (.ret code) := by
    rw [hk, Option.bind_some, he]
  obtain rfl := (hway k (List.getElem?_eq_some_iff.mp hk).1).2.eq_of_ret hexit
  rw [hret] at hexit
  cases hexit
  rfl

/-- **The shape of every lowered graph.**

* It has one block for the entry, three for each loop and each condition, and four for each choice.
  Their labels all differ.
* One block returns, with code zero. Each block can be reached from the entry, and the returning one
  from each block.
* Nothing leads to the entry, and to the blocks of the `i`th control, in the order in which the tree
  is read, as many edges lead as its kind says. -/
theorem lower_shape {t : Tree} {m : Module} (h : t.lower.result = .ok m) :
    m.graph.blocks.length = 1 + 3 * (t.preorder.map node).count .loop +
      3 * (t.preorder.map node).count .condition + 4 * (t.preorder.map node).count .choice ∧
    m.graph.labels.Nodup ∧
    (∃ last,
      (∀ k code, m.graph.blocks[k]?.bind (·.exit?) = some (.ret code) ↔ k = last ∧ code = 0) ∧
      ∀ k < m.graph.blocks.length, m.graph.Reaches 0 k ∧ m.graph.Reaches k last) ∧
    m.graph.predecessors 0 = [] ∧
    ∀ (i : Nat) (c : Control), t.controls[i]? = some c → ∀ p ∈ c.blocks, ∃ k,
      m.graph.blockByLabel? (p.1 ++ toString i) = some k ∧
        (m.graph.predecessors k).length = p.2 := by
  obtain ⟨hlabels, hedges⟩ := lower_layout h
  obtain ⟨last, hret, hway⟩ := lower_threads h
  have hnodup : m.graph.labels.Nodup := by
    rw [hlabels]
    exact List.nodup_cons.mpr ⟨Control.entry_not_mem_layout 0 _, Control.nodup_layout 0 _⟩
  refine ⟨?_, hnodup, ⟨last, fun k code => ⟨fun hk => ?_, ?_⟩, hway⟩, ?_, fun i c hc p hp => ?_⟩
  · have hlen := congrArg List.length hlabels
    rw [List.length_cons, List.length_map, controls, Control.length_layout] at hlen
    simp only [Graph.labels, List.length_map] at hlen
    omega
  · have hlt : k < m.graph.blocks.length := by
      by_contra hge
      rw [List.getElem?_eq_none (Nat.le_of_not_lt hge)] at hk
      cases hk
    obtain rfl := (hway k hlt).2.eq_of_ret hk
    rw [hret] at hk
    cases hk
    exact ⟨rfl, rfl⟩
  · rintro ⟨rfl, rfl⟩
    exact hret
  · rw [← List.length_eq_zero_iff, Graph.length_predecessors, hedges]
    exact Control.count_edgesFrom_of_lt (by omega) _
  · have hmem := Control.mem_layout (i := 0) hc hp
    rw [Nat.zero_add] at hmem
    obtain ⟨k, hk⟩ := List.mem_iff_getElem?.mp hmem
    have hlabel : m.graph.labels[k + 1]? = some (p.1 ++ toString i) := by
      rw [hlabels, List.getElem?_cons_succ, List.getElem?_map, hk]
      rfl
    refine ⟨k + 1, Graph.blockByLabel?_of_nodup hnodup hlabel, ?_⟩
    rw [Graph.length_predecessors, hedges, Nat.add_comm, Control.count_edgesFrom 1 0, hk]
    rfl

/-- A choice in a loop, with a condition in one of its branches. -/
def nestedControls : Tree :=
  let test := mk (.compare .lt) [mk (.integer 1) [], mk (.integer 2) []]
  mk .program [mk .loop [test, mk .choice [test, mk .condition [test, mk .block []], mk .block []]]]

theorem nestedControls_shape :
    ∃ m, nestedControls.lower.result = .ok m ∧ m.graph.blocks.length = 11 ∧
    m.graph.labels.Nodup ∧ ∃ k, m.graph.blockByLabel? "contin2" = some k ∧
      (m.graph.predecessors k).length = 2 := by
  obtain ⟨m, hm⟩ := exists_of_isOk (x := nestedControls.lower.result) (by decide +kernel)
  obtain ⟨hcount, hnodup, -, -, hdegree⟩ := lower_shape hm
  exact ⟨m, hm, hcount.trans (by decide +kernel), hnodup,
    hdegree 2 (.guarded .condition) rfl ("contin", 2) (by decide)⟩

end Tree

end FlowLang
