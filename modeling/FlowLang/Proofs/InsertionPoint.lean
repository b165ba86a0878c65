import FlowLang.Proofs.FaultKinds

/-!
# Lowering keeps its graph well formed

Whatever the tree, lowering (`generate`) goes on to the end, and a fault never leaves the graph in
disorder.

* `Tree.Enters t s u s'`: lowering `t` from `s` comes to its child `u`, and is then at `s'`.
  `Tree.Visits` is the same for all trees below `t`.
* `Tree.Visits.openAt`: the insertion point is an open block wherever lowering comes to a tree.
* **`Tree.lower_wellFormed`**: this for whole programs, where in the end all blocks are terminated.
-/

namespace FlowLang

/-! ## The insertion point -/

/-- The nodes whose children are tried one after the other. -/
def Node.Recovers : Node → Prop
  | .program | .block | .loop | .condition | .choice => True
  | _ => False

namespace Tree

open Lower

/-- The start of every loop, condition and choice: on to the block `test`. -/
def enterTest (test : Nat) : Lower Nat Unit := do
  build (.jump test)
  build (.switchTo test)

/-- Lowering the tree from `s` comes to the child `u`, and is then at `s'`. The new blocks of a
loop, a condition and a choice start at `n`. -/
inductive Enters : Tree → Lowering → Tree → Lowering → Prop
  | listed {n : Node} (us : List Tree) {u : Tree} {vs : List Tree} {s s' : Lowering}
      {v : Option Value} (hn : n.arity? = none) (h : lowerAll none us s = .ok v s') :
      Enters (mk n (us ++ u :: vs)) s u s'
  | only {n : Node} {u : Tree} {s : Lowering} (hn : n.arity? = some 1) : Enters (mk n [u]) s u s
  | left {op : Binary} {l r : Tree} {s : Lowering} : Enters (mk op.node [l, r]) s l s
  | right {op : Binary} {l r : Tree} {s s' : Lowering} {v : Value}
      (h : valueOf l l.lowerNode s = .ok v s') : Enters (mk op.node [l, r]) s r s'
  | guardedTest {g : Guard} {c b : Tree} {s s' : Lowering} {n : Nat}
      (hn : s.builder.graph.blocks.length = n)
      (h : enterTest n (s.fork (loopLabels s.nextLabel)) = .ok () s') :
      Enters (mk g.node [c, b]) s c s'
  | guardedBody {g : Guard} {c b : Tree} {s s' : Lowering} {n : Nat}
      (hn : s.builder.graph.blocks.length = n)
      (h : (do
        enterTest n
        branchOn (valueOf c c.lowerNode) (n + 1) (n + 2)
        build (.switchTo (n + 1))) (s.fork (loopLabels s.nextLabel)) = .ok () s') :
      Enters (mk g.node [c, b]) s b s'
  | choiceTest {c b e : Tree} {s s' : Lowering} {n : Nat} (hn : s.builder.graph.blocks.length = n)
      (h : enterTest n (s.fork (choiceLabels s.nextLabel)) = .ok () s') :
      Enters (mk .choice [c, b, e]) s c s'
  | choiceYes {c b e : Tree} {s s' : Lowering} {n : Nat} (hn : s.builder.graph.blocks.length = n)
      (h : (do
        enterTest n
        branchOn (valueOf c c.lowerNode) (n + 1) (n + 2)
        build (.switchTo (n + 1))) (s.fork (choiceLabels s.nextLabel)) = .ok () s') :
      Enters (mk .choice [c, b, e]) s b s'
  | choiceNo {c b e : Tree} {s s' : Lowering} {n : Nat} (hn : s.builder.graph.blocks.length = n)
      (h : (do
        enterTest n
        branchOn (valueOf c c.lowerNode) (n + 1) (n + 2)
        body (n + 1) (n + 3) b.lowerNode
        build (.switchTo (n + 2))) (s.fork (choiceLabels s.nextLabel)) = .ok () s') :
      Enters (mk .choice [c, b, e]) s e s'

/-- Lowering `t` from `s` comes to the tree `u`, and is then at `s'`. -/
inductive Visits (t : Tree) (s : Lowering) : Tree → Lowering → Prop
  | root : Visits t s t s
  | child {u v : Tree} {s₁ s₂ : Lowering} (h : Visits t s u s₁) (he : u.Enters s₁ v s₂) :
      Visits t s v s₂

theorem switchTo_opens {s : Lowering} {k : Nat} (hk : s.builder.graph.IsOpen k) :
    ∃ s', build (.switchTo k) s = .ok () s' ∧ s'.builder.OpenAt k :=
  ⟨s.moveTo k, switchTo_of_lt hk.lt, Builder.moveTo_openAt hk⟩

section Blocks

variable {s : Lowering} {i n : Nat} (labels : List String)

theorem enterTest_opens (hi : s.builder.OpenAt i) (hn : s.builder.graph.blocks.length = n)
    (hl : 1 ≤ labels.length) :
    ∃ s', enterTest n (s.fork labels) = .ok () s' ∧ s'.builder.OpenAt n := by
  subst hn
  have hopen := Builder.addBlocks_openAt hi labels
  have htest := Builder.addBlocks_fresh (b := s.builder) (k := 0) hl
  have hlt := hi.2.lt
  have hends := ends_of_openAt (t := .jump s.builder.graph.blocks.length) hopen fun j hj => by
    rw [List.mem_singleton.mp hj]; exact htest.isOpen.lt
  unfold enterTest
  rw [bind_apply, jump_of_openAt hopen htest.isOpen.lt]
  exact switchTo_opens ((hends.settles hopen).fresh htest (by simp; omega)).isOpen

/-- The body of a loop or a condition, and the first one of a choice. -/
theorem first_opens (c : Tree) (hi : s.builder.OpenAt i) (hn : s.builder.graph.blocks.length = n)
    (hl : 3 ≤ labels.length) :
    ∃ s', (do
      enterTest n
      branchOn (valueOf c c.lowerNode) (n + 1) (n + 2)
      build (.switchTo (n + 1))) (s.fork labels) = .ok () s' ∧ s'.builder.OpenAt (n + 1) := by
  subst hn
  have hnew : ∀ k < 3, (s.fork labels).builder.graph.FreshAt (s.builder.graph.blocks.length + k) :=
    fun k hk => Builder.addBlocks_fresh (by omega)
  have hlt := hi.2.lt
  obtain ⟨_, _, s₁, _, b', -, -, -, e₁, -, h₁, -⟩ := enter_branchOn c.lowerNode_keeps
    (Builder.addBlocks_openAt hi labels) (hnew 0 (by omega)) (by omega)
    (hnew 1 (by omega)).isOpen.lt (hnew 2 (by omega)).isOpen.lt
    (build (.switchTo (s.builder.graph.blocks.length + 1)))
  obtain ⟨s', e, ho⟩ := switchTo_opens (s := { s₁ with builder := b' })
    (h₁.fresh (hnew 1 (by omega)) (by simp; omega)).isOpen
  refine ⟨s', ?_, ho⟩
  unfold enterTest
  rw [bind_assoc]
  exact e₁.trans e

/-- The second body of a choice. -/
theorem second_opens (c b : Tree) (hi : s.builder.OpenAt i)
    (hn : s.builder.graph.blocks.length = n) (hl : 4 ≤ labels.length) :
    ∃ s', (do
      enterTest n
      branchOn (valueOf c c.lowerNode) (n + 1) (n + 2)
      body (n + 1) (n + 3) b.lowerNode
      build (.switchTo (n + 2))) (s.fork labels) = .ok () s' ∧ s'.builder.OpenAt (n + 2) := by
  subst hn
  have hnew : ∀ k < 4, (s.fork labels).builder.graph.FreshAt (s.builder.graph.blocks.length + k) :=
    fun k hk => Builder.addBlocks_fresh (by omega)
  have hlt := hi.2.lt
  obtain ⟨_, _, s₁, _, b', -, -, -, e₁, -, h₁, -⟩ := enter_branchOn c.lowerNode_keeps
    (Builder.addBlocks_openAt hi labels) (hnew 0 (by omega)) (by omega)
    (hnew 1 (by omega)).isOpen.lt (hnew 2 (by omega)).isOpen.lt (do
      body (s.builder.graph.blocks.length + 1) (s.builder.graph.blocks.length + 3) b.lowerNode
      build (.switchTo (s.builder.graph.blocks.length + 2)))
  obtain ⟨_, s₂, b'', -, -, e₂, -, h₂⟩ := body_settles (s := { s₁ with builder := b' })
    b.lowerNode_keeps (h₁.fresh (hnew 1 (by omega)) (by simp; omega)).isOpen
    (h₁.fresh (hnew 3 (by omega)) (by simp; omega)).isOpen.lt
  obtain ⟨s', e, ho⟩ := switchTo_opens (s := { s₂ with builder := b'' })
    ((h₁.trans h₂).fresh (hnew 2 (by omega)) (by simp; omega)).isOpen
  refine ⟨s', ?_, ho⟩
  unfold enterTest
  rw [bind_assoc]
  refine e₁.trans ?_
  rw [bind_apply, e₂]
  exact e

end Blocks

/-- Wherever lowering comes from an open insertion point, the insertion point is open. -/
theorem Enters.openAt {t u : Tree} {s s' : Lowering} {i : Nat} (h : t.Enters s u s')
    (hi : s.builder.OpenAt i) : ∃ j, s'.builder.OpenAt j := by
  have reached : ∀ {s₁ : Lowering}, s.Leads s₁ → ∃ j, s₁.builder.OpenAt j := fun hl =>
    (hl.framed i hi).imp fun _ hj => hj.1
  have opened : ∀ {r : EStateM.Result LoweringFault Lowering Unit} {j : Nat}, r = .ok () s' →
      (∃ s₁, r = .ok () s₁ ∧ s₁.builder.OpenAt j) → ∃ j, s'.builder.OpenAt j := by
    rintro r j he ⟨s₁, he', hj⟩
    cases he.symm.trans he'
    exact ⟨j, hj⟩
  cases h with
  | listed _ _ h => exact reached ((keeps_lowerAll (fun t _ => t.lowerNode_keeps) none).of_ok hi h)
  | only _ => exact ⟨i, hi⟩
  | left => exact ⟨i, hi⟩
  | right h => exact reached ((keeps_valueOf _ (lowerNode_keeps _)).of_ok hi h)
  | guardedTest hn h => exact opened h (enterTest_opens _ hi hn (by simp [loopLabels]))
  | guardedBody hn h => exact opened h (first_opens _ _ hi hn (by simp [loopLabels]))
  | choiceTest hn h => exact opened h (enterTest_opens _ hi hn (by simp [choiceLabels]))
  | choiceYes hn h => exact opened h (first_opens _ _ hi hn (by simp [choiceLabels]))
  | choiceNo hn h => exact opened h (second_opens _ _ _ hi hn (by simp [choiceLabels]))

theorem Visits.openAt {t u : Tree} {s s' : Lowering} {i : Nat} (h : t.Visits s u s')
    (hi : s.builder.OpenAt i) : ∃ j, s'.builder.OpenAt j := by
  induction h with
  | root => exact ⟨i, hi⟩
  | child _ he ih =>
    obtain ⟨j, hj⟩ := ih
    exact he.openAt hj

/-- A list of trees is lowered to its end, also after faults. -/
theorem lowerAll_ok (ts : List Tree) (last : Option Value) (s : Lowering) :
    ∃ v s', lowerAll last ts s = .ok v s' := by
  induction ts generalizing last s with
  | nil => rw [lowerAll]; exact ⟨last, s, rfl⟩
  | cons t ts ih =>
    obtain ⟨r, s₁, h⟩ := attempt_ok t.lowerNode s
    rw [lowerAll, bind_apply, h]
    exact ih r.join s₁

/-- Lowering comes to every child of a regular statement list, loop, condition or choice, also if it
has recorded a fault at an earlier one. -/
theorem exists_enters {t u : Tree} {s : Lowering} {i : Nat} (hi : s.builder.OpenAt i)
    (ht : t.node.Recovers) (hk : ∀ k, t.node.arity? = some k → t.children.length = k)
    (hu : u ∈ t.children) : ∃ s', t.Enters s u s' := by
  obtain ⟨n, ts⟩ := t
  have listed : n.arity? = none → ∃ s', (mk n ts).Enters s u s' := by
    intro hn
    obtain ⟨us, vs, rfl⟩ := List.append_of_mem hu
    obtain ⟨v, s', h⟩ := lowerAll_ok us none s
    exact ⟨s', .listed us hn h⟩
  have guarded : ∀ g : Guard, n = g.node → ts.length = 2 → ∃ s', (mk n ts).Enters s u s' := by
    rintro g rfl hl
    obtain ⟨c, b, rfl⟩ := List.length_eq_two.mp hl
    rcases List.mem_pair.mp hu with rfl | rfl
    · exact (enterTest_opens _ hi rfl (by simp [loopLabels])).imp fun _ h => .guardedTest rfl h.1
    · exact (first_opens _ c hi rfl (by simp [loopLabels])).imp fun _ h => .guardedBody rfl h.1
  cases n with
  | program => exact listed rfl
  | block => exact listed rfl
  | loop => exact guarded .loop rfl (hk 2 rfl)
  | condition => exact guarded .condition rfl (hk 2 rfl)
  | choice =>
    obtain ⟨c, b, e, rfl⟩ := List.length_eq_three.mp (hk 3 rfl)
    simp only [children, List.mem_cons, List.not_mem_nil, or_false] at hu
    rcases hu with rfl | rfl | rfl
    · exact (enterTest_opens _ hi rfl (by simp [choiceLabels])).imp fun _ h => .choiceTest rfl h.1
    · exact (first_opens _ c hi rfl (by simp [choiceLabels])).imp fun _ h => .choiceYes rfl h.1
    · exact (second_opens _ c b hi rfl (by simp [choiceLabels])).imp fun _ h => .choiceNo rfl h.1
  | _ => cases ht

/-! ## Whole programs -/

/-- **Lowering keeps its graph well formed**, whatever the shape of the tree:

* All its faults are faults of the tree.
* At every tree to which it comes, the insertion point is open before and after, whether the tree
  can be lowered or not. If the tree has another number of children than its node expects, then that
  is the fault, and nothing has changed. If it has that number, then a fault at one child of a
  statement list, a loop, a condition or a choice does not keep lowering from the others.
* It always comes to an end, and then every block is terminated and leads to blocks of the graph
  only. -/
theorem lower_wellFormed (t : Tree) :
    (∀ faults, t.lower.result = .error faults → ∀ e ∈ faults, e.OfTree) ∧
    (∀ u s, t.Visits .entry u s → (∃ i, s.builder.OpenAt i) ∧
      (∃ i, (after (u.lowerNode s)).builder.OpenAt i) ∧
      (∀ k, u.node.arity? = some k → u.children.length ≠ k →
        u.lowerNode s = .error (.arity u.node.label k u.children.length) s) ∧
      ((∀ k, u.node.arity? = some k → u.children.length = k) → u.node.Recovers →
        ∀ w ∈ u.children, ∃ s', t.Visits .entry w s')) ∧
    ∃ s : Lowering, t.lowerProgram .start = .ok () s ∧ ∀ block ∈ s.builder.graph.blocks,
      ∃ e, block.exit? = some e ∧ ∀ j ∈ e.successors, j < s.builder.graph.blocks.length := by
  refine ⟨fun faults h => ?_, fun u s h => ?_, ?_⟩
  · rw [eq_findings_of_lower h]
    exact t.findings_ofTree
  · obtain ⟨i, hi⟩ := h.openAt Lowering.entry_openAt
    refine ⟨⟨i, hi⟩, ?_, fun k hk hl => ?_, fun hk hr w hw => ?_⟩
    · obtain ⟨j, hj, -⟩ := (u.lowerNode_keeps s i hi).framed i hi
      exact ⟨j, hj⟩
    · obtain ⟨n, ts⟩ := u
      exact congrFun (lowerNode_irregular hk hl) s
    · exact (exists_enters hi hr hk hw).imp fun _ he => h.child he
  · obtain ⟨s, hs, hv⟩ := t.lowerProgram_verifies
    exact ⟨s, hs, Graph.verify_eq_ok.mp hv⟩

/-- A loop whose condition names no variable, and whose body prints nothing. -/
def brokenLoop : Tree := mk .program [mk .loop [mk (.name "x") [], mk .print []]]

/-- Both faults are found, so lowering comes to the body after the fault of the condition. -/
theorem brokenLoop_wellFormed :
    (∀ e ∈ [LoweringFault.undeclared "x", .arity "print" 1 0], e.OfTree) ∧
    ∃ s, brokenLoop.Visits .entry (mk .print []) s ∧ (∃ i, s.builder.OpenAt i) ∧
      (mk .print []).lowerNode s = .error (.arity "print" 1 0) s := by
  have hf : brokenLoop.findings = [.undeclared "x", .arity "print" 1 0] := by decide +kernel
  obtain ⟨s, hs, -⟩ := first_opens (loopLabels 0) (mk (.name "x") []) Lowering.entry_openAt
    rfl (by simp [loopLabels])
  have hv : brokenLoop.Visits .entry (mk .print []) s :=
    (Visits.root.child (.listed [] rfl rfl)).child (.guardedBody (g := .loop) rfl hs)
  obtain ⟨hfaults, hvisits, -⟩ := lower_wellFormed brokenLoop
  obtain ⟨hopen, -, hirregular, -⟩ := hvisits _ s hv
  refine ⟨hfaults _ ?_, s, hv, hopen, hirregular 1 rfl (by decide)⟩
  rw [← hf]
  exact brokenLoop.lower_result.2 (by rw [hf]; simp)

end Tree

end FlowLang
