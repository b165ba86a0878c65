import FlowLang.Compile
import FlowLang.Proofs.LoweringRules

/-!
# Declared names

The names that a tree declares, in textual order.

* `Tree.declared_nodup`: in a tree that passes the check, no name is declared twice.
* `Tree.Lowers.slot_names`: lowering adds one slot for each declaration.

So no two slots of a checked program share a name.
-/

namespace FlowLang

/-- The name that a node declares. -/
def Node.declares? : Node → Option String
  | .declare x _ => some x
  | _ => none

theorem Node.declares?_eq_some {n : Node} {x : String} (h : n.declares? = some x) :
    ∃ kind, n = .declare x kind := by
  cases n with
  | declare y kind => cases h; exact ⟨kind, rfl⟩
  | _ => cases h

namespace Tree

/-- The declared names in textual order. -/
def declared (t : Tree) : List String := t.postorder.filterMap (·.node.declares?)

theorem declared_mk (n : Node) (ts : List Tree) :
    (mk n ts).declared = ts.flatMap declared ++ n.declares?.toList := by
  have hroot : [mk n ts].filterMap (·.node.declares?) = n.declares?.toList := by
    show [mk n ts].filterMap (fun t => t.node.declares?) = _
    cases h : n.declares? with
    | none => exact List.filterMap_cons_none h
    | some x => exact List.filterMap_cons_some h
  rw [declared, postorder, postorderAll_eq, List.filterMap_append, List.filterMap_flatMap, hroot]
  rfl

theorem declared_next (t : Tree) (ts : List Tree) :
    (mk .block (t :: ts)).declared = t.declared ++ (mk .block ts).declared := by
  rw [declared_mk, declared_mk, List.flatMap_cons, List.append_assoc]

theorem declared_first (kind : Kind) : kind.first.declared = [] := by
  cases kind <;> rfl

theorem declared_stepped (k : Step) (x : String) (e : Tree) :
    (stepped k x e).declared = (mk (k.node x) [e]).declared := by
  unfold stepped
  cases k <;> simp [declared_mk, Step.node, Node.declares?]

/-- Lowering adds one slot for each declaration, in their order. -/
theorem Lowers.slot_names {t : Tree} {s s' : Lowering} {v : Option Value} (h : t.Lowers s v s') :
    s'.builder.graph.slots.map (·.name) = s.builder.graph.slots.map (·.name) ++ t.declared := by
  induction h with
  | nothing => rw [declared_mk]; simp [Node.declares?]
  | last _ ih => rw [declared_mk]; simpa [Node.declares?] using ih
  | next _ _ ih ihs => rw [ihs, ih, List.append_assoc, ← declared_next]
  | program _ ih => rw [declared_mk] at ih ⊢; exact ih
  | name _ _ _ hd => rw [hd.slots, declared_mk]; simp [Node.declares?]
  | @literal l _ _ _ _ hd =>
    rw [hd.slots, declared_mk]; cases l <;> simp [Literal.node, Node.declares?]
  | text _ hd => rw [hd.slots, declared_mk]; simp [Node.declares?]
  | declare _ _ he ih =>
    rw [he.slots, declared_mk]
    rw [declared_first, List.append_nil] at ih
    simp [Builder.addSlot, ih, Node.declares?]
  | assign _ _ _ _ he ih => rw [he.slots, ih, declared_mk]; simp [Node.declares?]
  | step _ ih => rw [ih, declared_stepped]
  | print _ _ he ih => rw [he.slots, ih, declared_mk]; simp [Node.declares?]
  | @binary op _ _ _ _ _ _ _ _ _ _ _ _ _ _ hd ihl ihr =>
    rw [hd.slots, ihr, ihl, declared_mk]
    cases op <;> simp [Binary.node, Node.declares?]
  | negate _ _ _ hd ih => rw [hd.slots, ih, declared_mk]; simp [Node.declares?]
  | @guarded g _ _ _ _ _ _ _ _ _ _ _ _ h₁ _ _ h₂ _ h₃ ihc ihb =>
    rw [h₃.slots, ihb]
    dsimp only
    rw [h₂.slots, ihc]
    dsimp only
    rw [h₁.slots, declared_mk]
    cases g <;> simp [Guard.node, Node.declares?, Lowering.fork, Builder.addBlocks]
  | choice _ h₁ _ _ h₂ _ h₃ _ h₄ ihc ihy ihn =>
    rw [h₄.slots, ihn]
    dsimp only
    rw [h₃.slots, ihy]
    dsimp only
    rw [h₂.slots, ihc]
    dsimp only
    rw [h₁.slots, declared_mk]
    simp [Node.declares?, Lowering.fork, Builder.addBlocks]

end Tree

/-! ## The check -/

namespace Checker

mutual

/-- The check of a tree looks at all its subtrees, each after those below it. -/
theorem check_eq_foldl (c : Checker) : ∀ t : Tree, c.check t = t.postorder.foldl examine c
  | .mk n ts => by
    rw [check, Tree.postorder, List.foldl_append, checkAll_eq_foldl c ts]
    rfl

theorem checkAll_eq_foldl (c : Checker) :
    ∀ ts : List Tree, c.checkAll ts = (Tree.postorderAll ts).foldl examine c
  | [] => by
    rw [checkAll, Tree.postorderAll]
    rfl
  | t :: ts => by
    rw [checkAll, Tree.postorderAll, List.foldl_append, ← check_eq_foldl c t,
      checkAll_eq_foldl (c.check t) ts]

end

/-- Trees are checked one after the other. -/
theorem checkAll_eq (c : Checker) (ts : List Tree) : c.checkAll ts = ts.foldl check c := by
  induction ts generalizing c with
  | nil => rw [checkAll]; rfl
  | cons t ts ih => rw [checkAll, ih]; rfl

theorem faults_examine (c : Checker) (t : Tree) : c.faults <+: (c.examine t).faults := by
  unfold examine
  split
  · split
    · exact List.prefix_append _ _
    · exact List.prefix_refl _
  · split
    · exact List.prefix_refl _
    · exact List.prefix_append _ _
  · split
    · exact List.prefix_append _ _
    · split
      · exact List.prefix_refl _
      · split
        · exact List.prefix_refl _
        · exact List.prefix_append _ _
  · exact List.prefix_refl _

/-- A fault is never lost. -/
theorem faults_foldl (ts : List Tree) (c : Checker) : c.faults <+: (ts.foldl examine c).faults := by
  induction ts generalizing c with
  | nil => exact List.prefix_refl _
  | cons t ts ih => exact (c.faults_examine t).trans (ih _)

theorem faults_check (c : Checker) (t : Tree) : c.faults <+: (c.check t).faults := by
  rw [check_eq_foldl]
  exact faults_foldl _ c

/-- A declaration without fault is the first of its name, and from then on the name is known. -/
theorem examine_declare {c : Checker} {t : Tree} {x : String} {kind : Kind}
    (hn : t.node = .declare x kind) (hf : (c.examine t).faults = []) :
    c.kindOf? x = none ∧ c.examine t = { c with kinds := (x, kind) :: c.kinds } := by
  unfold examine at hf ⊢
  rw [hn] at hf ⊢
  dsimp only at hf ⊢
  split at hf
  · exact absurd hf (List.append_ne_nil_of_right_ne_nil _ (List.cons_ne_nil _ _))
  · rename_i hk
    rw [if_neg hk]
    exact ⟨by simpa using hk, rfl⟩

/-- Nothing but a declaration makes a name known. -/
theorem examine_kinds {c : Checker} {t : Tree} (hn : t.node.declares? = none) :
    (c.examine t).kinds = c.kinds := by
  unfold examine
  split
  · rename_i h
    rw [h] at hn
    cases hn
  · split <;> rfl
  · split
    · rfl
    · split
      · rfl
      · split <;> rfl
  · rfl

/-- Without faults no name is declared twice, and none that was known before. -/
theorem nodup_of_foldl (ts : List Tree) (c : Checker) (hf : (ts.foldl examine c).faults = []) :
    (ts.filterMap (·.node.declares?)).Nodup ∧
      ∀ x ∈ ts.filterMap (·.node.declares?), c.kindOf? x = none := by
  induction ts generalizing c with
  | nil => exact ⟨List.nodup_nil, nofun⟩
  | cons t ts ih =>
    have hf₁ : (c.examine t).faults = [] := List.prefix_nil.mp (hf ▸ faults_foldl ts (c.examine t))
    obtain ⟨hd, hnew⟩ := ih (c.examine t) hf
    cases hx : t.node.declares? with
    | none =>
      simp only [List.filterMap_cons, hx]
      unfold kindOf? at hnew ⊢
      rw [examine_kinds hx] at hnew
      exact ⟨hd, hnew⟩
    | some x =>
      simp only [List.filterMap_cons, hx]
      obtain ⟨kind, hn⟩ := Node.declares?_eq_some hx
      obtain ⟨hk, he⟩ := examine_declare hn hf₁
      rw [he] at hnew
      -- the later names are not known after this declaration
      have hlater : ∀ y ∈ ts.filterMap (·.node.declares?), y ≠ x ∧ c.kindOf? y = none := by
        intro y hy
        have h := hnew y hy
        unfold kindOf? at h
        rw [List.lookup_cons] at h
        by_cases hyx : y = x
        · rw [hyx, beq_self_eq_true] at h
          cases h
        · rw [beq_false_of_ne hyx] at h
          exact ⟨hyx, h⟩
      refine ⟨List.nodup_cons.mpr ⟨fun hm => (hlater x hm).1 rfl, hd⟩, ?_⟩
      rintro y (_ | ⟨_, hy⟩)
      · exact hk
      · exact (hlater y hy).2

end Checker

namespace Tree

/-- A tree is compiled iff the check finds nothing and the tree is lowered. -/
theorem compile_eq_ok {t : Tree} {m : Module} :
    t.compile = .ok m ↔ (Checker.fresh.check t).faults = [] ∧ t.lower.result = .ok m := by
  unfold compile Checker.toExcept
  by_cases hf : (Checker.fresh.check t).faults = []
  · rw [hf, List.isEmpty_nil, if_pos rfl]
    cases t.lower.result with
    | error faults => simp
    | ok m' => simp
  · rw [if_neg (by rwa [List.isEmpty_iff])]
    simp [hf]

/-- **In a tree that passes the check, no name is declared twice.** -/
theorem declared_nodup {t : Tree} (h : (Checker.fresh.check t).faults = []) : t.declared.Nodup := by
  rw [Checker.check_eq_foldl] at h
  exact (Checker.nodup_of_foldl _ _ h).1

end Tree

end FlowLang
