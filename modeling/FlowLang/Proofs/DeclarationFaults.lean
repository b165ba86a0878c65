import FlowLang.Proofs.Declared
import FlowLang.Proofs.Positions

/-!
# What the check of declarations reports

The check (`check` of a `SemanticVisitor`) goes through the nodes of a tree with a table of
variables and a list of faults. But what it has to say about a node can be read off the nodes before
it, in post-order.

* `Tree.kindIn?`: the kind of a name among some nodes is that of its first declaration.
* `DeclarationFault.At nodes i e`: the node at position `i` has the fault `e`, by the nodes before
  it. The function `Tree.faultAt?` computes it (`Tree.faultAt?_eq_some`).
* `Checker.Covers`: the table and the faults of a check are those of the nodes seen so far. The next
  node keeps it so (`Checker.Covers.examine`).
* **`Checker.check_reports`**: so the check reports the faults of all nodes in their order, and
  nothing else.
-/

namespace FlowLang

/-- The kind that the node declares a name to have. -/
def Node.kindFor? (x : String) : Node → Option Kind
  | .declare y kind => if y = x then some kind else none
  | _ => none

namespace Tree

/-- The kind of a name: that of its first declaration among the nodes. -/
def kindIn? (nodes : List Tree) (x : String) : Option Kind := nodes.findSome? (·.node.kindFor? x)

/-- The kind of an assigned expression after some nodes. A name without declaration has none. -/
inductive ValueKind (earlier : List Tree) (value : Tree) : Kind → Prop
  | text {s : String} (hn : value.node = .text s) : ValueKind earlier value .text
  | name {x : String} {kind : Kind} (hn : value.node = .name x)
      (hx : kindIn? earlier x = some kind) : ValueKind earlier value kind
  | other (ht : ∀ s, value.node ≠ .text s) (hn : ∀ x, value.node ≠ .name x) :
      ValueKind earlier value .number

/-- The kind of an assigned expression, if it has one. -/
def valueKind? (earlier : List Tree) (value : Tree) : Option Kind :=
  match value.node with
  | .text _ => some .text
  | .name x => kindIn? earlier x
  | _ => some .number

end Tree

/-! ## The faults of a node -/

open FlowLang.Tree in
/-- The node at position `i` has the fault. A name has a kind there if it is declared before. -/
inductive DeclarationFault.At (nodes : List Tree) (i : Nat) : DeclarationFault → Prop
  | redeclared {t : Tree} {x : String} {kind first : Kind} (ht : nodes[i]? = some t)
      (hn : t.node = .declare x kind) (hx : kindIn? (nodes.take i) x = some first) :
      At nodes i (.redeclared x)
  | used {t : Tree} {x : String} (ht : nodes[i]? = some t) (hn : t.node = .name x)
      (hx : kindIn? (nodes.take i) x = none) : At nodes i (.undeclared x)
  | assigned {t : Tree} {x : String} (ht : nodes[i]? = some t) (hn : t.node = .assign x)
      (hx : kindIn? (nodes.take i) x = none) : At nodes i (.undeclared x)
  | incorrectKind {t value : Tree} {x : String} {declared found : Kind} (ht : nodes[i]? = some t)
      (hn : t.node = .assign x) (hx : kindIn? (nodes.take i) x = some declared)
      (hv : t.children.head? = some value) (hk : ValueKind (nodes.take i) value found)
      (hne : declared ≠ found) : At nodes i (.incorrectKind x declared found)

namespace Tree

/-- The fault of an assignment to a variable of a declared kind, if the first child has another
one. -/
def mismatch? (earlier : List Tree) (x : String) (declared : Kind) (t : Tree) :
    Option DeclarationFault :=
  (t.children.head?.bind (valueKind? earlier)).bind fun found =>
    if declared = found then none else some (.incorrectKind x declared found)

/-- The fault of a node after some nodes, if it has one. -/
def declarationFault? (earlier : List Tree) (t : Tree) : Option DeclarationFault :=
  match t.node with
  | .declare x _ => (kindIn? earlier x).map fun _ => .redeclared x
  | .name x => (kindIn? earlier x).elim (some (.undeclared x)) fun _ => none
  | .assign x =>
    (kindIn? earlier x).elim (some (.undeclared x)) fun declared => mismatch? earlier x declared t
  | _ => none

/-- The fault of the node at a position, if it has one. -/
def faultAt? : List Tree → Nat → Option DeclarationFault := foundAt? declarationFault?

theorem valueKind?_eq_some {earlier : List Tree} {value : Tree} {kind : Kind} :
    valueKind? earlier value = some kind ↔ ValueKind earlier value kind := by
  unfold valueKind?
  constructor
  · intro h
    split at h
    · rename_i s hn
      cases h
      exact .text hn
    · rename_i x hn
      exact .name hn h
    · rename_i ht hn
      cases h
      exact .other ht hn
  · rintro (hn | ⟨hn, hx⟩ | ⟨ht, hn⟩)
    · rw [hn]
    · rw [hn]
      exact hx
    · split
      · rename_i s h
        exact absurd h (ht s)
      · rename_i x h
        exact absurd h (hn x)
      · rfl

theorem mismatch?_eq_some {earlier : List Tree} {x : String} {declared : Kind} {t : Tree}
    {e : DeclarationFault} : mismatch? earlier x declared t = some e ↔ ∃ value found,
      t.children.head? = some value ∧ ValueKind earlier value found ∧ declared ≠ found ∧
        e = .incorrectKind x declared found := by
  simp only [mismatch?, Option.bind_eq_some_iff, valueKind?_eq_some]
  constructor
  · rintro ⟨found, ⟨value, hv, hk⟩, he⟩
    by_cases hne : declared = found
    · rw [if_pos hne] at he
      cases he
    · rw [if_neg hne] at he
      exact ⟨value, found, hv, hk, hne, (Option.some.inj he).symm⟩
  · rintro ⟨value, found, hv, hk, hne, rfl⟩
    exact ⟨found, ⟨value, hv, hk⟩, if_neg hne⟩

/-- The function computes the fault of a node. -/
theorem faultAt?_eq_some {nodes : List Tree} {i : Nat} {e : DeclarationFault} :
    faultAt? nodes i = some e ↔ e.At nodes i := by
  unfold faultAt? foundAt?
  rw [Option.bind_eq_some_iff]
  constructor
  · rintro ⟨t, ht, h⟩
    unfold declarationFault? at h
    split at h
    · rename_i x kind hn
      obtain ⟨first, hx, rfl⟩ := Option.map_eq_some_iff.mp h
      exact .redeclared ht hn hx
    · rename_i x hn
      cases hx : kindIn? (nodes.take i) x with
      | none => rw [hx] at h; cases h; exact .used ht hn hx
      | some kind => rw [hx] at h; cases h
    · rename_i x hn
      cases hx : kindIn? (nodes.take i) x with
      | none => rw [hx] at h; cases h; exact .assigned ht hn hx
      | some declared =>
        rw [hx] at h
        obtain ⟨value, found, hv, hk, hne, rfl⟩ := mismatch?_eq_some.mp h
        exact .incorrectKind ht hn hx hv hk hne
    · cases h
  · intro h
    cases h with
    | @redeclared t x kind first ht hn hx => exact ⟨t, ht, by rw [declarationFault?, hn]; simp [hx]⟩
    | @used t x ht hn hx => exact ⟨t, ht, by rw [declarationFault?, hn]; simp [hx]⟩
    | @assigned t x ht hn hx => exact ⟨t, ht, by rw [declarationFault?, hn]; simp [hx]⟩
    | @incorrectKind t value x declared found ht hn hx hv hk hne =>
      refine ⟨t, ht, ?_⟩
      rw [declarationFault?, hn]
      simp only [hx, Option.elim_some]
      exact mismatch?_eq_some.mpr ⟨value, found, hv, hk, hne, rfl⟩

theorem kindIn?_concat (nodes : List Tree) (t : Tree) (x : String) :
    kindIn? (nodes ++ [t]) x = (kindIn? nodes x).or (t.node.kindFor? x) := by
  simp [kindIn?, List.findSome?_append]

end Tree

/-! ## The check -/

namespace Checker

open FlowLang.Tree

/-- The table and the faults are those of the nodes. -/
structure Covers (c : Checker) (nodes : List Tree) : Prop where
  kinds : ∀ x, c.kindOf? x = kindIn? nodes x
  faults : c.faults = foundIn declarationFault? nodes

theorem covers_fresh : Covers fresh [] := ⟨fun _ => rfl, rfl⟩

/-- The table after one more node has its declaration, if there was none of that name before. -/
theorem kindOf?_examine (c : Checker) (t : Tree) (x : String) :
    (c.examine t).kindOf? x = (c.kindOf? x).or (t.node.kindFor? x) := by
  cases hd : t.node.declares? with
  | none =>
    have hk : t.node.kindFor? x = none := by
      cases hn : t.node <;> rw [hn] at hd <;> first | rfl | cases hd
    rw [hk, Option.or_none, kindOf?, kindOf?, examine_kinds hd]
  | some y =>
    obtain ⟨kind, hn⟩ := Node.declares?_eq_some hd
    unfold examine
    rw [hn]
    dsimp only [Node.kindFor?]
    by_cases hyx : y = x
    · subst hyx
      cases hy : c.kindOf? y with
      | none => simp [kindOf?]
      | some first => exact hy
    · rw [if_neg hyx, Option.or_none]
      cases hy : c.kindOf? y with
      | none => simp [kindOf?, List.lookup_cons, beq_false_of_ne (Ne.symm hyx)]
      | some first => rfl

theorem kindOfValue?_eq {c : Checker} {nodes : List Tree} (h : ∀ x, c.kindOf? x = kindIn? nodes x)
    (value : Tree) : c.kindOfValue? value = valueKind? nodes value := by
  unfold kindOfValue? valueKind?
  cases value.node with
  | name x => exact h x
  | _ => rfl

/-- The faults after one more node have its own fault at their end. -/
theorem faults_examine_eq {c : Checker} {nodes : List Tree} (h : ∀ x, c.kindOf? x = kindIn? nodes x)
    (t : Tree) : (c.examine t).faults = c.faults ++ (declarationFault? nodes t).toList := by
  unfold examine declarationFault?
  cases t.node with
  | declare x kind => simp only [h]; cases kindIn? nodes x <;> simp [report]
  | name x => simp only [h]; cases kindIn? nodes x <;> simp [report]
  | assign x =>
    have hv : c.kindOfValue? = valueKind? nodes := funext (kindOfValue?_eq h)
    simp only [h]
    cases kindIn? nodes x with
    | none => simp [report]
    | some declared =>
      simp only [hv, mismatch?, Option.elim_some]
      cases t.children.head?.bind (valueKind? nodes) with
      | none => simp
      | some found => by_cases hne : declared = found <;> simp [hne, report]
  | _ => simp

theorem Covers.examine {c : Checker} {nodes : List Tree} (h : c.Covers nodes) (t : Tree) :
    (c.examine t).Covers (nodes ++ [t]) where
  kinds x := by rw [kindOf?_examine, h.kinds, kindIn?_concat]
  faults := by
    rw [faults_examine_eq h.kinds, h.faults, foundIn_append, foundIn_singleton, List.append_nil]

theorem Covers.foldl {c : Checker} {nodes : List Tree} (h : c.Covers nodes) (ts : List Tree) :
    (ts.foldl Checker.examine c).Covers (nodes ++ ts) := by
  induction ts generalizing c nodes with
  | nil => rwa [List.append_nil]
  | cons t ts ih =>
    rw [List.append_cons]
    exact ih (h.examine t)

/-- The check of one tree after another covers the nodes of both. -/
theorem Covers.check {c : Checker} {nodes : List Tree} (h : c.Covers nodes) (t : Tree) :
    (c.check t).Covers (nodes ++ t.postorder) := by
  rw [check_eq_foldl]
  exact h.foldl t.postorder

/-- **The check reports the faults of all nodes, in their order and nothing else.** The nodes of a
tree of any shape are listed in post-order, and each has at most one fault, which depends on the
nodes before it. The check passes iff no node has one. -/
theorem check_reports (t : Tree) :
    (fresh.check t).faults = (List.range t.postorder.length).filterMap (faultAt? t.postorder) ∧
    (∀ i e, faultAt? t.postorder i = some e ↔ e.At t.postorder i) ∧
    ((fresh.check t).isOk ↔ ∀ i e, ¬DeclarationFault.At t.postorder i e) := by
  have hfaults : (fresh.check t).faults = foundIn declarationFault? t.postorder :=
    (covers_fresh.check t).faults
  refine ⟨hfaults, fun i e => faultAt?_eq_some, ?_⟩
  rw [isOk, List.isEmpty_iff, hfaults, foundIn_eq_nil]
  constructor
  · intro h i e hat
    have hnone : faultAt? t.postorder i = none := h i
    rw [faultAt?_eq_some.mpr hat] at hnone
    cases hnone
  · intro h i
    cases hi : faultAt? t.postorder i with
    | none => exact hi
    | some e => exact absurd (faultAt?_eq_some.mp hi) (h i e)

end Checker

end FlowLang
