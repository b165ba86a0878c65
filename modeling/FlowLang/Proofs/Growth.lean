import FlowLang.Proofs.Building

/-!
# How a graph grows

Building only ever adds to a graph.

* `Graph.Extends g g'`: `g'` has all slots of `g`, every block of `g` has at most gained
  instructions, and a terminated block is as it was.
* `Graph.Ahead g b block rest`: in the finished graph `g`, the instructions `rest` of `block` still
  come after the insertion point of `b`. What is added next is what `rest` starts with
  (`Ahead.emits`, `Ahead.defines`, `Ahead.ends`).
* `Builder.Switches`: the current block is ended and work goes on at an empty one.
* `Builder.Framed`: work that starts at an open block touches no other block that was there, and
  ends at an open block; everything else it made is terminated. `Graph.Settles` is the same for work
  that ends some given blocks and leaves nothing new open.
-/

namespace FlowLang

/-! ## More of the same graph -/

/-- A block that has at most gained instructions and a terminator. -/
structure Block.Extends (b b' : Block) : Prop where
  label : b'.label = b.label
  instrs : b.instrs <+: b'.instrs
  exit : b.exit?.isSome → b' = b

/-- A graph that has at most gained slots, blocks, and what blocks may gain. -/
structure Graph.Extends (g g' : Graph) : Prop where
  slots : g.slots <+: g'.slots
  blocks : ∀ (i : Nat) (block : Block), g.blocks[i]? = some block →
    ∃ block', g'.blocks[i]? = some block' ∧ block.Extends block'

theorem Block.Extends.refl (b : Block) : b.Extends b :=
  ⟨rfl, List.prefix_refl _, fun _ => rfl⟩

theorem Block.Extends.trans {a b c : Block} (h₁ : a.Extends b) (h₂ : b.Extends c) :
    a.Extends c := by
  refine ⟨h₂.label.trans h₁.label, h₁.instrs.trans h₂.instrs, fun h => ?_⟩
  have hb := h₁.exit h
  rw [← hb] at h
  rw [h₂.exit h, hb]

namespace Graph.Extends

theorem refl (g : Graph) : g.Extends g :=
  ⟨List.prefix_refl _, fun _ block h => ⟨block, h, .refl block⟩⟩

theorem trans {a b c : Graph} (h₁ : a.Extends b) (h₂ : b.Extends c) : a.Extends c := by
  refine ⟨h₁.slots.trans h₂.slots, fun i block h => ?_⟩
  obtain ⟨block', h', e⟩ := h₁.blocks i block h
  obtain ⟨block'', h'', e'⟩ := h₂.blocks i block' h'
  exact ⟨block'', h'', e.trans e'⟩

theorem length_le {g g' : Graph} (h : g.Extends g') : g.blocks.length ≤ g'.blocks.length := by
  by_contra hlt
  have hi : g'.blocks.length < g.blocks.length := Nat.lt_of_not_le hlt
  obtain ⟨block, hb, -⟩ := h.blocks _ _ (List.getElem?_eq_getElem hi)
  exact absurd (List.getElem?_eq_some_iff.mp hb).1 (Nat.lt_irrefl _)

theorem slot {g g' : Graph} (h : g.Extends g') {i : Nat} {slot : Slot}
    (hs : g.slots[i]? = some slot) : g'.slots[i]? = some slot := by
  obtain ⟨more, hm⟩ := h.slots
  rw [← hm, List.getElem?_append_left (List.getElem?_eq_some_iff.mp hs).1, hs]

/-- A terminated block stays as it is. -/
theorem terminated {g g' : Graph} (h : g.Extends g') {i : Nat} {block : Block}
    (hb : g.blocks[i]? = some block) (he : block.exit?.isSome) : g'.blocks[i]? = some block := by
  obtain ⟨block', hb', e⟩ := h.blocks i block hb
  rw [hb', e.exit he]

end Graph.Extends

/-- What is read off a list, after one element has gained something. -/
theorem flatMap_modify_perm {α β : Type} {l : List α} {i : Nat} {a : α} {f : α → α} {g : α → List β}
    (more : List β) (hi : l[i]? = some a) (hf : (g (f a)).Perm (more ++ g a)) :
    ((l.modify i f).flatMap g).Perm (more ++ l.flatMap g) := by
  induction l generalizing i with
  | nil => simp at hi
  | cons x l ih =>
    cases i with
    | zero =>
      obtain rfl : x = a := by simpa using hi
      simpa using hf.append_right (l.flatMap g)
    | succ i =>
      have h := (ih (by simpa using hi)).append_left (g x)
      simpa using h.trans (List.perm_append_comm_assoc _ _ _)

variable {N : Type}

namespace Builder

theorem push_getElem? (b : Builder N) (i j : Nat) (ins : Instr) :
    (b.push i ins).graph.blocks[j]? =
      b.graph.blocks[j]?.map fun block =>
        if i = j then { block with instrs := block.instrs ++ [ins] } else block := by
  unfold push modifyBlock
  rw [List.getElem?_modify]
  cases b.graph.blocks[j]? <;> simp

theorem close_getElem? (b : Builder N) (i j : Nat) (t : Terminator) :
    (b.close i t).graph.blocks[j]? =
      b.graph.blocks[j]?.map fun block =>
        if i = j then { block with exit? := some t } else block := by
  unfold close modifyBlock
  rw [List.getElem?_modify]
  cases b.graph.blocks[j]? <;> simp

theorem push_getElem?_ne (b : Builder N) {i j : Nat} (h : i ≠ j) (ins : Instr) :
    (b.push i ins).graph.blocks[j]? = b.graph.blocks[j]? := by
  rw [push_getElem?]
  simp only [if_neg h, Option.map_id']

theorem close_getElem?_ne (b : Builder N) {i j : Nat} (h : i ≠ j) (t : Terminator) :
    (b.close i t).graph.blocks[j]? = b.graph.blocks[j]? := by
  rw [close_getElem?]
  simp only [if_neg h, Option.map_id']

theorem push_length (b : Builder N) (i : Nat) (ins : Instr) :
    (b.push i ins).graph.blocks.length = b.graph.blocks.length :=
  List.length_modify ..

theorem close_length (b : Builder N) (i : Nat) (t : Terminator) :
    (b.close i t).graph.blocks.length = b.graph.blocks.length :=
  List.length_modify ..

theorem addBlocks_length (b : Builder N) (labels : List String) :
    (b.addBlocks labels).graph.blocks.length = b.graph.blocks.length + labels.length := by
  simp [addBlocks]

theorem addBlocks_old (b : Builder N) (labels : List String) {j : Nat}
    (hj : j < b.graph.blocks.length) : (b.addBlocks labels).graph.blocks[j]? = b.graph.blocks[j]? :=
  List.getElem?_append_left hj

theorem addBlocks_new (b : Builder N) (labels : List String) {k : Nat} {label : String}
    (hk : labels[k]? = some label) :
    (b.addBlocks labels).graph.blocks[b.graph.blocks.length + k]? = some ⟨label, [], none⟩ := by
  show (b.graph.blocks ++ labels.map _)[_]? = _
  rw [List.getElem?_append_right (Nat.le_add_right _ _), Nat.add_sub_cancel_left, List.getElem?_map,
    hk]
  rfl

theorem push_extends {b : Builder N} {i : Nat} (h : b.graph.IsOpen i) (ins : Instr) :
    b.graph.Extends (b.push i ins).graph := by
  refine ⟨List.prefix_refl _, fun j block hj => ?_⟩
  rw [push_getElem?, hj]
  refine ⟨_, rfl, ?_⟩
  split
  · rename_i hij
    subst hij
    obtain ⟨open', ho, he⟩ := h
    rw [hj] at ho
    cases ho
    exact ⟨rfl, List.prefix_append _ _, fun hs => by rw [he] at hs; cases hs⟩
  · exact .refl block

theorem close_extends {b : Builder N} {i : Nat} (h : b.graph.IsOpen i) (t : Terminator) :
    b.graph.Extends (b.close i t).graph := by
  refine ⟨List.prefix_refl _, fun j block hj => ?_⟩
  rw [close_getElem?, hj]
  refine ⟨_, rfl, ?_⟩
  split
  · rename_i hij
    subst hij
    obtain ⟨open', ho, he⟩ := h
    rw [hj] at ho
    cases ho
    exact ⟨rfl, List.prefix_refl _, fun hs => by rw [he] at hs; cases hs⟩
  · exact .refl block

theorem addBlocks_extends (b : Builder N) (labels : List String) :
    b.graph.Extends (b.addBlocks labels).graph := by
  refine ⟨List.prefix_refl _, fun j block hj => ⟨block, ?_, .refl block⟩⟩
  rw [addBlocks_old b labels (List.getElem?_eq_some_iff.mp hj).1, hj]

theorem addSlot_extends (b : Builder N) (slot : Slot) : b.graph.Extends (b.addSlot slot).graph :=
  ⟨List.prefix_append _ _, fun _ block hj => ⟨block, hj, .refl block⟩⟩

theorem Emits.extends {b b' : Builder N} {ins : Instr} (h : b.Emits ins b') :
    b.graph.Extends b'.graph := by
  obtain ⟨i, hi, rfl⟩ := h
  exact push_extends hi.2 ins

theorem Defines.extends [Counter N] {b b' : Builder N} {v : Value} {ins : Instr}
    (h : b.Defines v ins b') : b.graph.Extends b'.graph := by
  obtain ⟨-, i, hi, rfl⟩ := h
  exact push_extends hi.2 ins

theorem Emits.slots {b b' : Builder N} {ins : Instr} (h : b.Emits ins b') :
    b'.graph.slots = b.graph.slots := by
  obtain ⟨i, -, rfl⟩ := h
  rfl

theorem Defines.slots [Counter N] {b b' : Builder N} {v : Value} {ins : Instr}
    (h : b.Defines v ins b') : b'.graph.slots = b.graph.slots := by
  obtain ⟨-, i, -, rfl⟩ := h
  rfl

theorem Emits.name {b b' : Builder N} {ins : Instr} (h : b.Emits ins b') :
    b'.graph.name = b.graph.name := by
  obtain ⟨i, -, rfl⟩ := h
  rfl

theorem Defines.name [Counter N] {b b' : Builder N} {v : Value} {ins : Instr}
    (h : b.Defines v ins b') : b'.graph.name = b.graph.name := by
  obtain ⟨-, i, -, rfl⟩ := h
  rfl

/-- A value that was defined has a smaller number than all that come later. -/
theorem Defines.index_lt {b b' : Builder} {v : Value} {ins : Instr} (h : b.Defines v ins b') :
    v.index < b'.nextValue := by
  obtain ⟨hv, i, -, rfl⟩ := h
  rw [hv]
  exact Nat.lt_succ_self _

theorem Ends.slots {b b' : Builder N} {t : Terminator} (h : b.Ends t b') :
    b'.graph.slots = b.graph.slots := by
  obtain ⟨-, i, -, rfl⟩ := h
  rfl

theorem Ends.name {b b' : Builder N} {t : Terminator} (h : b.Ends t b') :
    b'.graph.name = b.graph.name := by
  obtain ⟨-, i, -, rfl⟩ := h
  rfl

theorem Ends.extends {b b' : Builder N} {t : Terminator} (h : b.Ends t b') :
    b.graph.Extends b'.graph := by
  obtain ⟨-, i, hi, rfl⟩ := h
  exact close_extends hi.2 t

end Builder

/-! ## What comes after the insertion point -/

/-- In the finished graph `g`, the instructions `rest` of `block` come after the insertion point
of `b`. -/
def Graph.Ahead (g : Graph) (b : Builder N) (block : Block) (rest : List Instr) : Prop :=
  ∃ i part, b.current? = some i ∧ b.graph.blocks[i]? = some part ∧ part.exit? = none ∧
    g.blocks[i]? = some block ∧ block.instrs = part.instrs ++ rest

namespace Graph.Ahead

variable {g : Graph} {b b' : Builder N} {block : Block} {rest : List Instr}

/-- What is added at the insertion point comes first. -/
theorem push {i : Nat} {ins : Instr} (h : g.Ahead b block rest) (hi : b.OpenAt i)
    (hx : (b.push i ins).graph.Extends g) :
    ∃ rest', rest = ins :: rest' ∧ g.Ahead (b.push i ins) block rest' := by
  obtain ⟨k, part, hk, hp, he, hb, hr⟩ := h
  have hki : k = i := Option.some.inj (hk.symm.trans hi.1)
  subst hki
  have hp' : (b.push k ins).graph.blocks[k]? =
      some { part with instrs := part.instrs ++ [ins] } := by
    rw [Builder.push_getElem?, hp]
    simp
  obtain ⟨block', hb', e⟩ := hx.blocks k _ hp'
  rw [hb] at hb'
  cases hb'
  obtain ⟨rest', hrest⟩ := e.instrs
  rw [hr, List.append_assoc, List.append_cancel_left_eq] at hrest
  exact ⟨rest', hrest.symm, k, _, hk, hp', he, hb, by rw [hr, ← hrest]; simp⟩

theorem emits {ins : Instr} (h : g.Ahead b block rest) (he : b.Emits ins b')
    (hx : b'.graph.Extends g) : ∃ rest', rest = ins :: rest' ∧ g.Ahead b' block rest' := by
  obtain ⟨i, hi, rfl⟩ := he
  exact h.push hi hx

theorem defines [Counter N] {v : Value} {ins : Instr} (h : g.Ahead b block rest)
    (hd : b.Defines v ins b') (hx : b'.graph.Extends g) :
    ∃ rest', rest = ins :: rest' ∧ g.Ahead b' block rest' := by
  obtain ⟨-, i, hi, rfl⟩ := hd
  exact h.push hi hx

/-- The terminator added at the insertion point is that of the block, and nothing comes before
it. -/
theorem ends {t : Terminator} (h : g.Ahead b block rest) (ht : b.Ends t b')
    (hx : b'.graph.Extends g) : rest = [] ∧ block.exit? = some t := by
  obtain ⟨k, part, hk, hp, he, hb, hr⟩ := h
  obtain ⟨-, i, hi, rfl⟩ := ht
  have hki : k = i := Option.some.inj (hk.symm.trans hi.1)
  subst hki
  have hp' : (b.close k t).graph.blocks[k]? = some { part with exit? := some t } := by
    rw [Builder.close_getElem?, hp]
    simp
  have hb' := hx.terminated hp' rfl
  rw [hb] at hb'
  cases hb'
  exact ⟨by simpa using hr, rfl⟩

/-- New blocks do not matter. -/
theorem addBlocks (h : g.Ahead b block rest) (labels : List String) :
    g.Ahead (b.addBlocks labels) block rest := by
  obtain ⟨i, part, hi, hp, hrest⟩ := h
  refine ⟨i, part, hi, ?_, hrest⟩
  rw [Builder.addBlocks_old b labels (List.getElem?_eq_some_iff.mp hp).1, hp]

end Graph.Ahead

/-- The block exists, and nothing has been added to it. -/
def Graph.FreshAt (g : Graph) (i : Nat) : Prop :=
  ∃ label, g.blocks[i]? = some ⟨label, [], none⟩

theorem Graph.FreshAt.isOpen {g : Graph} {i : Nat} (h : g.FreshAt i) : g.IsOpen i := by
  obtain ⟨label, h⟩ := h
  exact ⟨_, h, rfl⟩

/-- `b'` is `b` with the block of the insertion point ended, and the insertion point at the start of
the empty block `k`. -/
def Builder.Switches (b : Builder N) (t : Terminator) (k : Nat) (b' : Builder N) : Prop :=
  ∃ b₁, b.Ends t b₁ ∧ b₁.graph.FreshAt k ∧ b' = b₁.moveTo k

theorem Builder.Switches.extends {b b' : Builder N} {t : Terminator} {k : Nat}
    (h : b.Switches t k b') : b.graph.Extends b'.graph := by
  obtain ⟨b₁, he, -, rfl⟩ := h
  exact he.extends

theorem Builder.Switches.nextValue {b b' : Builder N} {t : Terminator} {k : Nat}
    (h : b.Switches t k b') : b'.nextValue = b.nextValue := by
  obtain ⟨b₁, ⟨-, i, -, rfl⟩, -, rfl⟩ := h
  rfl

theorem Builder.Switches.slots {b b' : Builder N} {t : Terminator} {k : Nat}
    (h : b.Switches t k b') : b'.graph.slots = b.graph.slots := by
  obtain ⟨b₁, ⟨-, i, -, rfl⟩, -, rfl⟩ := h
  rfl

theorem Builder.Switches.name {b b' : Builder N} {t : Terminator} {k : Nat}
    (h : b.Switches t k b') : b'.graph.name = b.graph.name := by
  obtain ⟨b₁, ⟨-, i, -, rfl⟩, -, rfl⟩ := h
  rfl

theorem Builder.Switches.openAt {b b' : Builder N} {t : Terminator} {k : Nat}
    (h : b.Switches t k b') : b'.OpenAt k := by
  obtain ⟨b₁, -, hf, rfl⟩ := h
  exact ⟨rfl, hf.isOpen⟩

/-- Before a switch, nothing is left of the block but the terminator. -/
theorem Graph.Ahead.switches {g : Graph} {b b' : Builder N} {block : Block} {rest : List Instr}
    {t : Terminator} {k : Nat} (h : g.Ahead b block rest) (hs : b.Switches t k b')
    (hx : b'.graph.Extends g) : rest = [] ∧ block.exit? = some t := by
  obtain ⟨b₁, he, -, rfl⟩ := hs
  exact h.ends he hx

/-- After a switch, all of the finished block is still to come. -/
theorem Builder.Switches.ahead {g : Graph} {b b' : Builder N} {t : Terminator} {k : Nat}
    (hs : b.Switches t k b') (hx : b'.graph.Extends g) :
    ∃ block, g.blocks[k]? = some block ∧ g.Ahead b' block block.instrs := by
  obtain ⟨b₁, -, ⟨label, hk⟩, rfl⟩ := hs
  obtain ⟨block, hg, -⟩ := hx.blocks k _ hk
  exact ⟨block, hg, k, _, rfl, hk, rfl, hg, rfl⟩

theorem Builder.Switches.lt {g : Graph} {b b' : Builder N} {t : Terminator} {k : Nat}
    (hs : b.Switches t k b') (hx : b'.graph.Extends g) : k < g.blocks.length := by
  obtain ⟨block, hb, -⟩ := hs.ahead hx
  exact (List.getElem?_eq_some_iff.mp hb).1

/-! ## Work at the insertion point -/

/-- From `g` to `g'`, the blocks in `done` were ended, no other block of `g` was touched, and no new
block is open. -/
structure Graph.Settles (g g' : Graph) (done : List Nat) : Prop where
  length : g.blocks.length ≤ g'.blocks.length
  frame : ∀ j, j < g.blocks.length → j ∉ done → g'.blocks[j]? = g.blocks[j]?
  opens : ∀ j, g'.IsOpen j → g.IsOpen j ∧ j ∉ done

/-- From `b` to `b'`, only the open block of the insertion point was touched, and the insertion
point is still there or at a new block, the only new one that is open. -/
def Builder.Framed (b b' : Builder N) : Prop := ∀ i, b.OpenAt i → ∃ i', b'.OpenAt i' ∧
  (i' = i ∨ b.graph.blocks.length ≤ i') ∧ b.graph.blocks.length ≤ b'.graph.blocks.length ∧
  (∀ j, j < b.graph.blocks.length → j ≠ i → b'.graph.blocks[j]? = b.graph.blocks[j]?) ∧
  ∀ j, b'.graph.IsOpen j → j = i' ∨ b.graph.IsOpen j ∧ j ≠ i

theorem Graph.isOpen_congr {g g' : Graph} {j : Nat} (h : g'.blocks[j]? = g.blocks[j]?) :
    g'.IsOpen j ↔ g.IsOpen j := by
  unfold IsOpen
  rw [h]

namespace Graph.Settles

variable {g g' g'' : Graph} {done done' : List Nat}

/-- Two stretches of work, one after the other. -/
theorem trans (h₁ : g.Settles g' done) (h₂ : g'.Settles g'' done') :
    g.Settles g'' (done ++ done') := by
  refine ⟨h₁.length.trans h₂.length, fun j hj hn => ?_, fun j hj => ?_⟩
  · rw [List.mem_append, not_or] at hn
    rw [h₂.frame j (Nat.lt_of_lt_of_le hj h₁.length) hn.2, h₁.frame j hj hn.1]
  · obtain ⟨hj', hn'⟩ := h₂.opens j hj
    obtain ⟨hj'', hn⟩ := h₁.opens j hj'
    exact ⟨hj'', by rw [List.mem_append, not_or]; exact ⟨hn, hn'⟩⟩

/-- A new block that was not settled is still empty. -/
theorem fresh {k : Nat} (h : g.Settles g' done) (hk : g.FreshAt k) (hn : k ∉ done) :
    g'.FreshAt k := by
  have hf := h.frame k hk.isOpen.lt hn
  obtain ⟨label, hk⟩ := hk
  exact ⟨label, hf.trans hk⟩

end Graph.Settles

namespace Builder

variable {b b' b'' : Builder N}

theorem moveTo_openAt {i : Nat} (h : b.graph.IsOpen i) : (b.moveTo i).OpenAt i := ⟨rfl, h⟩

theorem Framed.refl (b : Builder N) : b.Framed b := by
  intro i hi
  refine ⟨i, hi, .inl rfl, Nat.le_refl _, fun _ _ _ => rfl, fun j hj => ?_⟩
  by_cases h : j = i
  · exact .inl h
  · exact .inr ⟨hj, h⟩

theorem Framed.trans (h₁ : b.Framed b') (h₂ : b'.Framed b'') : b.Framed b'' := by
  intro i hi
  obtain ⟨i', hi', hnew, hlen, hfr, hop⟩ := h₁ i hi
  obtain ⟨i'', hi'', hnew', hlen', hfr', hop'⟩ := h₂ i' hi'
  refine ⟨i'', hi'', ?_, by omega, fun j hj hne => ?_, fun j hj => ?_⟩
  · rcases hnew' with rfl | h
    · exact hnew
    · exact .inr (by omega)
  · rw [hfr' j (by omega) (by omega), hfr j hj hne]
  · rcases hop' j hj with rfl | ⟨hj', hne⟩
    · exact .inl rfl
    · exact .inr ((hop j hj').resolve_left hne)

/-- Ending the block where framed work has arrived settles the block where it started. -/
theorem Framed.ends {i : Nat} {t : Terminator} (h : b.Framed b') (hi : b.OpenAt i)
    (ht : b'.Ends t b'') : b.graph.Settles b''.graph [i] := by
  obtain ⟨i', hi', hnew, hlen, hfr, hop⟩ := h i hi
  obtain ⟨-, k, hk, rfl⟩ := ht
  obtain rfl := hk.unique hi'
  have hlt := hi.2.lt
  refine ⟨by rw [close_length]; exact hlen, fun j hj hne => ?_, fun j hj => ?_⟩
  · rw [List.mem_singleton] at hne
    rw [close_getElem?_ne _ (by omega), hfr j hj hne]
  · have hne : j ≠ k := by
      rintro rfl
      obtain ⟨block, hb, he⟩ := hj
      rw [close_getElem?] at hb
      obtain ⟨part, -, rfl⟩ := Option.map_eq_some_iff.mp hb
      rw [if_pos rfl] at he
      cases he
    have hj' : b'.graph.IsOpen j :=
      (Graph.isOpen_congr (close_getElem?_ne _ (Ne.symm hne) _)).mp hj
    rw [List.mem_singleton]
    exact (hop j hj').resolve_left hne

theorem Ends.settles {i : Nat} {t : Terminator} (h : b.Ends t b') (hi : b.OpenAt i) :
    b.graph.Settles b'.graph [i] := (Framed.refl b).ends hi h

theorem push_openAt {i : Nat} (hi : b.OpenAt i) (ins : Instr) : (b.push i ins).OpenAt i := by
  refine ⟨hi.1, ?_⟩
  obtain ⟨block, hb, he⟩ := hi.2
  refine ⟨_, by rw [push_getElem?, hb]; rfl, ?_⟩
  dsimp only
  rw [if_pos rfl]
  exact he

theorem push_framed {i : Nat} (hi : b.OpenAt i) (ins : Instr) : b.Framed (b.push i ins) := by
  intro k hk
  obtain rfl := hk.unique hi
  refine ⟨k, push_openAt hi ins, .inl rfl, by rw [push_length], fun j _ hne => ?_, fun j hj => ?_⟩
  · exact push_getElem?_ne _ (Ne.symm hne) _
  · by_cases h : j = k
    · exact .inl h
    · exact .inr ⟨(Graph.isOpen_congr (push_getElem?_ne _ (Ne.symm h) _)).mp hj, h⟩

theorem Emits.framed {ins : Instr} (h : b.Emits ins b') : b.Framed b' := by
  obtain ⟨i, hi, rfl⟩ := h
  exact push_framed hi ins

theorem Defines.framed [Counter N] {v : Value} {ins : Instr} (h : b.Defines v ins b') :
    b.Framed b' := by
  obtain ⟨-, i, hi, rfl⟩ := h
  exact push_framed hi ins

theorem addSlot_framed (b : Builder N) (slot : Slot) : b.Framed (b.addSlot slot) := Framed.refl b

theorem addBlocks_openAt {i : Nat} (hi : b.OpenAt i) (labels : List String) :
    (b.addBlocks labels).OpenAt i :=
  ⟨hi.1, (Graph.isOpen_congr (addBlocks_old b labels hi.2.lt)).mpr hi.2⟩

theorem addBlocks_fresh {k : Nat} {labels : List String} (hk : k < labels.length) :
    (b.addBlocks labels).graph.FreshAt (b.graph.blocks.length + k) :=
  ⟨_, addBlocks_new b labels (List.getElem?_eq_getElem hk)⟩

/-- New blocks are added and then all settled but one, at which work goes on. -/
theorem framed_of_settles {i k : Nat} {labels : List String} {done : List Nat}
    (h : (b.addBlocks labels).graph.Settles b'.graph done) (hi : b.OpenAt i)
    (hk : k < labels.length)
    (hdone : ∀ j, j < b.graph.blocks.length + labels.length →
      (j ∈ done ↔ j = i ∨ b.graph.blocks.length ≤ j ∧ j ≠ b.graph.blocks.length + k)) :
    b.Framed (b'.moveTo (b.graph.blocks.length + k)) := by
  have hlen : b.graph.blocks.length + labels.length ≤ b'.graph.blocks.length := by
    rw [← addBlocks_length]
    exact h.length
  have hlt := hi.2.lt
  intro i' hi'
  obtain rfl := hi'.unique hi
  refine ⟨b.graph.blocks.length + k, moveTo_openAt (h.fresh (addBlocks_fresh hk) ?_).isOpen,
    .inr (by omega), Nat.le_trans (Nat.le_add_right _ _) hlen, fun j hj hne => ?_, fun j hj => ?_⟩
  · rw [hdone _ (by omega)]
    omega
  · have hn : j ∉ done := by
      rw [hdone j (by omega)]
      omega
    exact (h.frame j (by rw [addBlocks_length]; omega) hn).trans (addBlocks_old b labels hj)
  · obtain ⟨hj', hn⟩ := h.opens j hj
    have hjl : j < b.graph.blocks.length + labels.length := by
      rw [← addBlocks_length]
      exact hj'.lt
    rw [hdone j hjl, not_or, not_and_or] at hn
    by_cases hjk : j = b.graph.blocks.length + k
    · exact .inl hjk
    · have hold : j < b.graph.blocks.length := by omega
      exact .inr ⟨(Graph.isOpen_congr (addBlocks_old b labels hold)).mp hj', hn.1⟩

end Builder

end FlowLang
