import FlowLang.Proofs.ObjectCheck
import FlowLang.Proofs.Soundness

/-!
# Lowered code is in order

An object file can be made (`emit`) of every module that lowering gives out (`generate`): each value
is computed once, and before its uses in the order of the blocks. A statement list may stand where
an expression is expected, so a value can be computed in one block and used in another. But the
insertion point at which a tree was lowered is never in an earlier block than the one at which it
began (`Tree.Lowers.advances`), and bodies of loops and choices give no values.

* `Builder.Has`: the value is computed in the block of the insertion point or in an earlier one.
* `Builder.InOrder`: what is built so far is in order, and its values are numbered without gap.
* `Tree.Lowers.inOrder`: lowering keeps this.
* **`Tree.lower_emittable`**: so the check for object files accepts every lowered module.
-/

namespace FlowLang

/-! ## What is added stays in place -/

theorem Graph.Extends.instrAt? {g g' : Graph} (h : g.Extends g') {i j : Nat} {ins : Instr}
    (hins : g.instrAt? i j = some ins) : g'.instrAt? i j = some ins := by
  obtain ⟨block, hb, hj⟩ := Graph.instrAt?_eq_some.mp hins
  obtain ⟨block', hb', hx⟩ := h.blocks i block hb
  exact Graph.instrAt?_eq_some.mpr ⟨block', hb', getElem?_of_isPrefix hx.instrs hj⟩

/-- What is computed before a place is still so in a larger graph, and before all later places. -/
theorem Graph.ComputedBefore.mono {g g' : Graph} {i j i' j' x : Nat} (h : g.ComputedBefore i j x)
    (hg : g.Extends g') (hle : i < i' ∨ i = i' ∧ j ≤ j') : g'.ComputedBefore i' j' x := by
  obtain ⟨k, l, ins, hins, hx, hkl⟩ := h
  exact ⟨k, l, ins, hg.instrAt? hins, hx, by omega⟩

namespace Builder

section Instructions

variable {N : Type} {b : Builder N}

/-- An instruction after one was added: it was there before, or it is the new one at the end of its
block. -/
theorem push_instrAt? {i : Nat} {block : Block} (hb : b.graph.blocks[i]? = some block) {ins : Instr}
    {k l : Nat} {ins' : Instr} (h : (b.push i ins).graph.instrAt? k l = some ins') :
    b.graph.instrAt? k l = some ins' ∨ k = i ∧ l = block.instrs.length ∧ ins' = ins := by
  obtain ⟨block', hb', hl⟩ := Graph.instrAt?_eq_some.mp h
  rw [push_getElem?] at hb'
  obtain ⟨old, ho, rfl⟩ := Option.map_eq_some_iff.mp hb'
  by_cases hik : i = k
  · subst hik
    rw [hb] at ho
    cases ho
    rw [if_pos rfl] at hl
    dsimp only at hl
    by_cases hlt : l < block.instrs.length
    · rw [List.getElem?_append_left hlt] at hl
      exact .inl (Graph.instrAt?_eq_some.mpr ⟨block, hb, hl⟩)
    · rw [List.getElem?_append_right (by omega)] at hl
      have hend := (List.getElem?_eq_some_iff.mp hl).1
      rw [List.length_singleton] at hend
      obtain rfl : l = block.instrs.length := by omega
      rw [Nat.sub_self] at hl
      cases hl
      exact .inr ⟨rfl, rfl, rfl⟩
  · rw [if_neg hik] at hl
    exact .inl (Graph.instrAt?_eq_some.mpr ⟨old, ho, hl⟩)

theorem close_instrAt? (b : Builder N) (i : Nat) (t : Terminator) (k l : Nat) :
    (b.close i t).graph.instrAt? k l = b.graph.instrAt? k l := by
  unfold Graph.instrAt?
  rw [close_getElem?]
  cases b.graph.blocks[k]? with
  | none => rfl
  | some block => by_cases h : i = k <;> simp [h]

theorem addBlocks_instrAt? (b : Builder N) (labels : List String) (k l : Nat) :
    (b.addBlocks labels).graph.instrAt? k l = b.graph.instrAt? k l := by
  unfold Graph.instrAt? addBlocks
  dsimp only
  by_cases hk : k < b.graph.blocks.length
  · rw [List.getElem?_append_left hk]
  · have hnone : b.graph.blocks[k]? = none := List.getElem?_eq_none (by omega)
    rw [List.getElem?_append_right (by omega), List.getElem?_map, hnone]
    cases labels[k - b.graph.blocks.length]? <;> rfl

theorem numbers_push {i : Nat} {block : Block} (hb : b.graph.blocks[i]? = some block)
    (ins : Instr) : (b.push i ins).graph.numbers.Perm (ins.number?.toList ++ b.graph.numbers) := by
  refine flatMap_modify_perm _ hb ?_
  simpa [Block.numbers] using List.perm_append_comm

theorem numbers_close {i : Nat} {block : Block} (hb : b.graph.blocks[i]? = some block)
    (t : Terminator) : (b.close i t).graph.numbers.Perm b.graph.numbers :=
  flatMap_modify_perm [] hb (.refl _)

theorem numbers_addBlocks (b : Builder N) (labels : List String) :
    (b.addBlocks labels).graph.numbers = b.graph.numbers := by
  simp [Graph.numbers, addBlocks, Block.numbers]

end Instructions

/-! ## Values at hand -/

variable {b b' : Builder}

/-- The insertion point has not moved to an earlier block. -/
def Advances (b b' : Builder) : Prop := ∀ i, b.OpenAt i → ∃ i', b'.OpenAt i' ∧ i ≤ i'

theorem Advances.trans {b'' : Builder} (h : b.Advances b') (h' : b'.Advances b'') :
    b.Advances b'' := by
  intro i hi
  obtain ⟨j, hj, hij⟩ := h i hi
  obtain ⟨k, hk, hjk⟩ := h' j hj
  exact ⟨k, hk, hij.trans hjk⟩

theorem Framed.advances (h : b.Framed b') : b.Advances b' := by
  intro i hi
  have hlt := hi.2.lt
  obtain ⟨i', hi', hnew, -⟩ := h i hi
  exact ⟨i', hi', by omega⟩

/-- The value is computed in the block of the insertion point or in an earlier one. -/
def Has (b : Builder) (v : Value) : Prop :=
  ∃ i, b.OpenAt i ∧ b.graph.ComputedBefore (i + 1) 0 v.index

theorem Has.mono {v : Value} (h : b.Has v) (hg : b.graph.Extends b'.graph) (ha : b.Advances b') :
    b'.Has v := by
  obtain ⟨i, hi, hv⟩ := h
  obtain ⟨i', hi', hle⟩ := ha i hi
  exact ⟨i', hi', hv.mono hg (by omega)⟩

/-- A value is at hand right after its instruction. -/
theorem Defines.has {v : Value} {ins : Instr} (h : b.Defines v ins b') (hd : ins.dest? = some v) :
    b'.Has v := by
  obtain ⟨hv, i, hi, rfl⟩ := h
  obtain ⟨block, hb, he⟩ := hi.2
  refine ⟨i, push_openAt hi ins, i, block.instrs.length, ins, ?_,
    by simp [Instr.number?, hd], by omega⟩
  show (b.push i ins).graph.instrAt? i block.instrs.length = some ins
  rw [Graph.instrAt?, push_getElem?, hb]
  simp

end Builder

/-! ## Graphs in order -/

namespace Graph.Ordered

variable {b : Builder}

/-- An instruction whose operands are at hand can be added. -/
theorem push {i : Nat} {ins : Instr} (h : b.graph.Ordered) (hi : b.OpenAt i)
    (hr : ∀ v ∈ ins.reads, b.Has v) : (b.push i ins).graph.Ordered := by
  obtain ⟨block, hb, -⟩ := hi.2
  have hg := Builder.push_extends hi.2 ins
  refine ⟨fun k l ins' hins v hv => ?_, fun k block' t hk ht v hv => ?_⟩
  · rcases Builder.push_instrAt? hb hins with hold | ⟨rfl, rfl, rfl⟩
    · exact (h.operands k l ins' hold v hv).mono hg (by omega)
    · -- the new instruction stands after all others of its block
      obtain ⟨k', hk', hv'⟩ := hr v hv
      obtain rfl := hi.unique hk'
      exact ((computedBefore_succ hb).mp hv').mono hg (by omega)
  · rw [Builder.push_getElem?] at hk
    obtain ⟨old, ho, rfl⟩ := Option.map_eq_some_iff.mp hk
    refine (h.tests k old t ho ?_ v hv).mono hg (by omega)
    split at ht <;> exact ht

/-- The block of the insertion point can be ended, if the condition is at hand. -/
theorem close {i : Nat} {t : Terminator} (h : b.graph.Ordered) (hi : b.OpenAt i)
    (hr : ∀ v ∈ t.reads, b.Has v) : (b.close i t).graph.Ordered := by
  have hg := Builder.close_extends hi.2 t
  refine ⟨fun k l ins hins v hv => ?_, fun k block t' hk ht' v hv => ?_⟩
  · rw [Builder.close_instrAt?] at hins
    exact (h.operands k l ins hins v hv).mono hg (by omega)
  · rw [Builder.close_getElem?] at hk
    obtain ⟨old, ho, rfl⟩ := Option.map_eq_some_iff.mp hk
    by_cases hik : i = k
    · subst hik
      rw [if_pos rfl] at ht'
      cases ht'
      obtain ⟨k', hk', hv'⟩ := hr v hv
      obtain rfl := hi.unique hk'
      exact hv'.mono hg (by omega)
    · rw [if_neg hik] at ht'
      exact (h.tests k old t' ho ht' v hv).mono hg (by omega)

theorem addBlocks (h : b.graph.Ordered) (labels : List String) :
    (b.addBlocks labels).graph.Ordered := by
  have hg := b.addBlocks_extends labels
  refine ⟨fun k l ins hins v hv => ?_, fun k block t hk ht v hv => ?_⟩
  · rw [Builder.addBlocks_instrAt?] at hins
    exact (h.operands k l ins hins v hv).mono hg (by omega)
  · by_cases hlt : k < b.graph.blocks.length
    · rw [Builder.addBlocks_old b labels hlt] at hk
      exact (h.tests k block t hk ht v hv).mono hg (by omega)
    · have hnew : block ∈ labels.map fun l => (⟨l, [], none⟩ : Block) :=
        List.mem_of_getElem? ((List.getElem?_append_right (by omega)).symm.trans hk)
      obtain ⟨l, -, rfl⟩ := List.mem_map.mp hnew
      cases ht

end Graph.Ordered

namespace Builder

/-- What is built so far is in order, its strings and slots exist, and its values are numbered
without gap. -/
structure InOrder (b : Builder) (strings : List String) : Prop where
  ordered : b.graph.Ordered
  strings : ∀ i j ins, b.graph.instrAt? i j = some ins → ∀ id ∈ ins.strings, id < strings.length
  slots : ∀ i j ins, b.graph.instrAt? i j = some ins → ∀ k ∈ ins.slots, k < b.graph.slots.length
  numbers : b.graph.numbers.Perm (List.range b.nextValue)

/-- The insertion point has what an instruction needs. -/
structure Supplies (b : Builder) (strings : List String) (ins : Instr) : Prop where
  strings : ∀ id ∈ ins.strings, id < strings.length
  slots : ∀ k ∈ ins.slots, k < b.graph.slots.length
  operands : ∀ v ∈ ins.reads, b.Has v

namespace InOrder

variable {b b' : Builder} {strings : List String} {ins : Instr}

/-- An instruction that has what it needs is added, and takes `n` to be the next number. -/
theorem push {i n : Nat} (h : b.InOrder strings) (hi : b.OpenAt i) (hs : b.Supplies strings ins)
    (hn : (ins.number?.toList ++ List.range b.nextValue).Perm (List.range n)) :
    { b.push i ins with nextValue := n }.InOrder strings := by
  obtain ⟨block, hb, -⟩ := hi.2
  refine ⟨h.ordered.push hi hs.operands, fun k l ins' hins => ?_, fun k l ins' hins => ?_, ?_⟩
  · rcases push_instrAt? hb hins with hold | ⟨-, -, rfl⟩
    · exact h.strings k l ins' hold
    · exact hs.strings
  · rcases push_instrAt? hb hins with hold | ⟨-, -, rfl⟩
    · exact h.slots k l ins' hold
    · exact hs.slots
  · exact ((numbers_push hb ins).trans (h.numbers.append_left _)).trans hn

theorem emits (h : b.InOrder strings) (he : b.Emits ins b') (hd : ins.dest? = none)
    (hs : b.Supplies strings ins) : b'.InOrder strings := by
  obtain ⟨i, hi, rfl⟩ := he
  exact h.push hi hs (by simp [Instr.number?, hd])

theorem defines {v : Value} (h : b.InOrder strings) (hd : b.Defines v ins b')
    (hv : ins.dest? = some v) (hs : b.Supplies strings ins) : b'.InOrder strings := by
  obtain ⟨hnext, i, hi, rfl⟩ := hd
  refine h.push (n := b.nextValue + 1) hi hs ?_
  rw [Counter.index_nat] at hnext
  rw [Instr.number?, hv, List.range_succ, ← hnext]
  exact List.perm_append_comm

theorem ends {t : Terminator} (h : b.InOrder strings) (ht : b.Ends t b')
    (hr : ∀ v ∈ t.reads, b.Has v) : b'.InOrder strings := by
  obtain ⟨-, i, hi, rfl⟩ := ht
  obtain ⟨block, hb, -⟩ := hi.2
  refine ⟨h.ordered.close hi hr, fun k l ins hins => ?_, fun k l ins hins => ?_,
    (numbers_close hb t).trans h.numbers⟩
  · rw [close_instrAt?] at hins
    exact h.strings k l ins hins
  · rw [close_instrAt?] at hins
    exact h.slots k l ins hins

theorem switches {t : Terminator} {k : Nat} (h : b.InOrder strings) (hs : b.Switches t k b')
    (hr : ∀ v ∈ t.reads, b.Has v) : b'.InOrder strings := by
  obtain ⟨b₁, he, -, rfl⟩ := hs
  have h₁ := h.ends he hr
  exact ⟨h₁.ordered, h₁.strings, h₁.slots, h₁.numbers⟩

theorem addBlocks (h : b.InOrder strings) (labels : List String) :
    (b.addBlocks labels).InOrder strings := by
  refine ⟨h.ordered.addBlocks labels, fun k l ins hins => ?_, fun k l ins hins => ?_, ?_⟩
  · rw [addBlocks_instrAt?] at hins
    exact h.strings k l ins hins
  · rw [addBlocks_instrAt?] at hins
    exact h.slots k l ins hins
  · rw [numbers_addBlocks]
    exact h.numbers

theorem addSlot (h : b.InOrder strings) (slot : Slot) : (b.addSlot slot).InOrder strings := by
  refine ⟨⟨h.ordered.operands, h.ordered.tests⟩, h.strings, fun k l ins hins j hj => ?_, h.numbers⟩
  have hlt := h.slots k l ins hins j hj
  simp only [Builder.addSlot, List.length_append]
  omega

/-- More strings do no harm. -/
theorem mono {strings' : List String} (h : b.InOrder strings) (hp : strings <+: strings') :
    b.InOrder strings' :=
  ⟨h.ordered, fun k l ins hins id hid => (h.strings k l ins hins id hid).trans_le hp.length_le,
    h.slots, h.numbers⟩

end InOrder

end Builder

/-! ## Lowered trees -/

namespace Tree

open Builder
open List (forall_mem_nil)

/-- The insertion point never goes to an earlier block. -/
theorem Lowers.advances {t : Tree} {s s' : Lowering} {v : Option Value} (h : t.Lowers s v s') :
    s.builder.Advances s'.builder := by
  induction h with
  | nothing => exact (Framed.refl _).advances
  | last _ ih => exact ih
  | next _ _ ih ihs => exact ih.trans ihs
  | program _ ih => exact ih
  | name _ _ _ hd => exact hd.framed.advances
  | literal _ hd => exact hd.framed.advances
  | text _ hd => exact hd.framed.advances
  | declare _ _ he ih => exact ih.trans (((addSlot_framed _ _).trans he.framed).advances)
  | assign _ _ _ _ he ih => exact ih.trans he.framed.advances
  | step _ ih => exact ih
  | print _ _ he ih => exact ih.trans he.framed.advances
  | binary _ _ _ _ _ hd ihl ihr => exact (ihl.trans ihr).trans hd.framed.advances
  | negate _ _ _ hd ih => exact ih.trans hd.framed.advances
  | guarded hn _ _ _ _ _ h₃ _ _ =>
    -- the last of the new blocks comes after all that were there before
    intro i hi
    have hlt := hi.2.lt
    exact ⟨_, h₃.openAt, by omega⟩
  | choice hn _ _ _ _ _ _ _ h₄ _ _ _ =>
    intro i hi
    have hlt := hi.2.lt
    exact ⟨_, h₄.openAt, by omega⟩

/-- The value of a tree is at hand after it. -/
theorem Lowers.has {t : Tree} {s s' : Lowering} {v : Option Value} (h : t.Lowers s v s') :
    ∀ u, v = some u → s'.builder.Has u := by
  induction h with
  | nothing => nofun
  | last _ ih => exact ih
  | next _ _ _ ihs => exact ihs
  | program _ ih => exact ih
  | name _ _ _ hd => rintro _ ⟨⟩; exact hd.has rfl
  | literal _ hd => rintro _ ⟨⟩; exact hd.has rfl
  | text _ hd => rintro _ ⟨⟩; exact hd.has rfl
  | declare => nofun
  | assign => nofun
  | step _ ih => exact ih
  | print => nofun
  | binary _ _ _ _ _ hd => rintro _ ⟨⟩; exact hd.has (Binary.dest?_instr ..)
  | negate _ _ _ hd => rintro _ ⟨⟩; exact hd.has rfl
  | guarded => nofun
  | choice => nofun

/-- **Lowering keeps code in order.** -/
theorem Lowers.inOrder {t : Tree} {s s' : Lowering} {v : Option Value} (h : t.Lowers s v s')
    (ho : s.builder.InOrder s.strings) : s'.builder.InOrder s'.strings := by
  induction h with
  | nothing => exact ho
  | last _ ih => exact ih ho
  | next _ _ ih ihs => exact ihs (ih ho)
  | program _ ih => exact ih ho
  | name _ he _ hd =>
    refine ho.defines hd rfl ⟨forall_mem_nil _, ?_, forall_mem_nil _⟩
    simpa [Instr.slots] using (List.getElem?_eq_some_iff.mp he).1
  | literal _ hd =>
    exact ho.defines hd rfl ⟨forall_mem_nil _, forall_mem_nil _, forall_mem_nil _⟩
  | @text text s v b _ hd =>
    have hid := s.interner.getElem?_intern text
    refine (ho.mono (s.interner.texts_prefix_intern text)).defines hd rfl
      ⟨?_, forall_mem_nil _, forall_mem_nil _⟩
    simpa [Instr.strings] using (List.getElem?_eq_some_iff.mp hid).1
  | @declare x kind s s₁ v b h _ he ih =>
    refine ((ih ho).addSlot _).emits he rfl ⟨forall_mem_nil _, ?_, ?_⟩
    · simp [Instr.slots, Builder.addSlot]
    · simpa [Instr.reads] using (h.has v rfl).mono (addSlot_extends _ _)
        (addSlot_framed _ _).advances
  | assign h _ hs _ he ih =>
    refine (ih ho).emits he rfl ⟨forall_mem_nil _, ?_, ?_⟩
    · simpa [Instr.slots] using (List.getElem?_eq_some_iff.mp hs).1
    · simpa [Instr.reads] using h.has _ rfl
  | step _ ih => exact ih ho
  | print h _ he ih =>
    refine (ih ho).emits he rfl ⟨forall_mem_nil _, forall_mem_nil _, ?_⟩
    simpa [Instr.reads] using h.has _ rfl
  | @binary op l r s s₁ s₂ lhs rhs v b hl hr _ _ _ hd ihl ihr =>
    -- the left operand is still at hand after the right one
    have hlhs := (hl.has lhs rfl).mono hr.grows.graph hr.advances
    refine (ihr (ihl ho)).defines hd (op.dest?_instr ..) ⟨?_, ?_, ?_⟩
    · cases op <;> exact forall_mem_nil _
    · cases op <;> exact forall_mem_nil _
    · rw [op.reads_instr]
      simpa using ⟨hlhs, hr.has rhs rfl⟩
  | negate h _ _ hd ih =>
    refine (ih ho).defines hd rfl ⟨forall_mem_nil _, forall_mem_nil _, ?_⟩
    simpa [Instr.reads] using h.has _ rfl
  | guarded _ h₁ hc _ h₂ _ h₃ ihc ihb =>
    have ho₁ := ihc ((ho.addBlocks _).switches h₁ (forall_mem_nil _))
    have ho₂ := ihb (ho₁.switches h₂ (by simpa [Terminator.reads] using hc.has _ rfl))
    exact ho₂.switches h₃ (forall_mem_nil _)
  | choice _ h₁ hc _ h₂ _ h₃ _ h₄ ihc ihy ihn =>
    have ho₁ := ihc ((ho.addBlocks _).switches h₁ (forall_mem_nil _))
    have ho₂ := ihy (ho₁.switches h₂ (by simpa [Terminator.reads] using hc.has _ rfl))
    have ho₃ := ihn (ho₂.switches h₃ (forall_mem_nil _))
    exact ho₃.switches h₄ (forall_mem_nil _)

theorem entry_inOrder : Lowering.entry.builder.InOrder Lowering.entry.strings := by
  have hnone : ∀ i j, Lowering.entry.builder.graph.instrAt? i j = none := by
    rintro (_ | i) j <;> rfl
  refine ⟨⟨fun i j ins h => ?_, fun i block t hb ht => ?_⟩, fun i j ins h => ?_,
    fun i j ins h => ?_, .refl _⟩
  · rw [hnone] at h
    cases h
  · have hmem := List.mem_of_getElem? hb
    rw [List.mem_singleton.mp hmem] at ht
    cases ht
  · rw [hnone] at h
    cases h
  · rw [hnone] at h
    cases h

/-- The graph of a module has passed its check. -/
theorem lower_verified {t : Tree} {m : Module} (h : t.lower.result = .ok m) :
    m.graph.verify = .ok () := by
  obtain ⟨s, hs, hv⟩ := t.lowerProgram_verifies
  unfold lower at h
  rw [hs] at h
  unfold Lowering.finish at h
  dsimp only at h
  rw [hv] at h
  split at h
  · cases h
    exact hv
  · cases h

/-- **Every module that lowering gives out can be made into an object file**, whatever the tree. Its
graph is verified and not empty, the strings and slots that it names exist, and each operand and
condition is computed by an instruction before it, in the order of the blocks. No value is computed
by two instructions. -/
theorem lower_emittable {t : Tree} {m : Module} (h : t.lower.result = .ok m) :
    Object.check m = .ok () ∧ m.Emittable ∧ m.graph.numbers.Nodup := by
  have hverify := lower_verified h
  obtain ⟨v, s, b, hlow, hends, rfl, -⟩ := lower_eq_ok h
  have ho := (hlow.inOrder entry_inOrder).ends hends nofun
  have hne : b.graph.blocks ≠ [] := by
    obtain ⟨block, hb, -⟩ := (hlow.grows.graph.trans hends.extends).blocks 0 _ rfl
    exact List.ne_nil_of_mem (List.mem_of_getElem? hb)
  have hm : Module.Emittable ⟨"emj", s.strings, b.graph⟩ :=
    ⟨hverify, hne, ho.strings, ho.slots, ho.ordered⟩
  exact ⟨Object.check_eq_ok.mpr hm, hm, ho.numbers.nodup_iff.mpr List.nodup_range⟩

/-- A sum with a loop in its right operand. The left operand is computed in the first block and used
after the loop. -/
def sumAcrossLoop : Tree :=
  let loop := mk .loop [mk (.compare .lt) [mk (.name "x") [], mk (.integer 3) []],
    mk (.increment "x") [mk (.name "x") []]]
  mk .program [mk (.declare "x" .number) [],
    mk .print [mk (.arithmetic .add) [mk (.integer 1) [], mk .block [loop, mk (.name "x") []]]]]

theorem sumAcrossLoop_emittable :
    ∃ m, sumAcrossLoop.lower.result = .ok m ∧ m.graph.blocks.length = 4 ∧
    Object.check m = .ok () ∧ m.Emittable ∧ m.graph.numbers.Nodup := by
  have hcount : (sumAcrossLoop.lower.result.toOption.map (·.graph.blocks.length)) = some 4 := by
    decide +kernel
  cases hm : sumAcrossLoop.lower.result with
  | error e => rw [hm] at hcount; cases hcount
  | ok m => exact ⟨m, rfl, by rw [hm] at hcount; exact Option.some.inj hcount, lower_emittable hm⟩

end Tree

end FlowLang
