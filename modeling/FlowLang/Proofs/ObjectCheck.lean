import FlowLang.Object
import FlowLang.Proofs.MachineTyping

/-!
# What the check for object files accepts

`Object.check` (the checks of `emit`) walks through the blocks of a module and keeps a list of the
values computed so far. This module says without the walk what it accepts.

* `Graph.ComputedBefore g i j x`: an instruction before the `j`th of block `i` computes the value
  number `x`. Before means in an earlier block, or further up in the same block.
* `Graph.Ordered`: every operand and every condition is computed before its place.
* `Module.Emittable`: moreover the graph is verified and not empty, and all strings and slots exist.
* **`Object.check_eq_ok`**: the check passes iff the module is emittable.
-/

namespace FlowLang

/-! ## Places -/

namespace Instr

/-- The string constants that an instruction names. -/
def strings : Instr → List Nat
  | .string _ id => [id]
  | _ => []

/-- The slots that an instruction names. -/
def slots : Instr → List Nat
  | .load _ slot | .store slot _ => [slot]
  | _ => []

/-- The number of the value that an instruction computes. -/
def number? (ins : Instr) : Option Nat := ins.dest?.map (·.index)

end Instr

/-- The numbers of the values that a block computes, in order. -/
def Block.numbers (b : Block) : List Nat := b.instrs.flatMap (·.number?.toList)

namespace Graph

/-- The numbers of the values that a graph computes, in the order of the blocks. -/
def numbers (g : Graph) : List Nat := g.blocks.flatMap (·.numbers)

/-- The `j`th instruction of block `i`. -/
def instrAt? (g : Graph) (i j : Nat) : Option Instr := g.blocks[i]?.bind (·.instrs[j]?)

/-- An instruction before the `j`th of block `i` computes the value number `x`. -/
def ComputedBefore (g : Graph) (i j x : Nat) : Prop :=
  ∃ k l ins, g.instrAt? k l = some ins ∧ ins.number? = some x ∧ (k < i ∨ k = i ∧ l < j)

/-- Every operand is computed before its instruction, and every condition before the end of its
block. -/
structure Ordered (g : Graph) : Prop where
  operands : ∀ i j ins, g.instrAt? i j = some ins → ∀ v ∈ ins.reads, g.ComputedBefore i j v.index
  tests : ∀ i block t, g.blocks[i]? = some block → block.exit? = some t → ∀ v ∈ t.reads,
    g.ComputedBefore (i + 1) 0 v.index

end Graph

/-- What a module needs to be made into an object file. -/
structure Module.Emittable (m : Module) : Prop where
  verified : m.graph.verify = .ok ()
  nonempty : m.graph.blocks ≠ []
  strings : ∀ i j ins, m.graph.instrAt? i j = some ins → ∀ id ∈ ins.strings, id < m.strings.length
  slots : ∀ i j ins, m.graph.instrAt? i j = some ins → ∀ k ∈ ins.slots, k < m.graph.slots.length
  ordered : m.graph.Ordered

theorem Graph.instrAt?_eq_some {g : Graph} {i j : Nat} {ins : Instr} :
    g.instrAt? i j = some ins ↔ ∃ block, g.blocks[i]? = some block ∧ block.instrs[j]? = some ins :=
  Option.bind_eq_some_iff

theorem mem_flatMap_take {α β : Type} {l : List α} {f : α → List β} {i : Nat} {x : β} :
    x ∈ (l.take i).flatMap f ↔ ∃ k a, k < i ∧ l[k]? = some a ∧ x ∈ f a := by
  simp only [List.mem_flatMap, List.mem_take_iff_getElem, List.getElem?_eq_some_iff]
  constructor
  · rintro ⟨a, ⟨k, hk, rfl⟩, hx⟩
    exact ⟨k, _, by omega, ⟨by omega, rfl⟩, hx⟩
  · rintro ⟨k, a, hki, ⟨hk, rfl⟩, hx⟩
    exact ⟨_, ⟨k, by omega, rfl⟩, hx⟩

/-- The values computed before a place are those of the blocks and instructions before it. -/
theorem Graph.computedBefore_iff {g : Graph} {i j x : Nat} {block : Block}
    (hb : g.blocks[i]? = some block) : g.ComputedBefore i j x ↔
      x ∈ (block.instrs.take j).flatMap (·.number?.toList) ∨
        x ∈ (g.blocks.take i).flatMap (·.numbers) := by
  rw [mem_flatMap_take, mem_flatMap_take]
  simp only [Block.numbers, List.mem_flatMap, Option.mem_toList]
  constructor
  · rintro ⟨k, l, ins, hins, hx, h⟩
    obtain ⟨block', hb', hl⟩ := instrAt?_eq_some.mp hins
    rcases h with hk | ⟨rfl, hlj⟩
    · exact .inr ⟨k, block', hk, hb', ins, List.mem_of_getElem? hl, hx⟩
    · rw [hb] at hb'
      cases hb'
      exact .inl ⟨l, ins, hlj, hl, hx⟩
  · rintro (⟨l, ins, hlj, hl, hx⟩ | ⟨k, block', hk, hb', ins, hins, hx⟩)
    · exact ⟨i, l, ins, instrAt?_eq_some.mpr ⟨block, hb, hl⟩, hx, .inr ⟨rfl, hlj⟩⟩
    · obtain ⟨l, hl⟩ := List.mem_iff_getElem?.mp hins
      exact ⟨k, l, ins, instrAt?_eq_some.mpr ⟨block', hb', hl⟩, hx, .inl hk⟩

/-- Before the next block are the instructions of this one and those before it. -/
theorem Graph.computedBefore_succ {g : Graph} {i x : Nat} {block : Block}
    (hb : g.blocks[i]? = some block) :
    g.ComputedBefore (i + 1) 0 x ↔ g.ComputedBefore i block.instrs.length x := by
  refine exists_congr fun k => exists_congr fun l => exists_congr fun ins =>
    and_congr_right fun hins => and_congr_right fun _ => ?_
  obtain ⟨block', hb', hl⟩ := instrAt?_eq_some.mp hins
  constructor
  · intro h
    by_cases hk : k = i
    · subst hk
      rw [hb] at hb'
      cases hb'
      exact .inr ⟨rfl, (List.getElem?_eq_some_iff.mp hl).1⟩
    · exact .inl (by omega)
  · omega

/-! ## The walk -/

/-- A walk over a list that keeps what was computed, if each step demands something of its element
and of what was computed before, and adds what the element computes. -/
theorem foldlM_eq_ok {α ε : Type} {f : List Nat → α → Except ε (List Nat)}
    {demand : List Nat → α → Prop} {adds : α → List Nat}
    (hf : ∀ d a d', f d a = .ok d' ↔ demand d a ∧ (adds a).reverse ++ d = d') {l : List α}
    {d d' : List Nat} : l.foldlM f d = .ok d' ↔
      (∀ i a, l[i]? = some a → demand (((l.take i).flatMap adds).reverse ++ d) a) ∧
        (l.flatMap adds).reverse ++ d = d' := by
  induction l generalizing d with
  | nil => simp [pure, Except.pure]
  | cons b l ih =>
    rw [List.foldlM_cons, except_bind_eq_ok]
    simp only [hf, ih]
    constructor
    · rintro ⟨_, ⟨hb, rfl⟩, hl, rfl⟩
      refine ⟨fun i a ha => ?_, by simp⟩
      cases i with
      | zero =>
        obtain rfl : b = a := by simpa using ha
        simpa using hb
      | succ i => simpa using hl i a (by simpa using ha)
    · rintro ⟨hl, rfl⟩
      refine ⟨_, ⟨by simpa using hl 0 b rfl, rfl⟩, fun i a ha => ?_, by simp⟩
      simpa using hl (i + 1) a (by simpa using ha)

namespace Object

variable {m : Module} {defined : Defined} {u : Unit}

theorem checkValue_eq_ok {v : Value} : checkValue defined v = .ok u ↔ v.index ∈ defined := by
  unfold checkValue
  split <;> simp [*]

theorem checkSlot_eq_ok {slot : Nat} : checkSlot m slot = .ok u ↔ slot < m.graph.slots.length := by
  unfold checkSlot
  split <;> simp [*]

theorem checkString_eq_ok {id : Nat} : checkString m id = .ok u ↔ id < m.strings.length := by
  unfold checkString
  split <;> simp [*]

theorem forM_checkValue_eq_ok {vs : List Value} :
    forM vs (checkValue defined) = .ok u ↔ ∀ v ∈ vs, v.index ∈ defined := by
  induction vs with
  | nil => simp [pure, Except.pure]
  | cons v vs ih => simp [except_bind_eq_ok, checkValue_eq_ok, ih]

/-- What an instruction needs, where the values in `defined` are computed. -/
structure Demands (m : Module) (defined : Defined) (ins : Instr) : Prop where
  strings : ∀ id ∈ ins.strings, id < m.strings.length
  slots : ∀ k ∈ ins.slots, k < m.graph.slots.length
  operands : ∀ v ∈ ins.reads, v.index ∈ defined

theorem demands_iff {ins : Instr} : Demands m defined ins ↔
    (∀ id ∈ ins.strings, id < m.strings.length) ∧ (∀ k ∈ ins.slots, k < m.graph.slots.length) ∧
      ∀ v ∈ ins.reads, v.index ∈ defined :=
  ⟨fun h => ⟨h.strings, h.slots, h.operands⟩, fun h => ⟨h.1, h.2.1, h.2.2⟩⟩

theorem checkInstr_eq_ok (defined : Defined) (ins : Instr) (defined' : Defined) :
    checkInstr m defined ins = .ok defined' ↔
      Demands m defined ins ∧ ins.number?.toList.reverse ++ defined = defined' := by
  rw [demands_iff]
  cases ins <;>
    simp [checkInstr, except_bind_eq_ok, checkValue_eq_ok, checkSlot_eq_ok, checkString_eq_ok,
      forM_checkValue_eq_ok, Instr.strings, Instr.slots, Instr.reads, Instr.number?, Instr.dest?,
      pure, Except.pure, and_assoc, and_left_comm]

theorem checkExit_eq_ok {exit? : Option Terminator} : checkExit defined exit? = .ok u ↔
    ∀ t, exit? = some t → ∀ v ∈ t.reads, v.index ∈ defined := by
  rcases exit? with _ | ⟨target⟩ | ⟨test, yes, no⟩ | ⟨code⟩ <;>
    simp [checkExit, checkValue_eq_ok, Terminator.reads]

/-- A block passes if its instructions and its condition have what they need, where they stand. -/
theorem checkBlock_eq_ok (defined : Defined) (b : Block) (defined' : Defined) :
    checkBlock m defined b = .ok defined' ↔
      ((∀ j ins, b.instrs[j]? = some ins →
          Demands m (((b.instrs.take j).flatMap (·.number?.toList)).reverse ++ defined) ins) ∧
        ∀ t, b.exit? = some t → ∀ v ∈ t.reads, v.index ∈ b.numbers.reverse ++ defined) ∧
      b.numbers.reverse ++ defined = defined' := by
  unfold checkBlock
  rw [except_bind_eq_ok]
  simp only [foldlM_eq_ok checkInstr_eq_ok, except_bind_eq_ok, checkExit_eq_ok]
  constructor
  · rintro ⟨_, ⟨hins, rfl⟩, _, hexit, ⟨⟩⟩
    exact ⟨⟨hins, hexit⟩, rfl⟩
  · rintro ⟨⟨hins, hexit⟩, rfl⟩
    exact ⟨_, ⟨hins, rfl⟩, (), hexit, rfl⟩

/-- **The check passes iff the module is emittable**: the walk finds every operand and every
condition among what the blocks and instructions before it compute. -/
theorem check_eq_ok : check m = .ok () ↔ m.Emittable := by
  have hwalk : check m = .ok () ↔ m.graph.verify = .ok () ∧ m.graph.blocks ≠ [] ∧
      ∃ defined, m.graph.blocks.foldlM (checkBlock m) [] = .ok defined := by
    unfold check
    cases m.graph.verify with
    | error e => simp [throw, throwThe, MonadExceptOf.throw]
    | ok u =>
      by_cases he : m.graph.blocks = []
      · simp [he, throw, throwThe, MonadExceptOf.throw, bind, Except.bind]
      · simp [he, except_bind_eq_ok, pure, Except.pure]
  rw [hwalk]
  simp only [foldlM_eq_ok checkBlock_eq_ok, exists_eq_right', List.append_nil]
  have hplace : ∀ {i j x : Nat} {block : Block}, m.graph.blocks[i]? = some block →
      (x ∈ ((block.instrs.take j).flatMap (·.number?.toList)).reverse ++
        ((m.graph.blocks.take i).flatMap Block.numbers).reverse ↔
        m.graph.ComputedBefore i j x) := by
    intro i j x block hb
    rw [Graph.computedBefore_iff hb, List.mem_append, List.mem_reverse, List.mem_reverse]
  have hend : ∀ {i x : Nat} {block : Block}, m.graph.blocks[i]? = some block →
      (x ∈ block.numbers.reverse ++ ((m.graph.blocks.take i).flatMap Block.numbers).reverse ↔
        m.graph.ComputedBefore (i + 1) 0 x) := by
    intro i x block hb
    rw [Graph.computedBefore_succ hb, ← hplace hb, List.take_length]
    rfl
  constructor
  · rintro ⟨hverify, hne, hblocks⟩
    have hinstr : ∀ i j ins, m.graph.instrAt? i j = some ins →
        (∀ id ∈ ins.strings, id < m.strings.length) ∧ (∀ k ∈ ins.slots, k < m.graph.slots.length) ∧
          ∀ v ∈ ins.reads, m.graph.ComputedBefore i j v.index := by
      intro i j ins hins
      obtain ⟨block, hb, hj⟩ := Graph.instrAt?_eq_some.mp hins
      have hd := (hblocks i block hb).1 j ins hj
      exact ⟨hd.strings, hd.slots, fun v hv => (hplace hb).mp (hd.operands v hv)⟩
    exact ⟨hverify, hne, fun i j ins h => (hinstr i j ins h).1,
      fun i j ins h => (hinstr i j ins h).2.1, fun i j ins h => (hinstr i j ins h).2.2,
      fun i block t hb ht v hv => (hend hb).mp ((hblocks i block hb).2 t ht v hv)⟩
  · intro h
    refine ⟨h.verified, h.nonempty, fun i block hb => ⟨fun j ins hj => ?_, fun t ht v hv => ?_⟩⟩
    · have hins := Graph.instrAt?_eq_some.mpr ⟨block, hb, hj⟩
      exact ⟨h.strings i j ins hins, h.slots i j ins hins, fun v hv =>
        (hplace hb).mpr (h.ordered.operands i j ins hins v hv)⟩
    · exact (hend hb).mpr (h.ordered.tests i block t hb ht v hv)

end Object

end FlowLang
