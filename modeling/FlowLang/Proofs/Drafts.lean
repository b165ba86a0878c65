import FlowLang.Graph.Operation
import FlowLang.Proofs.DefinitionOrder

/-!
# Drafts

A draft is made by operations of `FunctionBuilder` and `ModuleBuilder` in any order and with any
operands, invented ones too. Some of them fail, and the others go on.

* `Draft.Step d op reply d'`: all that an operation can do to a draft if it succeeds. An operation
  that fails does nothing (`Draft.apply_cases`).
* `Draft.perform` is the draft after a list of operations, `Draft.record` the operations with their
  answers.
* `Draft.Accounts`: the answers so far agree with what is in the draft. Each operation keeps this.
* **`Draft.perform_regular`**: so the graph of a draft is sound at all times, and its values are
  numbered in the order of the calls.
-/

namespace FlowLang

/-! ## Instructions of a graph -/

/-- All instructions in the order of the blocks. -/
def Graph.instrs (g : Graph) : List Instr := g.blocks.flatMap (·.instrs)

namespace Graph

variable {g g' : Graph}

theorem mem_instrs {ins : Instr} :
    ins ∈ g.instrs ↔ ∃ (i : Nat) (block : Block), g.blocks[i]? = some block ∧
      ins ∈ block.instrs := by
  unfold instrs
  rw [List.mem_flatMap]
  constructor
  · rintro ⟨block, hb, hins⟩
    obtain ⟨i, hi⟩ := List.mem_iff_getElem?.mp hb
    exact ⟨i, block, hi, hins⟩
  · rintro ⟨i, block, hi, hins⟩
    exact ⟨block, List.mem_of_getElem? hi, hins⟩

theorem numbers_eq (g : Graph) : g.numbers = g.instrs.filterMap (·.number?) := by
  unfold numbers instrs Block.numbers
  rw [List.filterMap_eq_flatMap_toList, List.flatMap_assoc]

theorem Extends.mem_instrs (h : g.Extends g') {ins : Instr} (hins : ins ∈ g.instrs) :
    ins ∈ g'.instrs := by
  obtain ⟨i, block, hi, hins⟩ := Graph.mem_instrs.mp hins
  obtain ⟨block', hi', hx⟩ := h.blocks i block hi
  exact Graph.mem_instrs.mpr ⟨i, block', hi', hx.instrs.subset hins⟩

/-- Of a list without repeated images, only one element has a given image. -/
theorem filter_eq_singleton {α β : Type} [DecidableEq β] {l : List α} {f : α → Option β} {a : α}
    {b : β} (hn : (l.filterMap f).Nodup) (ha : a ∈ l) (hb : f a = some b) :
    l.filter (f · = some b) = [a] := by
  induction l with
  | nil => cases ha
  | cons x l ih =>
    by_cases hx : f x = some b
    · -- the image is that of the first element, so no other has it
      rw [List.filterMap_cons_some hx, List.nodup_cons, List.mem_filterMap] at hn
      have hnone : ∀ y ∈ l, f y ≠ some b := fun y hy hyb => hn.1 ⟨y, hy, hyb⟩
      have hax : a = x := by
        rcases List.mem_cons.mp ha with rfl | ha
        · rfl
        · exact absurd hb (hnone a ha)
      rw [List.filter_cons_of_pos (by simpa using hx), hax, List.filter_eq_nil_iff.mpr]
      simpa using hnone
    · have hal : a ∈ l := by
        rcases List.mem_cons.mp ha with rfl | ha
        · exact absurd hb hx
        · exact ha
      rw [List.filter_cons_of_neg (by simpa using hx)]
      refine ih ?_ hal
      rw [List.filterMap_cons] at hn
      split at hn
      · exact hn
      · exact (List.nodup_cons.mp hn).2

/-- Where all targets exist, the check of blocks looks for the first one without terminator. -/
theorem forM_verifyBlock {blocks : List Block} (h : ∀ block ∈ blocks, ∀ t, block.exit? = some t →
      ∀ j ∈ t.successors, j < g.blocks.length) :
    blocks.forM g.verifyBlock = (blocks.find? (·.exit?.isNone)).elim (.ok ()) fun block =>
      .error (.missingTerminator block.label) := by
  induction blocks with
  | nil => rfl
  | cons block blocks ih =>
    obtain ⟨hblock, hrest⟩ := List.forall_mem_cons.mp h
    show (g.verifyBlock block >>= fun _ => blocks.forM g.verifyBlock) = _
    cases he : block.exit? with
    | none =>
      have hfail : g.verifyBlock block = .error (.missingTerminator block.label) := by
        unfold verifyBlock
        rw [he]
      rw [hfail, List.find?_cons_of_pos (by simp [he])]
      rfl
    | some t =>
      have hm : g.missingTarget? t = none := by
        unfold missingTarget?
        simpa using hblock t he
      have hpass : g.verifyBlock block = .ok () := by
        unfold verifyBlock
        rw [he]
        dsimp only
        rw [hm]
      rw [hpass, List.find?_cons_of_neg (by simp [he])]
      exact ih hrest

end Graph

/-! ## One operation -/

/-- The instruction is well formed in every module that has these slots, if the module has the
strings that the instruction names. -/
def Instr.Suits (slots : List Slot) (ins : Instr) : Prop :=
  ∀ m : Module, slots <+: m.graph.slots → (∀ id ∈ ins.strings, id < m.strings.length) →
    ins.WellFormed m

theorem Instr.Suits.mono {slots slots' : List Slot} {ins : Instr} (h : ins.Suits slots)
    (hp : slots <+: slots') : ins.Suits slots' :=
  fun m hm => h m (hp.trans hm)

namespace Operation

/-- The values that an operation is given. -/
def operands : Operation → List Value
  | .store _ v | .negate v | .call _ v | .branch v _ _ => [v]
  | .arithmetic _ lhs rhs | .compare _ lhs rhs | .connect _ lhs rhs => [lhs, rhs]
  | _ => []

/-- The string constants that an operation is given. -/
def strings : Operation → List Nat
  | .string id => [id]
  | _ => []

/-- The instruction that an operation adds, where `dest` is the new value if it computes one. -/
def instr? (dest : Value) : Operation → Option Instr
  | .constant x => some (.constant dest x)
  | .string id => some (.string dest id)
  | .load slot => some (.load dest slot)
  | .store slot v => some (.store slot v)
  | .arithmetic op lhs rhs => some (.arithmetic dest op lhs rhs)
  | .compare op lhs rhs => some (.compare dest op lhs rhs)
  | .connect op lhs rhs => some (.connect dest op lhs rhs)
  | .negate operand => some (.negate dest operand)
  | .call callee arg => some (.call callee [arg])
  | _ => none

/-- The terminator with which an operation ends a block. -/
def exit? : Operation → Option Terminator
  | .jump target => some (.jump target)
  | .branch test yes no => some (.branch test yes no)
  | .ret code => some (.ret code)
  | _ => none

/-- An instruction reads what its operation was given. -/
theorem reads_instr? {op : Operation} {dest : Value} {ins : Instr} (h : op.instr? dest = some ins) :
    ins.reads = op.operands ∧ ins.strings = op.strings := by
  cases op <;> simp only [instr?, Option.some.injEq, reduceCtorEq] at h <;> subst h <;>
    exact ⟨rfl, rfl⟩

theorem reads_exit? {op : Operation} {t : Terminator} (h : op.exit? = some t) :
    t.reads = op.operands := by
  cases op <;> simp only [exit?, Option.some.injEq, reduceCtorEq] at h <;> subst h <;> rfl

end Operation

/-- The value in an answer. -/
def Reply.value? : Reply → Option Value
  | .value v => some v
  | _ => none

namespace Draft

variable {N : Type} [Counter N]

/-- The operation succeeds on the draft `d`, is answered with a reply, and leads to another
draft. -/
inductive Step (d : Draft N) : Operation → Reply → Draft N → Prop
  | intern (text : String) :
      Step d (.intern text) (.index (d.interner.intern text).1)
        { d with interner := (d.interner.intern text).2 }
  | createBlock (label : String) :
      Step d (.createBlock label) (.index d.builder.graph.blocks.length)
        { d with builder := d.builder.addBlocks [label] }
  | switchTo {i : Nat} (hi : i < d.builder.graph.blocks.length) :
      Step d (.switchTo i) .done { d with builder := d.builder.moveTo i }
  | createSlot (name : String) (ty : Ty) :
      Step d (.createSlot name ty) (.index d.builder.graph.slots.length)
        { d with builder := d.builder.addSlot ⟨name, ty⟩ }
  | slotType {i : Nat} {slot : Slot} (hi : d.builder.graph.slots[i]? = some slot) :
      Step d (.slotType i) (.ty slot.ty) d
  | defines {op : Operation} {v : Value} {ins : Instr} {b : Builder N}
      (hop : op.instr? v = some ins) (hv : ins.dest? = some v)
      (hw : ins.Suits d.builder.graph.slots) (h : d.builder.Defines v ins b) :
      Step d op (.value v) { d with builder := b }
  | emits {op : Operation} {ins : Instr} {b : Builder N} (hop : ∀ dest, op.instr? dest = some ins)
      (hv : ins.dest? = none) (hw : ins.Suits d.builder.graph.slots) (h : d.builder.Emits ins b) :
      Step d op .done { d with builder := b }
  | ends {op : Operation} {t : Terminator} {b : Builder N} (hop : op.exit? = some t)
      (ht : ∀ v ∈ t.reads, v.ty = .truth) (h : d.builder.Ends t b) :
      Step d op .done { d with builder := b }

/-- The operation fails and leaves the draft as it was, or it takes a step. -/
def Does (d : Draft N) (op : Operation) : Prop :=
  (∃ e, d.apply op = (.error e, d)) ∨ ∃ reply d', d.apply op = (.ok reply, d') ∧ d.Step op reply d'

/-- An operation that is an atomic step of building. -/
theorem does_of_build {d : Draft N} {op : Operation} {α : Type} {step : Build N α}
    {reply : α → Reply} (hop : d.apply op = d.build step reply) (ha : Build.Atomic step)
    (hs : ∀ a b, step d.builder = .ok a b → d.Step op (reply a) { d with builder := b }) :
    d.Does op := by
  unfold Does
  rw [hop]
  unfold build
  cases h : step d.builder with
  | ok a b => exact .inr ⟨_, _, rfl, hs a b h⟩
  | error e b =>
    rw [ha _ _ _ h]
    exact .inl ⟨e, rfl⟩

/-- The computations with two operands. -/
theorem does_checked {d : Draft N} {op : Operation} {use : Use} {ty result : Ty} {lhs rhs : Value}
    {instr : Value → Instr}
    (hop : d.apply op = d.build (do
      Build.require use lhs ty
      Build.require use rhs ty
      Build.define result instr) .value)
    (hi : ∀ dest, op.instr? dest = some (instr dest)) (hdest : ∀ v, (instr v).dest? = some v)
    (hw : ∀ m v, lhs.ty = ty → rhs.ty = ty → v.ty = result → (instr v).WellFormed m) :
    d.Does op := by
  refine does_of_build hop (((Build.define_atomic _ _).require _ _ _).require _ _ _) fun v b h => ?_
  obtain ⟨hl, hr, hv, hd⟩ := Build.checked_eq_ok.mp h
  exact .defines (hi v) (hdest v) (fun m _ _ => hw m v hl hr hv) hd

/-- **An operation fails and changes nothing, or it takes a step.** -/
theorem apply_cases (d : Draft N) (op : Operation) : d.Does op := by
  cases op with
  | intern text => exact .inr ⟨_, _, rfl, .intern text⟩
  | createBlock label =>
    refine does_of_build rfl (Build.createBlock_atomic label) fun i b h => ?_
    cases h
    exact .createBlock label
  | switchTo i =>
    refine does_of_build rfl (Build.switchTo_atomic i) fun u b h => ?_
    obtain ⟨hi, rfl⟩ := Build.switchTo_eq_ok.mp h
    exact .switchTo hi
  | createSlot name ty =>
    refine does_of_build rfl (Build.createSlot_atomic name ty) fun i b h => ?_
    cases h
    exact .createSlot name ty
  | slotType i =>
    refine does_of_build rfl (Build.slotType_atomic i) fun ty b h => ?_
    rw [Build.slotType_apply] at h
    split at h <;> cases h
    rename_i hi
    exact .slotType hi
  | constant x =>
    refine does_of_build rfl (Build.define_atomic _ _) fun v b h => ?_
    obtain ⟨hv, hd⟩ := Build.constant_eq_ok.mp h
    exact .defines rfl rfl (fun _ _ _ => hv) hd
  | string id =>
    refine does_of_build rfl (Build.define_atomic _ _) fun v b h => ?_
    obtain ⟨hv, hd⟩ := Build.string_eq_ok.mp h
    exact .defines rfl rfl (fun _ _ hid => ⟨hv, hid id List.mem_cons_self⟩) hd
  | load slot =>
    refine does_of_build rfl (Build.load_atomic slot) fun v b h => ?_
    obtain ⟨entry, he, hv, hd⟩ := Build.load_eq_ok.mp h
    exact .defines rfl rfl (fun _ hp _ => ⟨entry, getElem?_of_isPrefix hp he, hv⟩) hd
  | store slot v =>
    refine does_of_build rfl (Build.store_atomic slot v) fun u b h => ?_
    obtain ⟨entry, he, hv, hm⟩ := Build.store_eq_ok.mp h
    exact .emits (fun _ => rfl) rfl (fun _ hp _ => ⟨entry, getElem?_of_isPrefix hp he, hv⟩) hm
  | arithmetic op lhs rhs =>
    exact does_checked rfl (fun _ => rfl) (fun _ => rfl) fun _ _ hl hr hv => ⟨hv, hl, hr⟩
  | compare op lhs rhs =>
    exact does_checked rfl (fun _ => rfl) (fun _ => rfl) fun _ _ hl hr hv => ⟨hv, hl, hr⟩
  | connect op lhs rhs =>
    exact does_checked rfl (fun _ => rfl) (fun _ => rfl) fun _ _ hl hr hv => ⟨hv, hl, hr⟩
  | negate operand =>
    refine does_of_build rfl ((Build.define_atomic _ _).require _ _ _) fun v b h => ?_
    obtain ⟨ho, hv, hd⟩ := Build.negate_eq_ok.mp h
    exact .defines rfl rfl (fun _ _ _ => ⟨hv, ho⟩) hd
  | call callee arg =>
    refine does_of_build rfl (Build.call_atomic callee arg) fun u b h => ?_
    obtain ⟨ha, hm⟩ := Build.call_eq_ok.mp h
    exact .emits (fun _ => rfl) rfl (fun _ _ _ => ⟨arg, rfl, ha⟩) hm
  | jump target =>
    refine does_of_build rfl (Build.terminate_atomic _) fun u b h => ?_
    exact .ends rfl (List.forall_mem_nil _) (Build.terminate_eq_ok.mp h)
  | branch test yes no =>
    refine does_of_build rfl ((Build.terminate_atomic _).require _ _ _) fun u b h => ?_
    obtain ⟨ht, he⟩ := Build.branch_eq_ok.mp h
    exact .ends rfl (by simpa [Terminator.reads] using ht) he
  | ret code =>
    refine does_of_build rfl (Build.terminate_atomic _) fun u b h => ?_
    exact .ends rfl (List.forall_mem_nil _) (Build.terminate_eq_ok.mp h)

namespace Step

variable {d d' : Draft N} {op : Operation} {reply : Reply}

theorem extends_graph (h : d.Step op reply d') : d.builder.graph.Extends d'.builder.graph := by
  cases h with
  | intern text => exact .refl _
  | createBlock label => exact Builder.addBlocks_extends _ _
  | switchTo hi => exact .refl _
  | createSlot name ty => exact Builder.addSlot_extends _ _
  | slotType hi => exact .refl _
  | defines _ _ _ h => exact h.extends
  | emits _ _ _ h => exact h.extends
  | ends _ _ h => exact h.extends

theorem targets (h : d.Step op reply d') (ht : d.builder.TargetsExist) :
    d'.builder.TargetsExist := by
  cases h with
  | intern text => exact ht
  | createBlock label => exact ht.addBlocks _
  | switchTo hi => exact ht
  | createSlot name ty => exact ht
  | slotType hi => exact ht
  | defines _ _ _ h => exact (Builder.Adds.defines h).targets ht
  | emits _ _ _ h => exact (Builder.Adds.emits h).targets ht
  | ends _ _ h =>
    obtain ⟨hsucc, i, -, rfl⟩ := h
    exact ht.close i hsucc

/-- The number of the value in the answer, if it is one, is added to the numbers of values. -/
theorem numbers (h : d.Step op reply d') : d'.builder.graph.numbers.Perm
    ((reply.value?.map (·.index)).toList ++ d.builder.graph.numbers) := by
  cases h with
  | intern text => exact .refl _
  | createBlock label =>
    rw [Builder.numbers_addBlocks]
    exact .refl _
  | switchTo hi => exact .refl _
  | createSlot name ty => exact .refl _
  | slotType hi => exact .refl _
  | @defines _ v ins b _ hv _ h =>
    obtain ⟨hnext, i, ⟨-, block, hb, -⟩, rfl⟩ := h
    have hnew : ins.number? = some v.index := by simp [Instr.number?, hv]
    have hp := Builder.numbers_push hb ins
    rwa [hnew] at hp
  | @emits _ ins b _ hv _ h =>
    obtain ⟨i, ⟨-, block, hb, -⟩, rfl⟩ := h
    have hnone : ins.number? = none := by simp [Instr.number?, hv]
    have hp := Builder.numbers_push hb ins
    rwa [hnone] at hp
  | ends _ _ h =>
    obtain ⟨-, i, ⟨-, block, hb, -⟩, rfl⟩ := h
    exact Builder.numbers_close hb _

/-- Only an operation that gives a value takes a number, the next one, and the value is that of an
instruction. -/
theorem reply_value (h : d.Step op reply d') :
    (∀ v, reply = .value v → v.index = Counter.index d.builder.nextValue ∧
      d'.builder.nextValue = Counter.next d.builder.nextValue ∧
      ∃ ins ∈ d'.builder.graph.instrs, ins.dest? = some v) ∧
    (reply.value? = none → d'.builder.nextValue = d.builder.nextValue) := by
  cases h with
  | intern text => exact ⟨nofun, fun _ => rfl⟩
  | createBlock label => exact ⟨nofun, fun _ => rfl⟩
  | switchTo hi => exact ⟨nofun, fun _ => rfl⟩
  | createSlot name ty => exact ⟨nofun, fun _ => rfl⟩
  | slotType hi => exact ⟨nofun, fun _ => rfl⟩
  | @defines _ v ins b _ hv _ h =>
    refine ⟨?_, nofun⟩
    rintro _ ⟨⟩
    obtain ⟨hnext, i, ⟨-, block, hb, -⟩, rfl⟩ := h
    have hpush : (d.builder.push i ins).graph.blocks[i]? =
        some { block with instrs := block.instrs ++ [ins] } := by
      rw [Builder.push_getElem?, hb]
      simp
    exact ⟨hnext, rfl, ins, Graph.mem_instrs.mpr ⟨i, _, hpush, by simp⟩, hv⟩
  | emits _ _ _ h =>
    obtain ⟨i, -, rfl⟩ := h
    exact ⟨nofun, fun _ => rfl⟩
  | ends _ _ h =>
    obtain ⟨-, i, -, rfl⟩ := h
    exact ⟨nofun, fun _ => rfl⟩

end Step

/-! ## Many operations -/

/-- An operation and the answer to it. -/
abbrev Exchange := Operation × Except GraphFault Reply

/-- The value in the answer to an operation. -/
def Exchange.value? : Exchange → Option Value
  | (_, .ok reply) => reply.value?
  | (_, .error _) => none

/-- The values that operations gave, in order. -/
def returned (past : List Exchange) : List Value := past.filterMap Exchange.value?

/-- The draft after operations, some of which may fail. -/
def perform (d : Draft N) (ops : List Operation) : Draft N :=
  ops.foldl (fun d op => (d.apply op).2) d

/-- The operations with their answers. -/
def record (d : Draft N) : List Operation → List Exchange
  | [] => []
  | op :: ops => (op, (d.apply op).1) :: (d.apply op).2.record ops

theorem perform_concat (d : Draft N) (ops : List Operation) (op : Operation) :
    d.perform (ops ++ [op]) = ((d.perform ops).apply op).2 := List.foldl_concat ..

theorem record_concat (d : Draft N) (ops : List Operation) (op : Operation) :
    d.record (ops ++ [op]) = d.record ops ++ [(op, ((d.perform ops).apply op).1)] := by
  induction ops generalizing d with
  | nil => rfl
  | cons first ops ih =>
    show (first, (d.apply first).1) :: (d.apply first).2.record (ops ++ [op]) = _
    rw [ih]
    rfl

/-- What every step keeps holds after any operations. -/
theorem perform_invariant {P : Draft N → Prop} {d : Draft N} (h : P d)
    (hstep : ∀ {d op reply d'}, P d → d.Step op reply d' → P d') (ops : List Operation) :
    P (d.perform ops) := by
  induction ops using List.reverseRecOn with
  | nil => exact h
  | append_singleton ops op ih =>
    rw [perform_concat]
    rcases (d.perform ops).apply_cases op with ⟨e, he⟩ | ⟨reply, d', he, hs⟩
    · rwa [he]
    · rw [he]
      exact hstep ih hs

theorem extends_perform (d : Draft N) (ops : List Operation) :
    d.builder.graph.Extends (d.perform ops).builder.graph :=
  perform_invariant (P := fun d' => d.builder.graph.Extends d'.builder.graph) (.refl _)
    (fun h hs => h.trans hs.extends_graph) ops

/-- The numbers of the values that were given, in the order of the calls. -/
def numbering (N : Type) [Counter N] (past : List Exchange) : List Nat :=
  (List.range (returned past).length).map (Counter.number N)

/-- The draft is what the answers to the operations so far say: targets exist, the register has
moved on once for each value, and the values have the numbers that it showed, each by an instruction
of its own. -/
structure Accounts (d : Draft N) (past : List Exchange) : Prop where
  targets : d.builder.TargetsExist
  register : d.builder.nextValue = Counter.after N (returned past).length
  numbers : d.builder.graph.numbers.Perm (numbering N past)
  indices : (returned past).map (·.index) = numbering N past
  defined : ∀ v ∈ returned past, ∃ ins ∈ d.builder.graph.instrs, ins.dest? = some v

omit [Counter N] in
theorem returned_concat (past : List Exchange) (op : Operation) (reply : Reply) :
    returned (past ++ [(op, .ok reply)]) = returned past ++ reply.value?.toList := by
  cases reply <;> simp [returned, Exchange.value?, Reply.value?]

/-- One more value gets the number that the register shows. -/
theorem numbering_concat {past : List Exchange} {op : Operation} {v : Value} :
    numbering N (past ++ [(op, .ok (.value v))]) =
      numbering N past ++ [Counter.number N (returned past).length] := by
  simp [numbering, returned_concat, Reply.value?, List.range_succ]

namespace Accounts

variable {d d' : Draft N} {past : List Exchange} {op : Operation}

/-- If the register has not started again, then no two instructions compute a value of the same
number. -/
theorem nodup (h : d.Accounts past) (hn : Counter.Reaches N (returned past).length) :
    (d.builder.graph.instrs.filterMap (·.number?)).Nodup := by
  have hrange : numbering N past = List.range (returned past).length :=
    (List.map_congr_left fun k hk => hn k (List.mem_range.mp hk)).trans (List.map_id' _)
  rw [← Graph.numbers_eq]
  exact h.numbers.nodup_iff.mpr (hrange ▸ List.nodup_range)

theorem error (h : d.Accounts past) (e : GraphFault) : d.Accounts (past ++ [(op, .error e)]) := by
  have hr : returned (past ++ [(op, .error e)]) = returned past := by
    simp [returned, Exchange.value?]
  have hn : numbering N (past ++ [(op, .error e)]) = numbering N past := by
    rw [numbering, hr, numbering]
  refine ⟨h.targets, ?_, ?_, ?_, ?_⟩
  · rw [hr]; exact h.register
  · rw [hn]; exact h.numbers
  · rw [hr, hn]; exact h.indices
  · rw [hr]; exact h.defined

theorem step {reply : Reply} (h : d.Accounts past) (hs : d.Step op reply d') :
    d'.Accounts (past ++ [(op, .ok reply)]) := by
  cases hv : reply.value? with
  | none =>
    have hr : returned (past ++ [(op, .ok reply)]) = returned past := by simp [returned_concat, hv]
    have hn : numbering N (past ++ [(op, .ok reply)]) = numbering N past := by
      rw [numbering, hr, numbering]
    have hnumbers := hs.numbers
    rw [hv] at hnumbers
    refine ⟨hs.targets h.targets, ?_, ?_, ?_, ?_⟩
    · rw [hs.reply_value.2 hv, hr]; exact h.register
    · rw [hn]; exact hnumbers.trans h.numbers
    · rw [hr, hn]; exact h.indices
    · intro v hmem
      rw [hr] at hmem
      obtain ⟨ins, hins, hd⟩ := h.defined v hmem
      exact ⟨ins, hs.extends_graph.mem_instrs hins, hd⟩
  | some v =>
    obtain rfl : reply = .value v := by cases reply <;> cases hv; rfl
    obtain ⟨hindex, hnext, hdefined⟩ := hs.reply_value.1 v rfl
    have hr := returned_concat past op (.value v)
    have hnumber : v.index = Counter.number N (returned past).length := by
      rw [hindex, h.register, Counter.number]
    refine ⟨hs.targets h.targets, ?_, ?_, ?_, ?_⟩
    · rw [hnext, h.register, hr, List.length_append]
      rfl
    · rw [numbering_concat, ← hnumber]
      exact (hs.numbers.trans (h.numbers.append_left _)).trans List.perm_append_comm
    · rw [numbering_concat, ← hnumber, hr, List.map_append, h.indices]
      rfl
    · intro u hu
      rw [hr] at hu
      rcases List.mem_append.mp hu with hu | hu
      · obtain ⟨ins, hins, hd⟩ := h.defined u hu
        exact ⟨ins, hs.extends_graph.mem_instrs hins, hd⟩
      · obtain rfl : u = v := List.mem_singleton.mp hu
        exact hdefined

end Accounts

/-- The answers agree with the draft after any operations. -/
theorem accounts_perform (name : String) (ops : List Operation) :
    ((start name : Draft N).perform ops).Accounts ((start name : Draft N).record ops) := by
  induction ops using List.reverseRecOn with
  | nil => exact ⟨List.forall_mem_nil _, rfl, .refl _, rfl, List.forall_mem_nil _⟩
  | append_singleton ops op ih =>
    rw [perform_concat, record_concat]
    rcases ((start name : Draft N).perform ops).apply_cases op with ⟨e, he⟩ | ⟨reply, d', he, hs⟩
    · rw [he]
      exact ih.error e
    · rw [he]
      exact ih.step hs

/-- **A draft is regular at all times.** Whatever operations were done, with whatever operands, and
whatever register numbers the values:

* a next operation that fails changes nothing,
* a block that has a terminator stays as it is, whatever is done next,
* the targets of all terminators exist,
* the values that were given have the numbers that the register showed, in the order of the calls;
  as long as it has not started again, these are 0, 1, 2 and so on, and each is computed by one
  instruction,
* the check of the graph accepts it iff all blocks have a terminator, and else names the first one
  that has none.

A word has not started again with up to `2 ^ 32` values (`Counter.reaches_word`). -/
theorem perform_regular (name : String) (ops : List Operation) :
    let d : Draft N := (start name).perform ops
    let values := returned ((start name : Draft N).record ops)
    (∀ op e, (d.apply op).1 = .error e → (d.apply op).2 = d) ∧
    (∀ (more : List Operation) (i : Nat) (block : Block), d.builder.graph.blocks[i]? = some block →
      block.exit?.isSome → (d.perform more).builder.graph.blocks[i]? = some block) ∧
    (∀ block ∈ d.builder.graph.blocks, ∀ t, block.exit? = some t →
      ∀ k ∈ t.successors, k < d.builder.graph.blocks.length) ∧
    values.map (·.index) = (List.range values.length).map (Counter.number N) ∧
    (Counter.Reaches N values.length → values.map (·.index) = List.range values.length ∧
      ∀ v ∈ values, ∃ ins, d.builder.graph.instrs.filter (·.number? = some v.index) = [ins] ∧
        ins.dest? = some v) ∧
    (d.builder.graph.verify = .ok () ↔ ∀ block ∈ d.builder.graph.blocks, block.exit?.isSome) ∧
    (∀ block, d.builder.graph.blocks.find? (·.exit?.isNone) = some block →
      d.builder.graph.verify = .error (.missingTerminator block.label)) := by
  intro d values
  have ha := accounts_perform (N := N) name ops
  have hverify : d.builder.graph.verify = _ := Graph.forM_verifyBlock ha.targets
  refine ⟨fun op e he => ?_, fun more i block hb hx => (d.extends_perform more).terminated hb hx,
    ha.targets, ha.indices, fun hn => ⟨?_, fun v hv => ?_⟩, ?_,
    fun block hblock => by rw [hverify, hblock]; rfl⟩
  · rcases d.apply_cases op with ⟨e', h⟩ | ⟨reply, d', h, -⟩
    · rw [h]
    · rw [h] at he
      cases he
  · exact ha.indices.trans
      ((List.map_congr_left fun k hk => hn k (List.mem_range.mp hk)).trans (List.map_id' _))
  · obtain ⟨ins, hins, hdest⟩ := ha.defined v hv
    exact ⟨ins, Graph.filter_eq_singleton (ha.nodup hn) hins (by simp [Instr.number?, hdest]),
      hdest⟩
  · rw [hverify]
    cases hf : d.builder.graph.blocks.find? (·.exit?.isNone) with
    | none =>
      rw [List.find?_eq_none] at hf
      simpa [Option.isSome_iff_ne_none] using hf
    | some block =>
      have hnone := List.find?_some hf
      have hmem := List.mem_of_find?_eq_some hf
      simp only [Option.elim_some, reduceCtorEq, false_iff]
      intro hall
      have hsome := hall block hmem
      simp_all

/-- One block is done and the other is empty. The branch fails, since it tests a number. -/
def interrupted : List Operation :=
  [.createBlock "entry", .createBlock "exit", .switchTo 0, .createSlot "x" .number, .constant .one,
    .store 0 ⟨0, .number⟩, .load 0, .branch ⟨1, .number⟩ 0 1, .jump 1]

theorem interrupted_regular :
    let d : Draft UInt32 := (start "main").perform interrupted
    (d.apply (.ret 0)).1 = .error (.blockTerminated "entry") ∧ (d.apply (.ret 0)).2 = d ∧
    d.builder.graph.verify = .error (.missingTerminator "exit") ∧
    (returned ((start "main" : Draft UInt32).record interrupted)).map (·.index) = [0, 1] := by
  have hlast : (((start "main" : Draft UInt32).perform interrupted).apply (.ret 0)).1 =
      .error (.blockTerminated "entry") := by
    decide +kernel
  have htwo : (returned ((start "main" : Draft UInt32).record interrupted)).length = 2 := by
    decide +kernel
  obtain ⟨hfail, -, -, -, hindices, -, hverify⟩ := perform_regular (N := UInt32) "main" interrupted
  refine ⟨hlast, hfail (.ret 0) _ hlast, hverify ⟨"exit", [], none⟩ (by decide +kernel), ?_⟩
  have hrange := (hindices (Counter.reaches_word.mpr (by rw [htwo]; decide))).1
  rw [htwo] at hrange
  exact hrange

end Draft

end FlowLang
