import FlowLang.Proofs.LoweringForms

/-!
# What lowering keeps, whatever its outcome

Lowering may fail anywhere, and it goes on after a fault. In all cases it only adds to what is
there.

* `Lowering.Grows s s'`: nothing that `s` has is lost in `s'`.
* `Lowering.Leads s s'`: moreover the insertion point is again at an open block (`Builder.Framed`).
* `Lower.Keeps step`: from an open insertion point, `step` leads to an open one, whether it succeeds
  or fails. The rules `Keeps.bind`, `keeps_attempt` and `keeps_build` carry this over to whole
  trees: `Tree.lowerNode_keeps`.
* `Tree.lowerProgram_verifies`: so the graph of a program always passes its check.
-/

namespace FlowLang

variable {N : Type}

namespace Builder

/-- All targets of terminators are blocks of the graph. -/
def TargetsExist (b : Builder N) : Prop :=
  ∀ block ∈ b.graph.blocks, ∀ t, block.exit? = some t →
    ∀ j ∈ t.successors, j < b.graph.blocks.length

/-- The additions that leave the insertion point at its block. -/
inductive Adds [Counter N] (b : Builder N) : Builder N → Prop
  | emits {ins : Instr} {b' : Builder N} (h : b.Emits ins b') : Adds b b'
  | defines {v : Value} {ins : Instr} {b' : Builder N} (h : b.Defines v ins b') : Adds b b'
  | slot (slot : Slot) : Adds b (b.addSlot slot)

end Builder

namespace Lowering

/-- Every variable has a slot of its own name, with the type of its kind. -/
def ScopeFits (s : Lowering) : Prop := ∀ x b, s.scope.lookup? x = some b →
  s.builder.graph.slots[b.slot]? = some ⟨x, Lower.typeOf b.kind⟩

/-- Nothing that `s` has is lost in `s'`. -/
structure Grows (s s' : Lowering) : Prop where
  strings : s.strings <+: s'.strings
  graph : s.builder.graph.Extends s'.builder.graph
  values : s.builder.nextValue ≤ s'.builder.nextValue
  faults : s.faults <+: s'.faults
  targets : s.builder.TargetsExist → s'.builder.TargetsExist
  scope : s.ScopeFits → s'.ScopeFits

/-- Lowering has gone from `s` to `s'`, and from an open insertion point to an open one. -/
structure Leads (s s' : Lowering) : Prop extends s.Grows s' where
  framed : s.builder.Framed s'.builder

theorem Grows.refl (s : Lowering) : s.Grows s :=
  ⟨List.prefix_refl _, .refl _, Nat.le_refl _, List.prefix_refl _, id, id⟩

theorem Grows.trans {s s₁ s₂ : Lowering} (h₁ : s.Grows s₁) (h₂ : s₁.Grows s₂) : s.Grows s₂ where
  strings := h₁.strings.trans h₂.strings
  graph := h₁.graph.trans h₂.graph
  values := h₁.values.trans h₂.values
  faults := h₁.faults.trans h₂.faults
  targets h := h₂.targets (h₁.targets h)
  scope h := h₂.scope (h₁.scope h)

theorem Leads.refl (s : Lowering) : s.Leads s := ⟨.refl s, .refl _⟩

theorem Leads.trans {s s₁ s₂ : Lowering} (h₁ : s.Leads s₁) (h₂ : s₁.Leads s₂) : s.Leads s₂ :=
  ⟨h₁.toGrows.trans h₂.toGrows, h₁.framed.trans h₂.framed⟩

/-- A recorded fault is not lost. -/
theorem Grows.ne_fault {s s' : Lowering} (h : s.Grows s') (e : LoweringFault) :
    s'.faults ++ [e] ≠ s.faults := by
  intro he
  have hl := h.faults.length_le
  rw [← he, List.length_append, List.length_singleton] at hl
  omega

/-- If nothing is recorded on the whole way, then nothing is on the first part of it. -/
theorem Grows.faults_eq {s s₁ s₂ : Lowering} (h₁ : s.Grows s₁) (h₂ : s₁.Grows s₂)
    (h : s₂.faults = s.faults) : s₁.faults = s.faults := by
  have hl := h₂.faults.length_le
  rw [h] at hl
  exact (h₁.faults.eq_of_length_le hl).symm

/-- Slots that were there fit a scope that did not change. -/
theorem ScopeFits.mono {s s' : Lowering} (h : s.ScopeFits) (hs : s'.scope = s.scope)
    (hg : s.builder.graph.Extends s'.builder.graph) : s'.ScopeFits := by
  intro x b hx
  rw [hs] at hx
  exact hg.slot (h x b hx)

end Lowering

namespace Builder

theorem TargetsExist.push {b : Builder N} (h : b.TargetsExist) (i : Nat) (ins : Instr) :
    (b.push i ins).TargetsExist := by
  intro block hb t ht j hj
  rw [push_length]
  obtain ⟨k, hk⟩ := List.mem_iff_getElem?.mp hb
  rw [push_getElem?] at hk
  obtain ⟨old, ho, rfl⟩ := Option.map_eq_some_iff.mp hk
  refine h old (List.mem_of_getElem? ho) t ?_ j hj
  split at ht <;> exact ht

theorem TargetsExist.close {b : Builder N} (h : b.TargetsExist) (i : Nat) {t : Terminator}
    (ht : ∀ j ∈ t.successors, j < b.graph.blocks.length) : (b.close i t).TargetsExist := by
  intro block hb t' ht' j hj
  rw [close_length]
  obtain ⟨k, hk⟩ := List.mem_iff_getElem?.mp hb
  rw [close_getElem?] at hk
  obtain ⟨old, ho, rfl⟩ := Option.map_eq_some_iff.mp hk
  split at ht'
  · cases ht'
    exact ht j hj
  · exact h old (List.mem_of_getElem? ho) t' ht' j hj

theorem TargetsExist.addBlocks {b : Builder N} (h : b.TargetsExist) (labels : List String) :
    (b.addBlocks labels).TargetsExist := by
  intro block hb t ht j hj
  rw [addBlocks_length]
  rcases List.mem_append.mp hb with hb | hb
  · exact Nat.lt_add_right _ (h block hb t ht j hj)
  · obtain ⟨l, -, rfl⟩ := List.mem_map.mp hb
    cases ht

section Adds

variable [Counter N] {b b' : Builder N}

theorem Adds.graph (h : b.Adds b') : b.graph.Extends b'.graph := by
  cases h with
  | emits h => exact h.extends
  | defines h => exact h.extends
  | slot slot => exact addSlot_extends b slot

theorem Adds.framed (h : b.Adds b') : b.Framed b' := by
  cases h with
  | emits h => exact h.framed
  | defines h => exact h.framed
  | slot slot => exact addSlot_framed b slot

theorem Adds.targets (h : b.Adds b') (hb : b.TargetsExist) : b'.TargetsExist := by
  cases h with
  | emits h => obtain ⟨i, -, rfl⟩ := h; exact hb.push i _
  | defines h => obtain ⟨-, i, -, rfl⟩ := h; exact hb.push i _
  | slot slot => exact hb

end Adds

theorem Adds.values {b b' : Builder} (h : b.Adds b') : b.nextValue ≤ b'.nextValue := by
  cases h with
  | emits h => obtain ⟨i, -, rfl⟩ := h; exact Nat.le_refl _
  | defines h => obtain ⟨-, i, -, rfl⟩ := h; exact Nat.le_succ _
  | slot slot => exact Nat.le_refl _

end Builder

namespace Lowering

/-- An addition at the insertion point. -/
theorem leads_of_adds {s : Lowering} {b : Builder} (h : s.builder.Adds b) :
    s.Leads { s with builder := b } where
  strings := List.prefix_refl _
  graph := h.graph
  values := h.values
  faults := List.prefix_refl _
  targets := h.targets
  scope hs := hs.mono rfl h.graph
  framed := h.framed

/-- The end of a block. -/
theorem grows_of_ends {s : Lowering} {b : Builder} {t : Terminator} (h : s.builder.Ends t b) :
    s.Grows { s with builder := b } where
  strings := List.prefix_refl _
  graph := h.extends
  values := by obtain ⟨-, i, -, rfl⟩ := h; exact Nat.le_refl _
  faults := List.prefix_refl _
  targets hs := by obtain ⟨ht, i, -, rfl⟩ := h; exact hs.close i ht
  scope hs := hs.mono rfl h.extends

/-- The same lowering at another block. -/
def moveTo (s : Lowering) (k : Nat) : Lowering := { s with builder := s.builder.moveTo k }

theorem grows_moveTo (s : Lowering) (k : Nat) : s.Grows (s.moveTo k) :=
  ⟨List.prefix_refl _, .refl _, Nat.le_refl _, List.prefix_refl _, id, id⟩

theorem grows_of_switches {s : Lowering} {b : Builder} {t : Terminator} {k : Nat}
    (h : s.builder.Switches t k b) : s.Grows { s with builder := b } := by
  obtain ⟨b₁, he, -, rfl⟩ := h
  exact (grows_of_ends he).trans (grows_moveTo _ k)

theorem leads_fault (s : Lowering) (e : LoweringFault) :
    s.Leads { s with faults := s.faults ++ [e] } :=
  ⟨⟨List.prefix_refl _, .refl _, Nat.le_refl _, List.prefix_append _ _, id, id⟩, .refl _⟩

end Lowering

/-! ## Straight steps -/

namespace Lower

variable {α β : Type}

/-- From an open insertion point the step leads to an open one, whether it succeeds or fails. -/
def Keeps (step : Lower Nat α) : Prop :=
  ∀ (s : Lowering) (i : Nat), s.builder.OpenAt i → s.Leads (after (step s))

theorem Keeps.of_ok {step : Lower Nat α} (h : Keeps step) {s s' : Lowering} {i : Nat} {a : α}
    (hi : s.builder.OpenAt i) (he : step s = .ok a s') : s.Leads s' := by
  have := h s i hi
  rwa [he] at this

theorem Keeps.bind {x : Lower Nat α} {f : α → Lower Nat β} (hx : Keeps x) (hf : ∀ a, Keeps (f a)) :
    Keeps (x >>= f) := by
  intro s i hi
  have h₁ := hx s i hi
  rw [bind_apply]
  cases hs : x s with
  | error e s₁ => rw [hs] at h₁; exact h₁
  | ok a s₁ =>
    rw [hs] at h₁
    obtain ⟨i', hi', -⟩ := h₁.framed i hi
    exact h₁.trans (hf a s₁ i' hi')

theorem keeps_pure (a : α) : Keeps (pure a) := fun s _ _ => .refl s

theorem keeps_throw (e : LoweringFault) : Keeps (throw e : Lower Nat α) := fun s _ _ => .refl s

theorem keeps_build {step : Build Nat α} (ha : Build.Atomic step)
    (h : ∀ b a b', step b = .ok a b' → b.Adds b') : Keeps (build step) := by
  intro s i hi
  unfold build
  cases hs : step s.builder with
  | ok a b => exact Lowering.leads_of_adds (h _ _ _ hs)
  | error e b =>
    obtain rfl := ha _ _ _ hs
    exact .refl s

theorem keeps_attempt {step : Lower Nat α} (h : Keeps step) : Keeps (attempt step) := by
  intro s i hi
  have h₁ := h s i hi
  unfold attempt
  cases hs : step s with
  | ok a s₁ => rw [hs] at h₁; exact h₁
  | error e s₁ => rw [hs] at h₁; exact h₁.trans (Lowering.leads_fault _ _)

/-- A step that is tried does not fail. -/
theorem attempt_ok (step : Lower Nat α) (s : Lowering) : ∃ r s', attempt step s = .ok r s' := by
  unfold attempt
  cases step s with
  | ok a s₁ => exact ⟨_, _, rfl⟩
  | error e s₁ => exact ⟨_, _, rfl⟩

theorem keeps_valueOf (t : Tree) {step : Lower Nat (Option Value)} (h : Keeps step) :
    Keeps (valueOf t step) :=
  h.bind fun v => by
    cases v with
    | none => exact keeps_throw _
    | some v => exact keeps_pure v

theorem build_eq_ok {step : Build Nat α} {s s' : Lowering} {a : α} :
    build step s = .ok a s' ↔ ∃ b, step s.builder = .ok a b ∧ s' = { s with builder := b } := by
  unfold build
  cases hs : step s.builder with
  | error e b => simp
  | ok c b =>
    simp only [EStateM.Result.ok.injEq]
    constructor
    · rintro ⟨rfl, rfl⟩
      exact ⟨b, ⟨rfl, rfl⟩, rfl⟩
    · rintro ⟨_, ⟨rfl, rfl⟩, rfl⟩
      exact ⟨rfl, rfl⟩

theorem valueOf_eq_ok {t : Tree} {step : Lower Nat (Option Value)} {s s' : Lowering} {v : Value} :
    valueOf t step s = .ok v s' ↔ step s = .ok (some v) s' := by
  unfold valueOf
  rw [bind_eq_ok]
  constructor
  · rintro ⟨_ | w, s₁, h₁, h₂⟩ <;> cases h₂
    exact h₁
  · intro h
    exact ⟨some v, s', h, rfl⟩

theorem slotOf_apply (x : String) (s : Lowering N) :
    slotOf x s = match s.scope.lookup? x with
      | some b => .ok b.slot s
      | none => .error (.undeclared x) s := by
  show (match s.scope.lookup? x with
    | some b => pure b.slot
    | none => throw (.undeclared x) : Lower N Nat) s = _
  cases s.scope.lookup? x <;> rfl

theorem slotOf_eq_ok {x : String} {s s' : Lowering} {i : Nat} :
    slotOf x s = .ok i s' ↔ ∃ b, s.scope.lookup? x = some b ∧ i = b.slot ∧ s' = s := by
  rw [slotOf_apply]
  cases s.scope.lookup? x <;> simp [eq_comm]

theorem keeps_slotOf (x : String) : Keeps (slotOf x) := by
  intro s i hi
  rw [slotOf_apply]
  cases s.scope.lookup? x <;> exact .refl s

theorem stringConstant_apply (text : String) (s : Lowering) :
    stringConstant text s = build (.string (s.interner.intern text).1)
      { s with interner := (s.interner.intern text).2 } := rfl

theorem keeps_define (ty : Ty) (f : Value → Instr) : Keeps (build (.define ty f)) :=
  keeps_build (Build.define_atomic ty f) fun _ _ _ h => .defines (Build.define_eq_ok.mp h).2

/-- More strings. -/
theorem leads_intern (s : Lowering) (text : String) :
    s.Leads { s with interner := (s.interner.intern text).2 } :=
  ⟨⟨s.interner.texts_prefix_intern text, .refl _, Nat.le_refl _, List.prefix_refl _, id, id⟩,
    .refl _⟩

theorem keeps_stringConstant (text : String) : Keeps (stringConstant text) := by
  intro s i hi
  rw [stringConstant_apply]
  exact (leads_intern s text).trans (keeps_define _ _ _ i hi)

theorem keeps_store (x : String) (v : Value) : Keeps (store x v) :=
  (keeps_slotOf x).bind fun slot => keeps_build (Build.store_atomic slot v) fun _ _ _ h => by
    obtain ⟨_, -, -, he⟩ := Build.store_eq_ok.mp h
    exact .emits he

theorem keeps_load (x : String) : Keeps (load x) :=
  (keeps_slotOf x).bind fun slot => keeps_build (Build.load_atomic slot) fun _ _ _ h => by
    obtain ⟨_, -, -, hd⟩ := Build.load_eq_ok.mp h
    exact .defines hd

theorem keeps_call (callee : Printer) (v : Value) : Keeps (build (.call callee v)) :=
  keeps_build (Build.call_atomic callee v) fun _ _ _ h => .emits (Build.call_eq_ok.mp h).2

theorem keeps_print (v : Value) : Keeps (print v) := by
  unfold print
  split
  · exact keeps_call _ v
  · exact keeps_call _ v
  · exact keeps_throw _

theorem keeps_binary (op : Binary) (lhs rhs : Value) : Keeps (build (op.build lhs rhs)) :=
  keeps_build (((Build.define_atomic _ _).require _ _ _).require _ _ _)
    fun _ _ _ h => .defines (Build.checked_eq_ok.mp h).2.2.2

theorem keeps_negate (v : Value) : Keeps (build (.negate v)) :=
  keeps_build ((Build.define_atomic _ _).require _ _ _) fun _ _ _ h =>
    .defines (Build.negate_eq_ok.mp h).2.2

end Lower

namespace Scope

theorem lookup?_declare (s : Scope) (x y : String) (b : Binding) :
    (s.declare x b).lookup? y = if y = x then some b else s.lookup? y := by
  show List.lookup y ((x, b) :: s.bindings.filter (·.1 ≠ x)) = _
  rw [List.lookup_cons]
  by_cases h : y = x
  · simp [h]
  · rw [if_neg h, beq_false_of_ne h]
    show List.lookup y (s.bindings.filter (·.1 ≠ x)) = List.lookup y s.bindings
    induction s.bindings with
    | nil => rfl
    | cons e es ih =>
      by_cases he : e.1 = x
      · rw [List.filter_cons_of_neg (by simpa using he), List.lookup_cons, he,
          beq_false_of_ne h]
        exact ih
      · rw [List.filter_cons_of_pos (by simpa using he), List.lookup_cons, List.lookup_cons, ih]

end Scope

namespace Lower

/-- A new slot with a value, and a variable bound to it. -/
theorem leads_bindSlot {s : Lowering} {x : String} {kind : Kind} {v : Value} {b : Builder}
    (he : (s.builder.addSlot ⟨x, typeOf kind⟩).Emits (.store s.builder.graph.slots.length v) b) :
    s.Leads { s with
      builder := b
      scope := s.scope.declare x ⟨s.builder.graph.slots.length, kind⟩ } := by
  have h : s.Leads { s with builder := b } :=
    (Lowering.leads_of_adds (.slot ⟨x, typeOf kind⟩)).trans (Lowering.leads_of_adds (.emits he))
  refine ⟨{ h.toGrows with scope := fun hs y c hy => ?_ }, h.framed⟩
  rw [Scope.lookup?_declare] at hy
  split at hy
  · rename_i hyx
    cases hy
    rw [hyx]
    exact he.extends.slot List.getElem?_concat_length
  · exact h.scope hs y c hy

theorem keeps_bindSlot (x : String) (kind : Kind) (v : Value) : Keeps (do
    let slot ← build (.createSlot x (typeOf kind))
    build (.store slot v)
    modify fun s => { s with scope := s.scope.declare x ⟨slot, kind⟩ }
    return none : Lower Nat (Option Value)) := by
  intro s i hi
  let s₁ : Lowering := { s with builder := s.builder.addSlot ⟨x, typeOf kind⟩ }
  show s.Leads (after ((build (.store s.builder.graph.slots.length v) >>= fun _ =>
    modify (fun r : Lowering => { r with
      scope := r.scope.declare x ⟨s.builder.graph.slots.length, kind⟩ }) >>= fun _ => pure none)
        s₁))
  rw [bind_apply]
  unfold build
  cases hst : Build.store s.builder.graph.slots.length v s₁.builder with
  | error e b =>
    obtain rfl := Build.store_atomic _ _ _ _ _ hst
    exact Lowering.leads_of_adds (.slot _)
  | ok u b =>
    obtain ⟨-, -, -, he⟩ := Build.store_eq_ok.mp hst
    exact leads_bindSlot he

/-! ## Control -/

theorem ends_of_openAt {b : Builder} {i : Nat} {t : Terminator} (hi : b.OpenAt i)
    (ht : ∀ j ∈ t.successors, j < b.graph.blocks.length) : b.Ends t (b.close i t) :=
  ⟨ht, i, hi, rfl⟩

/-- At an open block a jump to a block of the graph succeeds. -/
theorem jump_of_openAt {s : Lowering} {i k : Nat} (hi : s.builder.OpenAt i)
    (hk : k < s.builder.graph.blocks.length) :
    build (.jump k) s = .ok () { s with builder := s.builder.close i (.jump k) } := by
  have he : s.builder.Ends (.jump k) (s.builder.close i (.jump k)) :=
    ends_of_openAt hi fun j hj => by rw [List.mem_singleton.mp hj]; exact hk
  unfold build
  rw [show Build.jump k s.builder = _ from Build.terminate_eq_ok.mpr he]

theorem switchTo_of_lt {s : Lowering} {k : Nat} (hk : k < s.builder.graph.blocks.length) :
    build (.switchTo k) s = .ok () (s.moveTo k) := by
  unfold build
  rw [show Build.switchTo k s.builder = .ok () _ from Build.switchTo_eq_ok.mpr ⟨hk, rfl⟩]
  rfl

/-- A branch at an open block succeeds, unless its condition is no truth value; then nothing
changes. -/
theorem branch_of_openAt {s : Lowering} {i yes no : Nat} (v : Value) (hi : s.builder.OpenAt i)
    (hy : yes < s.builder.graph.blocks.length) (hn : no < s.builder.graph.blocks.length) :
    build (.branch v yes no) s =
      if v.ty = .truth then .ok () { s with builder := s.builder.close i (.branch v yes no) }
      else .error (.graph (.typeMismatch .branch .truth v.ty)) s := by
  have he : s.builder.Ends (.branch v yes no) (s.builder.close i (.branch v yes no)) :=
    ends_of_openAt hi fun j hj => by
      rcases List.mem_cons.mp hj with rfl | hj
      · exact hy
      · rw [List.mem_singleton.mp hj]; exact hn
  unfold build
  by_cases hv : v.ty = .truth
  · rw [if_pos hv, Build.branch_eq_ok.mpr ⟨hv, he⟩]
  · have hb : Build.branch v yes no s.builder =
        .error (.typeMismatch .branch .truth v.ty) s.builder := by
      unfold Build.branch Build.require
      rw [if_neg hv]
      rfl
    rw [if_neg hv, hb]

/-- Computes a condition, which has to be a truth value. -/
def condition (test : Lower Nat Value) : Lower Nat Unit := do
  let v ← test
  build (.require .branch v .truth)

theorem keeps_require (use : Use) (v : Value) (ty : Ty) : Keeps (build (.require use v ty)) := by
  intro s i hi
  unfold build Build.require
  by_cases hv : v.ty = ty
  · rw [if_pos hv]; exact .refl s
  · rw [if_neg hv]; exact .refl s

/-- Branching ends the block of the insertion point, also when the condition fails. If the condition
does not fail, then it ends with the branch. -/
theorem branchOn_settles {test : Lower Nat Value} (ht : Keeps test) {s : Lowering} {i yes no : Nat}
    (hi : s.builder.OpenAt i) (hy : yes < s.builder.graph.blocks.length)
    (hn : no < s.builder.graph.blocks.length) :
    ∃ r s₁ t b, attempt (condition test) s = .ok r s₁ ∧ s₁.builder.Ends t b ∧
      branchOn test yes no s = .ok () { s₁ with builder := b } ∧
      s.Grows { s₁ with builder := b } ∧ s.builder.graph.Settles b.graph [i] ∧
      ∀ u, r = some u → ∃ v, test s = .ok v s₁ ∧ v.ty = .truth ∧ t = .branch v yes no := by
  have h₁ := ht s i hi
  -- a fault of the condition leads to the jump past the body
  have failed : ∀ (s₁ : Lowering) (e : LoweringFault), s.Leads s₁ →
      ∃ b, s₁.builder.Ends (.jump no) b ∧ build (.jump no) { s₁ with faults := s₁.faults ++ [e] } =
        .ok () { s₁ with faults := s₁.faults ++ [e], builder := b } ∧
      s.Grows { s₁ with faults := s₁.faults ++ [e], builder := b } ∧
      s.builder.graph.Settles b.graph [i] := by
    intro s₁ e hl
    have hl' := hl.trans (Lowering.leads_fault s₁ e)
    obtain ⟨i', hi', -⟩ := hl'.framed i hi
    have hn' := Nat.lt_of_lt_of_le hn hl'.graph.length_le
    have he := ends_of_openAt (t := .jump no) hi' fun j hj => by
      rw [List.mem_singleton.mp hj]; exact hn'
    exact ⟨_, he, jump_of_openAt hi' hn', hl'.toGrows.trans (Lowering.grows_of_ends he),
      hl'.framed.ends hi he⟩
  unfold branchOn
  rw [bind_apply]
  unfold attempt condition
  rw [bind_apply, bind_apply]
  cases hs : test s with
  | error e s₁ =>
    rw [hs] at h₁
    obtain ⟨b, he, hj, hg, hset⟩ := failed s₁ e h₁
    exact ⟨none, _, _, b, rfl, he, hj, hg, hset, nofun⟩
  | ok v s₁ =>
    replace h₁ : s.Leads s₁ := by rwa [hs] at h₁
    obtain ⟨i', hi', -⟩ := h₁.framed i hi
    have hy' := Nat.lt_of_lt_of_le hy h₁.graph.length_le
    have hn' := Nat.lt_of_lt_of_le hn h₁.graph.length_le
    dsimp only
    rw [branch_of_openAt v hi' hy' hn']
    unfold build Build.require
    by_cases hv : v.ty = .truth
    · rw [if_pos hv, if_pos hv]
      have he : s₁.builder.Ends (.branch v yes no) (s₁.builder.close i' (.branch v yes no)) := by
        refine ends_of_openAt hi' fun j hj => ?_
        rcases List.mem_cons.mp hj with rfl | hj
        · exact hy'
        · rw [List.mem_singleton.mp hj]; exact hn'
      exact ⟨some (), s₁, _, _, rfl, he, rfl, h₁.toGrows.trans (Lowering.grows_of_ends he),
        h₁.framed.ends hi he, fun _ _ => ⟨v, rfl, hv, rfl⟩⟩
    · rw [if_neg hv, if_neg hv]
      obtain ⟨b, he, hj, hg, hset⟩ := failed s₁ _ h₁
      exact ⟨none, _, _, b, rfl, he, hj, hg, hset, nofun⟩

/-- The body of a block that is still open ends that block, also when it fails. -/
theorem body_settles {step : Lower Nat (Option Value)} (hstep : Keeps step) {s : Lowering}
    {block next : Nat} (hb : s.builder.graph.IsOpen block)
    (hn : next < s.builder.graph.blocks.length) :
    ∃ r s₁ b, attempt step (s.moveTo block) = .ok r s₁ ∧ s₁.builder.Ends (.jump next) b ∧
      body block next step s = .ok () { s₁ with builder := b } ∧
      s.Grows { s₁ with builder := b } ∧ s.builder.graph.Settles b.graph [block] := by
  have hopen : (s.moveTo block).builder.OpenAt block := Builder.moveTo_openAt hb
  have hl := keeps_attempt hstep (s.moveTo block) block hopen
  obtain ⟨r, s₁, ha⟩ := attempt_ok step (s.moveTo block)
  replace hl : (s.moveTo block).Leads s₁ := by rwa [ha] at hl
  obtain ⟨i', hi', -⟩ := hl.framed block hopen
  have hn' : next < s₁.builder.graph.blocks.length := Nat.lt_of_lt_of_le hn hl.graph.length_le
  have he := ends_of_openAt (t := .jump next) hi' fun j hj => by
    rw [List.mem_singleton.mp hj]; exact hn'
  refine ⟨r, s₁, _, ha, he, ?_,
    (s.grows_moveTo block).trans (hl.toGrows.trans (Lowering.grows_of_ends he)),
    hl.framed.ends hopen he⟩
  unfold body
  rw [bind_apply, switchTo_of_lt hb.lt]
  dsimp only
  rw [bind_apply, ha]
  exact jump_of_openAt hi' hn'

end Lower

theorem Lowering.grows_fork (s : Lowering) (labels : List String) : s.Grows (s.fork labels) where
  strings := List.prefix_refl _
  graph := Builder.addBlocks_extends _ _
  values := Nat.le_refl _
  faults := List.prefix_refl _
  targets h := h.addBlocks labels
  scope h := h.mono rfl (Builder.addBlocks_extends _ _)

namespace Tree

open Lower

/-- The insertion point goes from an open block to an empty one, where the condition is computed,
and the branch ends that block too. -/
theorem enter_branchOn {α : Type} {c : Tree} (hc : Keeps c.lowerNode) {s : Lowering}
    {i test yes no : Nat} (hi : s.builder.OpenAt i) (ht : s.builder.graph.FreshAt test)
    (hne : test ≠ i) (hy : yes < s.builder.graph.blocks.length)
    (hn : no < s.builder.graph.blocks.length) (rest : Lower Nat α) :
    ∃ b r s₁ t b', s.builder.Switches (.jump test) test b ∧
      attempt (condition (valueOf c c.lowerNode)) { s with builder := b } = .ok r s₁ ∧
      s₁.builder.Ends t b' ∧ (do
        build (.jump test)
        build (.switchTo test)
        branchOn (valueOf c c.lowerNode) yes no
        rest) s = rest { s₁ with builder := b' } ∧
      s.Grows { s₁ with builder := b' } ∧ s.builder.graph.Settles b'.graph [i, test] ∧
      ∀ u, r = some u → ∃ v, c.lowerNode { s with builder := b } = .ok (some v) s₁ ∧
        v.ty = .truth ∧ t = .branch v yes no := by
  have he := ends_of_openAt (t := .jump test) hi fun j hj => by
    rw [List.mem_singleton.mp hj]; exact ht.isOpen.lt
  have h₁ := he.settles hi
  have ht₁ := h₁.fresh ht (by rwa [List.mem_singleton])
  let s₁ : Lowering := { s with builder := s.builder.close i (.jump test) }
  obtain ⟨r, s₂, t, b', ha, hends, e₂, g₂, h₂, hv⟩ := branchOn_settles (s := s₁.moveTo test)
    (keeps_valueOf c hc) (Builder.moveTo_openAt ht₁.isOpen) (Nat.lt_of_lt_of_le hy h₁.length)
    (Nat.lt_of_lt_of_le hn h₁.length)
  refine ⟨_, r, s₂, t, b', ⟨_, he, ht₁, rfl⟩, ha, hends, ?_,
    (Lowering.grows_of_ends he).trans ((s₁.grows_moveTo test).trans g₂), h₁.trans h₂,
    fun u hu => ?_⟩
  · rw [bind_apply, jump_of_openAt hi ht.isOpen.lt]
    dsimp only
    rw [bind_apply, switchTo_of_lt (s := s₁) ht₁.isOpen.lt]
    dsimp only
    rw [bind_apply, e₂]
  · obtain ⟨v, h, hty, ht⟩ := hv u hu
    exact ⟨v, valueOf_eq_ok.mp h, hty, ht⟩

theorem keeps_lowerAll {ts : List Tree} (h : ∀ t ∈ ts, Keeps t.lowerNode) (last : Option Value) :
    Keeps (lowerAll last ts) := by
  induction ts generalizing last with
  | nil => rw [lowerAll]; exact keeps_pure _
  | cons t ts ih =>
    rw [lowerAll]
    exact (keeps_attempt (h t List.mem_cons_self)).bind fun v =>
      ih (fun u hu => h u (List.mem_cons_of_mem t hu)) v.join

/-- From an open block, a loop or a condition goes through its three blocks to the last one: into
the first, where the condition is tried, into the second, where the body is, and on. -/
theorem lowerGuarded_leads {c b : Tree} (hc : Keeps c.lowerNode) (hb : Keeps b.lowerNode)
    {s : Lowering} {i n next : Nat} (hi : s.builder.OpenAt i) (labels : List String)
    (hn : s.builder.graph.blocks.length = n) (hl : labels.length = 3) (hnext : next < n + 3) :
    ∃ b₁ r s₁ t b₂ r' s₂ b₃, (s.fork labels).builder.Switches (.jump n) n b₁ ∧
      attempt (condition (valueOf c c.lowerNode)) { s.fork labels with builder := b₁ } = .ok r s₁ ∧
      s₁.builder.Switches t (n + 1) b₂ ∧
      attempt b.lowerNode { s₁ with builder := b₂ } = .ok r' s₂ ∧
      s₂.builder.Switches (.jump next) (n + 2) b₃ ∧
      lowerGuarded c b n (n + 1) (n + 2) next (s.fork labels) = .ok none { s₂ with builder := b₃ } ∧
      s.Leads { s₂ with builder := b₃ } ∧
      ∀ u, r = some u → ∃ v, c.lowerNode { s.fork labels with builder := b₁ } = .ok (some v) s₁ ∧
        v.ty = .truth ∧ t = .branch v (n + 1) (n + 2) := by
  subst hn
  have hlen := s.fork_length labels
  rw [hl] at hlen
  have hnew : ∀ k < 3, (s.fork labels).builder.graph.FreshAt (s.builder.graph.blocks.length + k) :=
    fun k hk => Builder.addBlocks_fresh (by omega)
  have hlt := hi.2.lt
  obtain ⟨b₁, r, s₁, t, b', sw₁, a₁, ends₁, e₁, g₁, h₁, hv⟩ := enter_branchOn hc
    (Builder.addBlocks_openAt hi labels) (hnew 0 (by omega)) (by omega)
    (hnew 1 (by omega)).isOpen.lt (hnew 2 (by omega)).isOpen.lt (do
      body (s.builder.graph.blocks.length + 1) next b.lowerNode
      build (.switchTo (s.builder.graph.blocks.length + 2))
      return none)
  have hbody := h₁.fresh (hnew 1 (by omega)) (by simp; omega)
  have hnext₁ : next < b'.graph.blocks.length := by
    have := h₁.length
    omega
  obtain ⟨r', s₂, b'', a₂, ends₂, e₂, g₂, h₂⟩ := body_settles (s := { s₁ with builder := b' }) hb
    hbody.isOpen hnext₁
  have h := h₁.trans h₂
  have hlast := h.fresh (hnew 2 (by omega)) (by simp; omega)
  refine ⟨b₁, r, s₁, t, _, r', s₂, _, sw₁, a₁, ⟨_, ends₁, hbody, rfl⟩, a₂,
    ⟨_, ends₂, hlast, rfl⟩, ?_, ⟨?_, ?_⟩, hv⟩
  · refine e₁.trans ?_
    rw [bind_apply, e₂]
    dsimp only
    rw [bind_apply, switchTo_of_lt (s := { s₂ with builder := b'' }) hlast.isOpen.lt]
    rfl
  · exact (s.grows_fork labels).trans (g₁.trans (g₂.trans (Lowering.grows_moveTo _ _)))
  · refine Builder.framed_of_settles h hi (by omega) fun j hj => ?_
    simp only [List.mem_append, List.mem_cons, List.not_mem_nil, or_false]
    omega

/-- From an open block, a choice goes through its four blocks to the last one. -/
theorem lowerChoice_leads {c b e : Tree} (hc : Keeps c.lowerNode) (hb : Keeps b.lowerNode)
    (he : Keeps e.lowerNode) {s : Lowering} {i n : Nat} (hi : s.builder.OpenAt i)
    (labels : List String) (hn : s.builder.graph.blocks.length = n) (hl : labels.length = 4) :
    ∃ b₁ r s₁ t b₂ r' s₂ b₃ r'' s₃ b₄, (s.fork labels).builder.Switches (.jump n) n b₁ ∧
      attempt (condition (valueOf c c.lowerNode)) { s.fork labels with builder := b₁ } = .ok r s₁ ∧
      s₁.builder.Switches t (n + 1) b₂ ∧
      attempt b.lowerNode { s₁ with builder := b₂ } = .ok r' s₂ ∧
      s₂.builder.Switches (.jump (n + 3)) (n + 2) b₃ ∧
      attempt e.lowerNode { s₂ with builder := b₃ } = .ok r'' s₃ ∧
      s₃.builder.Switches (.jump (n + 3)) (n + 3) b₄ ∧
      lowerChoice c b e n (n + 1) (n + 2) (n + 3) (s.fork labels) =
        .ok none { s₃ with builder := b₄ } ∧
      s.Leads { s₃ with builder := b₄ } ∧
      ∀ u, r = some u → ∃ v, c.lowerNode { s.fork labels with builder := b₁ } = .ok (some v) s₁ ∧
        v.ty = .truth ∧ t = .branch v (n + 1) (n + 2) := by
  subst hn
  have hlen := s.fork_length labels
  rw [hl] at hlen
  have hnew : ∀ k < 4, (s.fork labels).builder.graph.FreshAt (s.builder.graph.blocks.length + k) :=
    fun k hk => Builder.addBlocks_fresh (by omega)
  have hlt := hi.2.lt
  obtain ⟨b₁, r, s₁, t, b', sw₁, a₁, ends₁, e₁, g₁, h₁, hv⟩ := enter_branchOn hc
    (Builder.addBlocks_openAt hi labels) (hnew 0 (by omega)) (by omega)
    (hnew 1 (by omega)).isOpen.lt (hnew 2 (by omega)).isOpen.lt (do
      body (s.builder.graph.blocks.length + 1) (s.builder.graph.blocks.length + 3) b.lowerNode
      body (s.builder.graph.blocks.length + 2) (s.builder.graph.blocks.length + 3) e.lowerNode
      build (.switchTo (s.builder.graph.blocks.length + 3))
      return none)
  have hyes := h₁.fresh (hnew 1 (by omega)) (by simp; omega)
  obtain ⟨r', s₂, b'', a₂, ends₂, e₂, g₂, h₂⟩ := body_settles (s := { s₁ with builder := b' }) hb
    hyes.isOpen (h₁.fresh (hnew 3 (by omega)) (by simp; omega)).isOpen.lt
  have h₁₂ := h₁.trans h₂
  have hno := h₁₂.fresh (hnew 2 (by omega)) (by simp; omega)
  obtain ⟨r'', s₃, b''', a₃, ends₃, e₃, g₃, h₃⟩ := body_settles (s := { s₂ with builder := b'' }) he
    hno.isOpen (h₁₂.fresh (hnew 3 (by omega)) (by simp; omega)).isOpen.lt
  have h := h₁₂.trans h₃
  have hlast := h.fresh (hnew 3 (by omega)) (by simp; omega)
  refine ⟨b₁, r, s₁, t, _, r', s₂, _, r'', s₃, _, sw₁, a₁, ⟨_, ends₁, hyes, rfl⟩, a₂,
    ⟨_, ends₂, hno, rfl⟩, a₃, ⟨_, ends₃, hlast, rfl⟩, ?_, ⟨?_, ?_⟩, hv⟩
  · refine e₁.trans ?_
    rw [bind_apply, e₂]
    dsimp only
    rw [bind_apply, e₃]
    dsimp only
    rw [bind_apply, switchTo_of_lt (s := { s₃ with builder := b''' }) hlast.isOpen.lt]
    rfl
  · exact (s.grows_fork labels).trans (g₁.trans (g₂.trans (g₃.trans (Lowering.grows_moveTo _ _))))
  · refine Builder.framed_of_settles h hi (by omega) fun j hj => ?_
    simp only [List.mem_append, List.mem_cons, List.not_mem_nil, or_false]
    omega

/-- **Lowering a tree keeps an open insertion point**, whatever the tree and the outcome. -/
theorem lowerNode_keeps (t : Tree) : Keeps t.lowerNode := by
  induction t using form_induct with
  | program ts ih => rw [lowerNode]; exact keeps_lowerAll ih none
  | block ts ih => rw [lowerNode]; exact keeps_lowerAll ih none
  | name x => rw [lowerNode]; exact (keeps_load x).bind fun _ => keeps_pure _
  | literal l => rw [lowerNode_literal]; exact (keeps_define _ _).bind fun _ => keeps_pure _
  | text s => rw [lowerNode]; exact (keeps_stringConstant s).bind fun _ => keeps_pure _
  | declare x kind ih =>
    rw [lowerNode_declare]
    exact (keeps_valueOf _ ih).bind fun v => keeps_bindSlot x kind v
  | assign x e ih =>
    rw [lowerNode]
    exact (keeps_valueOf e ih).bind fun v => (keeps_store x v).bind fun _ => keeps_pure _
  | step k x e ih => rw [lowerNode_step]; exact ih
  | print e ih =>
    rw [lowerNode]
    exact (keeps_valueOf e ih).bind fun v => (keeps_print v).bind fun _ => keeps_pure _
  | binary op l r ihl ihr =>
    rw [lowerNode_binary]
    exact (keeps_valueOf l ihl).bind fun _ => (keeps_valueOf r ihr).bind fun _ =>
      (keeps_binary op _ _).bind fun _ => keeps_pure _
  | negate e ih =>
    rw [lowerNode]
    exact (keeps_valueOf e ih).bind fun v => (keeps_negate v).bind fun _ => keeps_pure _
  | guarded g c body ihc ihb =>
    intro s i hi
    obtain ⟨_, _, _, _, _, _, _, _, -, -, -, -, -, e, h, -⟩ := lowerGuarded_leads ihc ihb hi
      (loopLabels s.nextLabel) rfl rfl (g.exit_lt s.builder.graph.blocks.length)
    rw [lowerNode_guarded, e]
    exact h
  | choice c yes no ihc ihy ihn =>
    intro s i hi
    obtain ⟨_, _, _, _, _, _, _, _, _, _, _, -, -, -, -, -, -, -, e, h, -⟩ := lowerChoice_leads ihc
      ihy ihn hi (choiceLabels s.nextLabel) rfl rfl
    rw [lowerNode_choice, e]
    exact h
  | irregular n ts k hk hl => rw [lowerNode_irregular hk hl]; exact keeps_throw _

end Tree

/-! ## Whole programs -/

theorem Graph.verify_eq_ok {g : Graph} : g.verify = .ok () ↔
    ∀ block ∈ g.blocks, ∃ t, block.exit? = some t ∧ ∀ j ∈ t.successors, j < g.blocks.length := by
  have hone : ∀ block : Block, g.verifyBlock block = .ok () ↔
      ∃ t, block.exit? = some t ∧ ∀ j ∈ t.successors, j < g.blocks.length := by
    intro block
    unfold verifyBlock missingTarget?
    cases block.exit? with
    | none => simp
    | some t =>
      dsimp only
      cases hf : t.successors.find? (g.blocks.length ≤ ·) with
      | none => simpa using hf
      | some j =>
        have hj := List.find?_some hf
        have hm := List.mem_of_find?_eq_some hf
        simp only [decide_eq_true_eq] at hj
        simp only [reduceCtorEq, Option.some.injEq, exists_eq_left', false_iff, not_forall]
        exact ⟨j, hm, by omega⟩
  unfold verify
  simp only [← hone]
  generalize g.blocks = blocks
  induction blocks with
  | nil => simp [List.forM_nil]; rfl
  | cons block blocks ih =>
    show (g.verifyBlock block >>= fun _ => blocks.forM g.verifyBlock) = _ ↔ _
    rw [List.forall_mem_cons]
    cases g.verifyBlock block with
    | error e => simp [bind, Except.bind]
    | ok u => simpa [bind, Except.bind] using ih

/-- Lowering at the start of the block `entry`. -/
def Lowering.entry : Lowering :=
  let s : Lowering := .start
  { s with builder := (s.builder.addBlocks ["entry"]).moveTo 0 }

theorem Lowering.entry_openAt : Lowering.entry.builder.OpenAt 0 := ⟨rfl, _, rfl, rfl⟩

namespace Tree

open Lower

/-- Lowering a program lowers its tree at the block `entry`, records a fault if there is one, and
ends the last block. -/
theorem lowerProgram_apply (t : Tree) : ∃ v s i, attempt t.lowerNode .entry = .ok v s ∧
    Lowering.entry.Leads s ∧ s.builder.OpenAt i ∧
    t.lowerProgram .start = .ok () { s with builder := s.builder.close i (.ret 0) } := by
  have hl := keeps_attempt t.lowerNode_keeps _ _ Lowering.entry_openAt
  obtain ⟨v, s, hs⟩ := attempt_ok t.lowerNode .entry
  replace hl : Lowering.entry.Leads s := by rwa [hs] at hl
  obtain ⟨i, hi, -⟩ := hl.framed _ Lowering.entry_openAt
  have he : s.builder.Ends (.ret 0) (s.builder.close i (.ret 0)) :=
    ends_of_openAt hi fun j hj => by cases hj
  have hr : attempt (build (.ret 0)) s =
      .ok (some ()) { s with builder := s.builder.close i (.ret 0) } := by
    unfold attempt build
    rw [show Build.ret 0 s.builder = .ok () _ from Build.terminate_eq_ok.mpr he]
  refine ⟨v, s, i, hs, hl, hi, ?_⟩
  show ((attempt t.lowerNode) >>= fun _ => attempt (build (.ret 0)) >>= fun _ => pure ())
    Lowering.entry = _
  rw [bind_apply, hs]
  dsimp only
  rw [bind_apply, hr]
  rfl

/-- **The graph of a program is always well formed**: every block is terminated, also after faults,
and leads to blocks of the graph only. -/
theorem lowerProgram_verifies (t : Tree) : ∃ s : Lowering, t.lowerProgram .start = .ok () s ∧
    s.builder.graph.verify = .ok () := by
  obtain ⟨v, s, i, -, hl, hi, he⟩ := t.lowerProgram_apply
  have hends : s.builder.Ends (.ret 0) (s.builder.close i (.ret 0)) :=
    ends_of_openAt hi fun j hj => by cases hj
  have hset := hl.framed.ends Lowering.entry_openAt hends
  have htar : (s.builder.close i (.ret 0)).TargetsExist :=
    (hl.targets fun block hb t ht => by
      rw [List.mem_singleton.mp hb] at ht
      cases ht).close i fun j hj => by cases hj
  refine ⟨_, he, Graph.verify_eq_ok.mpr fun block hb => ?_⟩
  cases hx : block.exit? with
  | some t => exact ⟨t, rfl, htar block hb t hx⟩
  | none =>
    -- an open block would be one of the entry's graph, and that has only block 0
    obtain ⟨j, hj⟩ := List.mem_iff_getElem?.mp hb
    obtain ⟨hj', hne⟩ := hset.opens j ⟨block, hj, hx⟩
    have hlt : j < 1 := hj'.lt
    exact absurd (List.mem_singleton.mpr (by omega)) hne

end Tree

end FlowLang
