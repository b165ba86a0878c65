import FlowLang.Proofs.MachineSteps

/-!
# Running a machine again

A machine (an `Interpreter`) keeps its values and slots when a run ends, so the next run finds what
the one before it left. It ends the same way all the same: what it reads was set by the run itself,
or was missing the first time too, and then it was missing at the end.

* `Machine.Over left μ ν`: `ν` is the machine `μ` on top of the memory that `left` has.
* `Exec.repeats`: on top of what a run leaves, it takes the same steps.
* **`Module.runsOn_eq_replicate`**: so all runs of one machine are the same.
-/

namespace FlowLang

namespace Machine

/-- The two machines hold the same values and slots. -/
structure SameMemory (μ ν : Machine) : Prop where
  values : ∀ i : Nat, μ.values[i]? = ν.values[i]?
  slots : μ.slots = ν.slots

/-- What `μ` does not hold, `ν` holds as `left` does. -/
structure Over (left μ ν : Machine) : Prop where
  values : ∀ i : Nat, ν.values[i]? = μ.values[i]?.or left.values[i]?
  slots : ∀ i : Nat, ν.slots[i]? = μ.slots[i]?.map (·.or left.slots[i]?.join)
  sink : ν.sink = μ.sink

theorem SameMemory.refl (μ : Machine) : SameMemory μ μ := ⟨fun _ => rfl, rfl⟩

namespace Over

variable {left μ ν : Machine}

theorem slots_length (h : Over left μ ν) : ν.slots.length = μ.slots.length := by
  have hiff : ∀ i, ν.slots.length ≤ i ↔ μ.slots.length ≤ i := by
    intro i
    rw [← List.getElem?_eq_none_iff, ← List.getElem?_eq_none_iff, h.slots i, Option.map_eq_none_iff]
  exact Nat.le_antisymm ((hiff _).mpr le_rfl) ((hiff _).mp le_rfl)

theorem define (h : Over left μ ν) (v : Value) (s : Scalar) :
    Over left (μ.define v s) (ν.define v s) := by
  refine ⟨fun i => ?_, h.slots, h.sink⟩
  rw [define_values, define_values]
  by_cases hi : v.index = i
  · rw [if_pos hi, if_pos hi]
    rfl
  · rw [if_neg hi, if_neg hi]
    exact h.values i

theorem fill (h : Over left μ ν) (slot : Nat) (s : Scalar) :
    Over left (μ.fill slot s) (ν.fill slot s) := by
  refine ⟨h.values, fun i => ?_, h.sink⟩
  show (ν.slots.set slot (some s))[i]? = (μ.slots.set slot (some s))[i]?.map _
  rw [List.getElem?_set, List.getElem?_set, h.slots_length]
  by_cases hi : slot = i
  · rw [if_pos hi, if_pos hi]
    split <;> rfl
  · rw [if_neg hi, if_neg hi]
    exact h.slots i

/-- On top of the memory that a machine has itself, nothing changes. -/
theorem sameMemory (h : Over left μ ν) (hl : SameMemory left μ) : SameMemory left ν := by
  refine ⟨fun i => ?_, List.ext_getElem? fun i => ?_⟩
  · rw [h.values i, hl.values i, Option.or_self]
  · rw [h.slots i, ← hl.slots]
    rcases left.slots[i]? with _ | _ | s <;> rfl

end Over

end Machine

namespace Exec

variable {α β : Type}

/-- On top of any memory the step succeeds as it does without, and on top of what it leaves it fails
as it does without. -/
def Repeats (step : Exec α) : Prop :=
  ∀ left μ ν : Machine, left.Over μ ν →
    (∀ a μ', step μ = .ok a μ' → ∃ ν', step ν = .ok a ν' ∧ left.Over μ' ν') ∧
    ∀ e μ', step μ = .error e μ' → left.SameMemory μ' → ∃ ν', step ν = .error e ν' ∧ left.Over μ' ν'

theorem Repeats.bind {x : Exec α} {f : α → Exec β} (hx : Repeats x) (hf : ∀ a, Repeats (f a)) :
    Repeats (x >>= f) := by
  intro left μ ν h
  obtain ⟨hok, herror⟩ := hx left μ ν h
  cases hs : x μ with
  | ok a μ₁ =>
    obtain ⟨ν₁, hs', h₁⟩ := hok a μ₁ hs
    rw [bind_apply, bind_apply, hs, hs']
    exact hf a left μ₁ ν₁ h₁
  | error e μ₁ =>
    refine ⟨fun a μ' he => ?_, fun e' μ' he hl => ?_⟩
    · rw [bind_apply, hs] at he
      cases he
    · rw [bind_apply, hs] at he
      cases he
      obtain ⟨ν₁, hs', h₁⟩ := herror _ _ hs hl
      exact ⟨ν₁, by rw [bind_apply, hs'], h₁⟩

theorem repeats_pure (a : α) : Repeats (pure a) := by
  refine fun left μ ν h => ⟨fun b μ' he => ?_, nofun⟩
  cases he
  exact ⟨ν, rfl, h⟩

theorem repeats_throw (e : MachineFault) : Repeats (throw e : Exec α) := by
  refine fun left μ ν h => ⟨nofun, fun e' μ' he _ => ?_⟩
  cases he
  exact ⟨ν, rfl, h⟩

/-- A value that was missing is still missing at the end, so it is missing there too. -/
theorem repeats_read (v : Value) : Repeats (read v) := by
  intro left μ ν h
  have hv := h.values v.index
  rw [read_apply, read_apply, hv]
  cases hμ : μ.values[v.index]? with
  | some s =>
    refine ⟨fun a μ' he => ?_, nofun⟩
    cases he
    exact ⟨ν, rfl, h⟩
  | none =>
    refine ⟨nofun, fun e μ' he hl => ?_⟩
    cases he
    rw [hl.values, hμ]
    exact ⟨ν, rfl, h⟩

theorem repeats_define (v : Value) (s : Scalar) : Repeats (define v s) := by
  refine fun left μ ν h => ⟨fun a μ' he => ?_, nofun⟩
  cases he
  exact ⟨ν.define v s, rfl, h.define v s⟩

theorem repeats_readSlot (slot : Nat) : Repeats (readSlot slot) := by
  intro left μ ν h
  rw [readSlot_apply, readSlot_apply, h.slots slot]
  rcases hμ : μ.slots[slot]? with _ | _ | s
  · refine ⟨nofun, fun e μ' he _ => ?_⟩
    cases he
    exact ⟨ν, rfl, h⟩
  · refine ⟨nofun, fun e μ' he hl => ?_⟩
    cases he
    rw [hl.slots, hμ]
    exact ⟨ν, rfl, h⟩
  · refine ⟨fun a μ' he => ?_, nofun⟩
    cases he
    exact ⟨ν, rfl, h⟩

theorem repeats_writeSlot (slot : Nat) (s : Scalar) : Repeats (writeSlot slot s) := by
  intro left μ ν h
  by_cases hs : slot < μ.slots.length
  · rw [writeSlot_of_lt hs, writeSlot_of_lt (h.slots_length ▸ hs)]
    refine ⟨fun a μ' he => ?_, nofun⟩
    cases he
    exact ⟨ν.fill slot s, rfl, h.fill slot s⟩
  · rw [writeSlot_of_not_lt hs, writeSlot_of_not_lt (h.slots_length ▸ hs)]
    refine ⟨nofun, fun e μ' he _ => ?_⟩
    cases he
    exact ⟨ν, rfl, h⟩

theorem repeats_write (text : String) : Repeats (write text) := by
  intro left μ ν h
  have hafter :
      left.Over { μ with sink := (μ.sink.write text).2 } { ν with sink := (μ.sink.write text).2 } :=
    ⟨h.values, h.slots, rfl⟩
  rw [write_apply, write_apply, h.sink]
  by_cases hfits : (Writer.write μ.sink text).1
  · rw [if_pos hfits, if_pos hfits]
    refine ⟨fun a μ' he => ?_, nofun⟩
    cases he
    exact ⟨_, rfl, hafter⟩
  · rw [if_neg hfits, if_neg hfits]
    refine ⟨nofun, fun e μ' he _ => ?_⟩
    cases he
    exact ⟨_, rfl, hafter⟩

/-- **Everything that a machine does can be repeated** on top of what it leaves. -/
theorem repeats : Compositional Repeats where
  pure := repeats_pure
  malformed _ := repeats_throw _
  limit _ := repeats_throw _
  bind := Repeats.bind
  read := repeats_read
  define := repeats_define
  readSlot := repeats_readSlot
  writeSlot := repeats_writeSlot
  write := repeats_write

/-! ## The number of slots -/

/-- Whatever the outcome, there are as many slots as before. -/
def KeepsSlots (step : Exec α) : Prop := ∀ μ, (after (step μ)).slots.length = μ.slots.length

theorem KeepsSlots.bind {x : Exec α} {f : α → Exec β} (hx : KeepsSlots x)
    (hf : ∀ a, KeepsSlots (f a)) : KeepsSlots (x >>= f) := by
  intro μ
  have h := hx μ
  rw [bind_apply]
  cases hs : x μ with
  | ok a μ₁ =>
    rw [hs] at h
    exact (hf a μ₁).trans h
  | error e μ₁ =>
    rw [hs] at h
    exact h

theorem keepsSlots_writeSlot (slot : Nat) (s : Scalar) : KeepsSlots (writeSlot slot s) := by
  intro μ
  by_cases hs : slot < μ.slots.length
  · rw [writeSlot_of_lt hs]
    exact List.length_set
  · rw [writeSlot_of_not_lt hs]
    rfl

theorem keepsSlots : Compositional KeepsSlots where
  pure _ _ := rfl
  malformed _ _ := rfl
  limit _ _ := rfl
  bind := KeepsSlots.bind
  read v μ := by rw [read_apply]; cases μ.values[v.index]? <;> rfl
  define _ _ _ := rfl
  readSlot slot μ := by rw [readSlot_apply]; rcases μ.slots[slot]? with _ | _ | s <;> rfl
  writeSlot := keepsSlots_writeSlot
  write text μ := by rw [write_apply]; split <;> rfl

end Exec

namespace Module

/-- A new machine on top of what its run leaves is any machine with that memory. -/
theorem machine_over {m : Module} {left ν : Machine} (hn : left.slots.length = m.graph.slots.length)
    (hl : left.SameMemory ν) (sink : Sink) :
    left.Over { m.machine with sink } { ν with sink } := by
  refine ⟨fun i => ?_, fun i => ?_, rfl⟩
  · show ν.values[i]? = m.machine.values[i]?.or left.values[i]?
    rw [show m.machine.values[i]? = none from Std.TreeMap.getElem?_emptyc, Option.none_or,
      hl.values]
  · show ν.slots[i]? = (m.graph.slots.map fun _ => none)[i]?.map _
    rw [List.getElem?_map, Option.map_map, ← hl.slots]
    by_cases hi : i < left.slots.length
    · rw [List.getElem?_eq_getElem hi, List.getElem?_eq_getElem (hn ▸ hi)]
      rfl
    · rw [List.getElem?_eq_none (Nat.not_lt.mp hi), List.getElem?_eq_none (hn ▸ Nat.not_lt.mp hi)]
      rfl

/-- A run on what the first run left is like the first one, and leaves the same. -/
theorem runOn_again {m : Module} {limit : Nat} {capacity? : Option Nat} {ν : Machine}
    (h : (m.runOn limit capacity? m.machine).2.SameMemory ν) :
    (m.runOn limit capacity? ν).1 = m.run limit capacity? ∧
      (m.runOn limit capacity? m.machine).2.SameMemory (m.runOn limit capacity? ν).2 := by
  unfold run
  rw [runOn_eq] at h ⊢
  rw [runOn_eq]
  dsimp only at h ⊢
  have hslots := Exec.keepsSlots.exec m limit { m.machine with sink := .ofCapacity capacity? }
  have hrepeats := Exec.repeats.exec m limit _ _ _
    (machine_over (hslots.trans (List.length_map _)) h (.ofCapacity capacity?))
  cases hr : m.exec limit { m.machine with sink := Sink.ofCapacity capacity? } with
  | ok code μ =>
    rw [hr] at hrepeats
    obtain ⟨ν', he, hover⟩ := hrepeats.1 code μ rfl
    rw [he]
    exact ⟨congrArg (Transcript.mk _ ·.written) hover.sink, hover.sameMemory (.refl μ)⟩
  | error e μ =>
    rw [hr] at hrepeats
    obtain ⟨ν', he, hover⟩ := hrepeats.2 e μ rfl (.refl μ)
    rw [he]
    exact ⟨congrArg (Transcript.mk _ ·.written) hover.sink, hover.sameMemory (.refl μ)⟩

theorem runsOn_succ (m : Module) (limit : Nat) (capacity? : Option Nat) (count : Nat)
    (μ : Machine) :
    m.runsOn limit capacity? (count + 1) μ =
      (m.runOn limit capacity? μ).1 ::
        m.runsOn limit capacity? count (m.runOn limit capacity? μ).2 := rfl

theorem runsOn_again {m : Module} {limit : Nat} {capacity? : Option Nat} (count : Nat) {ν : Machine}
    (h : (m.runOn limit capacity? m.machine).2.SameMemory ν) :
    m.runsOn limit capacity? count ν = List.replicate count (m.run limit capacity?) := by
  induction count generalizing ν with
  | zero => rfl
  | succ count ih =>
    obtain ⟨hrun, hleft⟩ := runOn_again h
    rw [runsOn_succ, hrun, ih hleft, List.replicate_succ]

/-- **All runs of one machine are the same.** However often a module is run by one machine, into
sinks of the same capacity, each run ends as the first one and writes the same, although the machine
keeps the values and slots of the runs before. -/
theorem runsOn_eq_replicate (m : Module) (limit : Nat) (capacity? : Option Nat) (count : Nat) :
    m.runsOn limit capacity? count m.machine = List.replicate count (m.run limit capacity?) := by
  cases count with
  | zero => rfl
  | succ count =>
    rw [runsOn_succ, runsOn_again count (.refl _), List.replicate_succ]
    rfl

end Module

end FlowLang
