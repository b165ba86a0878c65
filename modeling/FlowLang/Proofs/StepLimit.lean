import FlowLang.Proofs.MachineSteps

/-!
# The limit on steps

A limit (`with_step_limit`) cuts a run off, and makes no other difference to it. This holds of every
module, of every machine, and of everything that output can go to.

* `Exec.unlimited`: no instruction and no terminator reports the limit by itself.
* `Module.Takes`: how many instructions and terminators a run executes, and what is then seen of it.
* `Module.runFrom_ended_or_cut`: a run is settled from some limit on, or every limit cuts it off.
* **`Module.runFrom_limit`**: the limit is a sharp cut, and a larger one only adds output.
-/

namespace FlowLang

namespace Exec

variable {W : Type} {α β : Type}

/-- The step does not report the limit. -/
def Unlimited (step : ExecInto W α) : Prop := ∀ μ limit μ', step μ ≠ .error (.stepLimit limit) μ'

theorem Unlimited.bind {x : ExecInto W α} {f : α → ExecInto W β} (hx : Unlimited x)
    (hf : ∀ a, Unlimited (f a)) : Unlimited (x >>= f) := by
  intro μ limit μ'
  rw [bind_apply]
  cases hr : x μ with
  | ok a μ₁ => exact hf a μ₁ limit μ'
  | error e μ₁ =>
    intro he
    cases he
    exact hx μ limit μ' hr

/-- **Only a run reports the limit**, and no instruction or terminator of it. -/
theorem unlimited [Writer W] : Stepwise (W := W) Unlimited where
  pure _ _ _ _ := nofun
  malformed _ _ _ _ := nofun
  bind := Unlimited.bind
  read v μ limit μ' := by
    rw [read_apply]
    cases μ.values[v.index]? <;> exact nofun
  define _ _ _ _ _ := nofun
  readSlot slot μ limit μ' := by
    rw [readSlot_apply]
    rcases μ.slots[slot]? with _ | _ | s <;> exact nofun
  writeSlot slot s μ limit μ' := by
    by_cases h : slot < μ.slots.length
    · rw [writeSlot_of_lt h]
      exact nofun
    · rw [writeSlot_of_not_lt h]
      exact nofun
  write text μ limit μ' := by
    rw [write_apply]
    split <;> exact nofun

end Exec

namespace Module

variable {W : Type} [Writer W] {m : Module} {μ : Machine W} {c : Config W}

theorem step_ne_limit (m : Module) (c : Config W) (limit : Nat) (machine : Machine W) :
    m.step c ≠ .ended (.error (.stepLimit limit)) machine := by
  obtain ⟨block, rest, μ⟩ := c
  unfold step
  cases rest with
  | cons i rest =>
    have hi := Exec.unlimited.instr m i μ
    dsimp only
    cases hr : Exec.instr m i μ with
    | ok u μ' => exact nofun
    | error e μ' =>
      intro he
      cases he
      exact hi _ _ hr
  | nil =>
    have hl := Exec.unlimited.leave block μ
    dsimp only
    cases hr : Exec.leave block μ with
    | error e μ' =>
      intro he
      cases he
      exact hl _ _ hr
    | ok next μ' =>
      cases next with
      | stop code => exact nofun
      | block index =>
        dsimp only
        cases m.graph.blocks[index]? <;> exact nofun

/-! ## Counting -/

/-- With the limit, the run of the machine executes `k` instructions and terminators, and then shows
the transcript. The step that ends a run counts, whether it returns or fails. -/
inductive Takes (m : Module) (limit : Nat) (μ : Machine W) : Nat → Transcript → Prop
  | unstarted (h : m.startFrom? μ = none) :
      Takes m limit μ 0 ⟨.error (.malformed (.unknownBlock 0)), Writer.written μ.sink⟩
  | cut {c c' : Config W} (h : m.startFrom? μ = some c) (hs : m.Steps limit c c') :
      Takes m limit μ limit ⟨.error (.stepLimit limit), Writer.written c'.machine.sink⟩
  | ended {k : Nat} {c c' : Config W} {result : Except MachineFault Int} {machine : Machine W}
      (h : m.startFrom? μ = some c) (hs : m.Steps k c c') (he : m.step c' = .ended result machine) :
      Takes m limit μ (k + 1) ⟨result, Writer.written machine.sink⟩

/-- **A run executes no more than its limit.** -/
theorem exists_takes (m : Module) (limit : Nat) (μ : Machine W) :
    ∃ k ≤ limit, m.Takes limit μ k (m.runFrom limit μ).1 := by
  cases hstart : m.startFrom? μ with
  | none =>
    rw [runFrom_of_none hstart]
    exact ⟨0, Nat.zero_le limit, .unstarted hstart⟩
  | some c =>
    rcases m.steps_or_ended limit c with ⟨c', hs⟩ | ⟨j, c', result, machine, hj, hs, he⟩
    · rw [runFrom_of_steps hstart hs]
      exact ⟨limit, Nat.le_refl limit, .cut hstart hs⟩
    · rw [runFrom_of_ended hstart hs he hj]
      exact ⟨j + 1, hj, .ended hstart hs he⟩

/-! ## Two limits -/

/-- A run that ends after `k` steps is cut off by every limit up to `k`, with the output so far. -/
theorem runFrom_of_le {k limit : Nat} {c' : Config W} (h : m.startFrom? μ = some c)
    (hs : m.Steps k c c') (hl : limit ≤ k) :
    (m.runFrom limit μ).1.result = .error (.stepLimit limit) ∧
      ∃ more, Writer.written c'.machine.sink = (m.runFrom limit μ).1.output ++ more := by
  obtain ⟨j, rfl⟩ := Nat.exists_eq_add_of_le hl
  obtain ⟨c₁, h₁, h₂⟩ := hs.split
  rw [runFrom_of_steps h h₁]
  exact ⟨rfl, h₂.written⟩

/-- From some limit on the run ends in the same way and by itself, or every limit cuts it off. -/
theorem runFrom_ended_or_cut (m : Module) (μ : Machine W) :
    (∃ k t, (∀ limit, t.result ≠ .error (.stepLimit limit)) ∧
      (∀ limit ≥ k, (m.runFrom limit μ).1 = t) ∧
      ∀ limit < k, (m.runFrom limit μ).1.result = .error (.stepLimit limit)) ∨
    ∀ limit, (m.runFrom limit μ).1.result = .error (.stepLimit limit) := by
  cases hstart : m.startFrom? μ with
  | none =>
    refine .inl ⟨0, _, fun _ => ?_, fun limit _ => runFrom_of_none hstart limit, nofun⟩
    exact nofun
  | some c =>
    by_cases hends : ∃ k c' result machine, m.Steps k c c' ∧ m.step c' = .ended result machine
    · obtain ⟨k, c', result, machine, hs, he⟩ := hends
      refine .inl ⟨k + 1, ⟨result, Writer.written machine.sink⟩, fun limit hr => ?_,
        fun limit hl => runFrom_of_ended hstart hs he hl,
        fun limit hl => (runFrom_of_le hstart hs (Nat.le_of_lt_succ hl)).1⟩
      dsimp only at hr
      subst hr
      exact m.step_ne_limit c' limit machine he
    · refine .inr fun limit => ?_
      rcases m.steps_or_ended limit c with ⟨c', hs⟩ | ⟨j, c', result, machine, -, hs, he⟩
      · exact (runFrom_of_le hstart hs (Nat.le_refl limit)).1
      · exact absurd ⟨j, c', result, machine, hs, he⟩ hends

/-- A larger limit only adds output. -/
theorem output_of_le (m : Module) (μ : Machine W) {limit limit' : Nat} (hl : limit ≤ limit') :
    ∃ more, (m.runFrom limit' μ).1.output = (m.runFrom limit μ).1.output ++ more := by
  cases hstart : m.startFrom? μ with
  | none =>
    rw [runFrom_of_none hstart, runFrom_of_none hstart]
    exact ⟨.empty, ByteArray.append_empty.symm⟩
  | some c =>
    rcases m.steps_or_ended limit' c with ⟨c', hs⟩ | ⟨j, c', result, machine, hj, hs, he⟩
    · rw [runFrom_of_steps hstart hs]
      exact (runFrom_of_le hstart hs hl).2
    · rw [runFrom_of_ended hstart hs he hj]
      by_cases hjl : j < limit
      · rw [runFrom_of_ended hstart hs he hjl]
        exact ⟨.empty, ByteArray.append_empty.symm⟩
      · -- the smaller limit cuts the run off before the step that ends it
        obtain ⟨-, more, h₁⟩ := runFrom_of_le hstart hs (Nat.not_lt.mp hjl)
        obtain ⟨more', h₂⟩ := m.written_step c'
        rw [he, h₁, ByteArray.append_assoc] at h₂
        exact ⟨more ++ more', h₂⟩

/-- **The limit is a sharp cut.** Take any module, also one that makes no sense, and any machine,
whatever it holds and whatever it writes to.

* For every limit the run ends, and it has executed no more instructions and terminators than the
  limit.
* From some limit on all runs are the same, with a result that is not the limit, and every smaller
  limit cuts the run off; or every limit cuts it off.
* What is written with a limit is the beginning of what is written with a larger one. -/
theorem runFrom_limit (m : Module) (μ : Machine W) :
    (∀ limit, ∃ k ≤ limit, m.Takes limit μ k (m.runFrom limit μ).1) ∧
    ((∃ k t, (∀ limit, t.result ≠ .error (.stepLimit limit)) ∧
      (∀ limit ≥ k, (m.runFrom limit μ).1 = t) ∧
        ∀ limit < k, (m.runFrom limit μ).1.result = .error (.stepLimit limit)) ∨
      ∀ limit, (m.runFrom limit μ).1.result = .error (.stepLimit limit)) ∧
    ∀ limit limit', limit ≤ limit' →
      ∃ more, (m.runFrom limit' μ).1.output = (m.runFrom limit μ).1.output ++ more :=
  ⟨fun limit => m.exists_takes limit μ, m.runFrom_ended_or_cut μ, fun _ _ hl => m.output_of_le μ hl⟩

/-- The terminator of an empty block counts too, so an empty block that leads to itself comes to an
end. -/
example : ((⟨"m", [], ⟨"main", [], [⟨"entry", [], some (.jump 0)⟩]⟩⟩ : Module).run 5 none).result =
    .error (.stepLimit 5) := rfl

end Module

end FlowLang
