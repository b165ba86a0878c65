import FlowLang.Proofs.Writers

/-!
# Runs into a sink that fills up

A sink with a capacity keeps the beginning of what is written, and fails at the first write that
does not fit. Nothing in a run (`run`) depends on the sink before that.

* `Exec.Truncates n step`: `step` with a capacity of `n` bytes does what it does without one, or it
  fails and has kept the first `n` bytes.
* **`Module.runOn_truncated`**: so the output of a run into such a sink is the beginning of that of
  the run into an unlimited one.
-/

namespace FlowLang

/-- The machine with a capacity for its sink. -/
def Machine.cap (n : Nat) (μ : Machine) : Machine := { μ with sink := ⟨some n, μ.sink.written⟩ }

theorem Machine.cap_values (n : Nat) (μ : Machine) : (μ.cap n).values = μ.values := rfl

theorem Machine.cap_slots (n : Nat) (μ : Machine) : (μ.cap n).slots = μ.slots := rfl

namespace Exec

variable {α β : Type} {n : Nat}

/-- The outcome with a capacity, and the outcome without one: they are the same, or the output of
the second one does not fit. -/
inductive Cut (n : Nat) : EStateM.Result MachineFault Machine α →
    EStateM.Result MachineFault Machine α → Prop
  | ok {a : α} {μ : Machine} (hs : μ.sink.capacity? = none) (hn : μ.sink.written.size ≤ n) :
      Cut n (.ok a (μ.cap n)) (.ok a μ)
  | error {e : MachineFault} {μ : Machine} (hs : μ.sink.capacity? = none)
      (hn : μ.sink.written.size ≤ n) : Cut n (.error e (μ.cap n)) (.error e μ)
  | full {μ : Machine} {r : EStateM.Result MachineFault Machine α}
      (hn : n < (after r).sink.written.size)
      (hw : μ.sink.written = (after r).sink.written.extract 0 n) : Cut n (.error .outputFull μ) r

/-- A capacity only cuts the output of the step off. -/
structure Truncates (n : Nat) (step : Exec α) : Prop where
  appends : Appends step
  cut : ∀ μ : Machine, μ.sink.capacity? = none → μ.sink.written.size ≤ n →
    Cut n (step (μ.cap n)) (step μ)

/-- The first bytes do not change if more is added after them. -/
theorem extract_append_of_le {written more : ByteArray} (h : n ≤ written.size) :
    (written ++ more).extract 0 n = written.extract 0 n := by
  have hempty : more.extract (0 - written.size) (n - written.size) = .empty := by
    rw [ByteArray.extract_eq_empty_iff]
    omega
  rw [ByteArray.extract_append, hempty, ByteArray.append_empty]

theorem Truncates.bind {x : Exec α} {f : α → Exec β} (hx : Truncates n x)
    (hf : ∀ a, Truncates n (f a)) : Truncates n (x >>= f) := by
  refine ⟨hx.appends.bind fun a => (hf a).appends, fun μ hs hn => ?_⟩
  have h := hx.cut μ hs hn
  rw [bind_apply, bind_apply]
  generalize x (μ.cap n) = r' at h
  generalize x μ = r at h
  cases h with
  | ok hs' hn' => exact (hf _).cut _ hs' hn'
  | error hs' hn' => exact .error hs' hn'
  | @full μ' r hn' hw =>
    cases r with
    | error e μ₁ => exact .full hn' hw
    | ok a μ₁ =>
      -- what follows only adds to an output that is too long already
      obtain ⟨more, hmore⟩ : ∃ more, (after (f a μ₁)).sink.written = μ₁.sink.written ++ more :=
        (hf a).appends μ₁
      replace hn' : n < μ₁.sink.written.size := hn'
      refine .full ?_ ?_
      · rw [hmore, ByteArray.size_append]
        omega
      · rw [hw, hmore, extract_append_of_le (Nat.le_of_lt hn')]
        rfl

theorem truncates_pure (a : α) : Truncates n (pure a) :=
  ⟨appends.pure a, fun _ hs hn => .ok hs hn⟩

theorem truncates_throw (e : MachineFault) : Truncates n (throw e : Exec α) :=
  ⟨appends_of_sink fun _ => rfl, fun _ hs hn => .error hs hn⟩

theorem truncates_modify {f : Machine → Machine} (hc : ∀ μ : Machine, f (μ.cap n) = (f μ).cap n)
    (hf : ∀ μ, (f μ).sink = μ.sink) : Truncates n (modify f : Exec Unit) := by
  refine ⟨appends_of_sink hf, fun μ hs hn => ?_⟩
  show Cut n (.ok () (f (μ.cap n))) (.ok () (f μ))
  rw [hc]
  exact .ok (by rwa [hf]) (by rwa [hf])

theorem truncates_read (v : Value) : Truncates n (read v) := by
  refine ⟨appends.read v, fun μ hs hn => ?_⟩
  rw [read_apply, read_apply, Machine.cap_values]
  cases μ.values[v.index]? with
  | some s => exact .ok hs hn
  | none => exact .error hs hn

theorem truncates_define (v : Value) (s : Scalar) : Truncates n (define v s) :=
  truncates_modify (fun _ => rfl) fun _ => rfl

theorem truncates_readSlot (slot : Nat) : Truncates n (readSlot slot) := by
  refine ⟨appends.readSlot slot, fun μ hs hn => ?_⟩
  rw [readSlot_apply, readSlot_apply, Machine.cap_slots]
  rcases μ.slots[slot]? with _ | _ | s
  · exact .error hs hn
  · exact .error hs hn
  · exact .ok hs hn

theorem truncates_writeSlot (slot : Nat) (s : Scalar) : Truncates n (writeSlot slot s) := by
  refine ⟨appends.writeSlot slot s, fun μ hs hn => ?_⟩
  show Cut n ((if slot < μ.slots.length then modify _ else malformed _ : Exec Unit) (μ.cap n))
    ((if slot < μ.slots.length then modify _ else malformed _ : Exec Unit) μ)
  by_cases h : slot < μ.slots.length
  · rw [if_pos h]
    exact truncates_modify (f := (·.fill slot s)) (fun _ => rfl) (fun _ => rfl) |>.cut μ hs hn
  · rw [if_neg h]
    exact .error hs hn

theorem truncates_write (text : String) : Truncates n (write text) := by
  refine ⟨appends.write text, fun μ hs hn => ?_⟩
  obtain ⟨values, slots, ⟨_, written⟩⟩ := μ
  cases hs
  rw [write_apply, write_apply]
  show Cut n (if decide (text.toUTF8.size ≤ n - written.size) then _ else _)
    (.ok () ⟨values, slots, ⟨none, written ++ text.toUTF8⟩⟩)
  replace hn : written.size ≤ n := hn
  by_cases h : text.toUTF8.size ≤ n - written.size
  · -- all of it fits
    have hcut : Cut n (.ok () (Machine.cap n ⟨values, slots, ⟨none, written ++ text.toUTF8⟩⟩))
        (.ok () ⟨values, slots, ⟨none, written ++ text.toUTF8⟩⟩) := by
      refine .ok rfl ?_
      show (written ++ text.toUTF8).size ≤ n
      rw [ByteArray.size_append]
      omega
    rw [if_pos (decide_eq_true h)]
    show Cut n
      (.ok () ⟨values, slots, ⟨some n, written ++ text.toUTF8.extract 0 (n - written.size)⟩⟩)
      _
    rw [extract_of_le h]
    exact hcut
  · rw [if_neg (by simpa using h)]
    refine .full ?_ ?_
    · show n < (written ++ text.toUTF8).size
      rw [ByteArray.size_append]
      omega
    · show written ++ text.toUTF8.extract 0 (n - written.size) =
        (written ++ text.toUTF8).extract 0 n
      rw [ByteArray.extract_append, extract_of_le hn, Nat.zero_sub]

/-- **A capacity only cuts the output off**, whatever the machine does. -/
theorem truncates : Compositional (Truncates n) where
  pure := truncates_pure
  malformed _ := truncates_throw _
  limit _ := truncates_throw _
  bind := Truncates.bind
  read := truncates_read
  define := truncates_define
  readSlot := truncates_readSlot
  writeSlot := truncates_writeSlot
  write := truncates_write

/-! ## Sinks without capacity -/

/-- A sink without capacity stays one, and the step does not fail for want of space. -/
def Unhindered (step : Exec α) : Prop :=
  ∀ μ : Machine, μ.sink.capacity? = none →
    (after (step μ)).sink.capacity? = none ∧ ∀ μ', step μ ≠ .error .outputFull μ'

theorem Unhindered.bind {x : Exec α} {f : α → Exec β} (hx : Unhindered x)
    (hf : ∀ a, Unhindered (f a)) : Unhindered (x >>= f) := by
  intro μ hs
  obtain ⟨hs₁, hne⟩ := hx μ hs
  rw [bind_apply]
  cases hr : x μ with
  | ok a μ₁ =>
    rw [hr] at hs₁
    exact hf a μ₁ hs₁
  | error e μ₁ =>
    rw [hr] at hs₁ hne
    refine ⟨hs₁, fun μ' he => hne μ₁ ?_⟩
    cases he
    rfl

theorem unhindered_write (text : String) : Unhindered (write text) := by
  rintro ⟨values, slots, ⟨_, written⟩⟩ ⟨⟩
  rw [write_apply]
  exact ⟨rfl, nofun⟩

/-- **A sink without capacity never fails.** -/
theorem unhindered : Compositional Unhindered where
  pure _ _ hs := ⟨hs, nofun⟩
  malformed _ _ hs := ⟨hs, nofun⟩
  limit _ _ hs := ⟨hs, nofun⟩
  bind := Unhindered.bind
  read v μ hs := by
    rw [read_apply]
    cases μ.values[v.index]? <;> exact ⟨hs, nofun⟩
  define _ _ _ hs := ⟨hs, nofun⟩
  readSlot slot μ hs := by
    rw [readSlot_apply]
    rcases μ.slots[slot]? with _ | _ | s <;> exact ⟨hs, nofun⟩
  writeSlot slot s μ hs := by
    by_cases h : slot < μ.slots.length
    · rw [writeSlot_of_lt h]
      exact ⟨hs, nofun⟩
    · rw [writeSlot_of_not_lt h]
      exact ⟨hs, nofun⟩
  write := unhindered_write

/-! ## Runs -/

/-- What is seen of a run whose output was cut off after `n` bytes. -/
theorem Cut.transcript {r' r : EStateM.Result MachineFault Machine Int} (h : Cut n r' r) :
    (Module.transcript r').output = (Module.transcript r).output.extract 0 n ∧
    (Module.transcript r').result =
      if n < (Module.transcript r).output.size then .error .outputFull
      else (Module.transcript r).result := by
  cases h with
  | ok hs hn => exact ⟨(extract_of_le hn).symm, (if_neg (Nat.not_lt.mpr hn)).symm⟩
  | error hs hn => exact ⟨(extract_of_le hn).symm, (if_neg (Nat.not_lt.mpr hn)).symm⟩
  | full hn hw =>
    cases r with
    | ok code μ => exact ⟨hw, (if_pos hn).symm⟩
    | error e μ => exact ⟨hw, (if_pos hn).symm⟩

end Exec

namespace Module

/-- Whatever a machine holds, its run into a sink with a capacity is a cut of that into an unlimited
one. -/
theorem exec_cut (m : Module) (limit n : Nat) (μ : Machine) :
    Exec.Cut n (m.exec limit { μ with sink := Sink.ofCapacity (some n) })
      (m.exec limit { μ with sink := Sink.ofCapacity none }) :=
  (Exec.truncates.exec m limit).cut { μ with sink := .ofCapacity none } rfl (Nat.zero_le n)

/-- A run into a sink with a capacity keeps the beginning of the output, and ends as the run into an
unlimited sink if all of the output fits. -/
theorem runOn_ofCapacity (m : Module) (limit n : Nat) (μ : Machine) :
    (m.runOn limit (some n) μ).1.output = (m.runOn limit none μ).1.output.extract 0 n ∧
    (m.runOn limit (some n) μ).1.result =
      if n < (m.runOn limit none μ).1.output.size then .error .outputFull
      else (m.runOn limit none μ).1.result := by
  rw [runOn_eq, runOn_eq]
  exact (m.exec_cut limit n μ).transcript

/-- A run into a sink that never fails does not fail for want of space. -/
theorem runOn_ne_full (m : Module) (limit : Nat) (μ : Machine) :
    (m.runOn limit none μ).1.result ≠ .error .outputFull := by
  obtain ⟨-, hne⟩ := Exec.unhindered.exec m limit { μ with sink := Sink.ofCapacity none } rfl
  rw [runOn_eq]
  cases hr : m.exec limit { μ with sink := Sink.ofCapacity none } with
  | ok code μ' => exact nofun
  | error e μ' =>
    intro he
    cases he
    exact hne μ' hr

/-- **A sink that fills up only cuts the output off.** Whatever a machine holds, let its run into a
sink that never fails write the bytes `whole.output`. Into a sink for `n` bytes the same run writes
the first `n` of them, or all if there are fewer. It fails for want of space if there are more, and
otherwise ends in the same way, which is not for want of space. -/
theorem runOn_truncated (m : Module) (limit n : Nat) (μ : Machine) :
    let whole := (m.runOn limit none μ).1
    let kept := (m.runOn limit (some n) μ).1
    whole.result ≠ .error .outputFull ∧
    kept.output = whole.output.extract 0 (min n whole.output.size) ∧
    (whole.output.size > n → kept.result = .error .outputFull) ∧
    (whole.output.size ≤ n → kept.result = whole.result) := by
  intro whole kept
  obtain ⟨ho, hr⟩ : kept.output = whole.output.extract 0 n ∧
      kept.result = if n < whole.output.size then .error .outputFull else whole.result :=
    m.runOn_ofCapacity limit n μ
  refine ⟨m.runOn_ne_full limit μ, ?_, fun hn => ?_, fun hn => ?_⟩
  · rw [ho]
    by_cases hn : n ≤ whole.output.size
    · rw [Nat.min_eq_left hn]
    · rw [Nat.min_eq_right (Nat.le_of_not_le hn), extract_of_le (Nat.le_of_not_le hn),
        extract_of_le (Nat.le_refl _)]
  · rw [hr, if_pos hn]
  · rw [hr, if_neg (Nat.not_lt.mpr hn)]

end Module

end FlowLang
