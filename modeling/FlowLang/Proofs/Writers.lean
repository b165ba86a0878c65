import FlowLang.Proofs.MachineSteps

/-!
# Runs into different writers

A run (`run`) looks at its writer only to see whether a write went well. So as long as the writer
accepts what it is given, the run is the same as into any other writer that accepts it.

* `Exec.Shadows Rel`: the relation between the steps of a machine and those of a second one whose
  writer goes along with that of the first: where the first does not fail for want of output, the
  second does the same.
* **`Module.runInto_of_ne_full`**: so a run into any writer that does not fail for want of output
  ends as the run into an unlimited sink does, and has written the same if its writer is faithful.
-/

namespace FlowLang

/-- What the writer says that it took, it has taken in full. -/
def Writer.Faithful (W : Type) [Writer W] : Prop :=
  ∀ (w : W) (text : String), (Writer.write w text).1 →
    Writer.written (Writer.write w text).2 = Writer.written w ++ text.toUTF8

theorem extract_of_le {n : Nat} {bytes : ByteArray} (h : bytes.size ≤ n) :
    bytes.extract 0 n = bytes := by
  have he : bytes.extract 0 (max n bytes.size) = bytes := ByteArray.extract_zero_max_size
  rwa [Nat.max_eq_left h] at he

theorem Sink.faithful : Writer.Faithful Sink := by
  rintro ⟨_ | n, written⟩ text h
  · rfl
  · have hfits : text.toUTF8.size ≤ n - written.size := of_decide_eq_true h
    show written ++ text.toUTF8.extract 0 (n - written.size) = written ++ text.toUTF8
    rw [extract_of_le hfits]

namespace Exec

variable {V W : Type} {Rel : W → V → Prop} {α β : Type}

/-- Whatever the first of two related writers takes, the second one takes, and they stay related. -/
def GoesAlong [Writer V] [Writer W] (Rel : W → V → Prop) : Prop :=
  ∀ w v text, Rel w v → (Writer.write w text).1 →
    (Writer.write v text).1 ∧ Rel (Writer.write w text).2 (Writer.write v text).2

/-- Two outcomes that differ in nothing but the writers, unless the first one is for want of
output. -/
inductive Follows (Rel : W → V → Prop) : EStateM.Result MachineFault (Machine W) α →
    EStateM.Result MachineFault (Machine V) α → Prop
  | ok {w : W} {v : V} (a : α) (values : Std.TreeMap Nat Scalar) (slots : List (Option Scalar))
      (h : Rel w v) : Follows Rel (.ok a ⟨values, slots, w⟩) (.ok a ⟨values, slots, v⟩)
  | error {w : W} {v : V} (e : MachineFault) (values : Std.TreeMap Nat Scalar)
      (slots : List (Option Scalar)) (h : Rel w v) :
      Follows Rel (.error e ⟨values, slots, w⟩) (.error e ⟨values, slots, v⟩)
  | full (μ : Machine W) (r : EStateM.Result MachineFault (Machine V) α) :
      Follows Rel (.error .outputFull μ) r

/-- The second step follows the first, whatever the machines hold. -/
def Shadows (Rel : W → V → Prop) (x : ExecInto W α) (y : ExecInto V α) : Prop :=
  ∀ values slots w v, Rel w v → Follows Rel (x ⟨values, slots, w⟩) (y ⟨values, slots, v⟩)

theorem Shadows.bind {x : ExecInto W α} {y : ExecInto V α} {f : α → ExecInto W β}
    {g : α → ExecInto V β} (hx : Shadows Rel x y) (hf : ∀ a, Shadows Rel (f a) (g a)) :
    Shadows Rel (x >>= f) (y >>= g) := by
  intro values slots w v hw
  have h := hx values slots w v hw
  rw [bind_apply, bind_apply]
  generalize x ⟨values, slots, w⟩ = r at h
  generalize y ⟨values, slots, v⟩ = r' at h
  cases h with
  | ok a values' slots' hw' => exact hf a values' slots' _ _ hw'
  | error e values' slots' hw' => exact .error e values' slots' hw'
  | full μ r => exact .full μ _

theorem shadows_read (v : Value) : Shadows Rel (read v) (read v) := by
  intro values slots w w' hw
  rw [read_apply, read_apply]
  dsimp only
  cases values[v.index]? with
  | some s => exact .ok s values slots hw
  | none => exact .error _ values slots hw

theorem shadows_readSlot (slot : Nat) : Shadows Rel (readSlot slot) (readSlot slot) := by
  intro values slots w v hw
  rw [readSlot_apply, readSlot_apply]
  dsimp only
  rcases slots[slot]? with _ | _ | s
  · exact .error _ values slots hw
  · exact .error _ values slots hw
  · exact .ok s values slots hw

theorem shadows_writeSlot (slot : Nat) (s : Scalar) :
    Shadows Rel (writeSlot slot s) (writeSlot slot s) := by
  intro values slots w v hw
  by_cases h : slot < slots.length
  · rw [writeSlot_of_lt h, writeSlot_of_lt h]
    exact .ok () values _ hw
  · rw [writeSlot_of_not_lt h, writeSlot_of_not_lt h]
    exact .error _ values slots hw

variable [Writer V] [Writer W]

theorem shadows_write (h : GoesAlong Rel) (text : String) :
    Shadows Rel (write text) (write text) := by
  intro values slots w v hw
  rw [write_apply, write_apply]
  by_cases hfits : (Writer.write w text).1
  · obtain ⟨hfits', hw'⟩ := h w v text hw hfits
    rw [if_pos hfits, if_pos hfits']
    exact .ok () values slots hw'
  · rw [if_neg hfits]
    exact .full _ _

/-- **A run does nothing with its writer but write.** -/
theorem shadows (h : GoesAlong Rel) : CoupledRuns (W := W) (V := V) (Shadows Rel) where
  pure a values slots _ _ hw := .ok a values slots hw
  malformed _ values slots _ _ hw := .error _ values slots hw
  limit _ values slots _ _ hw := .error _ values slots hw
  bind := Shadows.bind
  read := shadows_read
  define _ _ _ slots _ _ hw := .ok () _ slots hw
  readSlot := shadows_readSlot
  writeSlot := shadows_writeSlot
  write := shadows_write h

/-- A sink that goes along with a writer which had taken `before`. -/
def Copy (before : ByteArray) (w : W) (s : Sink) : Prop :=
  s.capacity? = none ∧ (Writer.Faithful W → Writer.written w = before ++ s.written)

theorem copy_goesAlong (before : ByteArray) : GoesAlong (Copy (W := W) before) := by
  rintro w ⟨_, written⟩ text ⟨rfl, hw⟩ hfits
  refine ⟨rfl, rfl, fun hf => ?_⟩
  rw [hf w text hfits, hw hf]
  exact ByteArray.append_assoc

end Exec

namespace Module

variable {W : Type} [Writer W]

/-- **A run that does not fail for want of output is the run into an unlimited sink**, and its
writer has taken the same if it is faithful. -/
theorem runInto_of_ne_full {m : Module} {limit : Nat} {w : W}
    (h : (m.runInto limit w).result ≠ .error .outputFull) :
    (m.runInto limit w).result = (m.run limit none).result ∧
    (Writer.Faithful W →
      (m.runInto limit w).output = Writer.written w ++ (m.run limit none).output) := by
  have hcopy : Exec.Copy (Writer.written w) w Sink.unlimited :=
    ⟨rfl, fun _ => ByteArray.append_empty.symm⟩
  have hf := (Exec.shadows (Exec.copy_goesAlong (Writer.written w))).exec m limit ∅
    (m.graph.slots.map fun _ => none) w Sink.unlimited hcopy
  have hrun : m.run limit none = transcript (m.exec limit (m.machineInto Sink.unlimited)) :=
    congrArg Prod.fst (m.runFrom_eq limit _)
  rw [hrun]
  unfold runInto at h ⊢
  rw [runFrom_eq] at h ⊢
  change Exec.Follows _ (m.exec limit (m.machineInto w)) (m.exec limit (m.machineInto _)) at hf
  generalize m.exec limit (m.machineInto w) = r at hf h ⊢
  generalize m.exec limit (m.machineInto Sink.unlimited) = r' at hf ⊢
  cases hf with
  | ok code values slots hw => exact ⟨rfl, hw.2⟩
  | error e values slots hw => exact ⟨rfl, hw.2⟩
  | full μ r => exact absurd rfl h

/-- How a run ends whatever it writes to: as into an unlimited sink, or for want of output. -/
theorem result_runInto (m : Module) (limit : Nat) (w : W) :
    (m.runInto limit w).result = .error .outputFull ∨
      (m.runInto limit w).result = (m.run limit none).result := by
  by_cases h : (m.runInto limit w).result = .error .outputFull
  · exact .inl h
  · exact .inr (runInto_of_ne_full h).1

end Module

end FlowLang
