import FlowLang.Proofs.GeneratedCode

/-!
# What a run may rely on

* `Scalar.Fits`: a scalar is of a type. The text of a pointer is one of the module's strings.
* `Instr.WellFormed`, `Terminator.WellFormed`: the operands have the types that are needed, and the
  slots, strings and blocks exist.
* `Config.Sound`: the slots hold what their types say, and so do the values that the next step
  reads.

A sound step does not fail for lack of a value or because the module makes no sense, and it leaves
the slots and what it computes as their types say (`Config.Sound.instr_step`,
`Config.Sound.exit_step`).
-/

namespace FlowLang

/-- A scalar of a type. -/
inductive Scalar.Fits (strings : List String) : Scalar → Ty → Prop
  | number (x : Binary64) : Fits strings (.number x) .number
  | truth (b : Bool) : Fits strings (.truth b) .truth
  | text {id : Nat} (h : id < strings.length) : Fits strings (.text id) .pointer

/-- A scalar has one type. -/
theorem Scalar.Fits.unique {strings : List String} {s : Scalar} {ty ty' : Ty}
    (h : s.Fits strings ty) (h' : s.Fits strings ty') : ty = ty' := by
  cases h <;> cases h' <;> rfl

/-- The faults of a module that makes no sense. -/
def MachineFault.Internal : MachineFault → Prop
  | .undefinedValue _ | .malformed _ => True
  | _ => False

/-! ## Instructions and terminators -/

namespace Instr

/-- The values that an instruction reads. -/
def reads : Instr → List Value
  | .constant _ _ | .string _ _ | .load _ _ => []
  | .store _ v | .negate _ v => [v]
  | .arithmetic _ _ lhs rhs | .compare _ _ lhs rhs | .connect _ _ lhs rhs => [lhs, rhs]
  | .call _ args => args

/-- The value that an instruction computes. -/
def dest? : Instr → Option Value
  | .constant dest _ | .string dest _ | .load dest _ | .negate dest _ => some dest
  | .arithmetic dest _ _ _ | .compare dest _ _ _ | .connect dest _ _ _ => some dest
  | .store _ _ | .call _ _ => none

/-- Operands and result have the right types, slots and strings exist, and a call has its
argument. -/
def WellFormed (m : Module) : Instr → Prop
  | .constant dest _ => dest.ty = .number
  | .string dest id => dest.ty = .pointer ∧ id < m.strings.length
  | .load dest slot => ∃ entry, m.graph.slots[slot]? = some entry ∧ dest.ty = entry.ty
  | .store slot v => ∃ entry, m.graph.slots[slot]? = some entry ∧ v.ty = entry.ty
  | .arithmetic dest _ lhs rhs => dest.ty = .number ∧ lhs.ty = .number ∧ rhs.ty = .number
  | .compare dest _ lhs rhs => dest.ty = .truth ∧ lhs.ty = .number ∧ rhs.ty = .number
  | .connect dest _ lhs rhs => dest.ty = .truth ∧ lhs.ty = .truth ∧ rhs.ty = .truth
  | .negate dest v => dest.ty = .truth ∧ v.ty = .truth
  | .call callee args => ∃ v, args = [v] ∧ v.ty = callee.parameter

end Instr

namespace Terminator

/-- The value that a terminator reads. -/
def reads : Terminator → List Value
  | .branch test _ _ => [test]
  | .jump _ | .ret _ => []

/-- A branch is on a truth value, and all targets exist. -/
def WellFormed (m : Module) (t : Terminator) : Prop :=
  (∀ v ∈ t.reads, v.ty = .truth) ∧ ∀ k ∈ t.successors, k < m.graph.blocks.length

end Terminator

/-! ## Machines -/

variable {W : Type}

/-- The value is there, and is of its type. -/
def Provides (m : Module) (μ : Machine W) (v : Value) : Prop :=
  ∃ s, μ.values[v.index]? = some s ∧ s.Fits m.strings v.ty

/-- Every slot is there, and what it holds is of its type. -/
def Typed (m : Module) (μ : Machine W) : Prop :=
  ∀ (i : Nat) (slot : Slot), m.graph.slots[i]? = some slot →
    ∃ content, μ.slots[i]? = some content ∧ ∀ s, content = some s → s.Fits m.strings slot.ty

/-- What is done to the values by an instruction that computes `dest?`. -/
def Wrote (m : Module) (μ : Machine W) (dest? : Option Value) (μ' : Machine W) : Prop :=
  match dest? with
  | none => μ'.values = μ.values
  | some v => ∃ s, s.Fits m.strings v.ty ∧ μ'.values = μ.values.insert v.index s

namespace Provides

variable {m : Module} {μ : Machine W} {v : Value}

theorem eq_number (h : Provides m μ v) (ht : v.ty = .number) :
    ∃ x, μ.values[v.index]? = some (.number x) := by
  obtain ⟨s, hs, hf⟩ := h
  rw [ht] at hf
  cases hf with
  | number x => exact ⟨x, hs⟩

theorem eq_truth (h : Provides m μ v) (ht : v.ty = .truth) :
    ∃ b, μ.values[v.index]? = some (.truth b) := by
  obtain ⟨s, hs, hf⟩ := h
  rw [ht] at hf
  cases hf with
  | truth b => exact ⟨b, hs⟩

theorem eq_text (h : Provides m μ v) (ht : v.ty = .pointer) :
    ∃ id text, μ.values[v.index]? = some (.text id) ∧ m.strings[id]? = some text := by
  obtain ⟨s, hs, hf⟩ := h
  rw [ht] at hf
  cases hf with
  | text hid => exact ⟨_, _, hs, List.getElem?_eq_getElem hid⟩

end Provides

theorem Typed.fill {m : Module} {μ : Machine W} {i : Nat} {slot : Slot} {s : Scalar} (h : Typed m μ)
    (hi : m.graph.slots[i]? = some slot) (hs : s.Fits m.strings slot.ty) :
    Typed m (μ.fill i s) := by
  intro j slot' hj
  obtain ⟨content, hc, hfit⟩ := h j slot' hj
  show ∃ content, (μ.slots.set i (some s))[j]? = some content ∧ _
  by_cases hij : i = j
  · subst hij
    rw [hi] at hj
    cases hj
    refine ⟨some s, List.getElem?_set_self (List.getElem?_eq_some_iff.mp hc).1, ?_⟩
    rintro _ ⟨⟩
    exact hs
  · exact ⟨content, by rw [List.getElem?_set_ne hij, hc], hfit⟩

variable [Writer W]

/-- Printing changes the sink only. -/
theorem Exec.writeLine_cases (text : String) (μ : Machine W) :
    ∃ sink, Exec.writeLine text μ = .ok () { μ with sink } ∨
      Exec.writeLine text μ = .error .outputFull { μ with sink } := by
  have hwrite : ∀ text (μ : Machine W), ∃ sink, Exec.write text μ = .ok () { μ with sink } ∨
      Exec.write text μ = .error .outputFull { μ with sink } := by
    intro text μ
    refine ⟨(Writer.write μ.sink text).2, ?_⟩
    rw [Exec.write_apply]
    split
    · exact .inl rfl
    · exact .inr rfl
  unfold Exec.writeLine
  rw [bind_apply]
  obtain ⟨sink, h | h⟩ := hwrite text μ
  · rw [h]
    exact hwrite "\n" { μ with sink }
  · rw [h]
    exact ⟨sink, .inr rfl⟩

/-- **A well-formed instruction whose operands are there** does what its types say, or fails at an
empty slot or a full sink. -/
theorem Instr.exec_typed {m : Module} {i : Instr} {μ : Machine W} (hw : i.WellFormed m)
    (hr : ∀ v ∈ i.reads, Provides m μ v) (ht : Typed m μ) :
    (∃ μ', Exec.instr m i μ = .ok () μ' ∧ Typed m μ' ∧ Wrote m μ i.dest? μ') ∨
      ∃ e μ', Exec.instr m i μ = .error e μ' ∧ ¬e.Internal := by
  cases i with
  | constant dest x =>
    exact .inl ⟨_, rfl, ht, _, by rw [show dest.ty = .number from hw]; exact .number x, rfl⟩
  | string dest id => exact .inl ⟨_, rfl, ht, _, by rw [hw.1]; exact .text hw.2, rfl⟩
  | load dest slot =>
    obtain ⟨entry, he, hty⟩ := hw
    obtain ⟨content, hc, hfit⟩ := ht slot entry he
    rw [Exec.instr_load, hc]
    cases content with
    | none => exact .inr ⟨_, _, rfl, id⟩
    | some s => exact .inl ⟨_, rfl, ht, s, by rw [hty]; exact hfit s rfl, rfl⟩
  | store slot v =>
    obtain ⟨entry, he, hty⟩ := hw
    obtain ⟨s, hs, hfit⟩ := hr v List.mem_cons_self
    rw [hty] at hfit
    obtain ⟨content, hc, -⟩ := ht slot entry he
    exact .inl ⟨_, Exec.instr_store hs (List.getElem?_eq_some_iff.mp hc).1, ht.fill he hfit, rfl⟩
  | arithmetic dest op lhs rhs =>
    obtain ⟨x, hx⟩ := (hr lhs List.mem_cons_self).eq_number hw.2.1
    obtain ⟨y, hy⟩ := (hr rhs (List.mem_cons_of_mem _ List.mem_cons_self)).eq_number hw.2.2
    refine .inl ⟨μ.define dest (.number (op.apply x y)), ?_, ht, _,
      by rw [hw.1]; exact .number _, rfl⟩
    rw [Exec.instr, bind_apply, Exec.readNumber_of hx]
    dsimp only
    rw [bind_apply, Exec.readNumber_of hy]
    rfl
  | compare dest op lhs rhs =>
    obtain ⟨x, hx⟩ := (hr lhs List.mem_cons_self).eq_number hw.2.1
    obtain ⟨y, hy⟩ := (hr rhs (List.mem_cons_of_mem _ List.mem_cons_self)).eq_number hw.2.2
    refine .inl ⟨μ.define dest (.truth (op.holds x y)), ?_, ht, _,
      by rw [hw.1]; exact .truth _, rfl⟩
    rw [Exec.instr, bind_apply, Exec.readNumber_of hx]
    dsimp only
    rw [bind_apply, Exec.readNumber_of hy]
    rfl
  | connect dest op lhs rhs =>
    obtain ⟨x, hx⟩ := (hr lhs List.mem_cons_self).eq_truth hw.2.1
    obtain ⟨y, hy⟩ := (hr rhs (List.mem_cons_of_mem _ List.mem_cons_self)).eq_truth hw.2.2
    refine .inl ⟨μ.define dest (.truth (op.apply x y)), ?_, ht, _,
      by rw [hw.1]; exact .truth _, rfl⟩
    rw [Exec.instr, bind_apply, Exec.readTruth_of hx]
    dsimp only
    rw [bind_apply, Exec.readTruth_of hy]
    rfl
  | negate dest v =>
    obtain ⟨b, hb⟩ := (hr v List.mem_cons_self).eq_truth hw.2
    exact .inl ⟨_, Exec.instr_negate hb, ht, _, by rw [hw.1]; exact .truth _, rfl⟩
  | call callee args =>
    obtain ⟨v, rfl, hty⟩ := hw
    have hv := hr v List.mem_cons_self
    obtain ⟨line, hline⟩ : ∃ line, Exec.instr m (.call callee [v]) μ = Exec.writeLine line μ := by
      cases callee with
      | number =>
        obtain ⟨x, hx⟩ := hv.eq_number hty
        exact ⟨_, Exec.call_number hx⟩
      | text =>
        obtain ⟨id, text, hid, htext⟩ := hv.eq_text hty
        exact ⟨_, Exec.call_text hid htext⟩
    rw [hline]
    obtain ⟨sink, h | h⟩ := Exec.writeLine_cases line μ
    · exact .inl ⟨_, h, ht, rfl⟩
    · exact .inr ⟨_, _, h, id⟩

/-! ## Sound points of a run -/

namespace Config

/-- The values that the next step reads. -/
def reads (c : Config W) : List Value :=
  match c.rest, c.block.exit? with
  | i :: _, _ => i.reads
  | [], some t => t.reads
  | [], none => []

/-- The value that the next step computes. -/
def dest? (c : Config W) : Option Value := c.rest.head?.bind (·.dest?)

/-- The slots hold what their types say, the next instruction or terminator is well formed, and the
values that it reads are there. -/
structure Sound (m : Module) (c : Config W) : Prop where
  typed : Typed m c.machine
  instr : ∀ i rest, c.rest = i :: rest → i.WellFormed m
  exit : c.rest = [] → ∃ t, c.block.exit? = some t ∧ t.WellFormed m
  reads : ∀ v ∈ c.reads, Provides m c.machine v

variable {m : Module} {c c' : Config W}

omit [Writer W] in
theorem reads_cons {i : Instr} {rest : List Instr} (h : c.rest = i :: rest) :
    c.reads = i.reads := by
  unfold reads
  rw [h]

omit [Writer W] in
theorem reads_nil {t : Terminator} (h : c.rest = []) (he : c.block.exit? = some t) :
    c.reads = t.reads := by
  unfold reads
  rw [h, he]

/-- The run ends with this step, and not by an internal fault. -/
def Stops (m : Module) (c : Config W) : Prop :=
  ∃ result μ, m.step c = .ended result μ ∧ ∀ e, result = .error e → ¬e.Internal

/-- A sound instruction does what its types say, or the run stops. -/
theorem Sound.instr_step {i : Instr} {rest : List Instr} (h : c.Sound m) (hr : c.rest = i :: rest) :
    (∃ μ, m.step c = .next ⟨c.block, rest, μ⟩ ∧ Typed m μ ∧ Wrote m c.machine i.dest? μ) ∨
      c.Stops m := by
  have hreads := h.reads
  rw [reads_cons hr] at hreads
  rcases i.exec_typed (h.instr i rest hr) hreads h.typed with ⟨μ', he, ht, hw⟩ | ⟨e, μ', he, hne⟩
  · exact .inl ⟨μ', Module.step_instr hr he, ht, hw⟩
  · refine .inr ⟨_, _, Module.step_instr_error hr he, ?_⟩
    rintro _ ⟨⟩
    exact hne

/-- A sound terminator leads to one of its targets, or the run stops. -/
theorem Sound.exit_step {t : Terminator} (h : c.Sound m) (hr : c.rest = [])
    (he : c.block.exit? = some t) :
    (∃ k ∈ t.successors, ∃ c', m.step c = .next c' ∧ c'.AtStart m k ∧ c'.machine = c.machine) ∨
      c.Stops m := by
  obtain ⟨t', he', hw⟩ := h.exit hr
  rw [he] at he'
  cases he'
  have hreads := h.reads
  rw [reads_nil hr he] at hreads
  cases t with
  | ret code => exact .inr ⟨_, _, Module.step_ret hr he, nofun⟩
  | jump k =>
    have hk := hw.2 k List.mem_cons_self
    exact .inl ⟨k, List.mem_cons_self, Module.step_jump hr he (List.getElem?_eq_getElem hk)⟩
  | branch v yes no =>
    obtain ⟨b, hb⟩ := (hreads v List.mem_cons_self).eq_truth (hw.1 v List.mem_cons_self)
    have hmem : (if b then yes else no) ∈ (Terminator.branch v yes no).successors := by
      cases b
      · exact List.mem_cons_of_mem _ List.mem_cons_self
      · exact List.mem_cons_self
    exact .inl ⟨_, hmem, Module.step_branch hr he hb (List.getElem?_eq_getElem (hw.2 _ hmem))⟩

/-- A sound step leads on, and computes what it says, or the run stops. -/
theorem Sound.step (h : c.Sound m) :
    (∃ c', m.step c = .next c' ∧ Wrote m c.machine c.dest? c'.machine) ∨ c.Stops m := by
  cases hr : c.rest with
  | cons i rest =>
    have hd : c.dest? = i.dest? := by rw [dest?, hr]; rfl
    rw [hd]
    rcases h.instr_step hr with ⟨μ, hs, -, hw⟩ | hstop
    · exact .inl ⟨_, hs, hw⟩
    · exact .inr hstop
  | nil =>
    have hd : c.dest? = none := by rw [dest?, hr]; rfl
    rw [hd]
    obtain ⟨t, he, -⟩ := h.exit hr
    rcases h.exit_step hr he with ⟨k, -, c', hs, -, hm⟩ | hstop
    · exact .inl ⟨c', hs, by rw [hm]; rfl⟩
    · exact .inr hstop

end Config

end FlowLang
