import FlowLang.Machine
import FlowLang.Proofs.Building

/-!
# Runs, step by step

A run of a machine is a sequence of steps. `Module.step` is one of them, `Module.Steps m k c c'`
says that `k` of them lead from `c` to `c'`, and the limit of a run only says how many there may be:

* `Module.runFrom_of_ended`: if the run ends after `k` steps, then with every limit above `k` it
  ends so.
* `Module.runFrom_of_steps`: if it goes on for as many steps as the limit allows, then it is cut off
  there.
* `Module.steps_or_ended`: one of the two is the case for every limit.
* `Module.Steps.written`: output is only ever added to.

For each operation of the machine there is one equation that says what it does. A relation between
two machines that holds of the basic operations and is kept by composing them holds of all
instructions and terminators (`Exec.Coupled`), and of whole runs if it also allows for the limit
(`Exec.CoupledRuns`). `Exec.Stepwise` and `Exec.Compositional` are these for a property of one
machine.
-/

namespace FlowLang

/-- The middle of a run: a block, the instructions of it that are still to be run, and the
machine. -/
structure Config (W : Type := Sink) where
  block : Block
  rest : List Instr
  machine : Machine W

/-- What a step leads to. -/
inductive Progress (W : Type := Sink) where
  | next (c : Config W)
  | ended (result : Except MachineFault Int) (machine : Machine W)

/-- The machine after the step. -/
def Progress.machine {W : Type} : Progress W → Machine W
  | .next c => c.machine
  | .ended _ machine => machine

namespace Module

variable {W : Type} [Writer W]

/-- One instruction or terminator. -/
def step (m : Module) (c : Config W) : Progress W :=
  match c.rest with
  | i :: rest =>
    match Exec.instr m i c.machine with
    | .ok _ machine => .next ⟨c.block, rest, machine⟩
    | .error e machine => .ended (.error e) machine
  | [] =>
    match Exec.leave c.block c.machine with
    | .ok (.stop code) machine => .ended (.ok code) machine
    | .ok (.block index) machine =>
      match m.graph.blocks[index]? with
      | some next => .next ⟨next, next.instrs, machine⟩
      | none => .ended (.error (.malformed (.unknownBlock index))) machine
    | .error e machine => .ended (.error e) machine

/-- From `c`, `k` steps lead to `c'`. -/
inductive Steps (m : Module) : Nat → Config W → Config W → Prop
  | refl (c : Config W) : Steps m 0 c c
  | head {k : Nat} {c c₁ c₂ : Config W} (h : m.step c = .next c₁) (hs : Steps m k c₁ c₂) :
      Steps m (k + 1) c c₂

namespace Steps

variable {m : Module} {j k : Nat} {c c₁ c₂ : Config W}

theorem one (h : m.step c = .next c₁) : m.Steps 1 c c₁ := .head h (.refl c₁)

theorem trans (h₁ : m.Steps j c c₁) (h₂ : m.Steps k c₁ c₂) : m.Steps (j + k) c c₂ := by
  induction h₁ with
  | refl c => rwa [Nat.zero_add]
  | head h _ ih =>
    rw [Nat.add_right_comm]
    exact .head h (ih h₂)

/-- A run passes through every smaller number of steps. -/
theorem split (h : m.Steps (j + k) c c₂) : ∃ c₁, m.Steps j c c₁ ∧ m.Steps k c₁ c₂ := by
  induction j generalizing c with
  | zero =>
    rw [Nat.zero_add] at h
    exact ⟨c, .refl c, h⟩
  | succ j ih =>
    rw [Nat.add_right_comm] at h
    cases h with
    | head hc hs =>
      obtain ⟨c₁, h₁, h₂⟩ := ih hs
      exact ⟨c₁, .head hc h₁, h₂⟩

end Steps

/-! ## Runs with a limit -/

/-- The start of a run of a machine. -/
def startFrom? (m : Module) (μ : Machine W) : Option (Config W) :=
  m.graph.blocks[0]?.map fun b => ⟨b, b.instrs, μ⟩

/-- The start of a run into a new sink. -/
def start? (m : Module) (capacity? : Option Nat) : Option Config :=
  m.startFrom? { m.machine with sink := .ofCapacity capacity? }

/-- One more unit of fuel is one more step. -/
theorem resume_succ (m : Module) (limit fuel : Nat) (c : Config W) :
    Exec.resume m limit (fuel + 1) c.block c.rest c.machine =
      match m.step c with
      | .next c' => Exec.resume m limit fuel c'.block c'.rest c'.machine
      | .ended (.ok code) machine => .ok code machine
      | .ended (.error e) machine => .error e machine := by
  obtain ⟨block, rest, machine⟩ := c
  unfold step
  cases rest with
  | cons i rest =>
    dsimp only
    rw [Exec.resume, bind_apply]
    cases Exec.instr m i machine <;> rfl
  | nil =>
    dsimp only
    rw [Exec.resume, bind_apply]
    cases Exec.leave block machine with
    | error e machine => rfl
    | ok next machine =>
      cases next with
      | stop code => rfl
      | block index =>
        dsimp only
        cases m.graph.blocks[index]? <;> rfl

theorem Steps.resume {m : Module} {k : Nat} {c c' : Config W} (h : m.Steps k c c')
    (limit fuel : Nat) : Exec.resume m limit (k + fuel) c.block c.rest c.machine =
      Exec.resume m limit fuel c'.block c'.rest c'.machine := by
  induction h with
  | refl c => rw [Nat.zero_add]
  | head h _ ih =>
    rw [Nat.add_right_comm, resume_succ, h]
    exact ih

/-- What a run from the middle of a block shows. -/
def transcript : EStateM.Result MachineFault (Machine W) Int → Transcript
  | .ok code machine => ⟨.ok code, Writer.written machine.sink⟩
  | .error e machine => ⟨.error e, Writer.written machine.sink⟩

theorem runFrom_eq (m : Module) (limit : Nat) (μ : Machine W) :
    m.runFrom limit μ = (transcript (m.exec limit μ), after (m.exec limit μ)) := by
  unfold runFrom
  cases m.exec limit μ <;> rfl

theorem runOn_eq (m : Module) (limit : Nat) (capacity? : Option Nat) (μ : Machine) :
    m.runOn limit capacity? μ =
      (transcript (m.exec limit { μ with sink := Sink.ofCapacity capacity? }),
        after (m.exec limit { μ with sink := Sink.ofCapacity capacity? })) :=
  m.runFrom_eq limit _

section

variable {m : Module} {μ machine : Machine W} {c c' : Config W} {k limit : Nat}
  {result : Except MachineFault Int}

theorem exec_eq (h : m.startFrom? μ = some c) (limit : Nat) :
    m.exec limit μ = Exec.resume m limit limit c.block c.rest c.machine := by
  obtain ⟨b, hb, rfl⟩ := Option.map_eq_some_iff.mp h
  rw [exec, hb]

/-- A module without blocks cannot be started. -/
theorem runFrom_of_none (h : m.startFrom? μ = none) (limit : Nat) :
    (m.runFrom limit μ).1 = ⟨.error (.malformed (.unknownBlock 0)), Writer.written μ.sink⟩ := by
  rw [runFrom_eq, exec, Option.map_eq_none_iff.mp h]
  rfl

/-- **A run that ends after `k` steps ends so with every limit above `k`.** -/
theorem runFrom_of_ended (h : m.startFrom? μ = some c) (hs : m.Steps k c c')
    (he : m.step c' = .ended result machine) (hk : k < limit) :
    (m.runFrom limit μ).1 = ⟨result, Writer.written machine.sink⟩ := by
  obtain ⟨fuel, rfl⟩ : ∃ fuel, limit = k + (fuel + 1) := ⟨limit - k - 1, by omega⟩
  rw [runFrom_eq, exec_eq h, hs.resume, resume_succ, he]
  cases result <;> rfl

/-- **A run that goes on for as many steps as the limit allows is cut off.** -/
theorem runFrom_of_steps (h : m.startFrom? μ = some c) (hs : m.Steps limit c c') :
    (m.runFrom limit μ).1 = ⟨.error (.stepLimit limit), Writer.written c'.machine.sink⟩ := by
  have hr := hs.resume limit 0
  rw [Nat.add_zero] at hr
  rw [runFrom_eq, exec_eq h, hr, Exec.resume]
  rfl

end

/-- From every point a run goes on for `k` steps, or it ends before. -/
theorem steps_or_ended (m : Module) (k : Nat) (c : Config W) : (∃ c', m.Steps k c c') ∨
    ∃ j c' result machine, j < k ∧ m.Steps j c c' ∧ m.step c' = .ended result machine := by
  induction k generalizing c with
  | zero => exact .inl ⟨c, .refl c⟩
  | succ k ih =>
    cases hc : m.step c with
    | ended result machine => exact .inr ⟨0, c, result, machine, Nat.succ_pos k, .refl c, hc⟩
    | next c₁ =>
      rcases ih c₁ with ⟨c', h⟩ | ⟨j, c', result, machine, hj, h, he⟩
      · exact .inl ⟨c', .head hc h⟩
      · exact .inr ⟨j + 1, c', result, machine, Nat.succ_lt_succ hj, .head hc h, he⟩

/-- A run is cut off by its limit, or it ends by itself. -/
theorem runFrom_cases {m : Module} {μ : Machine W} {c : Config W} (h : m.startFrom? μ = some c)
    (limit : Nat) :
    (∃ c', m.Steps limit c c' ∧
      (m.runFrom limit μ).1 = ⟨.error (.stepLimit limit), Writer.written c'.machine.sink⟩) ∨
    ∃ j c' result machine, j < limit ∧ m.Steps j c c' ∧ m.step c' = .ended result machine ∧
      (m.runFrom limit μ).1 = ⟨result, Writer.written machine.sink⟩ := by
  rcases m.steps_or_ended limit c with ⟨c', hs⟩ | ⟨j, c', result, machine, hj, hs, he⟩
  · exact .inl ⟨c', hs, runFrom_of_steps h hs⟩
  · exact .inr ⟨j, c', result, machine, hj, hs, he, runFrom_of_ended h hs he hj⟩

/-! ### Runs of new machines -/

section

variable {m : Module} {capacity? : Option Nat} {c c' : Config} {k limit : Nat}

theorem run_of_ended {result : Except MachineFault Int} {machine : Machine}
    (h : m.start? capacity? = some c) (hs : m.Steps k c c') (he : m.step c' = .ended result machine)
    (hk : k < limit) : m.run limit capacity? = ⟨result, machine.sink.written⟩ :=
  runFrom_of_ended h hs he hk

theorem run_of_steps (h : m.start? capacity? = some c) (hs : m.Steps limit c c') :
    m.run limit capacity? = ⟨.error (.stepLimit limit), c'.machine.sink.written⟩ :=
  runFrom_of_steps h hs

/-- A run that was not cut off is the same with every larger limit. -/
theorem run_of_le {limit' : Nat} (h : m.start? capacity? = some c) (hl : limit ≤ limit')
    (hne : (m.run limit capacity?).result ≠ .error (.stepLimit limit)) :
    m.run limit' capacity? = m.run limit capacity? := by
  rcases runFrom_cases h limit with ⟨c', -, hr⟩ | ⟨j, c', result, machine, hj, hs, he, hr⟩
  · rw [show m.run limit capacity? = _ from hr] at hne
    exact absurd rfl hne
  · rw [show m.run limit capacity? = _ from hr]
    exact run_of_ended h hs he (by omega)

end

end Module

/-! ## The operations of the machine -/

namespace Machine

variable {W : Type}

/-- The machine with a value set. -/
def define (μ : Machine W) (v : Value) (s : Scalar) : Machine W :=
  { μ with values := μ.values.insert v.index s }

/-- The machine with a slot filled. -/
def fill (μ : Machine W) (slot : Nat) (s : Scalar) : Machine W :=
  { μ with slots := μ.slots.set slot (some s) }

theorem define_values (μ : Machine W) (v : Value) (s : Scalar) (j : Nat) :
    (μ.define v s).values[j]? = if v.index = j then some s else μ.values[j]? := by
  show (μ.values.insert v.index s)[j]? = _
  rw [Std.TreeMap.getElem?_insert]
  simp

theorem define_values_self (μ : Machine W) (v : Value) (s : Scalar) :
    (μ.define v s).values[v.index]? = some s := by
  rw [define_values, if_pos rfl]

theorem define_values_of_lt (μ : Machine W) {v : Value} (s : Scalar) {j : Nat} (h : j < v.index) :
    (μ.define v s).values[j]? = μ.values[j]? := by
  rw [define_values, if_neg (by omega)]

end Machine

namespace Exec

variable {W : Type} {μ : Machine W}

theorem read_apply (v : Value) (μ : Machine W) : read v μ = match μ.values[v.index]? with
    | some s => .ok s μ
    | none => .error (.undefinedValue v.index) μ := by
  show (match μ.values[v.index]? with
    | some s => pure s
    | none => throw (.undefinedValue v.index) : ExecInto W Scalar) μ = _
  cases μ.values[v.index]? <;> rfl

theorem read_of {v : Value} {s : Scalar} (h : μ.values[v.index]? = some s) :
    read v μ = .ok s μ := by
  rw [read_apply, h]

theorem readNumber_of {v : Value} {x : Binary64} (h : μ.values[v.index]? = some (.number x)) :
    readNumber v μ = .ok x μ := by
  unfold readNumber
  rw [bind_apply, read_of h]
  rfl

theorem readTruth_of {v : Value} {b : Bool} (h : μ.values[v.index]? = some (.truth b)) :
    readTruth v μ = .ok b μ := by
  unfold readTruth
  rw [bind_apply, read_of h]
  rfl

theorem readSlot_apply (slot : Nat) (μ : Machine W) : readSlot slot μ = match μ.slots[slot]? with
    | some (some s) => .ok s μ
    | some none => .error (.uninitializedSlot slot) μ
    | none => .error (.malformed (.unknownSlot slot)) μ := by
  show (match μ.slots[slot]? with
    | some (some s) => pure s
    | some none => throw (.uninitializedSlot slot)
    | none => malformed (.unknownSlot slot) : ExecInto W Scalar) μ = _
  rcases μ.slots[slot]? with _ | _ | s <;> rfl

theorem writeSlot_of_lt {slot : Nat} (h : slot < μ.slots.length) (s : Scalar) :
    writeSlot slot s μ = .ok () (μ.fill slot s) := by
  show (if slot < μ.slots.length then modify _ else malformed (.unknownSlot slot) : ExecInto W Unit)
    μ = _
  rw [if_pos h]
  rfl

theorem writeSlot_of_not_lt {slot : Nat} (h : ¬slot < μ.slots.length) (s : Scalar) :
    writeSlot slot s μ = .error (.malformed (.unknownSlot slot)) μ := by
  show (if slot < μ.slots.length then modify _ else malformed (.unknownSlot slot) : ExecInto W Unit)
    μ = _
  rw [if_neg h]
  rfl

variable [Writer W]

theorem write_apply (text : String) (μ : Machine W) : write text μ =
    if (Writer.write μ.sink text).1 then .ok () { μ with sink := (Writer.write μ.sink text).2 }
    else .error .outputFull { μ with sink := (Writer.write μ.sink text).2 } := by
  show (if (Writer.write μ.sink text).1 then return () else throw .outputFull : ExecInto W Unit)
    { μ with sink := (Writer.write μ.sink text).2 } = _
  split <;> rfl

/-! ### Instructions -/

theorem instr_load (m : Module) (dest : Value) (slot : Nat) (μ : Machine W) :
    instr m (.load dest slot) μ = match μ.slots[slot]? with
      | some (some s) => .ok () (μ.define dest s)
      | some none => .error (.uninitializedSlot slot) μ
      | none => .error (.malformed (.unknownSlot slot)) μ := by
  rw [instr, bind_apply, readSlot_apply]
  rcases μ.slots[slot]? with _ | _ | s <;> rfl

theorem instr_store {m : Module} {slot : Nat} {v : Value} {s : Scalar}
    (hv : μ.values[v.index]? = some s) (hs : slot < μ.slots.length) :
    instr m (.store slot v) μ = .ok () (μ.fill slot s) := by
  rw [instr, bind_apply, read_of hv]
  exact writeSlot_of_lt hs s

theorem instr_negate {m : Module} {dest v : Value} {b : Bool}
    (hv : μ.values[v.index]? = some (.truth b)) :
    instr m (.negate dest v) μ = .ok () (μ.define dest (.truth !b)) := by
  rw [instr, bind_apply, readTruth_of hv]
  rfl

theorem call_number {m : Module} {v : Value} {x : Binary64}
    (hv : μ.values[v.index]? = some (.number x)) :
    instr m (.call .number [v]) μ = writeLine (x.text .plain) μ := by
  rw [instr, call, bind_apply, read_of hv]

theorem call_text {m : Module} {v : Value} {id : Nat} {text : String}
    (hv : μ.values[v.index]? = some (.text id)) (ht : m.strings[id]? = some text) :
    instr m (.call .text [v]) μ = writeLine text μ := by
  rw [instr, call, bind_apply, read_of hv]
  dsimp only
  rw [ht]

/-- Printing a line into a sink without limit. -/
theorem writeLine_unlimited {μ : Machine} {written : ByteArray} (h : μ.sink = ⟨none, written⟩)
    (text : String) :
    writeLine text μ = .ok () { μ with sink := ⟨none, written ++ (text ++ "\n").toUTF8⟩ } := by
  unfold writeLine
  rw [bind_apply, write_apply, h]
  show write "\n" { μ with sink := (⟨none, written ++ text.toUTF8⟩ : Sink) } = _
  rw [write_apply]
  show EStateM.Result.ok () { μ with sink :=
    (⟨none, written ++ text.toUTF8 ++ "\n".toUTF8⟩ : Sink) } = _
  rw [ByteArray.append_assoc, show (text ++ "\n").toUTF8 = _ from String.toByteArray_append]
  rfl

/-! ### Properties of all that a machine does -/

section

variable {V : Type} [Writer V]

/-- A relation between the steps of two machines, which may have different writers, that holds of
the basic steps and of what is composed of them. -/
structure Coupled (R : ∀ {α : Type}, ExecInto W α → ExecInto V α → Prop) : Prop where
  pure : ∀ {α : Type} (a : α), R (pure a : ExecInto W α) (pure a)
  malformed : ∀ {α : Type} (reason : Malformed),
    R (malformed reason : ExecInto W α) (malformed reason)
  bind : ∀ {α β : Type} {x : ExecInto W α} {y : ExecInto V α} {f : α → ExecInto W β}
    {g : α → ExecInto V β}, R x y → (∀ a, R (f a) (g a)) → R (x >>= f) (y >>= g)
  read : ∀ v, R (read v) (read v)
  define : ∀ v s, R (define v s) (define v s)
  readSlot : ∀ slot, R (readSlot slot) (readSlot slot)
  writeSlot : ∀ slot s, R (writeSlot slot s) (writeSlot slot s)
  write : ∀ text, R (write text) (write text)

/-- A relation between steps that holds of runs too, since a run may also be cut off. -/
structure CoupledRuns (R : ∀ {α : Type}, ExecInto W α → ExecInto V α → Prop) : Prop
    extends Coupled R where
  limit : ∀ {α : Type} (limit : Nat),
    R (throw (.stepLimit limit) : ExecInto W α) (throw (.stepLimit limit))

/-- A property of the basic steps of one machine that holds of everything composed of them. -/
abbrev Stepwise (P : ∀ {α : Type}, ExecInto W α → Prop) : Prop :=
  Coupled (V := W) fun x _ => P x

/-- A property of the basic steps of one machine that holds of its runs. -/
abbrev Compositional (P : ∀ {α : Type}, ExecInto W α → Prop) : Prop :=
  CoupledRuns (V := W) fun x _ => P x

variable {R : ∀ {α : Type}, ExecInto W α → ExecInto V α → Prop}

namespace Coupled

theorem readNumber (h : Coupled R) (v : Value) : R (readNumber v) (readNumber v) :=
  h.bind (h.read v) fun s => by
    cases s with
    | number x => exact h.pure x
    | truth b => exact h.malformed _
    | text id => exact h.malformed _

theorem readTruth (h : Coupled R) (v : Value) : R (readTruth v) (readTruth v) :=
  h.bind (h.read v) fun s => by
    cases s with
    | number x => exact h.malformed _
    | truth b => exact h.pure b
    | text id => exact h.malformed _

theorem writeLine (h : Coupled R) (text : String) : R (writeLine text) (writeLine text) :=
  h.bind (h.write text) fun _ => h.write "\n"

theorem call (h : Coupled R) (m : Module) (callee : Printer) (args : List Value) :
    R (call m callee args) (call m callee args) := by
  cases args with
  | nil => exact h.malformed _
  | cons arg args =>
    refine h.bind (h.read arg) fun s => ?_
    rcases callee with _ | _ <;> rcases s with x | b | id
    · exact h.writeLine _
    · exact h.malformed _
    · exact h.malformed _
    · exact h.malformed _
    · exact h.malformed _
    · dsimp only
      cases m.strings[id]? with
      | some text => exact h.writeLine text
      | none => exact h.malformed _

theorem instr (h : Coupled R) (m : Module) (i : Instr) : R (instr m i) (instr m i) := by
  cases i with
  | constant dest x => exact h.define dest _
  | string dest id => exact h.define dest _
  | load dest slot => exact h.bind (h.readSlot slot) fun s => h.define dest s
  | store slot v => exact h.bind (h.read v) fun s => h.writeSlot slot s
  | arithmetic dest op lhs rhs =>
    exact h.bind (h.readNumber lhs) fun _ => h.bind (h.readNumber rhs) fun _ => h.define dest _
  | compare dest op lhs rhs =>
    exact h.bind (h.readNumber lhs) fun _ => h.bind (h.readNumber rhs) fun _ => h.define dest _
  | connect dest op lhs rhs =>
    exact h.bind (h.readTruth lhs) fun _ => h.bind (h.readTruth rhs) fun _ => h.define dest _
  | negate dest v => exact h.bind (h.readTruth v) fun _ => h.define dest _
  | call callee args => exact h.call m callee args

theorem leave (h : Coupled R) (b : Block) : R (leave b) (leave b) := by
  unfold Exec.leave
  rcases b.exit? with _ | ⟨target⟩ | ⟨test, yes, no⟩ | ⟨code⟩
  · exact h.malformed _
  · exact h.pure _
  · exact h.bind (h.readTruth _) fun _ => h.pure _
  · exact h.pure _

end Coupled

namespace CoupledRuns

theorem resume (h : CoupledRuns R) (m : Module) (limit fuel : Nat) (b : Block) (rest : List Instr) :
    R (resume m limit fuel b rest) (resume m limit fuel b rest) := by
  induction fuel generalizing b rest with
  | zero => rw [Exec.resume, Exec.resume]; exact h.limit limit
  | succ fuel ih =>
    cases rest with
    | cons i rest =>
      rw [Exec.resume, Exec.resume]
      exact h.bind (h.instr m i) fun _ => ih b rest
    | nil =>
      rw [Exec.resume, Exec.resume]
      refine h.bind (h.leave b) fun next => ?_
      cases next with
      | stop code => exact h.pure code
      | block index =>
        dsimp only
        cases m.graph.blocks[index]? with
        | some next => exact ih next next.instrs
        | none => exact h.malformed _

/-- **What holds of the basic steps holds of a whole run.** -/
theorem exec (h : CoupledRuns R) (m : Module) (limit : Nat) : R (m.exec limit) (m.exec limit) := by
  unfold Module.exec
  cases m.graph.blocks[0]? with
  | some b => exact h.resume m limit limit b b.instrs
  | none => exact h.malformed _

end CoupledRuns

end

/-! ### Output is only added to -/

/-- Whatever the outcome, what was written stays written. -/
def Appends {α : Type} (step : ExecInto W α) : Prop :=
  ∀ μ, ∃ more, Writer.written (after (step μ)).sink = Writer.written μ.sink ++ more

theorem appends_of_sink {α : Type} {step : ExecInto W α} (h : ∀ μ, (after (step μ)).sink = μ.sink) :
    Appends step := by
  intro μ
  exact ⟨.empty, by rw [h, ByteArray.append_empty]⟩

theorem Appends.bind {α β : Type} {x : ExecInto W α} {f : α → ExecInto W β} (hx : Appends x)
    (hf : ∀ a, Appends (f a)) : Appends (x >>= f) := by
  intro μ
  obtain ⟨more, h⟩ := hx μ
  rw [bind_apply]
  cases hs : x μ with
  | error e μ₁ => rw [hs] at h; exact ⟨more, h⟩
  | ok a μ₁ =>
    rw [hs] at h
    obtain ⟨more', h'⟩ := hf a μ₁
    exact ⟨more ++ more',
      by rw [h', show Writer.written μ₁.sink = _ from h, ByteArray.append_assoc]⟩

theorem appends_writeSlot (slot : Nat) (s : Scalar) : Appends (W := W) (writeSlot slot s) :=
  appends_of_sink fun μ => by
    show (after ((if slot < μ.slots.length then modify _ else malformed _ : ExecInto W Unit)
      μ)).sink = _
    split <;> rfl

theorem appends_write (text : String) : Appends (W := W) (write text) := by
  intro μ
  rw [write_apply]
  split <;> exact Writer.written_write μ.sink text

theorem appends : Compositional (W := W) Appends where
  pure _ := appends_of_sink fun _ => rfl
  malformed _ := appends_of_sink fun _ => rfl
  limit _ := appends_of_sink fun _ => rfl
  bind := Appends.bind
  read v := appends_of_sink fun μ => by rw [read_apply]; cases μ.values[v.index]? <;> rfl
  define _ _ := appends_of_sink fun _ => rfl
  readSlot slot := appends_of_sink fun μ => by
    rw [readSlot_apply]
    rcases μ.slots[slot]? with _ | _ | s <;> rfl
  writeSlot := appends_writeSlot
  write := appends_write

end Exec

namespace Module

variable {W : Type} [Writer W] {m : Module}

/-- A step only adds to the output, also if it ends the run. -/
theorem written_step (m : Module) (c : Config W) :
    ∃ more, Writer.written (m.step c).machine.sink = Writer.written c.machine.sink ++ more := by
  obtain ⟨block, rest, machine⟩ := c
  unfold step
  cases rest with
  | cons i rest =>
    have ha := Exec.appends.instr m i machine
    dsimp only
    cases hr : Exec.instr m i machine <;> rw [hr] at ha <;> exact ha
  | nil =>
    have ha := Exec.appends.leave block machine
    dsimp only
    cases hr : Exec.leave block machine with
    | error e μ => rw [hr] at ha; exact ha
    | ok next μ =>
      rw [hr] at ha
      cases next with
      | stop code => exact ha
      | block index =>
        dsimp only
        cases m.graph.blocks[index]? <;> exact ha

/-- **Output is only added to** along a run. -/
theorem Steps.written {k : Nat} {c c' : Config W} (h : m.Steps k c c') :
    ∃ more, Writer.written c'.machine.sink = Writer.written c.machine.sink ++ more := by
  induction h with
  | refl c => exact ⟨.empty, ByteArray.append_empty.symm⟩
  | @head k c c₁ c₂ hc _ ih =>
    obtain ⟨more, h₁⟩ := m.written_step c
    rw [hc] at h₁
    obtain ⟨more', h₂⟩ := ih
    exact ⟨more ++ more',
      by rw [h₂, show Writer.written c₁.machine.sink = _ from h₁, ByteArray.append_assoc]⟩

end Module

/-! ### Runs that return -/

namespace Module

variable {W : Type} [Writer W] {m : Module} {c c' : Config W}

/-- A run stays in the blocks of its module. -/
theorem mem_blocks_of_step (h : m.step c = .next c') (hc : c.block ∈ m.graph.blocks) :
    c'.block ∈ m.graph.blocks := by
  unfold step at h
  split at h
  · split at h <;> cases h
    exact hc
  · split at h
    · cases h
    · split at h <;> cases h
      rename_i hnext
      exact List.mem_of_getElem? hnext
    · cases h

theorem Steps.mem_blocks {k : Nat} (h : m.Steps k c c') (hc : c.block ∈ m.graph.blocks) :
    c'.block ∈ m.graph.blocks := by
  induction h with
  | refl c => exact hc
  | head hs _ ih => exact ih (mem_blocks_of_step hs hc)

/-- A step that returns is a terminator that returns. -/
theorem exit_of_step {code : Int} {μ : Machine W} (h : m.step c = .ended (.ok code) μ) :
    c.block.exit? = some (.ret code) := by
  unfold step at h
  split at h
  · split at h <;> cases h
  · split at h
    · rename_i hl
      cases h
      unfold Exec.leave at hl
      rcases he : c.block.exit? with _ | ⟨k⟩ | ⟨test, yes, no⟩ | ⟨code'⟩
      · rw [he] at hl
        cases hl
      · rw [he] at hl
        cases hl
      · rw [he] at hl
        dsimp only at hl
        rw [bind_apply] at hl
        cases hr : Exec.readTruth test c.machine <;> rw [hr] at hl <;> cases hl
      · rw [he] at hl
        cases hl
        rfl
    · split at h <;> cases h
    · cases h

/-- **A run that returns a code ends in a block that returns it.** -/
theorem exit_of_runFrom {limit : Nat} {μ : Machine W} {code : Int}
    (h : (m.runFrom limit μ).1.result = .ok code) :
    ∃ block ∈ m.graph.blocks, block.exit? = some (.ret code) := by
  cases hb : m.graph.blocks[0]? with
  | none =>
    rw [runFrom_of_none (congrArg (Option.map _) hb)] at h
    cases h
  | some block =>
    have hstart : m.startFrom? μ = some _ := congrArg (Option.map _) hb
    rcases runFrom_cases hstart limit with ⟨c', -, hr⟩ | ⟨j, c', result, machine, -, hj, he, hr⟩
    · rw [hr] at h
      cases h
    · rw [hr] at h
      cases h
      exact ⟨c'.block, hj.mem_blocks (List.mem_of_getElem? hb), exit_of_step he⟩

end Module

end FlowLang
