import FlowLang.Proofs.Evaluator
import FlowLang.Proofs.GeneratedCode

/-!
# Compiled programs do what their trees say

The machine follows the evaluation of a tree, form by form. `Holds` relates a machine to a store:
every slot holds the value of the variable that it is named after. `Simulates` says what a run does
for each outcome of an evaluation: it arrives where the tree ends, it fails at an empty slot, or it
goes on for as many steps as there are rounds.

The relation needs that no two slots share a name, which is so in checked programs.
-/

namespace FlowLang

/-! ## Machines and stores -/

/-- The type of values that can stand for a datum. -/
def Datum.ty : Datum → Ty
  | .number _ => .number
  | .truth _ => .truth
  | .text _ => .pointer

/-- A scalar stands for a datum; texts are given by their place among the string constants. -/
inductive Represents (strings : List String) : Scalar → Datum → Prop
  | number (x : Binary64) : Represents strings (.number x) (.number x)
  | truth (b : Bool) : Represents strings (.truth b) (.truth b)
  | text {id : Nat} {s : String} (h : strings[id]? = some s) :
      Represents strings (.text id) (.text s)

namespace Represents

variable {strings : List String} {s : Scalar} {d : Datum}

theorem eq_number (h : Represents strings s d) (ht : d.ty = .number) :
    ∃ x, s = .number x ∧ d = .number x := by
  cases h with
  | number x => exact ⟨x, rfl, rfl⟩
  | truth b => cases ht
  | text h => cases ht

theorem eq_truth (h : Represents strings s d) (ht : d.ty = .truth) :
    ∃ b, s = .truth b ∧ d = .truth b := by
  cases h with
  | number x => cases ht
  | truth b => exact ⟨b, rfl, rfl⟩
  | text h => cases ht

theorem eq_text (h : Represents strings s d) (ht : d.ty = .pointer) :
    ∃ id text, s = .text id ∧ d = .text text ∧ strings[id]? = some text := by
  cases h with
  | number x => cases ht
  | truth b => cases ht
  | text h => exact ⟨_, _, rfl, rfl, h⟩

end Represents

/-- What a slot of a type holds when its variable has a value, or is absent. -/
inductive Contains (strings : List String) (ty : Ty) : Option Scalar → Option Datum → Prop
  | nothing : Contains strings ty none none
  | value {s : Scalar} {d : Datum} (ht : d.ty = ty) (h : Represents strings s d) :
      Contains strings ty (some s) (some d)

/-- Every slot holds what the store has for the variable of its name, and the outputs agree. -/
structure Holds (m : Module) (μ : Machine) (σ : Store) : Prop where
  sink : μ.sink = ⟨none, σ.output.toUTF8⟩
  slots : ∀ (i : Nat) (slot : Slot), m.graph.slots[i]? = some slot →
    ∃ content, μ.slots[i]? = some content ∧ Contains m.strings slot.ty content (σ.values slot.name)

/-- What a tree gives: nothing, or a value that stands for a datum. -/
inductive Carries (strings : List String) (μ : Machine) : Option Value → Option Datum → Prop
  | nothing : Carries strings μ none none
  | value {v : Value} {d : Datum} {s : Scalar} (ht : d.ty = v.ty)
      (hv : μ.values[v.index]? = some s) (h : Represents strings s d) :
      Carries strings μ (some v) (some d)

namespace Holds

variable {m : Module} {μ : Machine} {σ : Store}

theorem define (h : Holds m μ σ) (v : Value) (s : Scalar) : Holds m (μ.define v s) σ :=
  ⟨h.sink, h.slots⟩

/-- A slot is filled, and its variable gets the value. No other slot has its name. -/
theorem fill (hn : (m.graph.slots.map (·.name)).Nodup) (h : Holds m μ σ) {i : Nat} {slot : Slot}
    (hi : m.graph.slots[i]? = some slot) {s : Scalar} {d : Datum} (ht : d.ty = slot.ty)
    (hr : Represents m.strings s d) :
    Holds m (μ.fill i s)
      { σ with values := fun y => if y = slot.name then some d else σ.values y } := by
  refine ⟨h.sink, fun j slot' hj => ?_⟩
  obtain ⟨content, hc, hv⟩ := h.slots j slot' hj
  show ∃ content, (μ.slots.set i (some s))[j]? = some content ∧
    Contains m.strings slot'.ty content
      (if slot'.name = slot.name then some d else σ.values slot'.name)
  by_cases hij : i = j
  · subst hij
    rw [hi] at hj
    cases hj
    refine ⟨some s, ?_, ?_⟩
    · rw [List.getElem?_set_self (List.getElem?_eq_some_iff.mp hc).1]
    · rw [if_pos rfl]
      exact .value ht hr
  · have hne : slot'.name ≠ slot.name := by
      intro he
      refine hij ((List.getElem?_inj ?_ hn).mp ?_)
      · rw [List.length_map]
        exact (List.getElem?_eq_some_iff.mp hi).1
      · rw [List.getElem?_map, List.getElem?_map, hi, hj, Option.map_some, Option.map_some, he]
    refine ⟨content, ?_, ?_⟩
    · rw [List.getElem?_set_ne hij, hc]
    · rw [if_neg hne]
      exact hv

theorem print (h : Holds m μ σ) (text : String) :
    Exec.writeLine text μ = .ok () { μ with sink := ⟨none, (σ.output ++ (text ++ "\n")).toUTF8⟩ } ∧
    Holds m { μ with sink := ⟨none, (σ.output ++ (text ++ "\n")).toUTF8⟩ }
      { σ with output := σ.output ++ (text ++ "\n") } := by
  refine ⟨?_, rfl, h.slots⟩
  rw [Exec.writeLine_unlimited h.sink,
    show (σ.output ++ (text ++ "\n")).toUTF8 = _ from String.toByteArray_append]
  rfl

end Holds

/-! ## Following an evaluation -/

/-- What a run from `c` does for an outcome of an evaluation. -/
def Simulates {α : Type} (m : Module) (rounds : Nat) (c : Config) (Q : α → Store → Config → Prop) :
    EStateM.Result Obstacle Store α → Prop
  | .ok a σ => ∃ k c', m.Steps k c c' ∧ Q a σ c'
  | .error (.absent x) σ => ∃ k c' i slot, m.Steps k c c' ∧
      m.step c' = .ended (.error (.uninitializedSlot i)) c'.machine ∧
      m.graph.slots[i]? = some slot ∧ slot.name = x ∧
      c'.machine.sink.written = σ.output.toUTF8
  | .error .rounds σ => ∃ k c', rounds ≤ k ∧ m.Steps k c c' ∧
      c'.machine.sink.written = σ.output.toUTF8
  | .error .nonsense _ => False

namespace Simulates

variable {α β : Type} {m : Module} {rounds : Nat} {c : Config}

/-- The run has already made some steps. -/
theorem after_steps {Q : α → Store → Config → Prop} {r : EStateM.Result Obstacle Store α} {k : Nat}
    {c₁ : Config} (hs : m.Steps k c c₁) (h : Simulates m rounds c₁ Q r) :
    Simulates m (rounds + k) c Q r := by
  cases r with
  | ok a σ =>
    obtain ⟨j, c', hj, hQ⟩ := h
    exact ⟨_, c', hs.trans hj, hQ⟩
  | error e σ =>
    cases e with
    | absent x =>
      obtain ⟨j, c', i, slot, hj, hrest⟩ := h
      exact ⟨_, c', i, slot, hs.trans hj, hrest⟩
    | rounds =>
      obtain ⟨j, c', hle, hj, hw⟩ := h
      exact ⟨_, c', by omega, hs.trans hj, hw⟩
    | nonsense => exact h

theorem fewer {Q : α → Store → Config → Prop} {r : EStateM.Result Obstacle Store α} {n : Nat}
    (hn : n ≤ rounds) (h : Simulates m rounds c Q r) : Simulates m n c Q r := by
  cases r with
  | ok a σ => exact h
  | error e σ =>
    cases e with
    | absent x => exact h
    | rounds =>
      obtain ⟨j, c', hle, hrest⟩ := h
      exact ⟨j, c', hn.trans hle, hrest⟩
    | nonsense => exact h

/-- The run follows two evaluations one after the other. -/
theorem bind {Q : α → Store → Config → Prop} {R : β → Store → Config → Prop} {x : Eval α}
    {f : α → Eval β} {σ : Store} (hx : Simulates m rounds c Q (x σ))
    (hf : ∀ a σ₁ c₁, Q a σ₁ c₁ → Simulates m rounds c₁ R (f a σ₁)) :
    Simulates m rounds c R ((x >>= f) σ) := by
  rw [bind_apply]
  cases hs : x σ with
  | ok a σ₁ =>
    rw [hs] at hx
    obtain ⟨k, c₁, hk, hQ⟩ := hx
    exact (after_steps hk (hf a σ₁ c₁ hQ)).fewer (Nat.le_add_right _ _)
  | error e σ₁ =>
    rw [hs] at hx
    cases e with
    | absent x => exact hx
    | rounds => exact hx
    | nonsense => exact hx

theorem mono {Q R : α → Store → Config → Prop} {r : EStateM.Result Obstacle Store α}
    (h : Simulates m rounds c Q r) (hQ : ∀ a σ c, Q a σ c → R a σ c) :
    Simulates m rounds c R r := by
  cases r with
  | ok a σ =>
    obtain ⟨j, c', hj, hq⟩ := h
    exact ⟨j, c', hj, hQ _ _ _ hq⟩
  | error e σ =>
    cases e with
    | absent x => exact h
    | rounds => exact h
    | nonsense => exact h

end Simulates

/-- Where the run of a tree arrives that gives `v`: at the insertion point of `b`, with the values
below `bound` as they were in `μ`. -/
structure Arrives (m : Module) (bound : Nat) (v : Option Value) (b : Builder) (μ : Machine)
    (d : Option Datum) (σ : Store) (c : Config) : Prop where
  ahead : m.graph.Ahead b c.block c.rest
  holds : Holds m c.machine σ
  frame : ∀ j < bound, c.machine.values[j]? = μ.values[j]?
  carries : Carries m.strings c.machine v d

/-- Values from before are carried along. -/
theorem Carries.of_frame {strings : List String} {μ μ' : Machine} {v : Value} {d : Option Datum}
    {bound : Nat} (h : Carries strings μ (some v) d) (hv : v.index < bound)
    (hf : ∀ j < bound, μ'.values[j]? = μ.values[j]?) : Carries strings μ' (some v) d := by
  cases h with
  | value ht hs hr => exact .value ht ((hf _ hv).trans hs) hr

/-- What is done after arriving leaves the values from before as they were. -/
theorem Arrives.trans {m : Module} {bound bound' : Nat} {v v' : Option Value} {b b' : Builder}
    {μ : Machine} {d d' : Option Datum} {σ σ' : Store} {c c' : Config}
    (h : Arrives m bound v b μ d σ c) (h' : Arrives m bound' v' b' c.machine d' σ' c')
    (hle : bound ≤ bound') : Arrives m bound v' b' μ d' σ' c' :=
  ⟨h'.ahead, h'.holds, fun j hj => (h'.frame j (Nat.lt_of_lt_of_le hj hle)).trans (h.frame j hj),
    h'.carries⟩

/-! ## Steps of the generated code -/

namespace Module

variable {m : Module} {c : Config}

/-- An instruction that computes a value. -/
theorem steps_define {b b' : Builder} {v : Value} {ins : Instr} {s : Scalar} {d : Datum} {σ : Store}
    (ha : m.graph.Ahead b c.block c.rest) (hd : b.Defines v ins b') (hx : b'.graph.Extends m.graph)
    (hi : Exec.instr m ins c.machine = .ok () (c.machine.define v s)) (hσ : Holds m c.machine σ)
    (ht : d.ty = v.ty) (hr : Represents m.strings s d) :
    ∃ c', m.Steps 1 c c' ∧ Arrives m b.nextValue (some v) b' c.machine (some d) σ c' := by
  obtain ⟨rest, hrest, ha'⟩ := ha.defines hd hx
  refine ⟨_, .one (step_instr hrest hi), ha', hσ.define v s, fun j hj => ?_, ?_⟩
  · exact c.machine.define_values_of_lt s (by rw [hd.1]; exact hj)
  · exact .value ht (c.machine.define_values_self v s) hr

/-- An instruction that computes nothing. -/
theorem steps_emit {b b' : Builder} {ins : Instr} {μ : Machine} {σ : Store} (bound : Nat)
    (ha : m.graph.Ahead b c.block c.rest) (he : b.Emits ins b') (hx : b'.graph.Extends m.graph)
    (hi : Exec.instr m ins c.machine = .ok () μ) (hv : μ.values = c.machine.values)
    (hσ : Holds m μ σ) : ∃ c', m.Steps 1 c c' ∧ Arrives m bound none b' c.machine none σ c' := by
  obtain ⟨rest, hrest, ha'⟩ := ha.emits he hx
  exact ⟨_, .one (step_instr hrest hi), ha', hσ, fun j _ => by rw [hv], .nothing⟩

end Module

/-- A computation with two operands does on scalars what it does on data. -/
theorem Binary.instr_apply {m : Module} {μ : Machine} (op : Binary) {lhs rhs v : Value}
    {x y : Datum} (hx : Carries m.strings μ (some lhs) (some x))
    (hy : Carries m.strings μ (some rhs) (some y)) (tl : lhs.ty = op.operand)
    (tr : rhs.ty = op.operand) : ∃ d s, op.compute? x y = some d ∧
      d.ty = op.result ∧ Represents m.strings s d ∧
      Exec.instr m (op.instr v lhs rhs) μ = .ok () (μ.define v s) := by
  obtain - | ⟨hxt, hxv, hxr⟩ := hx
  obtain - | ⟨hyt, hyv, hyr⟩ := hy
  rw [tl] at hxt
  rw [tr] at hyt
  cases op with
  | arithmetic op =>
    obtain ⟨a, rfl, rfl⟩ := hxr.eq_number hxt
    obtain ⟨b, rfl, rfl⟩ := hyr.eq_number hyt
    refine ⟨_, _, rfl, rfl, .number _, ?_⟩
    rw [Binary.instr, Exec.instr, bind_apply, Exec.readNumber_of hxv]
    dsimp only
    rw [bind_apply, Exec.readNumber_of hyv, op.apply_lower]
    rfl
  | compare op =>
    obtain ⟨a, rfl, rfl⟩ := hxr.eq_number hxt
    obtain ⟨b, rfl, rfl⟩ := hyr.eq_number hyt
    refine ⟨_, _, rfl, rfl, .truth _, ?_⟩
    rw [Binary.instr, Exec.instr, bind_apply, Exec.readNumber_of hxv]
    dsimp only
    rw [bind_apply, Exec.readNumber_of hyv, op.holds_lower]
    rfl
  | connect op =>
    obtain ⟨a, rfl, rfl⟩ := hxr.eq_truth hxt
    obtain ⟨b, rfl, rfl⟩ := hyr.eq_truth hyt
    refine ⟨_, _, rfl, rfl, .truth _, ?_⟩
    rw [Binary.instr, Exec.instr, bind_apply, Exec.readTruth_of hxv]
    dsimp only
    rw [bind_apply, Exec.readTruth_of hyv, op.apply_lower]
    rfl

/-- A printer prints the line of what it is given. -/
theorem Printer.instr_call {m : Module} {μ : Machine} {callee : Printer} {v : Value} {d : Datum}
    (h : Carries m.strings μ (some v) (some d)) (hv : v.ty = callee.parameter) :
    ∃ line, d.line? = some line ∧
      Exec.instr m (.call callee [v]) μ = Exec.writeLine line μ := by
  obtain - | ⟨ht, hval, hr⟩ := h
  rw [hv] at ht
  cases callee with
  | number =>
    obtain ⟨x, rfl, rfl⟩ := hr.eq_number ht
    exact ⟨_, rfl, Exec.call_number hval⟩
  | text =>
    obtain ⟨id, text, rfl, rfl, hid⟩ := hr.eq_text ht
    exact ⟨_, rfl, Exec.call_text hval hid⟩

/-! ## Control -/

/-- The run is at the start of block `k`, with the values below `bound` as they were in `μ`. -/
structure Lands (m : Module) (k bound : Nat) (μ : Machine) (σ : Store) (c : Config) : Prop where
  start : c.AtStart m k
  holds : Holds m c.machine σ
  frame : ∀ j < bound, c.machine.values[j]? = μ.values[j]?

theorem Lands.trans {m : Module} {k k' bound : Nat} {μ : Machine} {σ σ' : Store} {c c' : Config}
    (h : Lands m k bound μ σ c) (h' : Lands m k' bound c.machine σ' c') :
    Lands m k' bound μ σ' c' :=
  ⟨h'.start, h'.holds, fun j hj => (h'.frame j hj).trans (h.frame j hj)⟩

/-- The run follows the evaluation of a tree between two insertion points. -/
def Tree.Simulated (m : Module) (rounds : Nat) (t : Tree) (b : Builder) (v : Option Value)
    (b' : Builder) : Prop :=
  ∀ σ c, m.graph.Ahead b c.block c.rest → Holds m c.machine σ →
    Simulates m rounds c (Arrives m b.nextValue v b' c.machine) (t.evaluate .given rounds σ)

section Control

open Eval

variable {m : Module} {rounds bound : Nat} {b b₁ b₂ : Builder} {c : Config} {σ : Store}

/-- After a condition, the next step is the branch. -/
theorem simulates_test {t : Tree} {v : Value} {k yes no : Nat}
    (h : t.Simulated m rounds b (some v) b₁) (hv : v.ty = .truth)
    (hs : b₁.Switches (.branch v yes no) k b₂) (hx : b₂.graph.Extends m.graph)
    (hyes : yes < m.graph.blocks.length) (hno : no < m.graph.blocks.length)
    (hbound : bound ≤ b.nextValue) (ha : m.graph.Ahead b c.block c.rest)
    (hσ : Holds m c.machine σ) :
    Simulates m rounds c (fun test σ₁ c₁ => ∃ c₂, m.step c₁ = .next c₂ ∧
        Lands m (if test then yes else no) bound c.machine σ₁ c₂)
      (test (t.evaluate .given rounds) σ) := by
  refine (h σ c ha hσ).bind fun d σ₁ c₁ arrived => ?_
  obtain ⟨hrest, hexit⟩ := arrived.ahead.switches hs hx
  cases arrived.carries with
  | value ht hval hr =>
    obtain ⟨test, rfl, rfl⟩ := hr.eq_truth (ht.trans hv)
    have hk : ∃ block, m.graph.blocks[if test then yes else no]? = some block := by
      cases test
      · exact ⟨_, List.getElem?_eq_getElem hno⟩
      · exact ⟨_, List.getElem?_eq_getElem hyes⟩
    obtain ⟨block, hk⟩ := hk
    obtain ⟨c₂, hstep, hstart, hm⟩ := Module.step_branch hrest hexit hval hk
    refine ⟨0, c₁, .refl c₁, c₂, hstep, hstart, ?_, fun j hj => ?_⟩
    · rw [hm]
      exact arrived.holds
    · rw [hm]
      exact arrived.frame j (Nat.lt_of_lt_of_le hj hbound)

/-- A body runs on to the block to which it leads. -/
theorem simulates_body {t : Tree} {w : Option Value} {k next : Nat}
    (h : t.Simulated m rounds b w b₁) (hs : b₁.Switches (.jump next) k b₂)
    (hx : b₂.graph.Extends m.graph) (hnext : next < m.graph.blocks.length)
    (hbound : bound ≤ b.nextValue) (ha : m.graph.Ahead b c.block c.rest)
    (hσ : Holds m c.machine σ) :
    Simulates m rounds c (fun _ σ₁ c₁ => Lands m next bound c.machine σ₁ c₁)
      (perform (t.evaluate .given rounds) σ) := by
  refine (h σ c ha hσ).bind fun d σ₁ c₁ arrived => ?_
  obtain ⟨hrest, hexit⟩ := arrived.ahead.switches hs hx
  obtain ⟨c₂, hstep, hstart, hm⟩ :=
    Module.step_jump hrest hexit (List.getElem?_eq_getElem hnext)
  refine ⟨1, c₂, .one hstep, hstart, ?_, fun j hj => ?_⟩
  · rw [hm]
    exact arrived.holds
  · rw [hm]
    exact arrived.frame j (Nat.lt_of_lt_of_le hj hbound)

/-- A loop from block `k` goes through `yes` and back in each round, and leaves to `no`. Each round
takes at least one step, so a loop that uses up its rounds has taken as many. -/
theorem simulates_repeatWhile {test : Eval Bool} {body : Eval Unit} {k yes no : Nat}
    (ht : ∀ c σ, c.AtStart m k → Holds m c.machine σ → Simulates m rounds c
      (fun b σ₁ c₁ => ∃ c₂, m.step c₁ = .next c₂ ∧
        Lands m (if b then yes else no) bound c.machine σ₁ c₂) (test σ))
    (hb : ∀ c σ, c.AtStart m yes → Holds m c.machine σ → Simulates m rounds c
      (fun _ σ₁ c₁ => Lands m k bound c.machine σ₁ c₁) (body σ))
    {n : Nat} (hn : n ≤ rounds) (hc : c.AtStart m k) (hσ : Holds m c.machine σ) :
    Simulates m n c (fun _ σ₁ c₁ => Lands m no bound c.machine σ₁ c₁)
      (repeatWhile test body n σ) := by
  induction n generalizing c σ with
  | zero => exact ⟨0, c, Nat.le_refl 0, .refl c, by rw [hσ.sink]⟩
  | succ n ih =>
    refine ((ht c σ hc hσ).fewer hn).bind fun b σ₁ c₁ h₁ => ?_
    obtain ⟨c₂, hstep, hland⟩ := h₁
    refine .after_steps (.one hstep) ?_
    cases b with
    | false => exact ⟨0, c₂, .refl c₂, hland⟩
    | true =>
      refine ((hb c₂ σ₁ hland.start hland.holds).fewer (by omega)).bind fun _ σ₂ c₃ hback => ?_
      exact (ih (by omega) hback.start hback.holds).mono fun _ _ _ h => (hland.trans hback).trans h

/-- A loop or a condition: control goes through the blocks `n` and `n + 1` and ends at `n + 2`. -/
theorem simulated_guarded {g : Guard} {t body : Tree} {s : Lowering} {labels : List String}
    {n : Nat} {v : Value} {w : Option Value} {b₃ b₄ b₅ : Builder}
    (h₁ : (s.fork labels).builder.Switches (.jump n) n b₁) (hx₁ : b₁.graph.Extends m.graph)
    (ht : t.Simulated m rounds b₁ (some v) b₂) (hv : v.ty = .truth)
    (h₂ : b₂.Switches (.branch v (n + 1) (n + 2)) (n + 1) b₃) (hx₃ : b₃.graph.Extends m.graph)
    (hle : s.builder.nextValue ≤ b₃.nextValue) (hb : body.Simulated m rounds b₃ w b₄)
    (h₃ : b₄.Switches (.jump (g.exit n)) (n + 2) b₅) (hx₅ : b₅.graph.Extends m.graph) :
    (Tree.mk g.node [t, body]).Simulated m rounds s.builder none b₅ := by
  intro σ c ha hσ
  have hlt₁ := h₁.lt hx₁
  have hlt₂ := h₂.lt hx₃
  have hlt₃ := h₃.lt hx₅
  obtain ⟨hrest, hexit⟩ := (ha.addBlocks labels).switches h₁ hx₁
  obtain ⟨c₁, hstep, hstart, hm⟩ := Module.step_jump hrest hexit (List.getElem?_eq_getElem hlt₁)
  have hσ₁ : Holds m c₁.machine σ := by rwa [hm]
  -- from the block of the condition on, wherever the loop comes from
  have htest : ∀ c σ, c.AtStart m n → Holds m c.machine σ → Simulates m rounds c
      (fun b σ₁ c₁ => ∃ c₂, m.step c₁ = .next c₂ ∧
        Lands m (if b then n + 1 else n + 2) s.builder.nextValue c.machine σ₁ c₂)
      (test (t.evaluate .given rounds) σ) := fun c σ hc hσ =>
    simulates_test ht hv h₂ hx₃ hlt₂ hlt₃ h₁.nextValue.ge (hc.ahead h₁ hx₁) hσ
  have hbody : ∀ c σ, c.AtStart m (n + 1) → Holds m c.machine σ → Simulates m rounds c
      (fun _ σ₁ c₁ => Lands m (g.exit n) s.builder.nextValue c.machine σ₁ c₁)
      (perform (body.evaluate .given rounds) σ) := fun c σ hc hσ =>
    simulates_body hb h₃ hx₅ (by cases g <;> assumption) hle (hc.ahead h₂ hx₃) hσ
  have hend : ∀ σ₂ c₂, Lands m (n + 2) s.builder.nextValue c₁.machine σ₂ c₂ →
      Arrives m s.builder.nextValue none b₅ c.machine none σ₂ c₂ := fun σ₂ c₂ hl =>
    ⟨hl.start.ahead h₃ hx₅, hl.holds, by rw [← hm]; exact hl.frame, .nothing⟩
  refine (Simulates.after_steps (.one hstep) ?_).fewer (Nat.le_add_right rounds 1)
  cases g with
  | loop =>
    show Simulates _ _ _ _ ((Tree.mk .loop [t, body]).evaluate .given rounds σ)
    rw [Tree.evaluate]
    refine (simulates_repeatWhile htest hbody (Nat.le_refl _) hstart hσ₁).bind ?_
    intro _ σ₂ c₂ hl
    exact ⟨0, c₂, .refl c₂, hend σ₂ c₂ hl⟩
  | condition =>
    show Simulates _ _ _ _ ((Tree.mk .condition [t, body]).evaluate .given rounds σ)
    rw [Tree.evaluate]
    refine (htest c₁ σ hstart hσ₁).bind ?_
    rintro b σ₂ c₂ ⟨c₃, hstep', hl⟩
    refine (Simulates.after_steps (.one hstep') ?_).fewer (Nat.le_add_right rounds 1)
    cases b with
    | false => exact ⟨0, c₃, .refl c₃, hend σ₂ c₃ hl⟩
    | true =>
      refine (hbody c₃ σ₂ hl.start hl.holds).bind fun _ σ₃ c₄ hl' => ?_
      exact ⟨0, c₄, .refl c₄, hend σ₃ c₄ (hl.trans hl')⟩

/-- A choice: control goes through the block `n` and one of `n + 1` and `n + 2`, and ends at
`n + 3`. -/
theorem simulated_choice {t yes no : Tree} {s : Lowering} {labels : List String} {n : Nat}
    {v : Value} {w w' : Option Value} {b₃ b₄ b₅ b₆ b₇ : Builder}
    (h₁ : (s.fork labels).builder.Switches (.jump n) n b₁) (hx₁ : b₁.graph.Extends m.graph)
    (ht : t.Simulated m rounds b₁ (some v) b₂) (hv : v.ty = .truth)
    (h₂ : b₂.Switches (.branch v (n + 1) (n + 2)) (n + 1) b₃) (hx₃ : b₃.graph.Extends m.graph)
    (hle₃ : s.builder.nextValue ≤ b₃.nextValue) (hy : yes.Simulated m rounds b₃ w b₄)
    (h₃ : b₄.Switches (.jump (n + 3)) (n + 2) b₅) (hx₅ : b₅.graph.Extends m.graph)
    (hle₅ : s.builder.nextValue ≤ b₅.nextValue) (hn : no.Simulated m rounds b₅ w' b₆)
    (h₄ : b₆.Switches (.jump (n + 3)) (n + 3) b₇) (hx₇ : b₇.graph.Extends m.graph) :
    (Tree.mk .choice [t, yes, no]).Simulated m rounds s.builder none b₇ := by
  intro σ c ha hσ
  obtain ⟨hrest, hexit⟩ := (ha.addBlocks labels).switches h₁ hx₁
  obtain ⟨c₁, hstep, hstart, hm⟩ :=
    Module.step_jump hrest hexit (List.getElem?_eq_getElem (h₁.lt hx₁))
  have hσ₁ : Holds m c₁.machine σ := by rwa [hm]
  have hend : ∀ σ₂ c₂, Lands m (n + 3) s.builder.nextValue c₁.machine σ₂ c₂ →
      Arrives m s.builder.nextValue none b₇ c.machine none σ₂ c₂ := fun σ₂ c₂ hl =>
    ⟨hl.start.ahead h₄ hx₇, hl.holds, by rw [← hm]; exact hl.frame, .nothing⟩
  refine (Simulates.after_steps (.one hstep) ?_).fewer (Nat.le_add_right rounds 1)
  rw [Tree.evaluate]
  refine (simulates_test ht hv h₂ hx₃ (h₂.lt hx₃) (h₃.lt hx₅) h₁.nextValue.ge
    (hstart.ahead h₁ hx₁) hσ₁).bind ?_
  rintro b σ₂ c₂ ⟨c₃, hstep', hl⟩
  refine (Simulates.after_steps (.one hstep') ?_).fewer (Nat.le_add_right rounds 1)
  cases b with
  | false =>
    refine (simulates_body hn h₄ hx₇ (h₄.lt hx₇) hle₅ (hl.start.ahead h₃ hx₅) hl.holds).bind ?_
    intro _ σ₃ c₄ hl'
    exact ⟨0, c₄, .refl c₄, hend σ₃ c₄ (hl.trans hl')⟩
  | true =>
    refine (simulates_body hy h₃ hx₅ (h₄.lt hx₇) hle₃ (hl.start.ahead h₂ hx₃) hl.holds).bind ?_
    intro _ σ₃ c₄ hl'
    exact ⟨0, c₄, .refl c₄, hend σ₃ c₄ (hl.trans hl')⟩

end Control

/-! ## Whole trees -/

namespace Tree

open Eval

/-- **The run of a lowered tree follows its evaluation.** -/
theorem Lowers.simulated {m : Module} (hn : (m.graph.slots.map (·.name)).Nodup) (rounds : Nat)
    {t : Tree} {s s' : Lowering} {v : Option Value} (h : t.Lowers s v s')
    (hx : s'.builder.graph.Extends m.graph) (hs : s'.strings <+: m.strings) (hf : s.ScopeFits) :
    t.Simulated m rounds s.builder v s'.builder := by
  induction h with
  | nothing =>
    intro σ c ha hσ
    rw [evaluate, evaluateAll]
    exact ⟨0, c, .refl c, ha, hσ, fun _ _ => rfl, .nothing⟩
  | last _ ih =>
    intro σ c ha hσ
    rw [evaluate_last]
    exact ih hx hs hf σ c ha hσ
  | next h h' ih ih' =>
    intro σ c ha hσ
    rw [evaluate_next]
    refine (ih (h'.grows.graph.trans hx) (h'.grows.strings.trans hs) hf σ c ha hσ).bind ?_
    intro d σ₁ c₁ arrived
    refine (ih' hx hs (h.grows.scope hf) σ₁ c₁ arrived.ahead arrived.holds).mono ?_
    intro d' σ₂ c₂ arrived'
    exact arrived.trans arrived' h.grows.values
  | program _ ih =>
    intro σ c ha hσ
    rw [evaluate_program]
    exact ih hx hs hf σ c ha hσ
  | @name x s binding entry v b hlook he hv hd =>
    intro σ c ha hσ
    obtain rfl : entry = ⟨x, Lower.typeOf binding.kind⟩ :=
      Option.some.inj (he.symm.trans (hf x binding hlook))
    obtain ⟨content, hc, hcont⟩ := hσ.slots _ _ ((hd.extends.trans hx).slot he)
    obtain ⟨rest, hrest, -⟩ := ha.defines hd hx
    rw [evaluate, bind_apply, lookUp_apply]
    change Contains _ _ content (σ.values x) at hcont
    rw [show Access.given.look σ x = σ.values x from rfl]
    generalize σ.values x = value at hcont ⊢
    cases hcont with
    | nothing =>
      refine ⟨0, c, binding.slot, _, .refl c, ?_, (hd.extends.trans hx).slot he, rfl,
        by rw [hσ.sink]⟩
      refine Module.step_instr_error hrest ?_
      rw [Exec.instr_load, hc]
    | value ht hr =>
      obtain ⟨c', hsteps, harr⟩ := Module.steps_define ha hd hx
        (by rw [Exec.instr_load, hc]) hσ (ht.trans hv.symm) hr
      exact ⟨1, c', hsteps, harr⟩
  | @literal l s v b hv hd =>
    intro σ c ha hσ
    rw [evaluate_literal]
    have ht : (Datum.number l.value).ty = v.ty := hv.symm
    obtain ⟨c', hsteps, harr⟩ := Module.steps_define ha hd hx rfl hσ ht (.number l.value)
    exact ⟨1, c', hsteps, harr⟩
  | @text text s v b hv hd =>
    intro σ c ha hσ
    rw [evaluate]
    have ht : (Datum.text text).ty = v.ty := hv.symm
    have hid := getElem?_of_isPrefix hs (s.interner.getElem?_intern text)
    obtain ⟨c', hsteps, harr⟩ := Module.steps_define ha hd hx rfl hσ ht (.text hid)
    exact ⟨1, c', hsteps, harr⟩
  | @declare x kind s s₁ v b h hv he ih =>
    intro σ c ha hσ
    have hx₁ := (Builder.addSlot_extends _ _).trans (he.extends.trans hx)
    have hfirst := ih hx₁ hs hf σ c ha hσ
    rw [evaluate_first] at hfirst
    obtain ⟨k, c₁, hsteps, arrived⟩ := hfirst
    have hslot :=
      (he.extends.trans hx).slot (List.getElem?_concat_length (l := s₁.builder.graph.slots))
    obtain ⟨content, hc, -⟩ := arrived.holds.slots _ _ hslot
    cases arrived.carries with
    | value ht hval hr =>
      have hholds := arrived.holds.fill hn hslot (ht.trans hv) hr
      have ha₁ : m.graph.Ahead (s₁.builder.addSlot ⟨x, Lower.typeOf kind⟩) c₁.block c₁.rest :=
        arrived.ahead
      obtain ⟨c₂, hstep, arrived'⟩ := Module.steps_emit s₁.builder.nextValue ha₁ he hx
        (Exec.instr_store hval (List.getElem?_eq_some_iff.mp hc).1) rfl hholds
      rw [evaluate]
      exact ⟨k + 1, c₂, hsteps.trans hstep,
        arrived.trans ⟨arrived'.ahead, ⟨arrived'.holds.sink, arrived'.holds.slots⟩, arrived'.frame,
          arrived'.carries⟩ h.grows.values⟩
  | @assign x e s s₁ v binding entry b h hlook hslot hv he ih =>
    intro σ c ha hσ
    obtain rfl : entry = ⟨x, Lower.typeOf binding.kind⟩ :=
      Option.some.inj (hslot.symm.trans (h.grows.scope hf x binding hlook))
    have hslot' := (he.extends.trans hx).slot hslot
    rw [evaluate]
    refine (ih (he.extends.trans hx) hs hf σ c ha hσ).bind fun d σ₁ c₁ arrived => ?_
    obtain ⟨content, hc, -⟩ := arrived.holds.slots _ _ hslot'
    cases arrived.carries with
    | value ht hval hr =>
      have hholds := arrived.holds.fill hn hslot' (ht.trans hv) hr
      obtain ⟨c₂, hstep, arrived'⟩ := Module.steps_emit s₁.builder.nextValue arrived.ahead he hx
        (Exec.instr_store hval (List.getElem?_eq_some_iff.mp hc).1) rfl hholds
      exact ⟨1, c₂, hstep, arrived.trans arrived' h.grows.values⟩
  | step _ ih =>
    intro σ c ha hσ
    rw [evaluate_step]
    exact ih hx hs hf σ c ha hσ
  | @print e s s₁ v callee b h hv he ih =>
    intro σ c ha hσ
    rw [evaluate]
    refine (ih (he.extends.trans hx) hs hf σ c ha hσ).bind fun d σ₁ c₁ arrived => ?_
    cases hd : arrived.carries with
    | value ht hval hr =>
      obtain ⟨line, hline, hinstr⟩ := Printer.instr_call arrived.carries hv
      obtain ⟨hwrite, hholds⟩ := arrived.holds.print line
      obtain ⟨c₂, hstep, arrived'⟩ := Module.steps_emit s₁.builder.nextValue arrived.ahead he hx
        (hinstr.trans hwrite) rfl hholds
      show Simulates m rounds c₁ _ ((Eval.print _ >>= fun _ => pure none) σ₁)
      unfold Eval.print
      rw [hline]
      exact ⟨1, c₂, hstep, arrived.trans arrived' h.grows.values⟩
  | @binary op l r s s₁ s₂ lhs rhs v b hl hr tl tr hv hd ihl ihr =>
    intro σ c ha hσ
    have hx₂ := hd.extends.trans hx
    rw [evaluate_binary]
    refine (ihl (hr.grows.graph.trans hx₂) (hr.grows.strings.trans hs) hf σ c ha hσ).bind ?_
    intro d σ₁ c₁ arrived
    cases d with
    | none => cases arrived.carries
    | some d =>
      refine (ihr hx₂ hs (hl.grows.scope hf) σ₁ c₁ arrived.ahead arrived.holds).bind ?_
      intro d' σ₂ c₂ arrived'
      cases d' with
      | none => cases arrived'.carries
      | some d' =>
        have hlhs := arrived.carries.of_frame (hl.value_lt lhs rfl) arrived'.frame
        obtain ⟨res, sc, happly, ht, hrep, hinstr⟩ :=
          op.instr_apply (v := v) hlhs arrived'.carries tl tr
        obtain ⟨c₃, hstep, arrived''⟩ := Module.steps_define arrived'.ahead hd hx hinstr
          arrived'.holds (ht.trans hv.symm) hrep
        show Simulates m rounds c₂ _ ((demand (op.compute? d d') >>= fun a => pure (some a)) σ₂)
        rw [happly]
        exact ⟨1, c₃, hstep, (arrived.trans arrived' hl.grows.values).trans arrived''
          (hl.grows.values.trans hr.grows.values)⟩
  | @negate e s s₁ operand v b h ht hv hd ih =>
    intro σ c ha hσ
    rw [evaluate]
    refine (ih (hd.extends.trans hx) hs hf σ c ha hσ).bind fun d σ₁ c₁ arrived => ?_
    cases arrived.carries with
    | value htd hval hr =>
      obtain ⟨test, rfl, rfl⟩ := hr.eq_truth (htd.trans ht)
      have htv : (Datum.truth !test).ty = v.ty := hv.symm
      obtain ⟨c₂, hstep, arrived'⟩ := Module.steps_define arrived.ahead hd hx
        (Exec.instr_negate hval) arrived.holds htv (.truth _)
      exact ⟨1, c₂, hstep, arrived.trans arrived' h.grows.values⟩
  | @guarded g t body s s₁ s₂ n v w b₁ b₂ b₃ hlen h₁ ht hv h₂ hb h₃ iht ihb =>
    have hx₂ := hb.grows.graph.trans (h₃.extends.trans hx)
    have hx₁ := ht.grows.graph.trans (h₂.extends.trans hx₂)
    have hs₁ := hb.grows.strings.trans hs
    have hf₁ := (Lowering.grows_fork s _).trans (Lowering.grows_of_switches h₁)
    have hf₂ := (hf₁.trans ht.grows).trans (Lowering.grows_of_switches h₂)
    exact simulated_guarded h₁ hx₁ (iht (h₂.extends.trans hx₂) hs₁ (hf₁.scope hf)) hv h₂ hx₂
      hf₂.values (ihb (h₃.extends.trans hx) hs (hf₂.scope hf)) h₃ hx
  | @choice t yes no s s₁ s₂ s₃ n v w w' b₁ b₂ b₃ b₄ hlen h₁ ht hv h₂ hy h₃ hno h₄ iht ihy ihn =>
    have hx₃ := hno.grows.graph.trans (h₄.extends.trans hx)
    have hx₂ := hy.grows.graph.trans (h₃.extends.trans hx₃)
    have hx₁ := ht.grows.graph.trans (h₂.extends.trans hx₂)
    have hs₂ := hno.grows.strings.trans hs
    have hs₁ := hy.grows.strings.trans hs₂
    have hf₁ := (Lowering.grows_fork s _).trans (Lowering.grows_of_switches h₁)
    have hf₂ := (hf₁.trans ht.grows).trans (Lowering.grows_of_switches h₂)
    have hf₃ := (hf₂.trans hy.grows).trans (Lowering.grows_of_switches h₃)
    exact simulated_choice h₁ hx₁ (iht (h₂.extends.trans hx₂) hs₁ (hf₁.scope hf)) hv h₂ hx₂
      hf₂.values (ihy (h₃.extends.trans hx₃) hs₂ (hf₂.scope hf)) h₃ hx₃ hf₃.values
      (ihn (h₄.extends.trans hx) hs (hf₃.scope hf)) h₄ hx

end Tree

end FlowLang
