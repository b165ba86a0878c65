import FlowLang.Proofs.LoweringGrowth
import FlowLang.Proofs.ObjectCheck

/-!
# Modules that lack nothing

A module is complete if the blocks, slots and strings that it names are there, and every block is
terminated. Types do not matter, nor does it matter in which order values are computed.

* `Machine.Suits`: the machine has the slots of the module, and knows only texts of the module.
* `Exec.Walks`: on such a machine a step does not find that something is missing, and leaves such a
  machine.
* `Module.Complete.walks`: in a complete module that holds of whole runs.
* `Module.Used`: the machines that were made for a module, before or after any number of runs.
* **`Object.check_complete`**: what the check for object files (`emit`) accepts, and that it is
  always complete, so an `Interpreter` can walk it.
-/

namespace FlowLang

variable {W : Type} {α β : Type}

/-- Something that the module names is not there. -/
def Malformed.Lacks : Malformed → Prop
  | .unknownBlock _ | .missingTerminator _ | .unknownSlot _ | .unknownString _ => True
  | .wrongType _ _ _ | .noArgument _ | .wrongArgument _ _ => False

/-- The run failed since something that the module names is not there. -/
def MachineFault.Lacks : MachineFault → Prop
  | .malformed reason => reason.Lacks
  | _ => False

/-- The scalar is no text, or one of the module. -/
def Scalar.Known (m : Module) : Scalar → Prop
  | .text id => id < m.strings.length
  | _ => True

theorem Scalar.known_number (m : Module) (x : Binary64) : (number x).Known m := trivial

theorem Scalar.known_truth (m : Module) (b : Bool) : (truth b).Known m := trivial

/-- The machine has the slots of the module, and all texts in it are known. -/
structure Machine.Suits (m : Module) (μ : Machine W) : Prop where
  length : μ.slots.length = m.graph.slots.length
  values : ∀ (i : Nat) (s : Scalar), μ.values[i]? = some s → s.Known m
  slots : ∀ s : Scalar, some s ∈ μ.slots → s.Known m

namespace Machine.Suits

variable {m : Module} {μ : Machine W}

theorem define (h : μ.Suits m) {s : Scalar} (hs : s.Known m) (v : Value) :
    (μ.define v s).Suits m := by
  refine ⟨h.length, fun i s' hi => ?_, h.slots⟩
  rw [define_values] at hi
  split_ifs at hi
  · cases hi
    exact hs
  · exact h.values i s' hi

theorem fill (h : μ.Suits m) {s : Scalar} (hs : s.Known m) (slot : Nat) :
    (μ.fill slot s).Suits m := by
  refine ⟨(List.length_set ..).trans h.length, h.values, fun s' hmem => ?_⟩
  rcases List.mem_or_eq_of_mem_set hmem with hold | hnew
  · exact h.slots s' hold
  · cases hnew
    exact hs

/-- It does not matter where the output goes. -/
theorem redirect {W' : Type} (h : μ.Suits m) (w : W') : Machine.Suits m { μ with sink := w } :=
  ⟨h.length, h.values, h.slots⟩

end Machine.Suits

/-! ## Steps -/

namespace Exec

open Scalar

variable {m : Module}

/-- The machine still suits the module, and the result has a property, or the fault is not that
something is missing. -/
def Leaves (m : Module) (post : α → Prop) : EStateM.Result MachineFault (Machine W) α → Prop
  | .ok a μ => μ.Suits m ∧ post a
  | .error e μ => μ.Suits m ∧ ¬e.Lacks

/-- On a machine that suits the module, the step leaves such a machine, and does not find that
something is missing. -/
def Walks (m : Module) (step : ExecInto W α) (post : α → Prop) : Prop :=
  ∀ μ : Machine W, μ.Suits m → Leaves m post (step μ)

theorem Walks.bind {x : ExecInto W α} {f : α → ExecInto W β} {post : α → Prop} {post' : β → Prop}
    (hx : Walks m x post) (hf : ∀ a, post a → Walks m (f a) post') : Walks m (x >>= f) post' := by
  intro μ h
  have hfirst := hx μ h
  rw [bind_apply]
  cases hr : x μ with
  | ok a μ₁ =>
    rw [hr] at hfirst
    exact hf a hfirst.2 μ₁ hfirst.1
  | error e μ₁ =>
    rw [hr] at hfirst
    exact hfirst

theorem walks_pure {a : α} {post : α → Prop} (h : post a) : Walks m (pure a : ExecInto W α) post :=
  fun _ hμ => ⟨hμ, h⟩

theorem walks_throw {e : MachineFault} {post : α → Prop} (h : ¬e.Lacks) :
    Walks m (throw e : ExecInto W α) post :=
  fun _ hμ => ⟨hμ, h⟩

theorem walks_read (v : Value) : Walks m (read v : ExecInto W Scalar) (·.Known m) := by
  intro μ h
  rw [read_apply]
  cases hv : μ.values[v.index]? with
  | none => exact ⟨h, id⟩
  | some s => exact ⟨h, h.values v.index s hv⟩

theorem walks_readNumber (v : Value) : Walks m (readNumber v : ExecInto W Binary64) fun _ => True :=
  (walks_read v).bind fun s _ => by
    cases s with
    | number x => exact walks_pure trivial
    | truth b => exact walks_throw id
    | text id => exact walks_throw fun h => h

theorem walks_readTruth (v : Value) : Walks m (readTruth v : ExecInto W Bool) fun _ => True :=
  (walks_read v).bind fun s _ => by
    cases s with
    | number x => exact walks_throw id
    | truth b => exact walks_pure trivial
    | text id => exact walks_throw fun h => h

theorem walks_define {s : Scalar} (hs : s.Known m) (v : Value) :
    Walks m (define v s : ExecInto W Unit) fun _ => True :=
  fun _ h => ⟨h.define hs v, trivial⟩

theorem walks_readSlot {slot : Nat} (hslot : slot < m.graph.slots.length) :
    Walks m (readSlot slot : ExecInto W Scalar) (·.Known m) := by
  intro μ h
  rw [readSlot_apply]
  rcases hs : μ.slots[slot]? with _ | _ | s
  · -- the machine has all slots of the module
    have hout := List.getElem?_eq_none_iff.mp hs
    rw [h.length] at hout
    omega
  · exact ⟨h, id⟩
  · exact ⟨h, h.slots s (List.mem_of_getElem? hs)⟩

theorem walks_writeSlot {slot : Nat} {s : Scalar} (hslot : slot < m.graph.slots.length)
    (hs : s.Known m) : Walks m (writeSlot slot s : ExecInto W Unit) fun _ => True := by
  intro μ h
  rw [writeSlot_of_lt (h.length ▸ hslot)]
  exact ⟨h.fill hs slot, trivial⟩

/-- A block that is terminated is left for one of the blocks to which its terminator leads. -/
theorem walks_leave {b : Block} {t : Terminator} (ht : b.exit? = some t) :
    Walks m (leave b : ExecInto W Next) fun next => ∀ k, next = .block k → k ∈ t.successors := by
  unfold leave
  rw [ht]
  cases t with
  | jump target =>
    refine walks_pure ?_
    rintro k ⟨⟩
    exact List.mem_cons_self
  | branch test yes no =>
    refine (walks_readTruth test).bind fun b _ => walks_pure ?_
    rintro k ⟨⟩
    cases b <;> simp [Terminator.successors]
  | ret code =>
    refine walks_pure ?_
    rintro k ⟨⟩

variable [Writer W]

theorem walks_write (text : String) : Walks m (write text : ExecInto W Unit) fun _ => True := by
  intro μ h
  rw [write_apply]
  split
  · exact ⟨h.redirect _, trivial⟩
  · exact ⟨h.redirect _, id⟩

theorem walks_writeLine (text : String) :
    Walks m (writeLine text : ExecInto W Unit) fun _ => True :=
  (walks_write text).bind fun _ _ => walks_write "\n"

theorem walks_call (callee : Printer) (args : List Value) :
    Walks m (call m callee args : ExecInto W Unit) fun _ => True := by
  cases args with
  | nil => exact walks_throw id
  | cons arg args =>
    refine (walks_read arg).bind fun s hs => ?_
    split
    · exact walks_writeLine _
    · -- the text is known, so its string is there
      rw [List.getElem?_eq_getElem hs]
      exact walks_writeLine _
    · exact walks_throw id

/-- An instruction that names only slots and strings of the module. -/
theorem walks_instr {i : Instr} (hslots : ∀ k ∈ i.slots, k < m.graph.slots.length)
    (hstrings : ∀ id ∈ i.strings, id < m.strings.length) :
    Walks m (instr m i : ExecInto W Unit) fun _ => True := by
  cases i with
  | constant dest x => exact walks_define (known_number m x) dest
  | string dest id =>
    exact walks_define (show Scalar.Known m (.text id) from hstrings id List.mem_cons_self) dest
  | load dest slot =>
    exact (walks_readSlot (hslots slot List.mem_cons_self)).bind fun s hs => walks_define hs dest
  | store slot v =>
    exact (walks_read v).bind fun s hs => walks_writeSlot (hslots slot List.mem_cons_self) hs
  | arithmetic dest op lhs rhs =>
    exact (walks_readNumber lhs).bind fun _ _ => (walks_readNumber rhs).bind fun _ _ =>
      walks_define (known_number m _) dest
  | compare dest op lhs rhs =>
    exact (walks_readNumber lhs).bind fun _ _ => (walks_readNumber rhs).bind fun _ _ =>
      walks_define (known_truth m _) dest
  | connect dest op lhs rhs =>
    exact (walks_readTruth lhs).bind fun _ _ => (walks_readTruth rhs).bind fun _ _ =>
      walks_define (known_truth m _) dest
  | negate dest v => exact (walks_readTruth v).bind fun _ _ => walks_define (known_truth m _) dest
  | call callee args => exact walks_call callee args

end Exec

/-! ## Runs -/

namespace Module

variable {m : Module}

/-- Everything that the module names is there. -/
structure Complete (m : Module) : Prop where
  nonempty : m.graph.blocks ≠ []
  exits : ∀ block ∈ m.graph.blocks, ∃ t, block.exit? = some t ∧
    ∀ k ∈ t.successors, k < m.graph.blocks.length
  slots : ∀ block ∈ m.graph.blocks, ∀ ins ∈ block.instrs, ∀ k ∈ ins.slots, k < m.graph.slots.length
  strings : ∀ block ∈ m.graph.blocks, ∀ ins ∈ block.instrs, ∀ id ∈ ins.strings,
    id < m.strings.length

namespace Complete

variable [Writer W]

/-- From the middle of a block on. The induction is on the steps that are left. -/
theorem walks_resume (hm : m.Complete) (limit fuel : Nat) {block : Block} {rest : List Instr}
    (hb : block ∈ m.graph.blocks) (hr : rest ⊆ block.instrs) :
    Exec.Walks m (Exec.resume m limit fuel block rest : ExecInto W Int) fun _ => True := by
  induction fuel generalizing block rest with
  | zero =>
    rw [Exec.resume]
    exact Exec.walks_throw id
  | succ fuel ih =>
    cases rest with
    | cons i rest =>
      obtain ⟨hi, hrest⟩ := List.cons_subset.mp hr
      rw [Exec.resume]
      exact (Exec.walks_instr (hm.slots block hb i hi) (hm.strings block hb i hi)).bind fun _ _ =>
        ih hb hrest
    | nil =>
      obtain ⟨t, ht, htargets⟩ := hm.exits block hb
      rw [Exec.resume]
      refine (Exec.walks_leave ht).bind fun next hnext => ?_
      cases next with
      | stop code => exact Exec.walks_pure trivial
      | block k =>
        have hk := htargets k (hnext k rfl)
        dsimp only
        rw [List.getElem?_eq_getElem hk]
        exact ih (List.getElem_mem hk) (List.Subset.refl _)

/-- **A run of a complete module does not find that something is missing.** -/
theorem walks (hm : m.Complete) (limit : Nat) :
    Exec.Walks m (m.exec limit : ExecInto W Int) fun _ => True := by
  have h0 := List.length_pos_of_ne_nil hm.nonempty
  rw [exec, List.getElem?_eq_getElem h0]
  exact hm.walks_resume limit limit (List.getElem_mem h0) (List.Subset.refl _)

theorem runFrom_suits (hm : m.Complete) (limit : Nat) {μ : Machine W} (h : μ.Suits m) :
    (m.runFrom limit μ).2.Suits m ∧ ∀ e, (m.runFrom limit μ).1.result = .error e → ¬e.Lacks := by
  have hleaves := hm.walks limit μ h
  rw [runFrom_eq]
  cases hr : m.exec limit μ with
  | ok code μ' =>
    rw [hr] at hleaves
    exact ⟨hleaves.1, nofun⟩
  | error e μ' =>
    rw [hr] at hleaves
    refine ⟨hleaves.1, fun e' he => ?_⟩
    cases he
    exact hleaves.2

end Complete

/-- The machines for a module: new ones, and those that have already run it, any number of times.
Each run has its own limit and its own writer. -/
inductive Used (m : Module) : {W : Type} → Machine W → Prop
  | new {W : Type} (w : W) : Used m { m.machine with sink := w }
  | again {W W' : Type} [Writer W] {μ : Machine W} (h : Used m μ) (limit : Nat) (w : W') :
      Used m { (m.runFrom limit μ).2 with sink := w }

theorem Used.suits (hm : m.Complete) {μ : Machine W} (h : m.Used μ) : μ.Suits m := by
  induction h with
  | new w =>
    refine ⟨List.length_map _, fun i s hi => ?_, fun s hs => ?_⟩
    · have hempty : m.machine.values[i]? = none := Std.TreeMap.getElem?_emptyc
      rw [show _ = some s from hi] at hempty
      cases hempty
    · obtain ⟨slot, -, hslot⟩ := List.mem_map.mp hs
      cases hslot
  | again _ limit w ih => exact (hm.runFrom_suits limit ih).1.redirect w

theorem Emittable.complete (h : m.Emittable) : m.Complete := by
  have hat : ∀ block ∈ m.graph.blocks, ∀ ins ∈ block.instrs,
      ∃ i j, m.graph.instrAt? i j = some ins := by
    intro block hb ins hins
    obtain ⟨i, hi⟩ := List.mem_iff_getElem?.mp hb
    obtain ⟨j, hj⟩ := List.mem_iff_getElem?.mp hins
    exact ⟨i, j, Graph.instrAt?_eq_some.mpr ⟨block, hi, hj⟩⟩
  refine ⟨h.nonempty, Graph.verify_eq_ok.mp h.verified, fun block hb ins hins => ?_,
    fun block hb ins hins => ?_⟩
  · obtain ⟨i, j, hij⟩ := hat block hb ins hins
    exact h.slots i j ins hij
  · obtain ⟨i, j, hij⟩ := hat block hb ins hins
    exact h.strings i j ins hij

end Module

/-! ## What the check accepts -/

namespace Object

/-- **What passes the check is complete.** The check passes iff there is a block, every block is
terminated and leads to blocks that exist, the slots and strings that are named exist, and every
operand and every condition is computed further up, in the order of the blocks. A run of what
passes, on a new machine or on one that was used before, does not fail for an unknown block, slot or
string, nor for a missing terminator, whatever its limit and its writer. -/
theorem check_complete (m : Module) :
    (check m = .ok () ↔
      m.graph.blocks ≠ [] ∧
      (∀ block ∈ m.graph.blocks, ∃ t, block.exit? = some t ∧
        ∀ k ∈ t.successors, k < m.graph.blocks.length) ∧
      (∀ i j ins, m.graph.instrAt? i j = some ins →
        (∀ k ∈ ins.slots, k < m.graph.slots.length) ∧ (∀ id ∈ ins.strings, id < m.strings.length) ∧
          ∀ v ∈ ins.reads, m.graph.ComputedBefore i j v.index) ∧
      ∀ i block t, m.graph.blocks[i]? = some block → block.exit? = some t → ∀ v ∈ t.reads,
        m.graph.ComputedBefore i block.instrs.length v.index) ∧
    (check m = .ok () → ∀ (W : Type) [Writer W] (μ : Machine W), m.Used μ → ∀ limit reason,
      (m.runFrom limit μ).1.result = .error (.malformed reason) →
        (∀ k, reason ≠ .unknownBlock k) ∧ (∀ label, reason ≠ .missingTerminator label) ∧
          (∀ k, reason ≠ .unknownSlot k) ∧ ∀ id, reason ≠ .unknownString id) := by
  rw [check_eq_ok]
  refine ⟨⟨fun h => ⟨h.nonempty, Graph.verify_eq_ok.mp h.verified, fun i j ins hins => ?_, ?_⟩, ?_⟩,
    ?_⟩
  · exact ⟨h.slots i j ins hins, h.strings i j ins hins, h.ordered.operands i j ins hins⟩
  · intro i block t hb ht v hv
    exact (Graph.computedBefore_succ hb).mp (h.ordered.tests i block t hb ht v hv)
  · rintro ⟨hne, hexits, hinstrs, htests⟩
    refine ⟨Graph.verify_eq_ok.mpr hexits, hne, fun i j ins h => (hinstrs i j ins h).2.1,
      fun i j ins h => (hinstrs i j ins h).1, fun i j ins h => (hinstrs i j ins h).2.2, ?_⟩
    intro i block t hb ht v hv
    exact (Graph.computedBefore_succ hb).mpr (htests i block t hb ht v hv)
  · intro h W _ μ hμ limit reason hr
    have hlacks := (h.complete.runFrom_suits limit (hμ.suits h.complete)).2 _ hr
    refine ⟨?_, ?_, ?_, ?_⟩ <;>
    · rintro x rfl
      exact hlacks trivial

/-- The number slot is given a text, and the last call needs a value that only a skipped block
computes. -/
def detour : Module :=
  ⟨"detour", ["text"], ⟨"main", [⟨"x", .number⟩],
    [⟨"entry", [.string ⟨0, .number⟩ 0, .store 0 ⟨0, .number⟩], some (.jump 2)⟩,
      ⟨"skipped", [.constant ⟨1, .number⟩ .one], some (.branch ⟨0, .truth⟩ 0 2)⟩,
      ⟨"rest", [.load ⟨2, .truth⟩ 0, .call .text [⟨2, .pointer⟩], .call .number [⟨1, .pointer⟩]],
        some (.ret 0)⟩]⟩⟩

theorem detour_complete :
    check detour = .ok () ∧ (detour.run 10 none).result = .error (.undefinedValue 1) ∧
    ∀ μ : Machine, detour.Used μ → ∀ limit k,
      (detour.runFrom limit μ).1.result ≠ .error (.malformed (.unknownString k)) := by
  have hcheck : check detour = .ok () := by decide +kernel
  refine ⟨hcheck, by decide +kernel, fun μ hμ limit k hr => ?_⟩
  exact ((check_complete detour).2 hcheck Sink μ hμ limit _ hr).2.2.2 k rfl

end Object

end FlowLang
