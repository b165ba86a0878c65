import FlowLang.Graph.Builder
import Mathlib.Data.List.Infix

/-!
# What the steps of building do

A step of building (a method of `FunctionBuilder`) is a function that gives a result and the builder
after it. This module says once what each of them does, so that no later proof opens them.

* `Builder.OpenAt`: the insertion point is a block without terminator. There and only there an
  instruction or a terminator can be added (`append_eq_ok`, `define_eq_ok`, `terminate_eq_ok`).
* `Builder.Emits`, `Builder.Defines`, `Builder.Ends` are the three ways to add something.
-/

namespace FlowLang

/-! ## Results -/

section Results

variable {ε σ α β : Type}

theorem bind_apply (x : EStateM ε σ α) (f : α → EStateM ε σ β) (s : σ) :
    (x >>= f) s = match x s with
      | .ok a s' => f a s'
      | .error e s' => .error e s' := rfl

/-- Two steps succeed together iff the first does and the second does after it. -/
theorem bind_eq_ok {x : EStateM ε σ α} {f : α → EStateM ε σ β} {s s' : σ} {b : β} :
    (x >>= f) s = .ok b s' ↔ ∃ a s₁, x s = .ok a s₁ ∧ f a s₁ = .ok b s' := by
  rw [bind_apply]
  cases x s <;> simp

theorem pure_eq_ok {a b : α} {s s' : σ} :
    (pure a : EStateM ε σ α) s = .ok b s' ↔ b = a ∧ s' = s := by
  show EStateM.Result.ok a s = .ok b s' ↔ _
  rw [EStateM.Result.ok.injEq]
  exact and_congr eq_comm eq_comm

theorem except_bind_eq_ok {x : Except ε α} {f : α → Except ε β} {b : β} :
    (x >>= f) = .ok b ↔ ∃ a, x = .ok a ∧ f a = .ok b := by
  cases x with
  | error e => simp [bind, Except.bind]
  | ok a => simp [bind, Except.bind]

theorem exists_of_isOk {x : Except ε α} (h : x.isOk = true) : ∃ a, x = .ok a := by
  cases x with
  | ok a => exact ⟨a, rfl⟩
  | error e => cases h

/-- The state after a step, whether it succeeded or not. -/
def after : EStateM.Result ε σ α → σ
  | .ok _ s => s
  | .error _ s => s

end Results

/-! ## The insertion point -/

/-- The block exists and has no terminator. -/
def Graph.IsOpen (g : Graph) (i : Nat) : Prop :=
  ∃ block, g.blocks[i]? = some block ∧ block.exit? = none

theorem Graph.IsOpen.lt {g : Graph} {i : Nat} (h : g.IsOpen i) : i < g.blocks.length := by
  obtain ⟨block, h, -⟩ := h
  exact (List.getElem?_eq_some_iff.mp h).1

variable {N : Type}

namespace Builder

/-- The insertion point is the open block `i`. -/
def OpenAt (b : Builder N) (i : Nat) : Prop := b.current? = some i ∧ b.graph.IsOpen i

/-- Adds an instruction to block `i`. -/
def push (b : Builder N) (i : Nat) (ins : Instr) : Builder N :=
  b.modifyBlock i fun block => { block with instrs := block.instrs ++ [ins] }

/-- Ends block `i`. -/
def close (b : Builder N) (i : Nat) (t : Terminator) : Builder N :=
  b.modifyBlock i fun block => { block with exit? := some t }

/-- Takes the next number for a value. -/
def advance [Counter N] (b : Builder N) : Builder N :=
  { b with nextValue := Counter.next b.nextValue }

/-- Moves the insertion point. -/
def moveTo (b : Builder N) (i : Nat) : Builder N := { b with current? := some i }

/-- Adds empty blocks at the end. -/
def addBlocks (b : Builder N) (labels : List String) : Builder N :=
  { b with graph := { b.graph with blocks := b.graph.blocks ++ labels.map fun l => ⟨l, [], none⟩ } }

/-- Adds a slot at the end. -/
def addSlot (b : Builder N) (slot : Slot) : Builder N :=
  { b with graph := { b.graph with slots := b.graph.slots ++ [slot] } }

/-- `b'` is `b` with an instruction that computes nothing added at the insertion point. -/
def Emits (b : Builder N) (ins : Instr) (b' : Builder N) : Prop :=
  ∃ i, b.OpenAt i ∧ b' = b.push i ins

/-- `b'` is `b` with an instruction added at the insertion point that computes the new value `v`. -/
def Defines [Counter N] (b : Builder N) (v : Value) (ins : Instr) (b' : Builder N) : Prop :=
  v.index = Counter.index b.nextValue ∧ ∃ i, b.OpenAt i ∧ b' = (b.push i ins).advance

/-- `b'` is `b` with the block of the insertion point ended. -/
def Ends (b : Builder N) (t : Terminator) (b' : Builder N) : Prop :=
  (∀ j ∈ t.successors, j < b.graph.blocks.length) ∧ ∃ i, b.OpenAt i ∧ b' = b.close i t

theorem openBlock_eq_ok {b : Builder N} {i : Nat} : b.openBlock = .ok i ↔ b.OpenAt i := by
  unfold openBlock OpenAt Graph.IsOpen
  cases hc : b.current? with
  | none => simp
  | some k =>
    dsimp only
    cases hb : b.graph.blocks[k]? with
    | none =>
      simp only [reduceCtorEq, Option.some.injEq, false_iff, not_and]
      rintro rfl ⟨block, h, -⟩
      rw [hb] at h
      cases h
    | some block =>
      dsimp only
      rw [Option.some.injEq]
      constructor
      · intro h
        split at h
        · cases h
        · rename_i he
          cases h
          exact ⟨rfl, block, hb, by simpa using he⟩
      · rintro ⟨rfl, block', h, he⟩
        rw [hb] at h
        cases h
        rw [he]
        rfl

theorem OpenAt.unique {b : Builder N} {i j : Nat} (hi : b.OpenAt i) (hj : b.OpenAt j) : i = j :=
  Option.some.inj (hi.1.symm.trans hj.1)

end Builder

/-! ## Steps -/

namespace Build

/-- A step that fails changes nothing. -/
def Atomic {α : Type} (step : Build N α) : Prop := ∀ b e b', step b = .error e b' → b' = b

theorem append_apply (ins : Instr) (b : Builder N) : append ins b = match b.openBlock with
    | .ok i => .ok () (b.push i ins)
    | .error e => .error e b := by
  show (match b.openBlock with
    | .ok i => set (b.push i ins)
    | .error e => throw e : Build N Unit) b = _
  cases b.openBlock <;> rfl

theorem append_eq_ok {ins : Instr} {b b' : Builder N} {u : Unit} :
    append ins b = .ok u b' ↔ b.Emits ins b' := by
  unfold Builder.Emits
  rw [append_apply]
  cases ho : b.openBlock with
  | error e => simp only [← Builder.openBlock_eq_ok, ho, reduceCtorEq, false_and, exists_false]
  | ok i =>
    have hi := Builder.openBlock_eq_ok.mp ho
    constructor
    · intro h
      cases h
      exact ⟨i, hi, rfl⟩
    · rintro ⟨j, hj, rfl⟩
      rw [hj.unique hi]

theorem append_atomic (ins : Instr) : Atomic (append (N := N) ins) := by
  intro b e b' h
  rw [append_apply] at h
  cases ho : b.openBlock with
  | error e => rw [ho] at h; cases h; rfl
  | ok i => rw [ho] at h; cases h

section Numbered

variable [Counter N]

/-- Taking a number leaves the blocks and the insertion point, so the second look for an open block
finds what the first one found. -/
theorem define_apply (ty : Ty) (f : Value → Instr) (b : Builder N) :
    define ty f b = match b.openBlock with
      | .ok i =>
        let dest : Value := ⟨Counter.index b.nextValue, ty⟩
        .ok dest (b.push i (f dest)).advance
      | .error e => .error e b := by
  have hopen : requireOpen b = match b.openBlock with
      | .ok _ => .ok () b
      | .error e => .error e b := by
    show (match b.openBlock with
      | .ok _ => pure ()
      | .error e => throw e : Build N Unit) b = _
    cases b.openBlock <;> rfl
  unfold define
  rw [bind_apply, hopen]
  cases ho : b.openBlock with
  | error e => rfl
  | ok i =>
    have hsame : b.advance.openBlock = .ok i := ho
    show (append (f ⟨Counter.index b.nextValue, ty⟩) >>= fun _ => pure _) b.advance = _
    rw [bind_apply, append_apply, hsame]
    rfl

/-- It is the same to add the instruction first, with one look for an open block, and to take the
number then. -/
theorem define_eq_append (ty : Ty) (f : Value → Instr) : define ty f = (do
    let b ← get
    let dest : Value := ⟨Counter.index b.nextValue, ty⟩
    append (f dest)
    modify Builder.advance
    return dest : Build N Value) := by
  funext b
  rw [define_apply, bind_apply]
  show _ = (append (f ⟨Counter.index b.nextValue, ty⟩) >>= fun _ => _) b
  rw [bind_apply, append_apply]
  cases b.openBlock <;> rfl

theorem define_eq_ok {ty : Ty} {f : Value → Instr} {b b' : Builder N} {v : Value} :
    define ty f b = .ok v b' ↔ v.ty = ty ∧ b.Defines v (f v) b' := by
  unfold Builder.Defines
  rw [define_apply]
  cases ho : b.openBlock with
  | error e =>
    simp only [← Builder.openBlock_eq_ok, ho, reduceCtorEq, false_and, exists_false, and_false]
  | ok i =>
    have hi := Builder.openBlock_eq_ok.mp ho
    constructor
    · intro h
      cases h
      exact ⟨rfl, rfl, i, hi, rfl⟩
    · rintro ⟨rfl, hv, j, hj, rfl⟩
      rw [hj.unique hi, ← hv]

theorem define_atomic (ty : Ty) (f : Value → Instr) : Atomic (define (N := N) ty f) := by
  intro b e b' h
  rw [define_apply] at h
  split at h <;> cases h
  rfl

end Numbered

theorem terminate_apply (t : Terminator) (b : Builder N) :
    terminate t b = match b.graph.missingTarget? t with
      | some i => .error (.unknownBlock i) b
      | none => match b.openBlock with
        | .ok i => .ok () (b.close i t)
        | .error e => .error e b := by
  show (match b.graph.missingTarget? t with
    | some i => throw (.unknownBlock i)
    | none => match b.openBlock with
      | .ok i => set (b.close i t)
      | .error e => throw e : Build N Unit) b = _
  cases b.graph.missingTarget? t with
  | some i => rfl
  | none => cases b.openBlock <;> rfl

theorem terminate_eq_ok {t : Terminator} {b b' : Builder N} {u : Unit} :
    terminate t b = .ok u b' ↔ b.Ends t b' := by
  unfold Builder.Ends
  rw [terminate_apply]
  have hm : b.graph.missingTarget? t = none ↔ ∀ j ∈ t.successors, j < b.graph.blocks.length := by
    unfold Graph.missingTarget?
    simp
  cases ht : b.graph.missingTarget? t with
  | some i =>
    rw [← hm, ht]
    simp only [reduceCtorEq, false_and]
  | none =>
    cases ho : b.openBlock with
    | error e =>
      simp only [← Builder.openBlock_eq_ok, ho, reduceCtorEq, false_and, exists_false, and_false]
    | ok i =>
      have hi := Builder.openBlock_eq_ok.mp ho
      constructor
      · intro h
        cases h
        exact ⟨hm.mp ht, i, hi, rfl⟩
      · rintro ⟨-, j, hj, rfl⟩
        rw [hj.unique hi]

theorem terminate_atomic (t : Terminator) : Atomic (terminate (N := N) t) := by
  intro b e b' h
  rw [terminate_apply] at h
  split at h
  · cases h
    rfl
  · split at h <;> cases h
    rfl

/-- A step after a check of an operand. -/
theorem require_bind_eq_ok {α : Type} {use : Use} {v : Value} {ty : Ty} {step : Build N α}
    {b b' : Builder N} {a : α} :
    (do require use v ty; step) b = .ok a b' ↔ v.ty = ty ∧ step b = .ok a b' := by
  unfold require
  split
  · rename_i h
    exact ⟨fun e => ⟨h, e⟩, fun e => e.2⟩
  · rename_i h
    exact ⟨fun e => (by cases e), fun e => absurd e.1 h⟩

/-- A check of an operand before an atomic step. -/
theorem Atomic.require {α : Type} {step : Build N α} (h : Atomic step) (use : Use) (v : Value)
    (ty : Ty) : Atomic (do Build.require use v ty; step) := by
  intro b e b' he
  rw [bind_apply] at he
  unfold Build.require at he
  split at he
  · rename_i hr
    split at hr
    · cases hr
      exact h _ _ _ he
    · cases hr
  · rename_i hr
    cases he
    split at hr <;> cases hr
    rfl

theorem slotType_apply (i : Nat) (b : Builder N) :
    slotType i b = match b.graph.slots[i]? with
      | some slot => .ok slot.ty b
      | none => .error (.unknownSlot i) b := by
  show (match b.graph.slots[i]? with
    | some slot => pure slot.ty
    | none => throw (.unknownSlot i) : Build N Ty) b = _
  cases b.graph.slots[i]? <;> rfl

/-- A step after looking up the type of a slot. -/
theorem slotType_bind_eq_ok {α : Type} {i : Nat} {step : Ty → Build N α} {b b' : Builder N}
    {a : α} : (do let ty ← slotType i; step ty) b = .ok a b' ↔
      ∃ slot, b.graph.slots[i]? = some slot ∧ step slot.ty b = .ok a b' := by
  rw [bind_apply, slotType_apply]
  cases b.graph.slots[i]? <;> simp

/-- Looking up the type of a slot before an atomic step. -/
theorem Atomic.slotType {α : Type} {step : Ty → Build N α} (h : ∀ ty, Atomic (step ty)) (i : Nat) :
    Atomic (do let ty ← Build.slotType i; step ty) := by
  intro b e b' he
  rw [bind_apply, slotType_apply] at he
  cases hs : b.graph.slots[i]? with
  | none => rw [hs] at he; cases he; rfl
  | some slot => rw [hs] at he; exact h _ _ _ _ he

/-! ### Blocks and slots -/

theorem switchTo_apply (i : Nat) (b : Builder N) : switchTo i b =
    if i < b.graph.blocks.length then .ok () (b.moveTo i) else .error (.unknownBlock i) b := by
  show (if i < b.graph.blocks.length then set (b.moveTo i) else throw (.unknownBlock i)
    : Build N Unit) b = _
  split <;> rfl

theorem switchTo_eq_ok {i : Nat} {b b' : Builder N} {u : Unit} :
    switchTo i b = .ok u b' ↔ i < b.graph.blocks.length ∧ b' = b.moveTo i := by
  rw [switchTo_apply]
  split
  · rename_i h
    exact ⟨fun e => by cases e; exact ⟨h, rfl⟩, fun e => by rw [e.2]⟩
  · rename_i h
    exact ⟨fun e => (by cases e), fun e => absurd e.1 h⟩

theorem switchTo_atomic (i : Nat) : Atomic (switchTo (N := N) i) := by
  intro b e b' h
  rw [switchTo_apply] at h
  split at h <;> cases h
  rfl

theorem createBlock_atomic (label : String) : Atomic (createBlock (N := N) label) := by
  intro b e b' h
  cases h

theorem createSlot_atomic (name : String) (ty : Ty) : Atomic (createSlot (N := N) name ty) := by
  intro b e b' h
  cases h

theorem slotType_atomic (i : Nat) : Atomic (slotType (N := N) i) := by
  intro b e b' h
  rw [slotType_apply] at h
  split at h <;> cases h
  rfl

/-! ### Instructions -/

theorem constant_eq_ok [Counter N] {x : Binary64} {b b' : Builder N} {v : Value} :
    constant x b = .ok v b' ↔ v.ty = .number ∧ b.Defines v (.constant v x) b' :=
  define_eq_ok

theorem string_eq_ok [Counter N] {id : Nat} {b b' : Builder N} {v : Value} :
    string id b = .ok v b' ↔ v.ty = .pointer ∧ b.Defines v (.string v id) b' :=
  define_eq_ok

theorem load_eq_ok [Counter N] {slot : Nat} {b b' : Builder N} {v : Value} :
    load slot b = .ok v b' ↔
      ∃ entry, b.graph.slots[slot]? = some entry ∧ v.ty = entry.ty ∧
        b.Defines v (.load v slot) b' := by
  unfold load
  simp only [slotType_bind_eq_ok, define_eq_ok]

theorem store_eq_ok {slot : Nat} {v : Value} {b b' : Builder N} {u : Unit} :
    store slot v b = .ok u b' ↔
      ∃ entry, b.graph.slots[slot]? = some entry ∧ v.ty = entry.ty ∧
        b.Emits (.store slot v) b' := by
  unfold store
  simp only [slotType_bind_eq_ok, require_bind_eq_ok, append_eq_ok]

/-- Both operands of a computation are checked, and then it is added. -/
theorem checked_eq_ok [Counter N] {use : Use} {lhs rhs : Value} {ty result : Ty} {f : Value → Instr}
    {b b' : Builder N} {v : Value} :
    (do require use lhs ty; require use rhs ty; define result f : Build N Value) b = .ok v b' ↔
      lhs.ty = ty ∧ rhs.ty = ty ∧ v.ty = result ∧ b.Defines v (f v) b' := by
  rw [require_bind_eq_ok, require_bind_eq_ok, define_eq_ok]

theorem negate_eq_ok [Counter N] {operand : Value} {b b' : Builder N} {v : Value} :
    negate operand b = .ok v b' ↔
      operand.ty = .truth ∧ v.ty = .truth ∧ b.Defines v (.negate v operand) b' := by
  unfold negate
  rw [require_bind_eq_ok, define_eq_ok]

theorem call_eq_ok {callee : Printer} {arg : Value} {b b' : Builder N} {u : Unit} :
    call callee arg b = .ok u b' ↔
      arg.ty = callee.parameter ∧ b.Emits (.call callee [arg]) b' := by
  unfold call
  rw [require_bind_eq_ok, append_eq_ok]

theorem branch_eq_ok {test : Value} {yes no : Nat} {b b' : Builder N} {u : Unit} :
    branch test yes no b = .ok u b' ↔ test.ty = .truth ∧ b.Ends (.branch test yes no) b' := by
  unfold branch
  rw [require_bind_eq_ok, terminate_eq_ok]

theorem load_atomic [Counter N] (slot : Nat) : Atomic (load (N := N) slot) :=
  Atomic.slotType (fun ty => define_atomic ty _) slot

theorem store_atomic (slot : Nat) (v : Value) : Atomic (store (N := N) slot v) :=
  Atomic.slotType (fun ty => (append_atomic _).require .store v ty) slot

theorem call_atomic (callee : Printer) (arg : Value) : Atomic (call (N := N) callee arg) :=
  (append_atomic _).require _ _ _

end Build

end FlowLang
