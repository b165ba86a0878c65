import FlowLang.Proofs.LoweringRules
import FlowLang.Proofs.MachineSteps

/-!
# Steps of generated code

A run of a finished module is at the insertion point of a builder if what comes next in the run is
what was added there next (`Graph.Ahead`). This module says what the next step is, for an
instruction, a jump, a branch and a return.
-/

namespace FlowLang

theorem getElem?_of_isPrefix {α : Type} {xs ys : List α} (h : xs <+: ys) {i : Nat} {a : α}
    (hi : xs[i]? = some a) : ys[i]? = some a := by
  obtain ⟨more, rfl⟩ := h
  rw [List.getElem?_append_left (List.getElem?_eq_some_iff.mp hi).1, hi]

variable {W : Type}

/-- The run is at the start of block `k`. -/
def Config.AtStart (m : Module) (k : Nat) (c : Config W) : Prop :=
  m.graph.blocks[k]? = some c.block ∧ c.rest = c.block.instrs

/-- At the start of the block to which a switch leads. -/
theorem Config.AtStart.ahead {m : Module} {b b' : Builder} {t : Terminator} {k : Nat} {c : Config W}
    (h : c.AtStart m k) (hs : b.Switches t k b') (hx : b'.graph.Extends m.graph) :
    m.graph.Ahead b' c.block c.rest := by
  obtain ⟨block, hb, ha⟩ := hs.ahead hx
  rw [h.1] at hb
  cases hb
  rwa [h.2]

namespace Module

variable [Writer W] {m : Module} {c : Config W}

theorem step_instr {i : Instr} {rest : List Instr} {μ : Machine W} (hr : c.rest = i :: rest)
    (hi : Exec.instr m i c.machine = .ok () μ) : m.step c = .next ⟨c.block, rest, μ⟩ := by
  unfold step
  rw [hr]
  dsimp only
  rw [hi]

theorem step_instr_error {i : Instr} {rest : List Instr} {e : MachineFault} {μ : Machine W}
    (hr : c.rest = i :: rest) (hi : Exec.instr m i c.machine = .error e μ) :
    m.step c = .ended (.error e) μ := by
  unfold step
  rw [hr]
  dsimp only
  rw [hi]

/-- Control goes on at the start of a block. -/
theorem step_leave {k : Nat} {block : Block} (hr : c.rest = [])
    (hl : Exec.leave c.block c.machine = .ok (.block k) c.machine)
    (hk : m.graph.blocks[k]? = some block) :
    ∃ c', m.step c = .next c' ∧ c'.AtStart m k ∧ c'.machine = c.machine := by
  refine ⟨⟨block, block.instrs, c.machine⟩, ?_, ⟨hk, rfl⟩, rfl⟩
  simp only [step, hr, hl, hk]

theorem step_jump {k : Nat} {block : Block} (hr : c.rest = [])
    (he : c.block.exit? = some (.jump k)) (hk : m.graph.blocks[k]? = some block) :
    ∃ c', m.step c = .next c' ∧ c'.AtStart m k ∧ c'.machine = c.machine := by
  refine step_leave hr ?_ hk
  unfold Exec.leave
  rw [he]
  rfl

theorem step_branch {v : Value} {yes no : Nat} {b : Bool} {block : Block} (hr : c.rest = [])
    (he : c.block.exit? = some (.branch v yes no))
    (hv : c.machine.values[v.index]? = some (.truth b))
    (hk : m.graph.blocks[if b then yes else no]? = some block) :
    ∃ c', m.step c = .next c' ∧ c'.AtStart m (if b then yes else no) ∧ c'.machine = c.machine := by
  refine step_leave hr ?_ hk
  unfold Exec.leave
  rw [he]
  dsimp only
  rw [bind_apply, Exec.readTruth_of hv]
  rfl

theorem step_ret {code : Int} (hr : c.rest = []) (he : c.block.exit? = some (.ret code)) :
    m.step c = .ended (.ok code) c.machine := by
  unfold step Exec.leave
  rw [hr, he]
  rfl

end Module

end FlowLang
