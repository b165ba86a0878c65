import FlowLang.Proofs.Declared
import FlowLang.Proofs.Numbering
import FlowLang.Proofs.Simulation

/-!
# Compiling keeps the meaning of programs

`Tree.compile_correct`: the runs (`run`) of a compiled program (`compile_ast`) do what the
evaluation of its tree does. The evaluation says what is expected of the program, and is no part of
it.

* If the tree finishes, then with every large enough limit the run returns 0 with the same output.
* If it gets stuck at a variable, then the run fails at the empty slot of that variable.
* If it runs forever, then every limit cuts the run off, and its output is that of the tree so far.

A variable is stuck here if nothing has given it a value. Its declaration need not have been
executed: `Tree.declared_access_incorrect`.
-/

namespace FlowLang

namespace Tree

/-- The run of a compiled program follows the evaluation of its tree from the first block to the
return. -/
theorem simulates_compiled {t : Tree} {m : Module} (h : t.compile = .ok m) (rounds : Nat) :
    ∃ c, m.start? none = some c ∧
      Simulates m rounds c (fun _ σ c' => m.step c' = .ended (.ok 0) c'.machine ∧
        c'.machine.sink.written = σ.output.toUTF8) (t.evaluate .given rounds .empty) := by
  obtain ⟨hc, hl⟩ := compile_eq_ok.mp h
  obtain ⟨v, s, b, hlow, hends, rfl, -⟩ := lower_eq_ok hl
  have hnames : (b.graph.slots.map (·.name)).Nodup := by
    rw [hends.slots, hlow.slot_names]
    exact declared_nodup hc
  -- the run starts at the beginning of the block `entry`
  obtain ⟨block, hblock, -⟩ := (hlow.grows.graph.trans hends.extends).blocks 0 _ rfl
  have hsim := hlow.simulated (m := ⟨"emj", s.strings, b.graph⟩) hnames rounds hends.extends
    (List.prefix_refl _) (by intro x binding hx; cases hx)
  refine ⟨_, by rw [Module.start?, Module.startFrom?, hblock]; rfl, ?_⟩
  refine (hsim .empty _ ⟨0, _, rfl, rfl, rfl, hblock, rfl⟩ ⟨rfl, fun i slot hi => ?_⟩).mono ?_
  · refine ⟨none, ?_, .nothing⟩
    show (b.graph.slots.map fun _ => none)[i]? = some none
    rw [List.getElem?_map, hi]
    rfl
  · intro d σ c' arrived
    obtain ⟨hrest, hexit⟩ := arrived.ahead.ends hends (.refl _)
    exact ⟨Module.step_ret hrest hexit, by rw [arrived.holds.sink]⟩

section Runs

variable {t : Tree} {m : Module} {rounds : Nat} {σ : Store}

theorem run_of_finished {v : Option Datum} (h : t.compile = .ok m)
    (he : t.evaluate .given rounds .empty = .ok v σ) :
    ∃ k, ∀ limit ≥ k, m.run limit none = ⟨.ok 0, σ.output.toUTF8⟩ := by
  obtain ⟨c, hstart, hsim⟩ := simulates_compiled h rounds
  rw [he] at hsim
  obtain ⟨k, c', hsteps, hend, hw⟩ := hsim
  refine ⟨k + 1, fun limit hlimit => ?_⟩
  rw [Module.run_of_ended hstart hsteps hend hlimit, hw]

theorem run_of_absent {x : String} (h : t.compile = .ok m)
    (he : t.evaluate .given rounds .empty = .error (.absent x) σ) :
    ∃ k i slot, m.graph.slots[i]? = some slot ∧ slot.name = x ∧
      ∀ limit ≥ k, m.run limit none = ⟨.error (.uninitializedSlot i), σ.output.toUTF8⟩ := by
  obtain ⟨c, hstart, hsim⟩ := simulates_compiled h rounds
  rw [he] at hsim
  obtain ⟨k, c', i, slot, hsteps, hend, hslot, hname, hw⟩ := hsim
  refine ⟨k + 1, i, slot, hslot, hname, fun limit hlimit => ?_⟩
  rw [Module.run_of_ended hstart hsteps hend hlimit, hw]

/-- A tree that uses up its rounds runs for at least as many steps. -/
theorem run_of_unfinished (h : t.compile = .ok m)
    (he : t.evaluate .given rounds .empty = .error .rounds σ) :
    (∃ limit ≥ rounds, m.run limit none = ⟨.error (.stepLimit limit), σ.output.toUTF8⟩) ∧
    ∀ limit ≤ rounds, ∃ o more, m.run limit none = ⟨.error (.stepLimit limit), o⟩ ∧
      σ.output.toUTF8 = o ++ more := by
  obtain ⟨c, hstart, hsim⟩ := simulates_compiled h rounds
  rw [he] at hsim
  obtain ⟨k, c', hk, hsteps, hw⟩ := hsim
  refine ⟨⟨k, hk, by rw [Module.run_of_steps hstart hsteps, hw]⟩, fun limit hlimit => ?_⟩
  obtain ⟨j, rfl⟩ := Nat.exists_eq_add_of_le (hlimit.trans hk)
  obtain ⟨c₁, h₁, h₂⟩ := hsteps.split
  obtain ⟨more, hmore⟩ := h₂.written
  exact ⟨_, more, Module.run_of_steps hstart h₁, by rw [← hw]; exact hmore⟩

/-- What a compiled tree does always makes sense. -/
theorem evaluate_ne_nonsense (h : t.compile = .ok m) :
    t.evaluate .given rounds .empty ≠ .error .nonsense σ := by
  intro he
  obtain ⟨c, -, hsim⟩ := simulates_compiled h rounds
  rw [he] at hsim
  exact hsim

end Runs

/-- The tree finishes, gets stuck or runs forever. -/
theorem outcomes {t : Tree} {m : Module} (h : t.compile = .ok m) :
    (∃ o, t.Finishes .given o) ∨ (∃ x o, t.GetsStuck .given x o) ∨ t.RunsForever .given := by
  by_cases hf : t.RunsForever .given
  · exact .inr (.inr hf)
  · obtain ⟨rounds, hr⟩ := not_forall.mp hf
    cases he : t.evaluate .given rounds .empty with
    | ok v σ => exact .inl ⟨_, rounds, v, σ, he, rfl⟩
    | error e σ =>
      cases e with
      | absent x => exact .inr (.inl ⟨x, _, rounds, σ, he, rfl⟩)
      | rounds => exact absurd ⟨σ, he⟩ hr
      | nonsense => exact absurd he (evaluate_ne_nonsense h)

/-- What finishes or runs forever by the rule of executed declarations does so by the other rule. -/
theorem Finishes.given {t : Tree} {o : String} (h : t.Finishes .declared o) :
    t.Finishes .given o := by
  obtain ⟨rounds, v, σ, he, ho⟩ := h
  exact ⟨rounds, v, σ, (evaluate_given fun x σ' => by rw [he]; nofun).trans he, ho⟩

theorem RunsForever.given {t : Tree} (h : t.RunsForever .declared) : t.RunsForever .given := by
  intro rounds
  obtain ⟨σ, he⟩ := h rounds
  exact ⟨σ, (evaluate_given fun x σ' => by rw [he]; nofun).trans he⟩

/-- **Compiling keeps the meaning of programs.** With a limit that is large enough, the run of a
compiled tree returns 0 with the output of the tree, or it fails at the slot of the variable at
which the tree gets stuck, with the output up to there. If the tree runs forever, then every limit
cuts the run off, with an output with which that of the tree begins, and every part of the tree's
output is reached.

A variable can be read once it has been given a value, by its declaration or by an assignment. A
tree that finishes or runs forever when only declarations count does the same.

The register from which values get their numbers must reach the values of the tree: a 32-bit word
does if they are at most `2 ^ 32` (`Counter.reaches_word`). -/
theorem compile_correct {N : Type} [Counter N] {t : Tree} {m : Module} (hN : t.compile N = .ok m)
    (hn : Counter.Reaches N t.valueCount) :
    (∀ o, t.Finishes .given o → ∃ k, ∀ limit ≥ k, m.run limit none = ⟨.ok 0, o.toUTF8⟩) ∧
    (∀ x o, t.GetsStuck .given x o → ∃ k i slot, m.graph.slots[i]? = some slot ∧ slot.name = x ∧
      ∀ limit ≥ k, m.run limit none = ⟨.error (.uninitializedSlot i), o.toUTF8⟩) ∧
    (t.RunsForever .given →
      (∀ limit, ∃ o more, m.run limit none = ⟨.error (.stepLimit limit), o⟩ ∧
        (t.outputWithin .given limit).toUTF8 = o ++ more) ∧
      ∀ rounds, ∃ limit ≥ rounds, m.run limit none =
        ⟨.error (.stepLimit limit), (t.outputWithin .given rounds).toUTF8⟩) ∧
    ((∃ o, t.Finishes .given o) ∨ (∃ x o, t.GetsStuck .given x o) ∨ t.RunsForever .given) ∧
    (∀ o, t.Finishes .declared o → t.Finishes .given o) ∧
    (t.RunsForever .declared → t.RunsForever .given) := by
  have h : t.compile = .ok m := (compile_eq_compile hn).symm.trans hN
  refine ⟨?_, ?_, ?_, outcomes h, fun _ => Finishes.given, RunsForever.given⟩
  · rintro _ ⟨rounds, v, σ, he, rfl⟩
    exact run_of_finished h he
  · rintro x _ ⟨rounds, σ, he, rfl⟩
    exact run_of_absent h he
  · intro hf
    have hout : ∀ rounds, ∃ σ, t.evaluate .given rounds .empty = .error .rounds σ ∧
        t.outputWithin .given rounds = σ.output := by
      intro rounds
      obtain ⟨σ, he⟩ := hf rounds
      exact ⟨σ, he, by rw [outputWithin, he]; rfl⟩
    refine ⟨fun limit => ?_, fun rounds => ?_⟩
    · obtain ⟨σ, he, ho⟩ := hout limit
      rw [ho]
      exact (run_of_unfinished h he).2 limit (Nat.le_refl limit)
    · obtain ⟨σ, he, ho⟩ := hout rounds
      rw [ho]
      exact (run_of_unfinished h he).1

/-! ## A declaration that is not executed -/

open Eval

/-- A condition that does not hold, whatever the two numbers are. -/
def never : Tree :=
  mk (.connect .and) [mk (.compare .gt) [mk (.integer 1) [], mk (.integer 2) []],
    mk .negate [mk (.compare .gt) [mk (.integer 1) [], mk (.integer 2) []]]]

theorem test_never (access : Access) (rounds : Nat) (σ : Store) :
    test (never.evaluate access rounds) σ = .ok false σ := by
  have h : never.evaluate access rounds σ = .ok (some (.truth (LogicalOp.and.apply
      (RelOp.gt.holds (.ofInt 1) (.ofInt 2)) (!RelOp.gt.holds (.ofInt 1) (.ofInt 2))))) σ := by
    unfold never
    simp only [evaluate]
    rfl
  unfold test
  rw [bind_apply, h]
  show EStateM.Result.ok (LogicalOp.and.apply (RelOp.gt.holds (.ofInt 1) (.ofInt 2))
    (!RelOp.gt.holds (.ofInt 1) (.ofInt 2))) σ = _
  cases RelOp.gt.holds (.ofInt 1) (.ofInt 2) <;> rfl

theorem evaluate_condition_never (access : Access) (rounds : Nat) (body : Tree) (σ : Store) :
    (mk .condition [never, body]).evaluate access rounds σ = .ok none σ := by
  rw [evaluate, bind_apply, test_never]
  rfl

/-- A text variable whose declaration is passed over is assigned and printed. -/
def lateAssignment : Tree :=
  mk .program [mk .condition [never, mk .block [mk (.declare "x" .text) []]],
    mk (.assign "x") [mk (.text "a") []], mk .print [mk (.name "x") []]]

theorem compile_lateAssignment : ∃ m, lateAssignment.compile = .ok m :=
  exists_of_isOk (by decide +kernel)

theorem evaluate_lateAssignment (access : Access) :
    lateAssignment.evaluate access 0 .empty =
      (mk .block [mk (.assign "x") [mk (.text "a") []], mk .print [mk (.name "x") []]]).evaluate
        access 0 .empty := by
  unfold lateAssignment
  rw [evaluate_program, evaluate_next, bind_apply, evaluate_condition_never]

theorem finishes_lateAssignment : lateAssignment.Finishes .given "a\n" :=
  ⟨0, none, _, evaluate_lateAssignment .given, rfl⟩

/-- The run of a compiled tree with a declaration that is not executed. -/
theorem lateAssignment_run : ∃ m, lateAssignment.compile UInt32 = .ok m ∧
    ∃ k, ∀ limit ≥ k, m.run limit none = ⟨.ok 0, "a\n".toUTF8⟩ := by
  obtain ⟨m, hm⟩ := exists_of_isOk (x := lateAssignment.compile UInt32) (by decide +kernel)
  have hn : Counter.Reaches UInt32 lateAssignment.valueCount :=
    Counter.reaches_word.mpr (by decide +kernel)
  exact ⟨m, hm, (compile_correct hm hn).1 "a\n" finishes_lateAssignment⟩

/-- If only executed declarations counted, then runs would have to fail that do not. -/
theorem declared_access_incorrect : ¬∀ (t : Tree) (m : Module), t.compile = .ok m → ∀ x o,
    t.GetsStuck .declared x o → ∃ k i, ∀ limit ≥ k,
      m.run limit none = ⟨.error (.uninitializedSlot i), o.toUTF8⟩ := by
  intro h
  obtain ⟨m, hm⟩ := compile_lateAssignment
  obtain ⟨k, i, hk⟩ := h lateAssignment m hm "x" "" ⟨0, _, evaluate_lateAssignment .declared, rfl⟩
  obtain ⟨rounds, v, σ, he, -⟩ := finishes_lateAssignment
  obtain ⟨k', hk'⟩ := run_of_finished hm he
  have hstuck := hk (k + k') (Nat.le_add_right k k')
  rw [hk' (k + k') (Nat.le_add_left k' k)] at hstuck
  cases hstuck

end Tree

end FlowLang
