import FlowLang.Proofs.Typing
import Mathlib.Data.List.DropRight

/-!
# One checker for many programs

A checker (`check`, `reset` of a `SemanticVisitor`) goes on where it stopped: the variables and
faults of earlier programs stay, until it is reset. So it does not matter whether programs are
checked one by one or as one block.

* `Checker.Request`: what can be asked of a checker, and `Checker.after` is the checker after some
  requests.
* `Checker.sinceReset`: the programs that were checked since the last reset.
* `Checker.after_eq`: the checker knows what a fresh one knows after the block of these programs,
  and nothing else.
* **`Checker.check_after`**: so every check reports what a single check of that block would report,
  and reports only grow between resets.
-/

namespace FlowLang.Checker

open FlowLang.Tree (check_mk)

/-- What can be asked of a checker. -/
inductive Request where
  | check (t : Tree)
  | reset
  deriving DecidableEq

/-- The program that a request is about. -/
def Request.program? : Request → Option Tree
  | .check t => some t
  | .reset => none

/-- The checker after one more request. -/
def serve (c : Checker) : Request → Checker
  | .check t => c.check t
  | .reset => c.reset

/-- A new checker after some requests. -/
def after (past : List Request) : Checker := past.foldl serve fresh

/-- The programs checked since the last reset, in order. -/
def sinceReset (past : List Request) : List Tree :=
  (past.rtakeWhile (·.program?.isSome)).filterMap (·.program?)

theorem after_concat (past : List Request) (r : Request) :
    after (past ++ [r]) = (after past).serve r := List.foldl_concat ..

theorem sinceReset_check (past : List Request) (t : Tree) :
    sinceReset (past ++ [.check t]) = sinceReset past ++ [t] := by
  rw [sinceReset, List.rtakeWhile_concat_pos _ _ _ rfl, List.filterMap_append]
  rfl

theorem sinceReset_reset (past : List Request) : sinceReset (past ++ [.reset]) = [] := by
  rw [sinceReset, List.rtakeWhile_concat_neg _ _ _ (by simp [Request.program?]), List.filterMap_nil]

/-- A block has no fault of its own, so it is checked like the programs in it. -/
theorem check_block (c : Checker) (ts : List Tree) :
    c.check (Tree.mk .block ts) = ts.foldl check c := by
  rw [check_mk]
  rfl

/-- **A checker knows the programs since its last reset**, as if they had been one block. -/
theorem after_eq (past : List Request) :
    after past = fresh.check (Tree.mk .block (sinceReset past)) := by
  induction past using List.reverseRecOn with
  | nil => rfl
  | append_singleton past r ih =>
    rw [after_concat]
    cases r with
    | check t => rw [sinceReset_check, check_block, List.foldl_concat, ← check_block, ← ih, serve]
    | reset =>
      rw [sinceReset_reset]
      rfl

/-- What was reported is reported again, as long as there is no reset. -/
theorem faults_serve_checks (c : Checker) (ts : List Tree) :
    c.faults <+: ((ts.map Request.check).foldl serve c).faults := by
  induction ts generalizing c with
  | nil => exact List.prefix_refl _
  | cons t ts ih => exact (faults_check c t).trans (ih (c.check t))

/-- **Every check reports what a fresh checker reports for all programs since the last reset**, this
one included, as one block. Whether it passes, the number of faults and the result are those of this
report. The report of a later check starts with it, if there is no reset between them. -/
theorem check_after (past : List Request) (t : Tree) :
    let c := (after past).check t
    let report := (fresh.check (Tree.mk .block (sinceReset past ++ [t]))).faults
    c.faults = report ∧ (c.isOk ↔ report = []) ∧ c.count = report.length ∧
    c.toExcept = (if report = [] then .ok () else .error report) ∧
    ∀ (more : List Tree) (u : Tree),
      report <+: ((after (past ++ .check t :: more.map .check)).check u).faults := by
  intro c report
  have hc : c = after (past ++ [.check t]) := (after_concat past (.check t)).symm
  have hfaults : c.faults = report := by rw [hc, after_eq, sinceReset_check]
  refine ⟨hfaults, ?_, ?_, ?_, fun more u => ?_⟩
  · rw [isOk, hfaults, List.isEmpty_iff]
  · rw [count, hfaults]
  · rw [toExcept, hfaults]
    simp only [List.isEmpty_iff]
  · have hlater : (after (past ++ .check t :: more.map .check)).check u =
        ((more ++ [u]).map Request.check).foldl serve c := by
      rw [List.append_cons, after, List.foldl_append, ← after, ← hc, List.map_append,
        List.foldl_append]
      rfl
    rw [hlater, ← hfaults]
    exact faults_serve_checks c (more ++ [u])

end FlowLang.Checker
