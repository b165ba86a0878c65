import FlowLang.Proofs.LoweringForms

/-!
# The meaning of trees

`Tree.evaluate` runs a tree directly, without a graph. It is the reference for compiled programs,
and no part of the compiler.

* There is one flat `Store` of variables, all absent at first. A declaration gives a variable its
  first value, an assignment any other, and a step up or down one more or one less than its child.
* Operands are evaluated from left to right, both of them always. A statement list gives the value
  of its last tree.
* To read a variable that is absent is an obstacle, and so is what makes no sense: a missing value,
  an operand of the wrong kind, a wrong number of children.
* Every loop has a number of rounds. A tree runs forever if no number of them is enough
  (`Tree.RunsForever`).

There are two rules for reading a variable (`Access`): its declaration must have been executed, or
it must have been given a value in any way. `Tree.evaluate_given` says when they differ.
-/

namespace FlowLang

/-- What an expression stands for. -/
inductive Datum where
  | number (x : Binary64)
  | truth (b : Bool)
  | text (s : String)
  deriving DecidableEq

/-- Why an evaluation stops before its end. -/
inductive Obstacle where
  | absent (x : String)
  | rounds
  | nonsense
  deriving DecidableEq

/-- The variables, which declarations have been executed, and what was printed. -/
structure Store where
  values : String → Option Datum
  declared : String → Bool
  output : String

/-- No variables, no output. -/
def Store.empty : Store := ⟨fun _ => none, fun _ => false, ""⟩

/-- When a variable can be read: once its declaration has been executed, or once it has been given a
value in any way. -/
inductive Access where
  | declared | given
  deriving DecidableEq

def Access.look (access : Access) (σ : Store) (x : String) : Option Datum :=
  match access with
  | .declared => if σ.declared x then σ.values x else none
  | .given => σ.values x

/-- What a variable of a kind holds at first. -/
def Kind.initial : Kind → Datum
  | .number => .number .zero
  | .text => .text ""

/-- The result of an operation on numbers. -/
def ArithOp.apply : ArithOp → Binary64 → Binary64 → Binary64
  | .add => Binary64.add
  | .sub => Binary64.sub
  | .mul => Binary64.mul
  | .div => Binary64.div

/-- Whether a comparison holds; never when an operand is not a number. -/
def RelOp.holds (op : RelOp) (x y : Binary64) : Bool :=
  !x.isNaN && !y.isNaN &&
    match op with
    | .eq => x.toFloat == y.toFloat
    | .ne => x.toFloat != y.toFloat
    | .gt => decide (y.toFloat < x.toFloat)
    | .lt => decide (x.toFloat < y.toFloat)
    | .ge => decide (y.toFloat ≤ x.toFloat)
    | .le => decide (x.toFloat ≤ y.toFloat)

/-- The result of a connective. -/
def LogicalOp.apply : LogicalOp → Bool → Bool → Bool
  | .and => Bool.and
  | .or => Bool.or

theorem ArithOp.apply_lower (op : ArithOp) : op.lower.apply = op.apply := by
  cases op <;> rfl

theorem RelOp.holds_lower (op : RelOp) : op.lower.holds = op.holds := by
  cases op <;> rfl

theorem LogicalOp.apply_lower (op : LogicalOp) : op.lower.apply = op.apply := by
  cases op <;> rfl

/-- The result of a computation, if the operands make sense. -/
def Binary.compute? : Binary → Datum → Datum → Option Datum
  | .arithmetic op, .number x, .number y => some (.number (op.apply x y))
  | .compare op, .number x, .number y => some (.truth (op.holds x y))
  | .connect op, .truth x, .truth y => some (.truth (op.apply x y))
  | _, _, _ => none

/-- The text of a printed line. -/
def Datum.line? : Datum → Option String
  | .number x => some (x.text .plain)
  | .text s => some s
  | .truth _ => none

/-- A step of evaluation: a result or an obstacle, and the store after it. -/
abbrev Eval := EStateM Obstacle Store

namespace Eval

variable {α β : Type}

/-- Nonsense, if there is nothing. -/
def demand : Option α → Eval α
  | some a => return a
  | none => throw .nonsense

def lookUp (access : Access) (x : String) : Eval Datum := do
  match access.look (← get) x with
  | some d => return d
  | none => throw (.absent x)

theorem lookUp_apply (access : Access) (x : String) (σ : Store) :
    lookUp access x σ = match access.look σ x with
      | some d => .ok d σ
      | none => .error (.absent x) σ := by
  show (match access.look σ x with
    | some d => pure d
    | none => throw (.absent x) : Eval Datum) σ = _
  cases access.look σ x <;> rfl

def assign (x : String) (d : Datum) : Eval Unit :=
  modify fun σ => { σ with values := fun y => if y = x then some d else σ.values y }

def declare (x : String) (kind : Kind) : Eval Unit := do
  assign x kind.initial
  modify fun σ => { σ with declared := fun y => y = x || σ.declared y }

/-- Prints one line. -/
def print (d : Datum) : Eval Unit := do
  let text ← demand d.line?
  modify fun σ => { σ with output := σ.output ++ (text ++ "\n") }

def truth : Datum → Eval Bool
  | .truth b => return b
  | _ => throw .nonsense

/-- Whether a condition holds. -/
def test (condition : Eval (Option Datum)) : Eval Bool := do
  truth (← demand (← condition))

/-- Runs a body, and forgets its value. -/
def perform (body : Eval (Option Datum)) : Eval Unit := do
  let _ ← body

/-- Runs the body as long as the test holds, if that is the case for fewer rounds than given. -/
def repeatWhile (test : Eval Bool) (body : Eval Unit) : Nat → Eval Unit
  | 0 => throw .rounds
  | n + 1 => do
    if ← test then
      body
      repeatWhile test body n

end Eval

namespace Tree

open Eval

mutual

/-- Runs a tree. -/
def evaluate (access : Access) (rounds : Nat) : Tree → Eval (Option Datum)
  | mk .program ts => evaluateAll access rounds none ts
  | mk .block ts => evaluateAll access rounds none ts
  | mk (.name x) [] => do return some (← lookUp access x)
  | mk (.real x) [] => return some (.number x)
  | mk (.integer n) [] => return some (.number (.ofInt n))
  | mk (.text s) [] => return some (.text s)
  | mk (.declare x kind) [] => do
    Eval.declare x kind
    return none
  | mk (.assign x) [e] => do
    let d ← demand (← evaluate access rounds e)
    Eval.assign x d
    return none
  | mk .print [e] => do
    let d ← demand (← evaluate access rounds e)
    Eval.print d
    return none
  | mk (.arithmetic op) [l, r] => do
    let x ← demand (← evaluate access rounds l)
    let y ← demand (← evaluate access rounds r)
    return some (← demand ((Binary.arithmetic op).compute? x y))
  | mk (.increment x) [e] => do
    let d ← demand (← evaluate access rounds e)
    Eval.assign x (← demand ((Binary.arithmetic .add).compute? d (.number .one)))
    return none
  | mk (.decrement x) [e] => do
    let d ← demand (← evaluate access rounds e)
    Eval.assign x (← demand ((Binary.arithmetic .sub).compute? d (.number .one)))
    return none
  | mk .loop [c, b] => do
    repeatWhile (test (evaluate access rounds c)) (perform (evaluate access rounds b)) rounds
    return none
  | mk .condition [c, b] => do
    if ← test (evaluate access rounds c) then
      perform (evaluate access rounds b)
    return none
  | mk .choice [c, b, e] => do
    if ← test (evaluate access rounds c) then
      perform (evaluate access rounds b)
    else
      perform (evaluate access rounds e)
    return none
  | mk (.compare op) [l, r] => do
    let x ← demand (← evaluate access rounds l)
    let y ← demand (← evaluate access rounds r)
    return some (← demand ((Binary.compare op).compute? x y))
  | mk (.connect op) [l, r] => do
    let x ← demand (← evaluate access rounds l)
    let y ← demand (← evaluate access rounds r)
    return some (← demand ((Binary.connect op).compute? x y))
  | mk .negate [e] => do
    let b ← truth (← demand (← evaluate access rounds e))
    return some (.truth !b)
  | _ => throw .nonsense

/-- Runs trees one after the other. The value is that of the last one. -/
def evaluateAll (access : Access) (rounds : Nat) (last : Option Datum) :
    List Tree → Eval (Option Datum)
  | [] => return last
  | t :: ts => do
    let v ← evaluate access rounds t
    evaluateAll access rounds v ts

end

/-- The tree finishes with an output. -/
def Finishes (access : Access) (t : Tree) (o : String) : Prop :=
  ∃ rounds v σ, t.evaluate access rounds .empty = .ok v σ ∧ σ.output = o

/-- The tree gets stuck at a variable after an output. -/
def GetsStuck (access : Access) (t : Tree) (x : String) (o : String) : Prop :=
  ∃ rounds σ, t.evaluate access rounds .empty = .error (.absent x) σ ∧ σ.output = o

/-- No number of rounds is enough. -/
def RunsForever (access : Access) (t : Tree) : Prop :=
  ∀ rounds, ∃ σ, t.evaluate access rounds .empty = .error .rounds σ

/-- What has been printed when the rounds are used up, or at the end. -/
def outputWithin (access : Access) (rounds : Nat) (t : Tree) : String :=
  (after (t.evaluate access rounds .empty)).output

/-! ## Equations for the forms -/

variable {access : Access} {rounds : Nat}

theorem evaluate_last (t : Tree) :
    (mk .block [t]).evaluate access rounds = t.evaluate access rounds := by
  rw [evaluate, evaluateAll]
  simp only [evaluateAll, bind_pure]

theorem evaluate_next (t u : Tree) (ts : List Tree) :
    (mk .block (t :: u :: ts)).evaluate access rounds =
      t.evaluate access rounds >>= fun _ => (mk .block (u :: ts)).evaluate access rounds := by
  rw [evaluate, evaluateAll, evaluate]
  simp only [evaluateAll]

theorem evaluate_program (ts : List Tree) :
    (mk .program ts).evaluate access rounds = (mk .block ts).evaluate access rounds := by
  rw [evaluate, evaluate]

theorem evaluate_literal (l : Literal) :
    (mk l.node []).evaluate access rounds = pure (some (.number l.value)) := by
  cases l <;> exact evaluate.eq_def ..

theorem evaluate_binary (op : Binary) (l r : Tree) : (mk op.node [l, r]).evaluate access rounds = do
    let x ← demand (← l.evaluate access rounds)
    let y ← demand (← r.evaluate access rounds)
    return some (← demand (op.compute? x y)) := by
  cases op <;> exact evaluate.eq_def ..

theorem evaluate_step (k : Step) (x : String) (e : Tree) :
    (mk (k.node x) [e]).evaluate access rounds = (stepped k x e).evaluate access rounds := by
  unfold stepped
  rw [evaluate, evaluate, evaluate]
  cases k with
  | up =>
    show (mk (.increment x) [e]).evaluate access rounds = _
    rw [evaluate]
    simp only [bind_assoc, pure_bind, demand]
    rfl
  | down =>
    show (mk (.decrement x) [e]).evaluate access rounds = _
    rw [evaluate]
    simp only [bind_assoc, pure_bind, demand]
    rfl

theorem evaluate_first (kind : Kind) :
    kind.first.evaluate access rounds = pure (some kind.initial) := by
  cases kind <;> exact evaluate.eq_def ..

theorem evaluate_irregular {n : Node} {ts : List Tree} {k : Nat} (hk : n.arity? = some k)
    (hl : ts.length ≠ k) : (mk n ts).evaluate access rounds = throw .nonsense := by
  rw [evaluate]
  all_goals
    intros
    rename_i h
    cases h
    first
    | exact hl (Option.some.inj hk)
    | cases hk

end Tree

/-! ## More variables

A more generous rule for reading variables changes nothing but that one is missing. -/

namespace Eval

variable {α β : Type} {doubt : Obstacle → Prop}

/-- Where `x` does not meet an obstacle in doubt, `y` does the same. -/
def Agrees (doubt : Obstacle → Prop) (x y : Eval α) : Prop :=
  ∀ σ, (∀ e σ', x σ = .error e σ' → ¬doubt e) → y σ = x σ

theorem Agrees.refl (x : Eval α) : Agrees doubt x x := fun _ _ => rfl

theorem Agrees.bind {x y : Eval α} {f g : α → Eval β} (hx : Agrees doubt x y)
    (hf : ∀ a, Agrees doubt (f a) (g a)) : Agrees doubt (x >>= f) (y >>= g) := by
  intro σ hσ
  rw [bind_apply] at hσ ⊢
  rw [bind_apply]
  have h := hx σ
  cases hs : x σ with
  | error e σ' =>
    rw [hs] at h hσ
    rw [h fun e' σ'' he => hσ e' σ'' (by cases he; rfl)]
  | ok a σ' =>
    rw [hs] at h hσ
    rw [h fun _ _ => nofun]
    exact hf a σ' hσ

theorem Agrees.test {x y : Eval (Option Datum)} (h : Agrees doubt x y) :
    Agrees doubt (Eval.test x) (Eval.test y) :=
  h.bind fun _ => .refl _

theorem Agrees.perform {x y : Eval (Option Datum)} (h : Agrees doubt x y) :
    Agrees doubt (Eval.perform x) (Eval.perform y) :=
  h.bind fun _ => .refl _

theorem Agrees.repeatWhile {test test' : Eval Bool} {body body' : Eval Unit}
    (ht : Agrees doubt test test') (hb : Agrees doubt body body') (n : Nat) :
    Agrees doubt (Eval.repeatWhile test body n) (Eval.repeatWhile test' body' n) := by
  induction n with
  | zero => exact .refl _
  | succ n ih =>
    refine ht.bind fun b => ?_
    cases b with
    | false => exact .refl _
    | true => exact hb.bind fun _ => ih

/-- A variable whose declaration has been executed has a value. -/
theorem lookUp_declared (x : String) :
    Agrees (∃ x, · = .absent x) (lookUp .declared x) (lookUp .given x) := by
  intro σ hσ
  rw [lookUp_apply] at hσ ⊢
  rw [lookUp_apply]
  unfold Access.look at hσ ⊢
  dsimp only at hσ ⊢
  by_cases h : σ.declared x
  · rw [if_pos h]
  · rw [if_neg h] at hσ
    exact absurd ⟨x, rfl⟩ (hσ (.absent x) σ rfl)

end Eval

namespace Tree

open Eval

section Agreement

variable {doubt : Obstacle → Prop} {access access' : Access} {n : Nat}

theorem agrees_evaluateAll {ts : List Tree}
    (h : ∀ t ∈ ts, Agrees doubt (t.evaluate access n) (t.evaluate access' n))
    (last : Option Datum) :
    Agrees doubt (evaluateAll access n last ts) (evaluateAll access' n last ts) := by
  induction ts generalizing last with
  | nil => rw [evaluateAll, evaluateAll]; exact .refl _
  | cons t ts ih =>
    rw [evaluateAll, evaluateAll]
    exact (h t List.mem_cons_self).bind fun v =>
      ih (fun u hu => h u (List.mem_cons_of_mem t hu)) v

/-- Two evaluations agree up to the obstacles in doubt. -/
theorem evaluate_agrees (hx : ∀ x, Agrees doubt (lookUp access x) (lookUp access' x)) (t : Tree) :
    Agrees doubt (t.evaluate access n) (t.evaluate access' n) := by
  induction t using form_induct with
  | program ts ih => rw [evaluate, evaluate]; exact agrees_evaluateAll ih none
  | block ts ih => rw [evaluate, evaluate]; exact agrees_evaluateAll ih none
  | name x => rw [evaluate, evaluate]; exact (hx x).bind fun _ => .refl _
  | literal l => rw [evaluate_literal, evaluate_literal]; exact .refl _
  | text s => rw [evaluate, evaluate]; exact .refl _
  | declare x kind => rw [evaluate, evaluate]; exact .refl _
  | assign x e ih => rw [evaluate, evaluate]; exact ih.bind fun _ => .refl _
  | step k x e ih => rw [evaluate_step, evaluate_step]; exact ih
  | print e ih => rw [evaluate, evaluate]; exact ih.bind fun _ => .refl _
  | binary op l r ihl ihr =>
    rw [evaluate_binary, evaluate_binary]
    exact ihl.bind fun x => (Agrees.refl _).bind fun _ => ihr.bind fun _ => .refl _
  | negate e ih => rw [evaluate, evaluate]; exact ih.bind fun _ => .refl _
  | guarded g c body ihc ihb =>
    cases g with
    | loop =>
      show Agrees doubt ((mk .loop [c, body]).evaluate access n)
        ((mk .loop [c, body]).evaluate access' n)
      rw [evaluate, evaluate]
      exact (Agrees.repeatWhile ihc.test ihb.perform n).bind fun _ => .refl _
    | condition =>
      show Agrees doubt ((mk .condition [c, body]).evaluate access n)
        ((mk .condition [c, body]).evaluate access' n)
      rw [evaluate, evaluate]
      refine ihc.test.bind fun b => ?_
      cases b with
      | false => exact .refl _
      | true => exact ihb.perform.bind fun _ => .refl _
  | choice c yes no ihc ihy ihn =>
    rw [evaluate, evaluate]
    refine ihc.test.bind fun b => ?_
    cases b with
    | false => exact ihn.perform.bind fun _ => .refl _
    | true => exact ihy.perform.bind fun _ => .refl _
  | irregular m ts k hk hl =>
    rw [evaluate_irregular hk hl, evaluate_irregular hk hl]
    exact .refl _

end Agreement

/-- **Only a missing declaration makes a difference** between the two rules for reading
variables. -/
theorem evaluate_given {n : Nat} {t : Tree} {σ : Store}
    (h : ∀ x σ', t.evaluate .declared n σ ≠ .error (.absent x) σ') :
    t.evaluate .given n σ = t.evaluate .declared n σ := by
  refine evaluate_agrees lookUp_declared t σ ?_
  rintro e σ' he ⟨x, rfl⟩
  exact h x σ' he

end Tree

end FlowLang
