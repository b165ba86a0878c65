import FlowLang.Lowering
import FlowLang.Proofs.Growth

/-!
# The forms of trees

A tree is a statement list, one of a few forms with the number of children that its node expects, or
irregular. Nodes that are lowered alike are one form here:

* `Literal`: the leaves that stand for a number,
* `Step`: a step up or down, which is an assignment of a sum (`lowerNode_step`),
* `Binary`: the computations with two operands,
* `Guard`: the two nodes with a condition and one body.

`Tree.form_induct` is induction over the forms, and there is one equation of `Tree.lowerNode` for
each.
-/

namespace FlowLang

/-- The leaves that stand for a number. -/
inductive Literal where
  | real (x : Binary64)
  | integer (n : Int)

namespace Literal

def node : Literal → Node
  | .real x => .real x
  | .integer n => .integer n

def value : Literal → Binary64
  | .real x => x
  | .integer n => .ofInt n

end Literal

/-- A step of a variable up or down. -/
inductive Step where
  | up | down

namespace Step

def node : Step → String → Node
  | .up, x => .increment x
  | .down, x => .decrement x

def op : Step → ArithOp
  | .up => .add
  | .down => .sub

end Step

/-- The computations with two operands. -/
inductive Binary where
  | arithmetic (op : ArithOp)
  | compare (op : RelOp)
  | connect (op : LogicalOp)

namespace Binary

def node : Binary → Node
  | .arithmetic op => .arithmetic op
  | .compare op => .compare op
  | .connect op => .connect op

/-- The type of both operands. -/
def operand : Binary → Ty
  | .arithmetic _ | .compare _ => .number
  | .connect _ => .truth

/-- The type of the result. -/
def result : Binary → Ty
  | .arithmetic _ => .number
  | .compare _ | .connect _ => .truth

def use : Binary → Use
  | .arithmetic _ => .arithmetic
  | .compare _ => .comparison
  | .connect _ => .connective

def instr : Binary → Value → Value → Value → Instr
  | .arithmetic op, dest, lhs, rhs => .arithmetic dest op.lower lhs rhs
  | .compare op, dest, lhs, rhs => .compare dest op.lower lhs rhs
  | .connect op, dest, lhs, rhs => .connect dest op.lower lhs rhs

/-- Checks both operands and adds the instruction. -/
def build {N : Type} [Counter N] (op : Binary) (lhs rhs : Value) : Build N Value := do
  Build.require op.use lhs op.operand
  Build.require op.use rhs op.operand
  Build.define op.result (op.instr · lhs rhs)

end Binary

/-- The nodes with a condition and one body. -/
inductive Guard where
  | loop | condition

namespace Guard

def node : Guard → Node
  | .loop => .loop
  | .condition => .condition

/-- Where the body leads, if the three blocks start at `n`: back to the condition, or on. -/
def exit : Guard → Nat → Nat
  | .loop, n => n
  | .condition, n => n + 2

theorem exit_lt (g : Guard) (n : Nat) : g.exit n < n + 3 := by
  cases g <;> simp only [exit] <;> omega

end Guard

/-- The tree of the value that a variable of a kind holds at first. -/
def Kind.first : Kind → Tree
  | .number => .mk (.real .zero) []
  | .text => .mk (.text "") []

namespace Tree

theorem preorderAll_eq (ts : List Tree) : preorderAll ts = ts.flatMap preorder := by
  induction ts with
  | nil => rw [preorderAll]; rfl
  | cons t ts ih => rw [preorderAll, ih, List.flatMap_cons]

/-- The assignment that a step stands for. -/
def stepped (step : Step) (x : String) (e : Tree) : Tree :=
  mk (.assign x) [mk (.arithmetic step.op) [e, mk (.real .one) []]]

/-- Induction over the forms of trees. A step has the hypothesis of the assignment that it stands
for, and a declaration that of its first value. -/
@[elab_as_elim]
theorem form_induct {motive : Tree → Prop}
    (program : ∀ ts, (∀ t ∈ ts, motive t) → motive (mk .program ts))
    (block : ∀ ts, (∀ t ∈ ts, motive t) → motive (mk .block ts))
    (name : ∀ x, motive (mk (.name x) []))
    (literal : ∀ l : Literal, motive (mk l.node []))
    (text : ∀ s, motive (mk (.text s) []))
    (declare : ∀ x kind, motive kind.first → motive (mk (.declare x kind) []))
    (assign : ∀ x e, motive e → motive (mk (.assign x) [e]))
    (step : ∀ (step : Step) x e, motive (stepped step x e) → motive (mk (step.node x) [e]))
    (print : ∀ e, motive e → motive (mk .print [e]))
    (binary : ∀ (op : Binary) l r, motive l → motive r → motive (mk op.node [l, r]))
    (negate : ∀ e, motive e → motive (mk .negate [e]))
    (guarded : ∀ (g : Guard) c body, motive c → motive body → motive (mk g.node [c, body]))
    (choice : ∀ c yes no, motive c → motive yes → motive no → motive (mk .choice [c, yes, no]))
    (irregular : ∀ n ts k, n.arity? = some k → ts.length ≠ k → motive (mk n ts))
    (t : Tree) : motive t := by
  have hstep : ∀ (k : Step) x e, motive e → motive (mk (k.node x) [e]) := fun k x e he =>
    step k x e (assign x _ (binary (.arithmetic k.op) _ _ he (literal (.real .one))))
  refine lowerNode.induct motive (fun _ ts => ∀ t ∈ ts, motive t) program block name
    (fun x => literal (.real x)) (fun n => literal (.integer n)) text (fun x kind => ?_)
    assign print
    (fun op => binary (.arithmetic op)) (hstep .up) (hstep .down) (guarded .loop)
    (guarded .condition) choice (fun op => binary (.compare op)) (fun op => binary (.connect op))
    negate (fun n ts _ _ hname hreal hinteger htext hdeclare hassign hprint hbinary hup hdown hloop
      hcondition hchoice hcompare hconnect hnegate => ?_)
    (fun _ _ ht => by cases ht) (fun _ t ts ht hts => ?_) t
  · cases kind with
    | number => exact declare x _ (literal (.real .zero))
    | text => exact declare x _ (text "")
  · -- the patterns excluded here are those with the expected number of children
    have h₀ : ts.length = 0 → ts = [] := List.length_eq_zero_iff.mp
    have h₁ : ts.length = 1 → ∃ a, ts = [a] := List.length_eq_one_iff.mp
    have h₂ : ts.length = 2 → ∃ a b, ts = [a, b] := List.length_eq_two.mp
    have h₃ : ts.length = 3 → ∃ a b c, ts = [a, b, c] := List.length_eq_three.mp
    cases n with
    | program => contradiction
    | block => contradiction
    | name x => exact irregular _ _ 0 rfl fun h => hname x rfl (h₀ h)
    | real x => exact irregular _ _ 0 rfl fun h => hreal x rfl (h₀ h)
    | integer n => exact irregular _ _ 0 rfl fun h => hinteger n rfl (h₀ h)
    | text s => exact irregular _ _ 0 rfl fun h => htext s rfl (h₀ h)
    | declare x kind => exact irregular _ _ 0 rfl fun h => hdeclare x kind rfl (h₀ h)
    | assign x => exact irregular _ _ 1 rfl fun h => (h₁ h).elim fun a => hassign x a rfl
    | print => exact irregular _ _ 1 rfl fun h => (h₁ h).elim fun a => hprint a rfl
    | increment x => exact irregular _ _ 1 rfl fun h => (h₁ h).elim fun a => hup x a rfl
    | decrement x => exact irregular _ _ 1 rfl fun h => (h₁ h).elim fun a => hdown x a rfl
    | negate => exact irregular _ _ 1 rfl fun h => (h₁ h).elim fun a => hnegate a rfl
    | arithmetic op =>
      exact irregular _ _ 2 rfl fun h => by obtain ⟨a, b, e⟩ := h₂ h; exact hbinary op a b rfl e
    | compare op =>
      exact irregular _ _ 2 rfl fun h => by obtain ⟨a, b, e⟩ := h₂ h; exact hcompare op a b rfl e
    | connect op =>
      exact irregular _ _ 2 rfl fun h => by obtain ⟨a, b, e⟩ := h₂ h; exact hconnect op a b rfl e
    | loop => exact irregular _ _ 2 rfl fun h => by obtain ⟨a, b, e⟩ := h₂ h; exact hloop a b rfl e
    | condition =>
      exact irregular _ _ 2 rfl fun h => by obtain ⟨a, b, e⟩ := h₂ h; exact hcondition a b rfl e
    | choice =>
      exact irregular _ _ 3 rfl fun h => by obtain ⟨a, b, c, e⟩ := h₃ h; exact hchoice a b c rfl e
  · rintro u (_ | ⟨_, hu⟩)
    · exact ht
    · exact hts none u hu

/-! ## Equations of lowering -/

open Lower

variable {N : Type} [Counter N]

theorem lowerNode_literal (l : Literal) :
    (mk l.node []).lowerNode (N := N) = do return some (← build (.constant l.value)) := by
  cases l <;> exact lowerNode.eq_def _

theorem lowerNode_binary (op : Binary) (l r : Tree) : (mk op.node [l, r]).lowerNode (N := N) = do
    let lhs ← valueOf l l.lowerNode
    let rhs ← valueOf r r.lowerNode
    return some (← build (op.build lhs rhs)) := by
  cases op <;> exact lowerNode.eq_def _

/-- A declaration computes the first value, makes a slot and stores the value there. -/
theorem lowerNode_declare (x : String) (kind : Kind) :
    (mk (.declare x kind) []).lowerNode (N := N) = do
    let v ← valueOf kind.first kind.first.lowerNode
    let slot ← build (.createSlot x (typeOf kind))
    build (.store slot v)
    modify fun s => { s with scope := s.scope.declare x ⟨slot, kind⟩ }
    return none := by
  funext s
  rw [lowerNode]
  unfold declare initial valueOf Kind.first
  cases kind with
  | number =>
    dsimp only
    rw [lowerNode]
    simp only [bind_assoc, pure_bind]
  | text =>
    dsimp only
    rw [lowerNode]
    simp only [bind_assoc, pure_bind]

theorem lowerNode_step (k : Step) (x : String) (e : Tree) :
    (mk (k.node x) [e]).lowerNode (N := N) = (stepped k x e).lowerNode := by
  unfold stepped
  cases k with
  | up =>
    show (mk (.increment x) [e]).lowerNode = _
    rw [lowerNode, lowerNode, lowerNode, lowerNode]
    unfold stepBy valueOf
    simp only [bind_assoc, pure_bind]
    rfl
  | down =>
    show (mk (.decrement x) [e]).lowerNode = _
    rw [lowerNode, lowerNode, lowerNode, lowerNode]
    unfold stepBy valueOf
    simp only [bind_assoc, pure_bind]
    rfl

theorem lowerNode_irregular {n : Node} {ts : List Tree} {k : Nat} (hk : n.arity? = some k)
    (hl : ts.length ≠ k) : (mk n ts).lowerNode (N := N) = throw (.arity n.label k ts.length) := by
  rw [lowerNode]
  · rw [hk]
    rfl
  -- every other equation is for a number of children that the node expects
  all_goals
    intros
    subst_vars
    first
    | exact hl (Option.some.inj hk)
    | cases hk

end Tree

/-! ## New blocks -/

variable {N : Type}

/-- New blocks for a loop, condition or choice, whose labels share a number. -/
def Lowering.fork (s : Lowering N) (labels : List String) : Lowering N :=
  { s with nextLabel := s.nextLabel + 1, builder := s.builder.addBlocks labels }

theorem Lowering.fork_length (s : Lowering N) (labels : List String) :
    (s.fork labels).builder.graph.blocks.length = s.builder.graph.blocks.length + labels.length :=
  s.builder.addBlocks_length labels

theorem Builder.addBlocks_addBlocks (b : Builder N) (ls ls' : List String) :
    (b.addBlocks ls).addBlocks ls' = b.addBlocks (ls ++ ls') := by
  simp [addBlocks]

namespace Tree

open Lower

variable [Counter N]

/-- The labels of the three blocks of a loop or a condition. -/
def loopLabels (i : Nat) : List String := [s!"cond{i}", s!"body{i}", s!"contin{i}"]

/-- The labels of the four blocks of a choice. -/
def choiceLabels (i : Nat) : List String :=
  [s!"cond{i}", s!"ifBody{i}", s!"elseBody{i}", s!"contin{i}"]

/-- What a loop or a condition does once its three blocks are there: the body leads to `next`. -/
def lowerGuarded (c b : Tree) (test inside after next : Nat) : Lower N (Option Value) := do
  build (.jump test)
  build (.switchTo test)
  branchOn (valueOf c c.lowerNode) inside after
  body inside next b.lowerNode
  build (.switchTo after)
  return none

/-- What a choice does once its four blocks are there. -/
def lowerChoice (c b e : Tree) (test yes no after : Nat) : Lower N (Option Value) := do
  build (.jump test)
  build (.switchTo test)
  branchOn (valueOf c c.lowerNode) yes no
  body yes after b.lowerNode
  body no after e.lowerNode
  build (.switchTo after)
  return none

omit [Counter N] in
/-- Three new blocks get the next three indices. -/
theorem fork_apply {α : Type} (l₁ l₂ l₃ : Nat → String) (f : Nat → Nat → Nat → Nat → Lower N α)
    (s : Lowering N) :
    (do
      let i ← freshLabel
      let x ← build (.createBlock (l₁ i))
      let y ← build (.createBlock (l₂ i))
      let z ← build (.createBlock (l₃ i))
      f i x y z) s =
      f s.nextLabel s.builder.graph.blocks.length (s.builder.graph.blocks.length + 1)
        (s.builder.graph.blocks.length + 2)
        (s.fork [l₁ s.nextLabel, l₂ s.nextLabel, l₃ s.nextLabel]) := by
  have h₁ := s.builder.addBlocks_length [l₁ s.nextLabel]
  have h₂ := (s.builder.addBlocks [l₁ s.nextLabel]).addBlocks_length [l₂ s.nextLabel]
  rw [h₁] at h₂
  have h₃ : ((s.builder.addBlocks [l₁ s.nextLabel]).addBlocks [l₂ s.nextLabel]).addBlocks
      [l₃ s.nextLabel] = s.builder.addBlocks [l₁ s.nextLabel, l₂ s.nextLabel, l₃ s.nextLabel] := by
    simp only [Builder.addBlocks_addBlocks, List.cons_append, List.nil_append]
  unfold Lowering.fork
  rw [← h₃, ← show _ = s.builder.graph.blocks.length + 1 from h₁,
    ← show _ = s.builder.graph.blocks.length + 2 from h₂]
  rfl

theorem lowerNode_guarded (g : Guard) (c b : Tree) (s : Lowering N) :
    (mk g.node [c, b]).lowerNode s =
      lowerGuarded c b s.builder.graph.blocks.length (s.builder.graph.blocks.length + 1)
        (s.builder.graph.blocks.length + 2) (g.exit s.builder.graph.blocks.length)
        (s.fork (loopLabels s.nextLabel)) := by
  cases g with
  | loop =>
    show (mk .loop [c, b]).lowerNode s = _
    rw [lowerNode]
    exact fork_apply (fun i => s!"cond{i}") (fun i => s!"body{i}") (fun i => s!"contin{i}")
      (fun _ x y z => lowerGuarded c b x y z x) s
  | condition =>
    show (mk .condition [c, b]).lowerNode s = _
    rw [lowerNode]
    exact fork_apply (fun i => s!"cond{i}") (fun i => s!"body{i}") (fun i => s!"contin{i}")
      (fun _ x y z => lowerGuarded c b x y z z) s

theorem lowerNode_choice (c b e : Tree) (s : Lowering N) :
    (mk .choice [c, b, e]).lowerNode s =
      lowerChoice c b e s.builder.graph.blocks.length (s.builder.graph.blocks.length + 1)
        (s.builder.graph.blocks.length + 2) (s.builder.graph.blocks.length + 3)
        (s.fork (choiceLabels s.nextLabel)) := by
  rw [lowerNode]
  refine (fork_apply (fun i => s!"cond{i}") (fun i => s!"ifBody{i}") (fun i => s!"elseBody{i}")
    (fun i x y z => build (.createBlock s!"contin{i}") >>= lowerChoice c b e x y z) s).trans ?_
  have hlen := s.builder.addBlocks_length
    [s!"cond{s.nextLabel}", s!"ifBody{s.nextLabel}", s!"elseBody{s.nextLabel}"]
  have hadd : (s.builder.addBlocks
      [s!"cond{s.nextLabel}", s!"ifBody{s.nextLabel}", s!"elseBody{s.nextLabel}"]).addBlocks
      [s!"contin{s.nextLabel}"] = s.builder.addBlocks (choiceLabels s.nextLabel) :=
    s.builder.addBlocks_addBlocks _ _
  rw [← show _ = s.builder.graph.blocks.length + 3 from hlen]
  unfold Lowering.fork
  rw [← hadd]
  rfl

end Tree

end FlowLang
