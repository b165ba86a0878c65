import FlowLang.Binary64

/-!
# Operators of flow graphs

The operators of the instructions of flow graphs and their meaning. Syntax trees have operators of
their own (`ArithOp`, `RelOp`, `LogicalOp`), which lowering translates to these.

* `Arithmetic.apply` and `Connective.apply` compute a result from both operands.
* `Comparison.holds` is the ordered comparison: it is false whenever an operand is not a number,
  `ne` included.

`Arithmetic`, `Comparison` and `Connective` are `BinaryOp`, `FloatCmp` with its `eval`, and
`LogicOp`.
-/

namespace FlowLang

/-- The four operations on numbers. -/
inductive Arithmetic where
  | add | sub | mul | div
  deriving DecidableEq

/-- The result of an arithmetic operation. -/
def Arithmetic.apply : Arithmetic → Binary64 → Binary64 → Binary64
  | .add => Binary64.add
  | .sub => Binary64.sub
  | .mul => Binary64.mul
  | .div => Binary64.div

/-- The six comparisons of numbers. -/
inductive Comparison where
  | eq | ne | gt | lt | ge | le
  deriving DecidableEq

/-- Whether a comparison holds between two numbers; never when one of them is not a number. -/
def Comparison.holds (op : Comparison) (x y : Binary64) : Bool :=
  !x.isNaN && !y.isNaN &&
    match op with
    | .eq => x.toFloat == y.toFloat
    | .ne => x.toFloat != y.toFloat
    | .gt => decide (y.toFloat < x.toFloat)
    | .lt => decide (x.toFloat < y.toFloat)
    | .ge => decide (y.toFloat ≤ x.toFloat)
    | .le => decide (x.toFloat ≤ y.toFloat)

/-- The two connectives of truth values. Both operands are always computed. -/
inductive Connective where
  | and | or
  deriving DecidableEq

/-- The result of a connective. -/
def Connective.apply : Connective → Bool → Bool → Bool
  | .and => Bool.and
  | .or => Bool.or

end FlowLang
