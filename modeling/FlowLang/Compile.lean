import FlowLang.Token.Scan
import FlowLang.Tree.OfTokens
import FlowLang.Declarations
import FlowLang.Lowering
import FlowLang.Object

/-!
# Compiling programs

The way from a source to a module: tokens, tree, declarations, lowering. Each stage runs only if the
one before it found no fault.

`parseSource` is `parse_source`, `Tree.compile` is `compile_ast`, and `compile` is `compile`.
`CompileFault` is `CompileError` without the faults of the back end, which are in `EmitFault`, and
`CompileFault.diagnostics` is its `diagnostics`. What the stages log is left to `Phase`.
-/

namespace FlowLang

/-- The stage at which a program was refused, and why. -/
inductive CompileFault where
  | scan (fault : ScanFault)
  | tree (fault : SyntaxFault)
  | declarations (faults : List DeclarationFault)
  | lowering (faults : List LoweringFault)
  deriving DecidableEq

namespace CompileFault

/-- The fault in one line of text; several faults are only counted. -/
def message : CompileFault → String
  | .scan fault => fault.message
  | .tree fault => fault.message
  | .declarations faults => s!"{faults.length} semantic error(s)"
  | .lowering faults => s!"{faults.length} code generation error(s)"

/-- One line of text for each fault, in the order in which they were found. -/
def diagnostics : CompileFault → List String
  | .scan fault => [fault.message]
  | .tree fault => [fault.message]
  | .declarations faults => faults.map (·.message)
  | .lowering faults => faults.map (·.message)

end CompileFault

/-- The tree of a source. -/
def parseSource (source : String) : Except CompileFault Tree :=
  match Token.scan source with
  | .error e => .error (.scan e)
  | .ok tokens =>
    match Tree.ofTokens tokens with
    | .error e => .error (.tree e)
    | .ok tree => .ok tree

/-- Checks a tree, and lowers it if it has no fault. -/
def Tree.compile (t : Tree) (N : Type := Nat) [Counter N] : Except CompileFault Module :=
  match (Checker.fresh.check t).toExcept with
  | .error faults => .error (.declarations faults)
  | .ok () =>
    match (t.lower N).result with
    | .error faults => .error (.lowering faults)
    | .ok m => .ok m

/-- The module of a source. -/
def compile (source : String) (N : Type := Nat) [Counter N] : Except CompileFault Module := do
  let tree ← parseSource source
  tree.compile N

end FlowLang
