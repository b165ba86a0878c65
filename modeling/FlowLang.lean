import FlowLang.Binary64
import FlowLang.Command
import FlowLang.Command.Arguments
import FlowLang.Compile
import FlowLang.Decimal.Layout
import FlowLang.Decimal.Numeral
import FlowLang.Decimal.Shortest
import FlowLang.Declarations
import FlowLang.Emission
import FlowLang.Folder
import FlowLang.Graph.Basic
import FlowLang.Graph.Builder
import FlowLang.Graph.Counter
import FlowLang.Graph.Interner
import FlowLang.Graph.Listing
import FlowLang.Graph.Operation
import FlowLang.Lowering
import FlowLang.Machine
import FlowLang.Main
import FlowLang.Object
import FlowLang.Operator
import FlowLang.Proofs.Building
import FlowLang.Proofs.Calls
import FlowLang.Proofs.CheckHistory
import FlowLang.Proofs.Completeness
import FlowLang.Proofs.Correctness
import FlowLang.Proofs.DecimalText
import FlowLang.Proofs.DeclarationFaults
import FlowLang.Proofs.Declared
import FlowLang.Proofs.DefinitionOrder
import FlowLang.Proofs.Diagnostics
import FlowLang.Proofs.Drafts
import FlowLang.Proofs.Drawing
import FlowLang.Proofs.Evaluator
import FlowLang.Proofs.FaultKinds
import FlowLang.Proofs.FaultPlaces
import FlowLang.Proofs.Files
import FlowLang.Proofs.GeneratedCode
import FlowLang.Proofs.Grammar
import FlowLang.Proofs.GraphShape
import FlowLang.Proofs.Growth
import FlowLang.Proofs.Initialization
import FlowLang.Proofs.InsertionPoint
import FlowLang.Proofs.Labels
import FlowLang.Proofs.Layout
import FlowLang.Proofs.Legibility
import FlowLang.Proofs.Listing
import FlowLang.Proofs.LoweringForms
import FlowLang.Proofs.LoweringGrowth
import FlowLang.Proofs.LoweringRules
import FlowLang.Proofs.MachineSteps
import FlowLang.Proofs.MachineTyping
import FlowLang.Proofs.NameAgreement
import FlowLang.Proofs.Numbering
import FlowLang.Proofs.ObjectCheck
import FlowLang.Proofs.Positions
import FlowLang.Proofs.Printing
import FlowLang.Proofs.Readers
import FlowLang.Proofs.Recognition
import FlowLang.Proofs.Repetition
import FlowLang.Proofs.RoundTrip
import FlowLang.Proofs.Scanning
import FlowLang.Proofs.Simulation
import FlowLang.Proofs.Soundness
import FlowLang.Proofs.StepLimit
import FlowLang.Proofs.StringData
import FlowLang.Proofs.StringTable
import FlowLang.Proofs.Survey
import FlowLang.Proofs.Truncation
import FlowLang.Proofs.TypeSoundness
import FlowLang.Proofs.Typing
import FlowLang.Proofs.ViablePrefix
import FlowLang.Proofs.Writers
import FlowLang.Scope
import FlowLang.Sink
import FlowLang.Text.Blank
import FlowLang.Text.Extending
import FlowLang.Text.Quoted
import FlowLang.Text.Unprintable
import FlowLang.Token
import FlowLang.Token.Scan
import FlowLang.Tree
import FlowLang.Tree.Diagram
import FlowLang.Tree.OfTokens
