import FlowLang.Graph.Basic
import FlowLang.Decimal.Layout
import FlowLang.Text.Quoted

/-!
# Listings of modules

A module as text, one line for each string constant, slot, label, instruction and terminator.

`Module.listing` is the text of a module that is printed, `Graph.lines` that of its `Function`, and
`Instr.listing` that of an `InstDisplay`; `labelOf` is `label_of`, and the mnemonics are
`binary_name` and `cmp_name`. The text is made as a list of lines, and not written piece by piece.
-/

namespace FlowLang

def Value.listing (v : Value) : String := s!"v{v.index}"

/-- A slot as an operand. -/
def slotListing (i : Nat) : String := s!"ss{i}"

/-- A string constant as an operand. -/
def stringListing (i : Nat) : String := s!"@str{i}"

def Arithmetic.mnemonic : Arithmetic → String
  | .add => "fadd"
  | .sub => "fsub"
  | .mul => "fmul"
  | .div => "fdiv"

def Comparison.mnemonic : Comparison → String
  | .eq => "oeq"
  | .ne => "one"
  | .gt => "ogt"
  | .lt => "olt"
  | .ge => "oge"
  | .le => "ole"

def Connective.mnemonic : Connective → String
  | .and => "and"
  | .or => "or"

def Instr.listing : Instr → String
  | .constant dest x => s!"{dest.listing} = f64const {x.text .marked}"
  | .string dest id => s!"{dest.listing} = global_str {stringListing id}"
  | .load dest slot => s!"{dest.listing} = load.{dest.ty.title} {slotListing slot}"
  | .store slot value => s!"store {slotListing slot}, {value.listing}"
  | .arithmetic dest op lhs rhs =>
    s!"{dest.listing} = {op.mnemonic} {lhs.listing}, {rhs.listing}"
  | .compare dest op lhs rhs =>
    s!"{dest.listing} = fcmp {op.mnemonic} {lhs.listing}, {rhs.listing}"
  | .connect dest op lhs rhs =>
    s!"{dest.listing} = {op.mnemonic} {lhs.listing}, {rhs.listing}"
  | .negate dest operand => s!"{dest.listing} = not {operand.listing}"
  | .call callee args =>
    "call " ++ callee.symbol ++ "(" ++ String.intercalate ", " (args.map Value.listing) ++ ")"

namespace Graph

/-- The label of a block, `?` if there is none. -/
def labelOf (g : Graph) (i : Nat) : String :=
  match g.blocks[i]? with
  | some b => b.label
  | none => "?"

/-- The line of a terminator, or of its absence. -/
def exitListing (g : Graph) : Option Terminator → String
  | some (.jump target) => s!"jump {g.labelOf target}"
  | some (.branch test yes no) => s!"brif {test.listing}, {g.labelOf yes}, {g.labelOf no}"
  | some (.ret code) => s!"return {code}"
  | none => "; missing terminator"

/-- A label line, and below it the instructions and the terminator. -/
def blockLines (g : Graph) (b : Block) : List String :=
  s!"  {b.label}:" :: b.instrs.map ("    " ++ ·.listing) ++ ["    " ++ g.exitListing b.exit?]

/-- The line of the slot with an index. -/
def slotLine (slot : Slot) (i : Nat) : String :=
  s!"    {slotListing i} = stack_slot {slot.ty.title} ; {slot.name}"

def lines (g : Graph) : List String :=
  ("  fn " ++ g.name ++ "() -> i32 \x7b") ::
    g.slots.zipIdx.map (fun (slot, i) => slotLine slot i) ++
    g.blocks.flatMap g.blockLines ++ ["  \x7d"]

end Graph

namespace Module

/-- The line of the string constant with an index. -/
def stringLine (s : String) (i : Nat) : String := s!"  {stringListing i} = {Text.quoted s}"

/-- The lines of a listing. An empty line separates the string constants from the routine. -/
def lines (m : Module) : List String :=
  ("module " ++ m.name ++ " \x7b") ::
    m.strings.zipIdx.map (fun (s, i) => stringLine s i) ++
    (if m.strings.isEmpty then [] else [""]) ++ m.graph.lines ++ ["\x7d"]

/-- The listing, every line ended by a newline. -/
def listing (m : Module) : String := String.join (m.lines.map (· ++ "\n"))

end Module

end FlowLang
