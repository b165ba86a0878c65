import FlowLang.Token
import FlowLang.Tree

/-!
# Reading trees from tokens

The grammar, with `*` for any number and `?` for at most one:

    program     = statement*
    block       = "{" statement* "}"
    statement   = ("num" | "str") name ";"
                | "print" expression ";"
                | "while" "(" expression ")" block
                | "if" "(" expression ")" block ("else" block)?
                | name ("=" expression | "++" | "--") ";"
    expression  = disjunction
    disjunction = conjunction ("||" conjunction)*
    conjunction = negation ("&&" negation)*
    negation    = "!" negation | comparison
    comparison  = sum (("==" | "!=" | ">" | "<" | ">=" | "<=") sum)?
    sum         = product (("+" | "-") product)*
    product     = signed (("*" | "/") signed)*
    signed      = ("+" | "-")? atom
    atom        = integer | real | text | name | "(" expression ")"

Chains of operators lean to the left. A plus sign and parentheses leave no trace in the tree; a
minus sign subtracts from zero. Every reader returns the tokens that it left, together with the fact
that there are fewer of them than before.

`ofTokens` is `parse` of a `Parser`, and the readers are its methods: `statement` is `parse_stmt`,
`block` is `parse_block`, `parenthesized` is `parse_condition`, `expectName` is `expect_ident`,
`skip?` is `consume`. The four methods for chains (`parse_or`, `parse_and`, `parse_add`,
`parse_mul`) are one reader, `chainFrom`, with the chain as a parameter; `parse_not`,
`parse_relational`, `parse_unary` and `parse_primary` are the other levels of `expressionAt`. The
parser keeps a position; here the tokens that are left are handed on.
-/

namespace FlowLang

/-- What a reader looked for. -/
inductive Expected where
  | symbol (s : Symbol)
  | name
  | expression
  | action
  deriving DecidableEq

/-- How a message names what was looked for. -/
def Expected.title : Expected → String
  | .symbol s => s.title
  | .name => "Ident"
  | .expression => "expression"
  | .action => "Equal, Increment or Decrement"

/-- Where reading stopped: what was looked for, and the tokens from there on. -/
structure SyntaxFault where
  expected : Expected
  rest : List Token
  deriving DecidableEq

/-- The fault in one line of text. -/
def SyntaxFault.message (e : SyntaxFault) : String :=
  match e.rest with
  | [] => s!"unexpected end of input (was expecting {e.expected.title})"
  | t :: _ =>
    s!"line {t.line}: unexpected token {t.lexeme.describe} (was expecting {e.expected.title})"

namespace Tree

/-- Something read, and the tokens after it, fewer than `bound`. -/
structure Parsed (α : Type) (bound : Nat) where
  value : α
  rest : List Token
  fits : rest.length < bound

/-- The same tokens left, for another thing read. -/
def Parsed.as {α β : Type} {m n : Nat} (p : Parsed α m) (b : β) (h : m ≤ n) : Parsed β n :=
  ⟨b, p.rest, Nat.lt_of_lt_of_le p.fits h⟩

/-! ## Single tokens -/

/-- Takes the next token if `f` has a use for its lexeme. -/
def next? {α : Type} (f : Lexeme → Option α) : List Token → Option (α × List Token)
  | [] => none
  | t :: rest => (f t.lexeme).map (·, rest)

theorem next?_length {α : Type} {f : Lexeme → Option α} {ts rest : List Token} {a : α}
    (h : next? f ts = some (a, rest)) : rest.length < ts.length := by
  cases ts with
  | nil => simp [next?] at h
  | cons t ts =>
    obtain ⟨_, _, h⟩ := Option.map_eq_some_iff.1 h
    cases h
    exact Nat.lt_succ_self _

/-- Takes the next token if its lexeme is `l`. -/
def skip? (l : Lexeme) (ts : List Token) : Option (List Token) :=
  (next? (fun m => if m = l then some () else none) ts).map (·.2)

theorem skip?_length {l : Lexeme} {ts rest : List Token} (h : skip? l ts = some rest) :
    rest.length < ts.length := by
  obtain ⟨_, taken, rfl⟩ := Option.map_eq_some_iff.1 h
  exact next?_length taken

/-- Takes a symbol that has to come next. -/
def expect (s : Symbol) (ts : List Token) : Except SyntaxFault (Parsed Unit ts.length) :=
  match h : skip? (.symbol s) ts with
  | some rest => .ok ⟨(), rest, skip?_length h⟩
  | none => .error ⟨.symbol s, ts⟩

/-- The variable that a lexeme names. -/
def nameOf? : Lexeme → Option String
  | .name x => some x
  | _ => none

/-- Takes a name that has to come next. -/
def expectName (ts : List Token) : Except SyntaxFault (Parsed String ts.length) :=
  match h : next? nameOf? ts with
  | some (x, rest) => .ok ⟨x, rest, next?_length h⟩
  | none => .error ⟨.name, ts⟩

/-! ## Expressions -/

/-- Levels of expressions that are chains of operators. -/
inductive Chain where
  | disjunction | conjunction | sum | product

/-- The levels of expressions, from the loosest to the tightest. -/
inductive Level where
  | chain (c : Chain)
  | negation
  | comparison
  | signed
  | atom

/-- The level of the operands in a chain. -/
def Chain.operand : Chain → Level
  | .disjunction => .chain .conjunction
  | .conjunction => .negation
  | .sum => .chain .product
  | .product => .signed

/-- The operators of a chain. -/
def Chain.operator? : Chain → Lexeme → Option Node
  | .disjunction, .symbol .either => some (.connect .or)
  | .conjunction, .symbol .both => some (.connect .and)
  | .sum, .symbol .plus => some (.arithmetic .add)
  | .sum, .symbol .minus => some (.arithmetic .sub)
  | .product, .symbol .star => some (.arithmetic .mul)
  | .product, .symbol .slash => some (.arithmetic .div)
  | _, _ => none

/-- The operators of a comparison. -/
def comparison? : Lexeme → Option RelOp
  | .symbol .equal => some .eq
  | .symbol .notEqual => some .ne
  | .symbol .greater => some .gt
  | .symbol .less => some .lt
  | .symbol .greaterEqual => some .ge
  | .symbol .lessEqual => some .le
  | _ => none

/-- The leaf that a lexeme stands for. -/
def leaf? : Lexeme → Option Node
  | .integer n => some (.integer n)
  | .real x => some (.real x)
  | .text s => some (.text s)
  | .name x => some (.name x)
  | _ => none

/-- How far a level is from the tightest one. -/
def Level.rank : Level → Nat
  | .chain .disjunction => 7
  | .chain .conjunction => 6
  | .negation => 5
  | .comparison => 4
  | .chain .sum => 3
  | .chain .product => 2
  | .signed => 1
  | .atom => 0

theorem Chain.operand_rank (c : Chain) : c.operand.rank < (Level.chain c).rank := by
  cases c <;> decide

theorem Level.rank_lt (l : Level) : l.rank < 8 := by
  cases l with
  | chain c => cases c <;> decide
  | _ => decide

mutual

/-- Reads an expression of a level. -/
def expressionAt (l : Level) (ts : List Token) : Except SyntaxFault (Parsed Tree ts.length) :=
  match l with
  | .chain c => do
    have := c.operand_rank
    let first ← expressionAt c.operand ts
    have := first.fits
    let all ← chainFrom c first.value first.rest
    return all.as all.value (by omega)
  | .negation =>
    match h : skip? (.symbol .bang) ts with
    | some rest => do
      have := skip?_length h
      let operand ← expressionAt .negation rest
      return operand.as (.mk .negate [operand.value]) (by omega)
    | none => expressionAt .comparison ts
  | .comparison => do
    let left ← expressionAt (.chain .sum) ts
    have := left.fits
    match h : next? comparison? left.rest with
    | some (op, rest) => do
      have := next?_length h
      let right ← expressionAt (.chain .sum) rest
      return right.as (.mk (.compare op) [left.value, right.value]) (by omega)
    | none => return left
  | .signed =>
    match h : skip? (.symbol .plus) ts with
    | some rest => do
      have := skip?_length h
      let operand ← expressionAt .atom rest
      return operand.as operand.value (by omega)
    | none =>
      match h : skip? (.symbol .minus) ts with
      | some rest => do
        have := skip?_length h
        let operand ← expressionAt .atom rest
        let zero := .mk (.integer 0) []
        return operand.as (.mk (.arithmetic .sub) [zero, operand.value]) (by omega)
      | none => expressionAt .atom ts
  | .atom =>
    match h : skip? (.symbol .openParen) ts with
    | some rest => do
      have := skip?_length h
      let inner ← expressionAt (.chain .disjunction) rest
      have := inner.fits
      let close ← expect .closeParen inner.rest
      return close.as inner.value (by omega)
    | none =>
      match h : next? leaf? ts with
      | some (leaf, rest) => .ok ⟨.mk leaf [], rest, next?_length h⟩
      | none => .error ⟨.expression, ts⟩
termination_by 8 * ts.length + l.rank
decreasing_by
  all_goals simp_all [Level.rank]
  all_goals omega

/-- Reads the rest of a chain whose operands so far are joined in `left`. -/
def chainFrom (c : Chain) (left : Tree) (ts : List Token) :
    Except SyntaxFault (Parsed Tree (ts.length + 1)) :=
  match h : next? c.operator? ts with
  | some (op, rest) => do
    have := next?_length h
    let right ← expressionAt c.operand rest
    have := right.fits
    let all ← chainFrom c (.mk op [left, right.value]) right.rest
    return all.as all.value (by omega)
  | none => .ok ⟨left, ts, Nat.lt_succ_self _⟩
termination_by 8 * ts.length
decreasing_by
  all_goals have := c.operand.rank_lt
  all_goals omega

end

/-- Reads an expression. -/
def expression (ts : List Token) : Except SyntaxFault (Parsed Tree ts.length) :=
  expressionAt (.chain .disjunction) ts

/-! ## Statements -/

/-- Reads an expression between parentheses. -/
def parenthesized (ts : List Token) : Except SyntaxFault (Parsed Tree ts.length) := do
  let opening ← expect .openParen ts
  let inner ← expression opening.rest
  let close ← expect .closeParen inner.rest
  have := opening.fits
  have := inner.fits
  return close.as inner.value (by omega)

/-- Reads a declaration after its keyword. -/
def declaration (kind : Kind) (ts : List Token) : Except SyntaxFault (Parsed Tree ts.length) := do
  let x ← expectName ts
  let close ← expect .semicolon x.rest
  have := x.fits
  return close.as (.mk (.declare x.value kind) []) (by omega)

/-- Reads what is to be printed. -/
def printed (ts : List Token) : Except SyntaxFault (Parsed Tree ts.length) := do
  let value ← expression ts
  let close ← expect .semicolon value.rest
  have := value.fits
  return close.as (.mk .print [value.value]) (by omega)

/-- Reads what is to be done with the variable `x`. -/
def action (x : String) (ts : List Token) : Except SyntaxFault (Parsed Tree ts.length) :=
  match h : skip? (.symbol .assign) ts with
  | some rest => do
    have := skip?_length h
    let value ← expression rest
    have := value.fits
    let close ← expect .semicolon value.rest
    return close.as (.mk (.assign x) [value.value]) (by omega)
  | none =>
    match h : skip? (.symbol .increment) ts with
    | some rest => do
      have := skip?_length h
      let close ← expect .semicolon rest
      return close.as (.mk (.increment x) [.mk (.name x) []]) (by omega)
    | none =>
      match h : skip? (.symbol .decrement) ts with
      | some rest => do
        have := skip?_length h
        let close ← expect .semicolon rest
        return close.as (.mk (.decrement x) [.mk (.name x) []]) (by omega)
      | none => .error ⟨.action, ts⟩

mutual

/-- Reads a statement. -/
def statement (ts : List Token) : Except SyntaxFault (Parsed Tree ts.length) :=
  match ts with
  | [] => .error ⟨.name, []⟩
  | t :: rest =>
    match t.lexeme with
    | .keyword .num => do
      let s ← declaration .number rest
      return s.as s.value (Nat.le_succ _)
    | .keyword .str => do
      let s ← declaration .text rest
      return s.as s.value (Nat.le_succ _)
    | .keyword .print => do
      let s ← printed rest
      return s.as s.value (Nat.le_succ _)
    | .keyword .loop => do
      let test ← parenthesized rest
      have := test.fits
      let body ← block test.rest
      return body.as (.mk .loop [test.value, body.value]) (by simp only [List.length_cons]; omega)
    | .keyword .condition => do
      let test ← parenthesized rest
      have := test.fits
      let body ← block test.rest
      have := body.fits
      match h : skip? (.keyword .alternative) body.rest with
      | some after => do
        have := skip?_length h
        let other ← block after
        return other.as (.mk .choice [test.value, body.value, other.value])
          (by simp only [List.length_cons]; omega)
      | none =>
        return body.as (.mk .condition [test.value, body.value])
          (by simp only [List.length_cons]; omega)
    | .name x => do
      let s ← action x rest
      return s.as s.value (Nat.le_succ _)
    | _ => .error ⟨.name, t :: rest⟩
termination_by 2 * ts.length
decreasing_by
  all_goals simp only [List.length_cons]
  all_goals omega

/-- Reads a block. -/
def block (ts : List Token) : Except SyntaxFault (Parsed Tree ts.length) := do
  let opening ← expect .openBrace ts
  have := opening.fits
  let items ← blockItems opening.rest
  return items.as (.mk .block items.value) (by omega)
termination_by 2 * ts.length
decreasing_by omega

/-- Reads statements up to the brace that closes their block. -/
def blockItems (ts : List Token) : Except SyntaxFault (Parsed (List Tree) ts.length) :=
  match h : skip? (.symbol .closeBrace) ts with
  | some rest => .ok ⟨[], rest, skip?_length h⟩
  | none =>
    if ts.isEmpty then .error ⟨.symbol .closeBrace, ts⟩
    else do
      let first ← statement ts
      have := first.fits
      let others ← blockItems first.rest
      return others.as (first.value :: others.value) (by omega)
termination_by 2 * ts.length + 1
decreasing_by
  all_goals omega

end

/-- Reads statements up to the last token. -/
def statements (ts : List Token) : Except SyntaxFault (List Tree) :=
  if ts.isEmpty then .ok []
  else do
    let first ← statement ts
    have := first.fits
    let others ← statements first.rest
    return first.value :: others
termination_by ts.length

/-- The tree of a program. -/
def ofTokens (ts : List Token) : Except SyntaxFault Tree := do
  let items ← statements ts
  return .mk .program [.mk .block items]

end Tree

end FlowLang
