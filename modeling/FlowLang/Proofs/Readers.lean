import FlowLang.Proofs.Grammar

/-!
# Readers

The functions that read trees return the tokens that are left together with a bound on their number.
Without the bound they are programs in a monad, put together from a few things: `pure`, `>>=`,
`Reader.fail`, `Reader.on`, which looks at one token, and `Reader.atEnd`. There is one equation for
each reader (`readAt_negation`, `readStatement_eq`, ...), so what holds of these few things holds of
all readers.

`Level.induct` goes from each level of expressions to the next looser one.
-/

namespace FlowLang

/-- A program that takes tokens, or says what it looked for and where. -/
abbrev Reader (α : Type) := StateT (List Token) (Except SyntaxFault) α

namespace Reader

open FlowLang.Tree (Parsed next? skip?)

variable {α β : Type} {n : List Token → Nat}

/-- What was read and what is left, without the bound. -/
def view {n : Nat} (x : Except SyntaxFault (Parsed α n)) : Except SyntaxFault (α × List Token) :=
  x.map fun p => (p.value, p.rest)

/-- The reader of a function that bounds the number of tokens left. -/
def of (r : (ts : List Token) → Except SyntaxFault (Parsed α (n ts))) : Reader α :=
  fun ts => view (r ts)

/-- Looked for something that is not there. -/
def fail (x : Expected) : Reader α := fun ts => .error ⟨x, ts⟩

/-- Takes the next token if `f` has a use for its lexeme, and goes on accordingly. -/
def on (f : Lexeme → Option α) (yes : α → Reader β) (no : Reader β) : Reader β := fun ts =>
  match next? f ts with
  | some (a, rest) => yes a rest
  | none => no ts

/-- The use of one lexeme only. -/
def only (l : Lexeme) : Lexeme → Option Unit := fun m => if m = l then some () else none

/-- Goes one way at the end of the tokens, and another way before it. -/
def atEnd (yes no : Reader α) : Reader α := fun ts => if ts.isEmpty then yes ts else no ts

/-- Takes a symbol that has to come next. -/
def take (s : Symbol) : Reader Unit := on (only (.symbol s)) (fun _ => pure ()) (fail (.symbol s))

theorem of_eq_ok {r : (ts : List Token) → Except SyntaxFault (Parsed α (n ts))}
    {ts rest : List Token} {a : α} (h : of r ts = .ok (a, rest)) :
    ∃ p, r ts = .ok p ∧ p.value = a ∧ p.rest = rest := by
  unfold of view at h
  cases hr : r ts with
  | error e => simp [hr, Except.map] at h
  | ok p =>
    simp only [hr, Except.map, Except.ok.injEq, Prod.mk.injEq] at h
    exact ⟨p, rfl, h⟩

theorem of_length {r : (ts : List Token) → Except SyntaxFault (Parsed α (n ts))}
    {ts rest : List Token} {a : α} (h : of r ts = .ok (a, rest)) : rest.length < n ts := by
  obtain ⟨p, -, -, rfl⟩ := of_eq_ok h
  exact p.fits

theorem bind_of_ok {r : Reader α} {s : α → Reader β} {ts rest : List Token} {a : α}
    (h : r ts = .ok (a, rest)) : (r >>= s) ts = s a rest := by
  simp [bind, StateT.bind, h, Except.bind]

theorem bind_of_error {r : Reader α} {s : α → Reader β} {ts : List Token} {e : SyntaxFault}
    (h : r ts = .error e) : (r >>= s) ts = .error e := by
  simp [bind, StateT.bind, h, Except.bind]

theorem exists_of_bind {r : Reader α} {s : α → Reader β} {ts rest : List Token} {b : β}
    (h : (r >>= s) ts = .ok (b, rest)) :
    ∃ a mid, r ts = .ok (a, mid) ∧ s a mid = .ok (b, rest) := by
  cases hr : r ts with
  | error e => cases (bind_of_error hr).symm.trans h
  | ok p =>
    obtain ⟨a, mid⟩ := p
    exact ⟨a, mid, rfl, (bind_of_ok hr).symm.trans h⟩

/-- One reading after another. -/
theorem view_bind {m : Nat} {r : (ts : List Token) → Except SyntaxFault (Parsed α (n ts))}
    {ts : List Token} {f : Parsed α (n ts) → Except SyntaxFault (Parsed β m)} {s : α → Reader β}
    (h : ∀ p, view (f p) = s p.value p.rest) : view (r ts >>= f) = (of r >>= s) ts := by
  cases hr : r ts with
  | error e => exact (bind_of_error (by simp [of, view, hr, Except.map])).symm
  | ok p =>
    have hp : of r ts = .ok (p.value, p.rest) := by simp only [of, view, hr, Except.map]
    rw [bind_of_ok hp]
    exact h p

/-- Another bound makes no difference. -/
theorem view_as {m n : Nat} {x : Except SyntaxFault (Parsed α m)} (h : m ≤ n) :
    view (x >>= fun p => pure (p.as p.value h)) = view x := by
  cases x <;> rfl

theorem on_of_some {f : Lexeme → Option α} {yes : α → Reader β} {no : Reader β} {t : Token}
    {a : α} (h : f t.lexeme = some a) (rest : List Token) :
    on f yes no (t :: rest) = yes a rest := by
  simp [on, next?, h]

theorem on_of_none {f : Lexeme → Option α} {yes : α → Reader β} {no : Reader β} {ts : List Token}
    (h : ∀ t ∈ ts.head?, f t.lexeme = none) : on f yes no ts = no ts := by
  cases ts with
  | nil => rfl
  | cons t ts => simp [on, next?, h t rfl]

theorem on_of_next? {f : Lexeme → Option α} {yes : α → Reader β} {no : Reader β}
    {ts rest : List Token} {a : α} (h : next? f ts = some (a, rest)) :
    on f yes no ts = yes a rest := by
  simp [on, h]

theorem on_of_next?_none {f : Lexeme → Option α} {yes : α → Reader β} {no : Reader β}
    {ts : List Token} (h : next? f ts = none) : on f yes no ts = no ts := by
  simp [on, h]

theorem on_of_skip? {l : Lexeme} {yes : Unit → Reader β} {no : Reader β} {ts rest : List Token}
    (h : skip? l ts = some rest) : on (only l) yes no ts = yes () rest := by
  obtain ⟨⟨_, _⟩, hn, rfl⟩ := Option.map_eq_some_iff.mp h
  exact on_of_next? hn

theorem on_of_skip?_none {l : Lexeme} {yes : Unit → Reader β} {no : Reader β} {ts : List Token}
    (h : skip? l ts = none) : on (only l) yes no ts = no ts :=
  on_of_next?_none (Option.map_eq_none_iff.mp h)

theorem of_expect (s : Symbol) : of (Tree.expect s) = take s := by
  funext ts
  rw [of, Tree.expect, take]
  split
  · rw [on_of_skip? ‹_›]
    rfl
  · rw [on_of_skip?_none ‹_›]
    rfl

theorem take_eq_ok {s : Symbol} {ts rest : List Token} {u : Unit} (h : take s ts = .ok (u, rest)) :
    ∃ t, ts = t :: rest ∧ t.lexeme = .symbol s := by
  rw [← of_expect] at h
  obtain ⟨p, hp, -, rfl⟩ := of_eq_ok h
  exact Tree.expect_ok hp

end Reader

namespace Tree

open Reader

/-! ## Expressions -/

/-- From each level to the next looser one. -/
@[elab_as_elim]
theorem Level.induct {motive : Level → Prop} (atom : motive .atom)
    (signed : motive .atom → motive .signed)
    (chain : ∀ c : Chain, motive c.operand → motive (.chain c))
    (comparison : motive (.chain .sum) → motive .comparison)
    (negation : motive .comparison → motive .negation) (l : Level) : motive l := by
  have hsigned := signed atom
  have hsum := chain .sum (chain .product hsigned)
  have hcomparison := comparison hsum
  have hnegation := negation hcomparison
  cases l with
  | chain c =>
    cases c with
    | disjunction => exact chain .disjunction (chain .conjunction hnegation)
    | conjunction => exact chain .conjunction hnegation
    | sum => exact hsum
    | product => exact chain .product hsigned
  | negation => exact hnegation
  | comparison => exact hcomparison
  | signed => exact hsigned
  | atom => exact atom

/-- Reads an expression of a level. -/
def readAt (l : Level) : Reader Tree := .of (expressionAt l)

/-- Reads the rest of a chain. -/
def readChain (c : Chain) (left : Tree) : Reader Tree := .of (chainFrom c left)

theorem readAt_chain (c : Chain) :
    readAt (.chain c) = (do
      let first ← readAt c.operand
      readChain c first) := by
  funext ts
  rw [readAt, Reader.of, expressionAt]
  exact view_bind fun first => view_as _

theorem readChain_eq (c : Chain) (left : Tree) :
    readChain c left = on c.operator?
      (fun op => do
        let right ← readAt c.operand
        readChain c (mk op [left, right]))
      (pure left) := by
  funext ts
  rw [readChain, Reader.of, chainFrom]
  split
  · rw [on_of_next? ‹_›]
    exact view_bind fun right => view_as _
  · rw [on_of_next?_none ‹_›]
    rfl

theorem readAt_negation :
    readAt .negation = on (only (.symbol .bang))
      (fun _ => do
        let operand ← readAt .negation
        return mk .negate [operand])
      (readAt .comparison) := by
  funext ts
  rw [readAt, Reader.of, expressionAt]
  split
  · rw [on_of_skip? ‹_›]
    exact view_bind fun operand => rfl
  · rw [on_of_skip?_none ‹_›]
    rfl

theorem readAt_comparison :
    readAt .comparison = (do
      let left ← readAt (.chain .sum)
      on comparison?
        (fun op => do
          let right ← readAt (.chain .sum)
          return mk (.compare op) [left, right])
        (pure left)) := by
  funext ts
  rw [readAt, Reader.of, expressionAt]
  refine view_bind fun left => ?_
  dsimp only
  split
  · rw [on_of_next? ‹_›]
    exact view_bind fun right => rfl
  · rw [on_of_next?_none ‹_›]
    rfl

theorem readAt_signed :
    readAt .signed = on (only (.symbol .plus)) (fun _ => readAt .atom)
      (on (only (.symbol .minus))
        (fun _ => do
          let operand ← readAt .atom
          return mk (.arithmetic .sub) [mk (.integer 0) [], operand])
        (readAt .atom)) := by
  funext ts
  rw [readAt, Reader.of, expressionAt]
  split
  · rw [on_of_skip? ‹_›]
    exact view_as _
  · rw [on_of_skip?_none ‹_›]
    split
    · rw [on_of_skip? ‹_›]
      exact view_bind fun operand => rfl
    · rw [on_of_skip?_none ‹_›]
      rfl

theorem readAt_atom :
    readAt .atom = on (only (.symbol .openParen))
      (fun _ => do
        let inner ← readAt (.chain .disjunction)
        take .closeParen
        return inner)
      (on leaf? (fun n => pure (mk n [])) (fail .expression)) := by
  funext ts
  rw [readAt, Reader.of, expressionAt]
  split
  · rw [on_of_skip? ‹_›]
    refine view_bind fun inner => ?_
    rw [← of_expect]
    exact view_bind fun close => rfl
  · rw [on_of_skip?_none ‹_›]
    split
    · rw [on_of_next? ‹_›]
      rfl
    · rw [on_of_next?_none ‹_›]
      rfl

theorem readAt_length {l : Level} {ts rest : List Token} {t : Tree}
    (h : readAt l ts = .ok (t, rest)) : rest.length < ts.length := of_length h

/-! ## Statements -/

/-- Reads an expression between parentheses. -/
def readParenthesized : Reader Tree := do
  take .openParen
  let inner ← readAt (.chain .disjunction)
  take .closeParen
  return inner

/-- Reads a name. -/
def readName : Reader String := on nameOf? pure (fail .name)

/-- Reads a declaration after its keyword. -/
def readDeclaration (kind : Kind) : Reader Tree := do
  let x ← readName
  take .semicolon
  return mk (.declare x kind) []

/-- Reads what is to be printed. -/
def readPrinted : Reader Tree := do
  let value ← readAt (.chain .disjunction)
  take .semicolon
  return mk .print [value]

/-- Reads what is to be done with a variable. -/
def readAction (x : String) : Reader Tree :=
  on (only (.symbol .assign))
    (fun _ => do
      let value ← readAt (.chain .disjunction)
      take .semicolon
      return mk (.assign x) [value])
    (on (only (.symbol .increment))
      (fun _ => do
        take .semicolon
        return mk (.increment x) [mk (.name x) []])
      (on (only (.symbol .decrement))
        (fun _ => do
          take .semicolon
          return mk (.decrement x) [mk (.name x) []])
        (fail .action)))

def readStatement : Reader Tree := .of statement

def readBlock : Reader Tree := .of block

/-- Reads statements up to the brace that closes their block. -/
def readItems : Reader (List Tree) := .of blockItems

/-- Reads statements up to the last token. -/
def readAll : Reader (List Tree) := fun ts => (statements ts).map (·, [])

/-- Reads a loop after its keyword. -/
def readLoop : Reader Tree := do
  let test ← readParenthesized
  let body ← readBlock
  return mk .loop [test, body]

/-- Reads a condition after its keyword. -/
def readCondition : Reader Tree := do
  let test ← readParenthesized
  let body ← readBlock
  on (only (.keyword .alternative))
    (fun _ => do
      let other ← readBlock
      return mk .choice [test, body, other])
    (pure (mk .condition [test, body]))

/-- How a statement goes on after its first lexeme. -/
def statementAfter? : Lexeme → Option (Reader Tree)
  | .keyword .num => some (readDeclaration .number)
  | .keyword .str => some (readDeclaration .text)
  | .keyword .print => some readPrinted
  | .keyword .loop => some readLoop
  | .keyword .condition => some readCondition
  | .name x => some (readAction x)
  | _ => none

theorem of_expectName : Reader.of expectName = readName := by
  funext ts
  rw [Reader.of, expectName, readName]
  split
  · rw [on_of_next? ‹_›]
    rfl
  · rw [on_of_next?_none ‹_›]
    rfl

theorem of_parenthesized : Reader.of parenthesized = readParenthesized := by
  funext ts
  rw [Reader.of, parenthesized, readParenthesized, ← of_expect, ← of_expect]
  exact view_bind fun opening => view_bind fun inner => view_bind fun close => rfl

theorem of_declaration (kind : Kind) : Reader.of (declaration kind) = readDeclaration kind := by
  funext ts
  rw [Reader.of, declaration, readDeclaration, ← of_expect, ← of_expectName]
  exact view_bind fun x => view_bind fun close => rfl

theorem of_printed : Reader.of printed = readPrinted := by
  funext ts
  rw [Reader.of, printed, readPrinted, ← of_expect]
  exact view_bind fun value => view_bind fun close => rfl

theorem of_action (x : String) : Reader.of (action x) = readAction x := by
  funext ts
  rw [Reader.of, action, readAction, ← of_expect]
  split
  · rw [on_of_skip? ‹_›]
    exact view_bind fun value => view_bind fun close => rfl
  rw [on_of_skip?_none ‹_›]
  split
  · rw [on_of_skip? ‹_›]
    exact view_bind fun close => rfl
  rw [on_of_skip?_none ‹_›]
  split
  · rw [on_of_skip? ‹_›]
    exact view_bind fun close => rfl
  · rw [on_of_skip?_none ‹_›]
    rfl

theorem readStatement_eq : readStatement = on statementAfter? id (fail .name) := by
  funext ts
  rw [readStatement, Reader.of, statement.eq_def]
  cases ts with
  | nil => rfl
  | cons t rest =>
    have hstart : ∀ r, statementAfter? t.lexeme = some r →
        on statementAfter? id (fail .name) (t :: rest) = r rest := fun r h => on_of_some h rest
    dsimp only
    split
    · rw [hstart (readDeclaration .number) (by simp [*, statementAfter?]), ← of_declaration]
      exact view_as _
    · rw [hstart (readDeclaration .text) (by simp [*, statementAfter?]), ← of_declaration]
      exact view_as _
    · rw [hstart readPrinted (by simp [*, statementAfter?]), ← of_printed]
      exact view_as _
    · rw [hstart readLoop (by simp [*, statementAfter?]), readLoop, ← of_parenthesized]
      exact view_bind fun test => view_bind fun body => rfl
    · rw [hstart readCondition (by simp [*, statementAfter?]), readCondition, ← of_parenthesized]
      refine view_bind fun test => view_bind fun body => ?_
      split
      · rw [on_of_skip? ‹_›]
        exact view_bind fun other => rfl
      · rw [on_of_skip?_none ‹_›]
        rfl
    · rename_i x _
      rw [hstart (readAction x) (by simp [*, statementAfter?]), ← of_action]
      exact view_as _
    · have hnone : statementAfter? t.lexeme = none := by
        unfold statementAfter?
        split <;> simp_all
      rw [on_of_none (by simpa using hnone)]
      rfl

theorem readBlock_eq : readBlock = (do
    take .openBrace
    let items ← readItems
    return mk .block items) := by
  funext ts
  rw [readBlock, Reader.of, block, ← of_expect]
  exact view_bind fun opening => view_bind fun items => rfl

theorem readItems_eq :
    readItems = on (only (.symbol .closeBrace)) (fun _ => pure [])
      (atEnd (fail (.symbol .closeBrace)) (do
        let first ← readStatement
        let others ← readItems
        return first :: others)) := by
  funext ts
  rw [readItems, Reader.of, blockItems]
  split
  · rw [on_of_skip? ‹_›]
    rfl
  · rw [on_of_skip?_none ‹_›]
    unfold atEnd
    split
    · rfl
    · exact view_bind fun first => view_bind fun others => rfl

theorem readAll_eq :
    readAll = atEnd (pure []) (do
      let first ← readStatement
      let others ← readAll
      return first :: others) := by
  funext ts
  rw [readAll, statements]
  unfold atEnd
  split
  · rename_i hempty
    rw [List.isEmpty_iff.mp hempty]
    rfl
  · cases h : statement ts with
    | error e =>
      rw [bind_of_error (e := e) (by simp [readStatement, Reader.of, view, h, Except.map])]
      rfl
    | ok first =>
      have hfirst : readStatement ts = .ok (first.value, first.rest) := by
        simp [readStatement, Reader.of, view, h, Except.map]
      rw [bind_of_ok hfirst]
      cases ho : statements first.rest with
      | error e =>
        rw [bind_of_error (e := e) (by simp [readAll, ho, Except.map])]
        simp [bind, Except.bind, Except.map, ho]
      | ok others =>
        have hothers : readAll first.rest = .ok (others, []) := by simp [readAll, ho, Except.map]
        rw [bind_of_ok hothers]
        simp [bind, Except.bind, Except.map, ho]
        rfl

end Tree

end FlowLang
