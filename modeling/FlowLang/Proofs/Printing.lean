import FlowLang.Proofs.Recognition

/-!
# Writing trees out

`Category.lexemes c t` writes a tree of a category out as lexemes. Each operator has a level, and
its operands have to be as tight as the level of their place: the left operand of a chain may be a
chain of the same operators, the right one may not, and neither operand of a comparison may be a
comparison. An operand that is looser stands in parentheses (`Tree.enclosed`), and nothing else
does.

* `Category.Shape.derives`: what is written has a derivation with the tree that was written.
* `Derives.weight_le`: no derivation of a tree has fewer parentheses, if what a minus sign stands
  for is written out.
* `Derives.count_openParen_le`: so among the lexemes that are the same apart from parentheses, those
  written here have the fewest, and none of their parentheses can be left out.
-/

namespace FlowLang

open FlowLang.Tree

/-! ## The writer -/

namespace Binary

/-- The level of the trees with the operator at their root. -/
def level : Binary → Level
  | .connect .or => .chain .disjunction
  | .connect .and => .chain .conjunction
  | .compare _ => .comparison
  | .arithmetic .add | .arithmetic .sub => .chain .sum
  | .arithmetic .mul | .arithmetic .div => .chain .product

/-- The level of the place before the operator. -/
def before : Binary → Level
  | .compare _ => .chain .sum
  | op => op.level

/-- The level of the place after the operator. -/
def after : Binary → Level
  | .connect .or => .chain .conjunction
  | .connect .and => .negation
  | .compare _ => .chain .sum
  | .arithmetic .add | .arithmetic .sub => .chain .product
  | .arithmetic .mul | .arithmetic .div => .signed

/-- The operator as it stands between its operands. -/
def symbol : Binary → Symbol
  | .connect .or => .either
  | .connect .and => .both
  | .compare .eq => .equal
  | .compare .ne => .notEqual
  | .compare .gt => .greater
  | .compare .lt => .less
  | .compare .ge => .greaterEqual
  | .compare .le => .lessEqual
  | .arithmetic .add => .plus
  | .arithmetic .sub => .minus
  | .arithmetic .mul => .star
  | .arithmetic .div => .slash

end Binary

namespace Tree

/-- An expression of the level `m` in a place of the level `l`: in parentheses if it is too
loose. -/
def enclosed (l m : Level) (ls : List Lexeme) : List Lexeme :=
  if m.rank ≤ l.rank then ls else .symbol .openParen :: ls ++ [.symbol .closeParen]

/-- Two operands with the operator between them, in a place of the level `l`. -/
def joined (l : Level) (op : Binary) (left right : List Lexeme) : List Lexeme :=
  enclosed l op.level (left ++ .symbol op.symbol :: right)

/-- The lexemes of an expression in a place of the level `l`. -/
def lexemesAt (l : Level) : Tree → List Lexeme
  | mk (.name x) _ => [.name x]
  | mk (.integer n) _ => [.integer n]
  | mk (.real x) _ => [.real x]
  | mk (.text s) _ => [.text s]
  | mk .negate [e] => enclosed l .negation (.symbol .bang :: e.lexemesAt .negation)
  | mk (.arithmetic op) [a, b] => joined l (.arithmetic op)
      (a.lexemesAt (Binary.arithmetic op).before) (b.lexemesAt (Binary.arithmetic op).after)
  | mk (.compare op) [a, b] => joined l (.compare op)
      (a.lexemesAt (Binary.compare op).before) (b.lexemesAt (Binary.compare op).after)
  | mk (.connect op) [a, b] => joined l (.connect op)
      (a.lexemesAt (Binary.connect op).before) (b.lexemesAt (Binary.connect op).after)
  | _ => []

mutual

/-- The lexemes of a statement. -/
def statementLexemes : Tree → List Lexeme
  | mk (.declare x kind) _ => [.keyword kind.keyword, .name x, .symbol .semicolon]
  | mk (.increment x) _ => [.name x, .symbol .increment, .symbol .semicolon]
  | mk (.decrement x) _ => [.name x, .symbol .decrement, .symbol .semicolon]
  | mk .print [e] =>
    .keyword .print :: e.lexemesAt (.chain .disjunction) ++ [.symbol .semicolon]
  | mk (.assign x) [e] =>
    .name x :: .symbol .assign :: e.lexemesAt (.chain .disjunction) ++ [.symbol .semicolon]
  | mk .loop [c, body] =>
    .keyword .loop :: .symbol .openParen :: c.lexemesAt (.chain .disjunction) ++
      .symbol .closeParen :: body.blockLexemes
  | mk .condition [c, body] =>
    .keyword .condition :: .symbol .openParen :: c.lexemesAt (.chain .disjunction) ++
      .symbol .closeParen :: body.blockLexemes
  | mk .choice [c, yes, no] =>
    .keyword .condition :: .symbol .openParen :: c.lexemesAt (.chain .disjunction) ++
      .symbol .closeParen :: (yes.blockLexemes ++ .keyword .alternative :: no.blockLexemes)
  | _ => []

/-- The lexemes of statements in braces. -/
def blockLexemes : Tree → List Lexeme
  | mk _ ts => .symbol .openBrace :: statementsLexemes ts ++ [.symbol .closeBrace]

/-- The lexemes of statements in a row. -/
def statementsLexemes : List Tree → List Lexeme
  | [] => []
  | t :: ts => t.statementLexemes ++ statementsLexemes ts

end

/-- The lexemes of a program. -/
def lexemes : Tree → List Lexeme
  | mk _ [mk _ ts] => statementsLexemes ts
  | _ => []

end Tree

/-- The lexemes of a tree of the category. -/
def Category.lexemes : Category → Tree → List Lexeme
  | .expression l, t => t.lexemesAt l
  | .statement, t => t.statementLexemes
  | .statements, t => statementsLexemes t.children
  | .block, t => t.blockLexemes
  | .program, t => t.lexemes

/-! ## What is written has a derivation -/

theorem Tree.Chain.operand_rank_succ (c : Chain) : c.operand.rank + 1 = (Level.chain c).rank := by
  cases c <;> rfl

theorem Tree.Level.rank_injective {l m : Level} (h : l.rank = m.rank) : l = m := by
  rcases l with (_ | _ | _ | _) | _ | _ | _ | _ <;>
    rcases m with (_ | _ | _ | _) | _ | _ | _ | _ <;> first | rfl | cases h

/-- An expression of a tight level is one of every looser level. -/
theorem Derives.loosen {l m : Level} {ls : List Lexeme} {t : Tree} (hm : m.rank ≤ l.rank)
    (h : Derives (.expression m) ls t) : Derives (.expression l) ls t := by
  -- `l` is the level `m` itself, or the expression is one of the next tighter level
  have step {k l : Level} (hk : k.rank + 1 = l.rank) (hm : m.rank ≤ l.rank)
      (next : m.rank ≤ k.rank → Derives (.expression l) ls t) : Derives (.expression l) ls t := by
    rcases hm.eq_or_lt with he | hlt
    · rwa [← Level.rank_injective he]
    · exact next (by omega)
  induction l using Level.induct with
  | atom =>
    obtain rfl : m = .atom := Level.rank_injective (Nat.le_zero.mp hm)
    exact h
  | signed ih => exact step rfl hm fun hk => .unsigned (ih hk)
  | chain c ih => exact step c.operand_rank_succ hm fun hk => .operand c.over_operand (ih hk)
  | comparison ih => exact step rfl hm fun hk => .uncompared (ih hk)
  | negation ih => exact step rfl hm fun hk => .unnegated (ih hk)

theorem Derives.enclosed {l m : Level} {ls : List Lexeme} {t : Tree}
    (h : Derives (.expression m) ls t) : Derives (.expression l) (enclosed l m ls) t := by
  unfold Tree.enclosed
  split
  · exact h.loosen ‹_›
  · exact .loosen (Nat.zero_le _) (.parenthesized (h.loosen (Nat.le_of_lt_succ m.rank_lt)))

/-- Operands of the levels of their places make an expression of the operator's level. -/
theorem Binary.derives (op : Binary) {ls ms : List Lexeme} {l r : Tree}
    (hl : Derives (.expression op.before) ls l) (hr : Derives (.expression op.after) ms r) :
    Derives (.expression op.level) (ls ++ .symbol op.symbol :: ms) (mk op.node [l, r]) := by
  cases op with
  | arithmetic op => cases op <;> exact .chained (by constructor) hl (by constructor) hr
  | compare op => cases op <;> exact .compared hl (by constructor) hr
  | connect op => cases op <;> exact .chained (by constructor) hl (by constructor) hr

theorem Tree.lexemesAt_binary (op : Binary) (l : Level) (a b : Tree) :
    (mk op.node [a, b]).lexemesAt l =
      joined l op (a.lexemesAt op.before) (b.lexemesAt op.after) := by
  cases op <;> rfl

theorem Tree.IsExpression.derives {t : Tree} (h : t.IsExpression) (l : Level) :
    Derives (.expression l) (t.lexemesAt l) t := by
  induction h generalizing l with
  | name x => exact .loosen (Nat.zero_le _) (.leaf (.name x))
  | literal lit => cases lit <;> exact .loosen (Nat.zero_le _) (.leaf (by constructor))
  | text s => exact .loosen (Nat.zero_le _) (.leaf (.text s))
  | binary op _ _ ihl ihr =>
    rw [lexemesAt_binary]
    exact (op.derives (ihl _) (ihr _)).enclosed
  | negate _ ih => exact (ih _).negated.enclosed

theorem Tree.statementsLexemes_derives {ts : List Tree}
    (h : ∀ t ∈ ts, Derives .statement t.statementLexemes t) :
    Derives .statements (statementsLexemes ts) (mk .block ts) := by
  induction ts with
  | nil => exact .nothing
  | cons t ts ih =>
    obtain ⟨ht, hts⟩ := List.forall_mem_cons.mp h
    exact .next ht (ih hts)

theorem Tree.IsStatement.derives {t : Tree} (h : t.IsStatement) :
    Derives .statement t.statementLexemes t := by
  induction h with
  | declare x kind => exact .declare x kind
  | assign x he => exact .assign x (he.derives _)
  | step k x => cases k with
    | up => exact .step .up x
    | down => exact .step .down x
  | print he => exact .print (he.derives _)
  | guarded g hc _ ihb =>
    have hb := (statementsLexemes_derives ihb).braces
    cases g with
    | loop => exact .guarded .loop (hc.derives _) hb
    | condition => exact .guarded .condition (hc.derives _) hb
  | choice hc _ _ ihy ihn =>
    exact .choice (hc.derives _) (statementsLexemes_derives ihy).braces
      (statementsLexemes_derives ihn).braces

/-- **What is written has a derivation with the tree that was written.** -/
theorem Category.Shape.derives {c : Category} {t : Tree} (h : c.Shape t) :
    Derives c (c.lexemes t) t := by
  have all {ts : List Tree} (hts : ∀ u ∈ ts, u.IsStatement) :=
    statementsLexemes_derives fun u hu => (hts u hu).derives
  cases c with
  | expression l => exact IsExpression.derives h l
  | statement => exact IsStatement.derives h
  | statements =>
    obtain ⟨body, rfl, hb⟩ := h
    exact all hb
  | block =>
    obtain ⟨body, rfl, hb⟩ := h
    exact (all hb).braces
  | program =>
    obtain ⟨body, rfl, hb⟩ := h
    exact (all hb).program

/-! ## The fewest parentheses -/

/-- The opening parentheses less the zeros. A minus sign is written out as a subtraction from zero
in parentheses, so it has no weight. -/
def weight (ls : List Lexeme) : Int :=
  ls.count (.symbol .openParen) - ls.count (.integer 0)

@[simp] theorem weight_nil : weight [] = 0 := rfl

@[simp] theorem weight_append (ls ms : List Lexeme) :
    weight (ls ++ ms) = weight ls + weight ms := by
  simp only [weight, List.count_append]
  omega

@[simp] theorem weight_openParen (ls : List Lexeme) :
    weight (.symbol .openParen :: ls) = weight ls + 1 := by
  simp [weight]
  omega

@[simp] theorem weight_zero (ls : List Lexeme) : weight (.integer 0 :: ls) = weight ls - 1 := by
  simp [weight]
  omega

@[simp] theorem weight_symbol {s : Symbol} (h : s ≠ .openParen) (ls : List Lexeme) :
    weight (.symbol s :: ls) = weight ls := by
  simp [weight, h]

@[simp] theorem weight_keyword (k : Keyword) (ls : List Lexeme) :
    weight (.keyword k :: ls) = weight ls := by
  simp [weight]

@[simp] theorem weight_name (x : String) (ls : List Lexeme) :
    weight (.name x :: ls) = weight ls := by
  simp [weight]

@[simp] theorem Binary.symbol_ne (op : Binary) : op.symbol ≠ .openParen := by
  rcases op with (_ | _ | _ | _) | (_ | _ | _ | _ | _ | _) | (_ | _) <;> simp [symbol]

theorem Tree.Chain.Joins.binary {c : Chain} {x : Lexeme} {n : Node} (h : c.Joins x n) :
    ∃ op : Binary, n = op.node ∧ x = .symbol op.symbol ∧ op.level = .chain c ∧
      op.before = .chain c ∧ op.after = c.operand := by
  cases h with
  | either => exact ⟨.connect .or, rfl, rfl, rfl, rfl, rfl⟩
  | both => exact ⟨.connect .and, rfl, rfl, rfl, rfl, rfl⟩
  | plus => exact ⟨.arithmetic .add, rfl, rfl, rfl, rfl, rfl⟩
  | minus => exact ⟨.arithmetic .sub, rfl, rfl, rfl, rfl, rfl⟩
  | star => exact ⟨.arithmetic .mul, rfl, rfl, rfl, rfl, rfl⟩
  | slash => exact ⟨.arithmetic .div, rfl, rfl, rfl, rfl, rfl⟩

theorem Tree.Compares.symbol_eq {x : Lexeme} {op : RelOp} (h : Compares x op) :
    x = .symbol (Binary.compare op).symbol := by
  cases h <;> rfl

/-- Only the parentheses around an expression depend on its place. -/
theorem Tree.IsExpression.lexemesAt_eq {t : Tree} (h : t.IsExpression) :
    ∃ m ls, ∀ l, t.lexemesAt l = enclosed l m ls := by
  have leaf (l : Level) (ls : List Lexeme) : ls = enclosed l .atom ls :=
    (if_pos (Nat.zero_le _)).symm
  cases h with
  | name x => exact ⟨.atom, _, fun l => leaf l [.name x]⟩
  | literal lit => cases lit with
    | real x => exact ⟨.atom, _, fun l => leaf l [.real x]⟩
    | integer n => exact ⟨.atom, _, fun l => leaf l [.integer n]⟩
  | text s => exact ⟨.atom, _, fun l => leaf l [.text s]⟩
  | binary op _ _ => exact ⟨_, _, fun l => lexemesAt_binary op l _ _⟩
  | negate _ => exact ⟨_, _, fun l => rfl⟩

theorem weight_enclosed (l m : Level) (ls : List Lexeme) :
    weight (enclosed l m ls) = weight ls + if m.rank ≤ l.rank then 0 else 1 := by
  unfold enclosed
  split <;> simp

theorem weight_binary (op : Binary) (l : Level) (a b : Tree) :
    weight ((mk op.node [a, b]).lexemesAt l) = weight (a.lexemesAt op.before) +
      weight (b.lexemesAt op.after) + if op.level.rank ≤ l.rank then 0 else 1 := by
  rw [lexemesAt_binary, joined, weight_enclosed]
  simp

/-- A looser place needs no more parentheses. -/
theorem Tree.IsExpression.weight_anti {t : Tree} (h : t.IsExpression) {k l : Level}
    (hkl : k.rank ≤ l.rank) : weight (t.lexemesAt l) ≤ weight (t.lexemesAt k) := by
  obtain ⟨m, ls, he⟩ := h.lexemesAt_eq
  simp only [he, weight_enclosed]
  split <;> split <;> omega

/-- Two places differ by one pair of parentheses at most. -/
theorem Tree.IsExpression.weight_le_add_one {t : Tree} (h : t.IsExpression) (k l : Level) :
    weight (t.lexemesAt k) ≤ weight (t.lexemesAt l) + 1 := by
  obtain ⟨m, ls, he⟩ := h.lexemesAt_eq
  simp only [he, weight_enclosed]
  split <;> split <;> omega

/-- **No derivation of a tree has less weight than what is written for it.** -/
theorem Derives.weight_le {c : Category} {ls : List Lexeme} {t : Tree} (h : Derives c ls t) :
    weight (c.lexemes t) ≤ weight ls := by
  induction h with
  | @operand c _ _ _ hk h ih =>
    obtain rfl := Chain.operand_eq.mpr hk
    exact Int.le_trans (IsExpression.weight_anti h.shape c.operand_rank.le) ih
  | chained hk _ hop _ ihl ihr =>
    obtain rfl := Chain.operand_eq.mpr hk
    obtain ⟨op, rfl, rfl, hlevel, hbefore, hafter⟩ := hop.binary
    rw [Category.lexemes, weight_binary, hlevel, hbefore, hafter, if_pos (Nat.le_refl _),
      weight_append, weight_symbol op.symbol_ne]
    simp only [Category.lexemes] at ihl ihr
    omega
  | negated _ ih => simpa [Category.lexemes, lexemesAt, weight_enclosed] using ih
  | unnegated h ih => exact Int.le_trans (IsExpression.weight_anti h.shape (by decide)) ih
  | @compared _ _ _ op _ _ _ hop _ ihl ihr =>
    have hw := weight_binary (.compare op) .comparison
    rw [hop.symbol_eq, weight_append, weight_symbol (Binary.symbol_ne _)]
    simp only [Category.lexemes] at ihl ihr
    refine Int.le_trans (Int.le_of_eq (hw _ _)) ?_
    simp only [Binary.before, Binary.after, Binary.level, Nat.le_refl, if_true]
    omega
  | uncompared h ih => exact Int.le_trans (IsExpression.weight_anti h.shape (by decide)) ih
  | positive h ih =>
    rw [weight_symbol (by decide)]
    exact Int.le_trans (IsExpression.weight_anti h.shape (by decide)) ih
  | @negative _ t h ih =>
    -- written out as `( 0 - t )`, with `t` in a looser place
    have hw := weight_binary (.arithmetic .sub) .signed (mk (.integer 0) []) t
    have ht : weight (t.lexemesAt (.chain .product)) ≤ weight (t.lexemesAt .atom) :=
      IsExpression.weight_anti h.shape (by decide)
    rw [weight_symbol (by decide)]
    refine Int.le_trans (Int.le_of_eq hw) (Int.le_trans ?_ ih)
    simp only [lexemesAt, weight_zero, weight_nil, Binary.after, Binary.level, Level.rank,
      Category.lexemes]
    omega
  | unsigned h ih => exact Int.le_trans (IsExpression.weight_anti h.shape (by decide)) ih
  | parenthesized h ih =>
    have hadd := IsExpression.weight_le_add_one h.shape .atom (.chain .disjunction)
    simp only [Category.lexemes, List.cons_append, weight_openParen, weight_append] at *
    exact Int.le_trans hadd (by simpa using ih)
  | leaf h => cases h <;> exact Int.le_refl _
  | declare x kind => exact Int.le_refl _
  | print _ ih => simpa [Category.lexemes, statementLexemes] using ih
  | assign x _ ih => simpa [Category.lexemes, statementLexemes] using ih
  | step k x => cases k <;> exact Int.le_refl _
  | guarded g _ _ ihc ihb =>
    cases g <;> simp [Category.lexemes, statementLexemes, Guard.node] at ihc ihb ⊢ <;> omega
  | choice _ _ _ ihc ihb ihe =>
    simp [Category.lexemes, statementLexemes] at ihc ihb ihe ⊢
    omega
  | nothing => exact Int.le_refl _
  | next _ _ ih ihs =>
    simp [Category.lexemes, statementsLexemes, children] at ih ihs ⊢
    omega
  | @braces _ t _ ih =>
    cases t
    simpa [Category.lexemes, blockLexemes, children] using ih
  | @program _ t _ ih =>
    cases t
    exact ih

/-- Parentheses, which leave no trace in a tree. -/
def Lexeme.isParen : Lexeme → Bool
  | .symbol .openParen | .symbol .closeParen => true
  | _ => false

/-- **No derivation of a tree has fewer parentheses** than what is written for it, among those with
the same lexemes apart from them. -/
theorem Derives.count_openParen_le {c : Category} {ls : List Lexeme} {t : Tree} (h : Derives c ls t)
    (hsame : ls.filter (!·.isParen) = (c.lexemes t).filter (!·.isParen)) :
    (c.lexemes t).count (.symbol .openParen) ≤ ls.count (.symbol .openParen) := by
  have hzero := congrArg (List.count (.integer 0)) hsame
  rw [List.count_filter rfl, List.count_filter rfl] at hzero
  have hle := h.weight_le
  unfold weight at hle
  omega

end FlowLang
