import FlowLang.Compile
import FlowLang.Proofs.LoweringForms

/-!
# The grammar

`Derives c ls t`: the lexemes `ls` have a derivation in the category `c` of the grammar, and its
tree is `t`. This is the grammar that `Parser` reads. The categories are the levels of expressions,
statements, lists of statements, blocks and programs. The rules name their lexemes and nodes
themselves, and the tables that the readers look them up in are proved to be the same.

* `Tree.expressionAt_reads`, `Tree.statement_reads`: what a reader takes from the tokens has a
  derivation.
* `Tree.ofTokens_derives`: so a tree that is read from tokens is the tree of a derivation of all of
  them.
* `Derives.shape`: the trees of the grammar are built from expressions and statements
  (`Tree.IsExpression`, `Tree.IsStatement`).
* `parseSource_shape`: a tree read from a source is a program of such statements.
-/

namespace FlowLang

/-- The keyword of a declaration. -/
def Kind.keyword : Kind → Keyword
  | .number => .num
  | .text => .str

/-- The symbol of a step. -/
def Step.symbol : Step → Symbol
  | .up => .increment
  | .down => .decrement

/-- The keyword of a loop or a condition. -/
def Guard.keyword : Guard → Keyword
  | .loop => .loop
  | .condition => .condition

/-- What lexemes can stand for. -/
inductive Category where
  | expression (l : Tree.Level)
  | statement
  | statements
  | block
  | program

namespace Tree

/-- The operands of a chain are expressions of the next tighter level. -/
inductive Chain.Over : Chain → Level → Prop
  | disjunction : Over .disjunction (.chain .conjunction)
  | conjunction : Over .conjunction .negation
  | sum : Over .sum (.chain .product)
  | product : Over .product .signed

/-- The lexemes between the operands of a chain, and the nodes over the two sides. -/
inductive Chain.Joins : Chain → Lexeme → Node → Prop
  | either : Joins .disjunction (.symbol .either) (.connect .or)
  | both : Joins .conjunction (.symbol .both) (.connect .and)
  | plus : Joins .sum (.symbol .plus) (.arithmetic .add)
  | minus : Joins .sum (.symbol .minus) (.arithmetic .sub)
  | star : Joins .product (.symbol .star) (.arithmetic .mul)
  | slash : Joins .product (.symbol .slash) (.arithmetic .div)

/-- The lexemes between two sums that are compared. -/
inductive Compares : Lexeme → RelOp → Prop
  | equal : Compares (.symbol .equal) .eq
  | notEqual : Compares (.symbol .notEqual) .ne
  | greater : Compares (.symbol .greater) .gt
  | less : Compares (.symbol .less) .lt
  | greaterEqual : Compares (.symbol .greaterEqual) .ge
  | lessEqual : Compares (.symbol .lessEqual) .le

/-- The lexemes that are an expression on their own. -/
inductive IsLeaf : Lexeme → Node → Prop
  | integer (n : Int) : IsLeaf (.integer n) (.integer n)
  | real (x : Binary64) : IsLeaf (.real x) (.real x)
  | text (s : String) : IsLeaf (.text s) (.text s)
  | name (x : String) : IsLeaf (.name x) (.name x)

end Tree

open FlowLang.Tree in
/-- The lexemes have a derivation with the tree. Statements in a row are the children of a tree
`block`. -/
inductive Derives : Category → List Lexeme → Tree → Prop
  | operand {c : Chain} {k : Level} {ls : List Lexeme} {t : Tree} (hk : c.Over k)
      (h : Derives (.expression k) ls t) : Derives (.expression (.chain c)) ls t
  | chained {c : Chain} {k : Level} {ls ms : List Lexeme} {op : Lexeme} {n : Node} {l r : Tree}
      (hk : c.Over k) (hl : Derives (.expression (.chain c)) ls l) (hop : c.Joins op n)
      (hr : Derives (.expression k) ms r) :
      Derives (.expression (.chain c)) (ls ++ op :: ms) (mk n [l, r])
  | negated {ls : List Lexeme} {t : Tree} (h : Derives (.expression .negation) ls t) :
      Derives (.expression .negation) (.symbol .bang :: ls) (mk .negate [t])
  | unnegated {ls : List Lexeme} {t : Tree} (h : Derives (.expression .comparison) ls t) :
      Derives (.expression .negation) ls t
  | compared {ls ms : List Lexeme} {lexeme : Lexeme} {op : RelOp} {l r : Tree}
      (hl : Derives (.expression (.chain .sum)) ls l) (hop : Compares lexeme op)
      (hr : Derives (.expression (.chain .sum)) ms r) :
      Derives (.expression .comparison) (ls ++ lexeme :: ms) (mk (.compare op) [l, r])
  | uncompared {ls : List Lexeme} {t : Tree} (h : Derives (.expression (.chain .sum)) ls t) :
      Derives (.expression .comparison) ls t
  | positive {ls : List Lexeme} {t : Tree} (h : Derives (.expression .atom) ls t) :
      Derives (.expression .signed) (.symbol .plus :: ls) t
  | negative {ls : List Lexeme} {t : Tree} (h : Derives (.expression .atom) ls t) :
      Derives (.expression .signed) (.symbol .minus :: ls)
        (mk (.arithmetic .sub) [mk (.integer 0) [], t])
  | unsigned {ls : List Lexeme} {t : Tree} (h : Derives (.expression .atom) ls t) :
      Derives (.expression .signed) ls t
  | parenthesized {ls : List Lexeme} {t : Tree}
      (h : Derives (.expression (.chain .disjunction)) ls t) :
      Derives (.expression .atom) (.symbol .openParen :: ls ++ [.symbol .closeParen]) t
  | leaf {lexeme : Lexeme} {n : Node} (h : IsLeaf lexeme n) :
      Derives (.expression .atom) [lexeme] (mk n [])
  | declare (x : String) (kind : Kind) :
      Derives .statement [.keyword kind.keyword, .name x, .symbol .semicolon]
        (mk (.declare x kind) [])
  | print {ls : List Lexeme} {t : Tree} (h : Derives (.expression (.chain .disjunction)) ls t) :
      Derives .statement (.keyword .print :: ls ++ [.symbol .semicolon]) (mk .print [t])
  | assign {ls : List Lexeme} {t : Tree} (x : String)
      (h : Derives (.expression (.chain .disjunction)) ls t) :
      Derives .statement (.name x :: .symbol .assign :: ls ++ [.symbol .semicolon])
        (mk (.assign x) [t])
  | step (k : Step) (x : String) :
      Derives .statement [.name x, .symbol k.symbol, .symbol .semicolon]
        (mk (k.node x) [mk (.name x) []])
  | guarded {ls ms : List Lexeme} {c b : Tree} (g : Guard)
      (hc : Derives (.expression (.chain .disjunction)) ls c) (hb : Derives .block ms b) :
      Derives .statement
        (.keyword g.keyword :: .symbol .openParen :: ls ++ .symbol .closeParen :: ms)
        (mk g.node [c, b])
  | choice {ls ms ns : List Lexeme} {c b e : Tree}
      (hc : Derives (.expression (.chain .disjunction)) ls c) (hb : Derives .block ms b)
      (he : Derives .block ns e) :
      Derives .statement
        (.keyword .condition :: .symbol .openParen :: ls ++ .symbol .closeParen ::
          (ms ++ .keyword .alternative :: ns))
        (mk .choice [c, b, e])
  | nothing : Derives .statements [] (mk .block [])
  | next {ls ms : List Lexeme} {t : Tree} {ts : List Tree} (h : Derives .statement ls t)
      (hs : Derives .statements ms (mk .block ts)) :
      Derives .statements (ls ++ ms) (mk .block (t :: ts))
  | braces {ls : List Lexeme} {t : Tree} (h : Derives .statements ls t) :
      Derives .block (.symbol .openBrace :: ls ++ [.symbol .closeBrace]) t
  | program {ls : List Lexeme} {t : Tree} (h : Derives .statements ls t) :
      Derives .program ls (mk .program [t])

/-! ## The tables of the reader -/

namespace Tree

theorem Chain.operand_eq {c : Chain} {k : Level} : c.operand = k ↔ c.Over k := by
  constructor
  · rintro rfl
    cases c <;> constructor
  · rintro ⟨⟩ <;> rfl

theorem Chain.over_operand (c : Chain) : c.Over c.operand := operand_eq.mp rfl

theorem Chain.operator?_eq_some {c : Chain} {x : Lexeme} {n : Node} :
    c.operator? x = some n ↔ c.Joins x n := by
  constructor
  · intro h
    unfold Chain.operator? at h
    split at h <;> cases h <;> constructor
  · rintro ⟨⟩ <;> rfl

theorem comparison?_eq_some {x : Lexeme} {op : RelOp} :
    comparison? x = some op ↔ Compares x op := by
  constructor
  · intro h
    unfold comparison? at h
    split at h <;> cases h <;> constructor
  · rintro ⟨⟩ <;> rfl

theorem leaf?_eq_some {x : Lexeme} {n : Node} : leaf? x = some n ↔ IsLeaf x n := by
  constructor
  · intro h
    unfold leaf? at h
    split at h <;> cases h <;> constructor
  · rintro ⟨⟩ <;> rfl

/-! ## Reading -/

/-- The tokens before `rest` have a derivation with the tree. -/
def Reads (c : Category) (ts rest : List Token) (t : Tree) : Prop :=
  ∃ used, ts = used ++ rest ∧ Derives c (used.map (·.lexeme)) t

theorem next?_eq_some {α : Type} {f : Lexeme → Option α} {ts rest : List Token} {a : α} :
    next? f ts = some (a, rest) ↔ ∃ t, ts = t :: rest ∧ f t.lexeme = some a := by
  cases ts with
  | nil => simp [next?]
  | cons t ts =>
    unfold next?
    rw [Option.map_eq_some_iff]
    constructor
    · rintro ⟨b, hb, he⟩
      cases he
      exact ⟨t, rfl, hb⟩
    · rintro ⟨t', he, ht⟩
      cases he
      exact ⟨a, ht, rfl⟩

theorem skip?_eq_some {l : Lexeme} {ts rest : List Token} :
    skip? l ts = some rest ↔ ∃ t, ts = t :: rest ∧ t.lexeme = l := by
  unfold skip?
  rw [Option.map_eq_some_iff]
  constructor
  · rintro ⟨⟨u, r⟩, h, rfl⟩
    obtain ⟨t, ht, hl⟩ := next?_eq_some.mp h
    refine ⟨t, ht, ?_⟩
    by_contra hne
    rw [if_neg hne] at hl
    cases hl
  · rintro ⟨t, rfl, rfl⟩
    exact ⟨((), rest), next?_eq_some.mpr ⟨t, rfl, if_pos rfl⟩, rfl⟩

theorem expect_ok {s : Symbol} {ts : List Token} {p : Parsed Unit ts.length}
    (h : expect s ts = .ok p) : ∃ t, ts = t :: p.rest ∧ t.lexeme = .symbol s := by
  unfold expect at h
  split at h
  · rename_i rest hs
    cases h
    exact skip?_eq_some.mp hs
  · cases h

theorem expectName_ok {ts : List Token} {p : Parsed String ts.length}
    (h : expectName ts = .ok p) : ∃ t, ts = t :: p.rest ∧ t.lexeme = .name p.value := by
  unfold expectName at h
  split at h
  · rename_i x rest hs
    cases h
    obtain ⟨t, ht, hx⟩ := next?_eq_some.mp hs
    refine ⟨t, ht, ?_⟩
    unfold nameOf? at hx
    split at hx <;> cases hx
    assumption
  · cases h

/-- What is read in a chain goes on from the operands that were read before. -/
def Continues (c : Chain) (left : Tree) (ts rest : List Token) (t : Tree) : Prop :=
  ∀ us, Derives (.expression (.chain c)) us left →
    ∃ used, ts = used ++ rest ∧ Derives (.expression (.chain c)) (us ++ used.map (·.lexeme)) t

/-- What is left after one reading is read on. -/
theorem append_of_rest {ts a mid b rest : List Token} (h : ts = a ++ mid) (h' : mid = b ++ rest) :
    ts = (a ++ b) ++ rest := by
  rw [h, h', List.append_assoc]

/-- A lexeme is skipped, and what is read after it is under it. -/
theorem Reads.skipped {c d : Category} {l : Lexeme} {ts mid rest : List Token} {t u : Tree}
    (h : Reads c mid rest t) (hskip : skip? l ts = some mid)
    (hd : ∀ ls, Derives c ls t → Derives d (l :: ls) u) : Reads d ts rest u := by
  obtain ⟨first, hts, hfirst⟩ := skip?_eq_some.mp hskip
  obtain ⟨used, hmid, hused⟩ := h
  refine ⟨first :: used, append_of_rest (a := [first]) hts hmid, ?_⟩
  rw [List.map_cons, hfirst]
  exact hd _ hused

/-- What is read as an expression has a derivation. -/
theorem expressionAt_reads (l : Level) (ts : List Token) :
    ∀ p, expressionAt l ts = .ok p → Reads (.expression l) ts p.rest p.value := by
  refine expressionAt.induct (fun l ts => ∀ p, expressionAt l ts = .ok p →
      Reads (.expression l) ts p.rest p.value)
    (fun c left ts => ∀ p, chainFrom c left ts = .ok p → Continues c left ts p.rest p.value)
    ?chain ?negated ?unnegated ?comparison ?positive ?negative ?unsigned ?parenthesized ?leaf
    ?refused ?more ?last l ts
  case chain =>
    intro ts c _ ihfirst ihall p h
    rw [expressionAt] at h
    obtain ⟨first, hfirst, h⟩ := except_bind_eq_ok.mp h
    obtain ⟨all, hall, h⟩ := except_bind_eq_ok.mp h
    cases h
    obtain ⟨used, hts, hd⟩ := ihfirst first hfirst
    obtain ⟨used', hrest, hd'⟩ := ihall first all hall _ (.operand c.over_operand hd)
    exact ⟨used ++ used', append_of_rest hts hrest, by rw [List.map_append]; exact hd'⟩
  case negated =>
    intro ts rest hskip _ ih p h
    rw [expressionAt] at h
    split at h
    · rename_i rest' hs
      cases hskip.symm.trans hs
      obtain ⟨operand, ho, h⟩ := except_bind_eq_ok.mp h
      cases h
      exact (ih operand ho).skipped hskip fun _ => .negated
    · rename_i hs
      cases hskip.symm.trans hs
  case unnegated =>
    intro ts hskip ih p h
    rw [expressionAt] at h
    split at h
    · rename_i rest hs
      cases hskip.symm.trans hs
    · obtain ⟨used, hts, hd⟩ := ih p h
      exact ⟨used, hts, .unnegated hd⟩
  case comparison =>
    intro ts ihleft ihright p h
    rw [expressionAt] at h
    obtain ⟨left, hleft, h⟩ := except_bind_eq_ok.mp h
    obtain ⟨used, hts, hd⟩ := ihleft left hleft
    dsimp only at h
    split at h
    · rename_i op rest hs
      obtain ⟨right, hright, h⟩ := except_bind_eq_ok.mp h
      cases h
      obtain ⟨t, hrest, ht⟩ := next?_eq_some.mp hs
      obtain ⟨used', hrest', hd'⟩ := ihright left op rest hs right hright
      refine ⟨used ++ t :: used',
        append_of_rest hts (append_of_rest (a := [t]) hrest hrest'), ?_⟩
      rw [List.map_append, List.map_cons]
      exact .compared hd (comparison?_eq_some.mp ht) hd'
    · cases h
      exact ⟨used, hts, .uncompared hd⟩
  case positive =>
    intro ts rest hskip _ ih p h
    rw [expressionAt] at h
    split at h
    · rename_i rest' hs
      cases hskip.symm.trans hs
      obtain ⟨operand, ho, h⟩ := except_bind_eq_ok.mp h
      cases h
      exact (ih operand ho).skipped hskip fun _ => .positive
    · rename_i hs
      cases hskip.symm.trans hs
  case negative =>
    intro ts hplus rest hskip _ ih p h
    rw [expressionAt] at h
    split at h
    · rename_i rest' hs
      cases hplus.symm.trans hs
    · split at h
      · rename_i rest' hs
        cases hskip.symm.trans hs
        obtain ⟨operand, ho, h⟩ := except_bind_eq_ok.mp h
        cases h
        exact (ih operand ho).skipped hskip fun _ => .negative
      · rename_i hs
        cases hskip.symm.trans hs
  case unsigned =>
    intro ts hplus hminus ih p h
    rw [expressionAt] at h
    split at h
    · rename_i rest' hs
      cases hplus.symm.trans hs
    · split at h
      · rename_i rest' hs
        cases hminus.symm.trans hs
      · obtain ⟨used, hts, hd⟩ := ih p h
        exact ⟨used, hts, .unsigned hd⟩
  case parenthesized =>
    intro ts rest hskip _ ih p h
    rw [expressionAt] at h
    split at h
    · rename_i rest' hs
      cases hskip.symm.trans hs
      obtain ⟨inner, hi, h⟩ := except_bind_eq_ok.mp h
      obtain ⟨close, hclose, h⟩ := except_bind_eq_ok.mp h
      cases h
      obtain ⟨t, hts, ht⟩ := skip?_eq_some.mp hskip
      obtain ⟨used, hrest, hd⟩ := ih inner hi
      obtain ⟨t', hrest', ht'⟩ := expect_ok hclose
      refine ⟨t :: used ++ [t'], append_of_rest
        (append_of_rest (a := [t]) hts hrest) (b := [t']) hrest', ?_⟩
      rw [List.map_append, List.map_cons, List.map_singleton, ht, ht']
      exact .parenthesized hd
    · rename_i hs
      cases hskip.symm.trans hs
  case leaf =>
    intro ts hskip leaf rest hnext p h
    rw [expressionAt] at h
    split at h
    · rename_i rest' hs
      cases hskip.symm.trans hs
    · split at h
      · rename_i leaf' rest' hs
        cases hnext.symm.trans hs
        cases h
        obtain ⟨t, hts, ht⟩ := next?_eq_some.mp hnext
        exact ⟨[t], hts, .leaf (leaf?_eq_some.mp ht)⟩
      · cases h
  case refused =>
    intro ts hskip hnext p h
    rw [expressionAt] at h
    split at h
    · rename_i rest hs
      cases hskip.symm.trans hs
    · split at h
      · rename_i leaf rest hs
        cases hnext.symm.trans hs
      · cases h
  case more =>
    intro c left ts op rest hnext _ ihright ihall p h us hleft
    rw [chainFrom] at h
    split at h
    · rename_i op' rest' hs
      cases hnext.symm.trans hs
      obtain ⟨right, hright, h⟩ := except_bind_eq_ok.mp h
      obtain ⟨all, hall, h⟩ := except_bind_eq_ok.mp h
      cases h
      obtain ⟨t, hts, ht⟩ := next?_eq_some.mp hnext
      obtain ⟨used, hrest, hd⟩ := ihright right hright
      obtain ⟨used', hrest', hd'⟩ := ihall right all hall _
        (.chained c.over_operand hleft (Chain.operator?_eq_some.mp ht) hd)
      refine ⟨t :: used ++ used', append_of_rest (append_of_rest (a := [t]) hts hrest) hrest', ?_⟩
      rw [List.map_append, List.map_cons, ← List.append_assoc]
      exact hd'
    · cases h
      exact ⟨[], rfl, by rwa [List.map_nil, List.append_nil]⟩
  case last =>
    intro c left ts hnext p h us hleft
    rw [chainFrom] at h
    split at h
    · rename_i op rest hs
      cases hnext.symm.trans hs
    · cases h
      exact ⟨[], rfl, by rwa [List.map_nil, List.append_nil]⟩

/-! ## Statements -/

theorem expression_reads {ts : List Token} {p : Parsed Tree ts.length} (h : expression ts = .ok p) :
    Reads (.expression (.chain .disjunction)) ts p.rest p.value :=
  expressionAt_reads _ ts p h

/-- What is read between parentheses. -/
theorem parenthesized_reads {ts : List Token} {p : Parsed Tree ts.length}
    (h : parenthesized ts = .ok p) : ∃ ls used, ts = used ++ p.rest ∧
      used.map (·.lexeme) = .symbol .openParen :: ls ++ [.symbol .closeParen] ∧
      Derives (.expression (.chain .disjunction)) ls p.value := by
  unfold parenthesized at h
  obtain ⟨opening, hopen, h⟩ := except_bind_eq_ok.mp h
  obtain ⟨inner, hinner, h⟩ := except_bind_eq_ok.mp h
  obtain ⟨close, hclose, h⟩ := except_bind_eq_ok.mp h
  cases h
  obtain ⟨t, hts, ht⟩ := expect_ok hopen
  obtain ⟨used, hrest, hd⟩ := expression_reads hinner
  obtain ⟨t', hrest', ht'⟩ := expect_ok hclose
  refine ⟨_, t :: used ++ [t'], append_of_rest
    (append_of_rest (a := [t]) hts hrest) (b := [t']) hrest', ?_, hd⟩
  rw [List.map_append, List.map_cons, List.map_singleton, ht, ht']

/-- What is read after the keyword of a declaration. -/
theorem declaration_reads (kind : Kind) {t : Token} {ts : List Token} {p : Parsed Tree ts.length}
    (ht : t.lexeme = .keyword kind.keyword) (h : declaration kind ts = .ok p) :
    Reads .statement (t :: ts) p.rest p.value := by
  unfold declaration at h
  obtain ⟨x, hx, h⟩ := except_bind_eq_ok.mp h
  obtain ⟨close, hclose, h⟩ := except_bind_eq_ok.mp h
  cases h
  obtain ⟨t', hts, ht'⟩ := expectName_ok hx
  obtain ⟨t'', hrest, ht''⟩ := expect_ok hclose
  refine ⟨[t, t', t''], congrArg (t :: ·) (append_of_rest (a := [t']) (b := [t'']) hts hrest), ?_⟩
  rw [List.map_cons, List.map_cons, List.map_singleton, ht, ht', ht'']
  exact .declare x.value kind

theorem printed_reads {t : Token} {ts : List Token} {p : Parsed Tree ts.length}
    (ht : t.lexeme = .keyword .print) (h : printed ts = .ok p) :
    Reads .statement (t :: ts) p.rest p.value := by
  unfold printed at h
  obtain ⟨value, hvalue, h⟩ := except_bind_eq_ok.mp h
  obtain ⟨close, hclose, h⟩ := except_bind_eq_ok.mp h
  cases h
  obtain ⟨used, hts, hd⟩ := expression_reads hvalue
  obtain ⟨t', hrest, ht'⟩ := expect_ok hclose
  refine ⟨t :: used ++ [t'], congrArg (t :: ·) (append_of_rest (b := [t']) hts hrest), ?_⟩
  rw [List.map_append, List.map_cons, List.map_singleton, ht, ht']
  exact .print hd

/-- What is read after a name. -/
theorem action_reads {x : String} {t : Token} {ts : List Token} {p : Parsed Tree ts.length}
    (ht : t.lexeme = .name x) (h : action x ts = .ok p) :
    Reads .statement (t :: ts) p.rest p.value := by
  -- the two steps differ in their symbol only
  have step : ∀ (k : Step) (rest : List Token) (close : Parsed Unit rest.length),
      skip? (.symbol k.symbol) ts = some rest → expect .semicolon rest = .ok close →
      Reads .statement (t :: ts) close.rest (mk (k.node x) [mk (.name x) []]) := by
    intro k rest close hskip hclose
    obtain ⟨t', hts, ht'⟩ := skip?_eq_some.mp hskip
    obtain ⟨t'', hrest, ht''⟩ := expect_ok hclose
    refine ⟨[t, t', t''],
      congrArg (t :: ·) (append_of_rest (a := [t']) (b := [t'']) hts hrest), ?_⟩
    rw [List.map_cons, List.map_cons, List.map_singleton, ht, ht', ht'']
    exact .step k x
  unfold action at h
  split at h
  · rename_i rest hskip
    obtain ⟨value, hvalue, h⟩ := except_bind_eq_ok.mp h
    obtain ⟨close, hclose, h⟩ := except_bind_eq_ok.mp h
    cases h
    obtain ⟨t', hts, ht'⟩ := skip?_eq_some.mp hskip
    obtain ⟨used, hrest, hd⟩ := expression_reads hvalue
    obtain ⟨t'', hrest', ht''⟩ := expect_ok hclose
    refine ⟨t :: t' :: used ++ [t''], congrArg (t :: ·) (append_of_rest
      (append_of_rest (a := [t']) hts hrest) (b := [t'']) hrest'), ?_⟩
    rw [List.map_append, List.map_cons, List.map_cons, List.map_singleton, ht, ht', ht'']
    exact .assign x hd
  · split at h
    · rename_i rest hskip
      obtain ⟨close, hclose, h⟩ := except_bind_eq_ok.mp h
      cases h
      exact step .up rest close hskip hclose
    · split at h
      · rename_i rest hskip
        obtain ⟨close, hclose, h⟩ := except_bind_eq_ok.mp h
        cases h
        exact step .down rest close hskip hclose
      · cases h

/-- What is read as a statement has a derivation. -/
theorem statement_reads (ts : List Token) :
    ∀ p, statement ts = .ok p → Reads .statement ts p.rest p.value := by
  refine statement.induct (fun ts => ∀ p, statement ts = .ok p → Reads .statement ts p.rest p.value)
    (fun ts => ∀ p, block ts = .ok p → Reads .block ts p.rest p.value)
    (fun ts => ∀ p, blockItems ts = .ok p → ∃ used t, ts = used ++ t :: p.rest ∧
      t.lexeme = .symbol .closeBrace ∧
      Derives .statements (used.map (·.lexeme)) (mk .block p.value))
    ?empty ?number ?text ?print ?loop ?condition ?name ?refused ?block ?closed ?ended ?items ts
  case empty =>
    intro p h
    rw [statement] at h
    cases h
  case number =>
    intro t rest ht p h
    rw [statement, ht] at h
    obtain ⟨s, hs, h⟩ := except_bind_eq_ok.mp h
    cases h
    exact declaration_reads .number ht hs
  case text =>
    intro t rest ht p h
    rw [statement, ht] at h
    obtain ⟨s, hs, h⟩ := except_bind_eq_ok.mp h
    cases h
    exact declaration_reads .text ht hs
  case print =>
    intro t rest ht p h
    rw [statement, ht] at h
    obtain ⟨s, hs, h⟩ := except_bind_eq_ok.mp h
    cases h
    exact printed_reads ht hs
  case loop =>
    intro t rest ht ih p h
    rw [statement, ht] at h
    obtain ⟨test, htest, h⟩ := except_bind_eq_ok.mp h
    obtain ⟨body, hbody, h⟩ := except_bind_eq_ok.mp h
    cases h
    obtain ⟨ls, used, hrest, hls, hc⟩ := parenthesized_reads htest
    obtain ⟨used', hrest', hb⟩ := ih test body hbody
    refine ⟨t :: (used ++ used'), congrArg (t :: ·) (append_of_rest hrest hrest'), ?_⟩
    rw [List.map_cons, List.map_append, hls, ht, List.append_assoc]
    exact .guarded .loop hc hb
  case condition =>
    intro t rest ht ihb ihe p h
    rw [statement, ht] at h
    obtain ⟨test, htest, h⟩ := except_bind_eq_ok.mp h
    obtain ⟨body, hbody, h⟩ := except_bind_eq_ok.mp h
    obtain ⟨ls, used, hrest, hls, hc⟩ := parenthesized_reads htest
    obtain ⟨used', hrest', hb⟩ := ihb test body hbody
    dsimp only at h
    split at h
    · rename_i after hskip
      obtain ⟨other, hother, h⟩ := except_bind_eq_ok.mp h
      cases h
      obtain ⟨t', hafter, ht'⟩ := skip?_eq_some.mp hskip
      obtain ⟨used'', hrest'', he⟩ := ihe test body after hskip other hother
      refine ⟨t :: (used ++ (used' ++ t' :: used'')), congrArg (t :: ·) (append_of_rest hrest
        (append_of_rest hrest' (append_of_rest (a := [t']) hafter hrest''))), ?_⟩
      rw [List.map_cons, List.map_append, List.map_append, List.map_cons, hls, ht, ht',
        List.append_assoc]
      exact .choice hc hb he
    · cases h
      refine ⟨t :: (used ++ used'), congrArg (t :: ·) (append_of_rest hrest hrest'), ?_⟩
      rw [List.map_cons, List.map_append, hls, ht, List.append_assoc]
      exact .guarded .condition hc hb
  case name =>
    intro t rest x ht p h
    rw [statement, ht] at h
    obtain ⟨s, hs, h⟩ := except_bind_eq_ok.mp h
    cases h
    exact action_reads ht hs
  case refused =>
    intro t rest hnum hstr hprint hloop hcondition hname p h
    rw [statement] at h
    split at h
    · exact (hnum ‹_›).elim
    · exact (hstr ‹_›).elim
    · exact (hprint ‹_›).elim
    · exact (hloop ‹_›).elim
    · exact (hcondition ‹_›).elim
    · exact (hname _ ‹_›).elim
    · cases h
  case block =>
    intro ts ih p h
    rw [block] at h
    obtain ⟨opening, hopen, h⟩ := except_bind_eq_ok.mp h
    obtain ⟨items, hitems, h⟩ := except_bind_eq_ok.mp h
    cases h
    obtain ⟨t, hts, ht⟩ := expect_ok hopen
    obtain ⟨used, t', hrest, ht', hd⟩ := ih opening items hitems
    refine ⟨t :: (used ++ [t']), append_of_rest (a := [t]) hts
      (hrest.trans (List.append_assoc used [t'] _).symm), ?_⟩
    rw [List.map_cons, List.map_append, List.map_singleton, ht, ht']
    exact .braces hd
  case closed =>
    intro ts rest hskip p h
    rw [blockItems] at h
    split at h
    · rename_i rest' hs
      cases hskip.symm.trans hs
      cases h
      obtain ⟨t, hts, ht⟩ := skip?_eq_some.mp hskip
      exact ⟨[], t, hts, ht, .nothing⟩
    · rename_i hs
      cases hskip.symm.trans hs
  case ended =>
    intro ts hskip hempty p h
    rw [blockItems] at h
    split at h
    · rename_i rest hs
      cases hskip.symm.trans hs
    · rw [if_pos hempty] at h
      cases h
  case items =>
    intro ts hskip hempty ihfirst ihothers p h
    rw [blockItems] at h
    split at h
    · rename_i rest hs
      cases hskip.symm.trans hs
    · rw [if_neg hempty] at h
      obtain ⟨first, hfirst, h⟩ := except_bind_eq_ok.mp h
      obtain ⟨others, hothers, h⟩ := except_bind_eq_ok.mp h
      cases h
      obtain ⟨used, hts, hd⟩ := ihfirst first hfirst
      obtain ⟨used', t, hrest, ht, hd'⟩ := ihothers first others hothers
      exact ⟨used ++ used', t, append_of_rest hts hrest, ht, by
        rw [List.map_append]; exact .next hd hd'⟩

theorem statements_derives (ts : List Token) :
    ∀ items, statements ts = .ok items →
      Derives .statements (ts.map (·.lexeme)) (mk .block items) := by
  induction ts using statements.induct with
  | case1 ts hempty =>
    intro items h
    rw [statements, if_pos hempty] at h
    cases h
    rw [List.isEmpty_iff.mp hempty]
    exact .nothing
  | case2 ts hempty ih =>
    intro items h
    rw [statements, if_neg hempty] at h
    obtain ⟨first, hfirst, h⟩ := except_bind_eq_ok.mp h
    obtain ⟨others, hothers, h⟩ := except_bind_eq_ok.mp h
    cases h
    obtain ⟨used, hts, hd⟩ := statement_reads ts first hfirst
    have hmap := congrArg (List.map (·.lexeme)) hts
    rw [List.map_append] at hmap
    rw [hmap]
    exact .next hd (ih first others hothers)

/-- **A tree read from tokens is the tree of a derivation of them.** -/
theorem ofTokens_derives {ts : List Token} {t : Tree} (h : ofTokens ts = .ok t) :
    Derives .program (ts.map (·.lexeme)) t := by
  unfold ofTokens at h
  obtain ⟨items, hitems, h⟩ := except_bind_eq_ok.mp h
  cases h
  exact .program (statements_derives ts items hitems)

/-! ## Shapes -/

/-- The trees of expressions. -/
inductive IsExpression : Tree → Prop
  | name (x : String) : IsExpression (mk (.name x) [])
  | literal (l : Literal) : IsExpression (mk l.node [])
  | text (s : String) : IsExpression (mk (.text s) [])
  | binary {l r : Tree} (op : Binary) (hl : IsExpression l) (hr : IsExpression r) :
      IsExpression (mk op.node [l, r])
  | negate {e : Tree} (h : IsExpression e) : IsExpression (mk .negate [e])

/-- The trees of statements. The bodies are lists of statements. -/
inductive IsStatement : Tree → Prop
  | declare (x : String) (kind : Kind) : IsStatement (mk (.declare x kind) [])
  | assign {e : Tree} (x : String) (h : IsExpression e) : IsStatement (mk (.assign x) [e])
  | step (k : Step) (x : String) : IsStatement (mk (k.node x) [mk (.name x) []])
  | print {e : Tree} (h : IsExpression e) : IsStatement (mk .print [e])
  | guarded {c : Tree} {body : List Tree} (g : Guard) (hc : IsExpression c)
      (hb : ∀ t ∈ body, IsStatement t) : IsStatement (mk g.node [c, mk .block body])
  | choice {c : Tree} {yes no : List Tree} (hc : IsExpression c) (hy : ∀ t ∈ yes, IsStatement t)
      (hn : ∀ t ∈ no, IsStatement t) :
      IsStatement (mk .choice [c, mk .block yes, mk .block no])

/-- The trees of programs. -/
def IsProgram (t : Tree) : Prop :=
  ∃ body, t = mk .program [mk .block body] ∧ ∀ u ∈ body, u.IsStatement

end Tree

open FlowLang.Tree in
/-- The shape of the trees of a category. -/
def Category.Shape : Category → Tree → Prop
  | .expression _, t => t.IsExpression
  | .statement, t => t.IsStatement
  | .statements, t => ∃ body, t = mk .block body ∧ ∀ u ∈ body, u.IsStatement
  | .block, t => ∃ body, t = mk .block body ∧ ∀ u ∈ body, u.IsStatement
  | .program, t => t.IsProgram

theorem Tree.Chain.Joins.node_eq {c : Chain} {lexeme : Lexeme} {n : Node} (h : c.Joins lexeme n) :
    ∃ op : Binary, n = op.node := by
  cases h with
  | either => exact ⟨.connect .or, rfl⟩
  | both => exact ⟨.connect .and, rfl⟩
  | plus => exact ⟨.arithmetic .add, rfl⟩
  | minus => exact ⟨.arithmetic .sub, rfl⟩
  | star => exact ⟨.arithmetic .mul, rfl⟩
  | slash => exact ⟨.arithmetic .div, rfl⟩

open FlowLang.Tree in
/-- The trees of the grammar have the shape of their category. -/
theorem Derives.shape {c : Category} {ls : List Lexeme} {t : Tree} (h : Derives c ls t) :
    c.Shape t := by
  induction h with
  | operand _ _ ih => exact ih
  | chained _ _ hop _ ihl ihr =>
    obtain ⟨op, rfl⟩ := hop.node_eq
    exact .binary op ihl ihr
  | negated _ ih => exact .negate ih
  | unnegated _ ih => exact ih
  | @compared _ _ _ op _ _ _ _ _ ihl ihr => exact .binary (.compare op) ihl ihr
  | uncompared _ ih => exact ih
  | positive _ ih => exact ih
  | negative _ ih => exact .binary (.arithmetic .sub) (.literal (.integer 0)) ih
  | unsigned _ ih => exact ih
  | parenthesized _ ih => exact ih
  | leaf h =>
    cases h with
    | integer n => exact .literal (.integer n)
    | real x => exact .literal (.real x)
    | text s => exact .text s
    | name x => exact .name x
  | declare x kind => exact .declare x kind
  | print _ ih => exact .print ih
  | assign x _ ih => exact .assign x ih
  | step k x => exact .step k x
  | guarded g _ _ ihc ihb =>
    obtain ⟨body, rfl, hb⟩ := ihb
    exact .guarded g ihc hb
  | choice _ _ _ ihc ihb ihe =>
    obtain ⟨yes, rfl, hy⟩ := ihb
    obtain ⟨no, rfl, hn⟩ := ihe
    exact .choice ihc hy hn
  | nothing => exact ⟨[], rfl, nofun⟩
  | next _ _ ih ihs =>
    obtain ⟨body, hbody, hs⟩ := ihs
    cases hbody
    exact ⟨_, rfl, List.forall_mem_cons.mpr ⟨ih, hs⟩⟩
  | braces _ ih => exact ih
  | program _ ih =>
    obtain ⟨body, rfl, hb⟩ := ih
    exact ⟨body, rfl, hb⟩

theorem parseSource_eq_ok {source : String} {t : Tree} :
    parseSource source = .ok t ↔ ∃ ts, Token.scan source = .ok ts ∧ Tree.ofTokens ts = .ok t := by
  unfold parseSource
  cases Token.scan source with
  | error e => simp
  | ok ts => cases h : Tree.ofTokens ts <;> simp [h]

/-- **A tree read from a source is a program of statements.** -/
theorem parseSource_shape {source : String} {t : Tree} (h : parseSource source = .ok t) :
    t.IsProgram := by
  obtain ⟨ts, -, ht⟩ := parseSource_eq_ok.mp h
  exact (Tree.ofTokens_derives ht).shape

end FlowLang
