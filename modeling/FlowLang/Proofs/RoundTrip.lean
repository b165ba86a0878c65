import FlowLang.Compile
import FlowLang.Proofs.Printing
import FlowLang.Proofs.Scanning

/-!
# Reading what was written

A source in which the lexemes of a tree stand in order, spelled in any way and with blank characters
between them, is read (`parse_source`) as that tree again.

* `Token.Spaced source ls`: the source spells the lexemes, each followed by a blank character or the
  end.
* `Lexeme.Writable`: the lexemes that have a spelling. Not every name, number or integer that a tree
  may hold can stand in a source. `Tree.Writable` says that all of a tree can.
* **`parseSource_written`**: a program of such lexemes has a source, every such source is read as
  the program, and no other way to write it has fewer parentheses.
-/

namespace FlowLang

/-! ## Lexemes between blanks -/

namespace Token

/-- The source spells the lexemes, with blanks before and after them and at least one between
two. -/
inductive Spaced : List Char → List Lexeme → Prop
  | nil {gap : List Char} (hgap : ∀ c ∈ gap, Text.isBlank c) : Spaced gap []
  | cons {gap text rest : List Char} {x : Lexeme} {ls : List Lexeme}
      (hgap : ∀ c ∈ gap, Text.isBlank c) (hx : Spells text x)
      (hrest : ∀ c ∈ rest.head?, Text.isBlank c) (h : Spaced rest ls) :
      Spaced (gap ++ (text ++ rest)) (x :: ls)

/-- No lexeme takes in a blank. -/
theorem not_goesOn_blank {d : Char} (h : Text.isBlank d) (text : List Char) : ¬GoesOn text d := by
  intro hgo
  -- what goes on is a visible character
  suffices hd : 0x20 < d.toNat ∧ d.toNat < 0x85 by
    simp [isBlank_eq_false hd.1 hd.2] at h
  have hdigit : d.isDigit → 0x20 < d.toNat ∧ d.toNat < 0x85 := fun hd => by
    have := toNat_of_isDigit hd
    omega
  cases hgo with
  | number _ hd =>
    rcases hd with hd | rfl
    · exact hdigit hd
    · decide
  | word _ hd =>
    simp only [Char.isAlphanum, Bool.or_eq_true] at hd
    rcases hd with (hd | hd) | rfl
    · have := toNat_of_isWordStart (isWordStart_iff.mpr (.inl hd))
      omega
    · exact hdigit hd
    · decide
  | pair h => cases h <;> decide
  | comment => decide

theorem scanFrom_gap {gap : List Char} (hgap : ∀ c ∈ gap, Text.isBlank c) (rest : List Char)
    (line : Nat) : scanFrom line (gap ++ rest) = scanFrom (line + gap.count '\n') rest := by
  induction gap generalizing line with
  | nil => simp
  | cons c gap ih =>
    obtain ⟨hc, hgap⟩ := List.forall_mem_cons.mp hgap
    have hblank : IsPiece [c] none (gap ++ rest) := .blank hc
    have hskip := scanFrom_skipped hblank line
    rwa [ih hgap, Nat.add_assoc, ← List.count_append] at hskip

/-- What is spelled between blanks is scanned. -/
theorem Spaced.scanFrom_eq {source : List Char} {ls : List Lexeme} (h : Spaced source ls)
    (line : Nat) : ∃ ts, scanFrom line source = .ok ts ∧ ts.map (·.lexeme) = ls := by
  induction h generalizing line with
  | @nil gap hgap =>
    have hend := scanFrom_gap hgap [] line
    rw [List.append_nil, scanFrom_nil] at hend
    exact ⟨[], hend, rfl⟩
  | @cons gap text rest x ls hgap hx hrest h ih =>
    have hpiece : IsPiece text (some x) rest :=
      .lexeme hx fun d hd => not_goesOn_blank (hrest d hd) text
    obtain ⟨ts, hts, hls⟩ := ih (line + gap.count '\n' + text.count '\n')
    refine ⟨⟨x, line + gap.count '\n'⟩ :: ts, ?_, by rw [List.map_cons, hls]⟩
    rw [scanFrom_gap hgap, scanFrom_piece hpiece, hts]
    rfl

end Token

/-! ## What can be written -/

/-- The lexemes that a source can hold. -/
def Lexeme.Writable : Lexeme → Prop
  | .name x => (∃ c cs, x.toList = c :: cs ∧ Token.isWordStart c ∧ ∀ d ∈ cs, Token.isWordChar d) ∧
      ∀ k : Keyword, k.spelling ≠ x
  | .integer n => 0 ≤ n ∧ n ≤ Numeral.maxInteger
  | .real x => ∃ whole places : List Char, whole ≠ [] ∧ (∀ c ∈ whole, c.isDigit) ∧
      (∀ c ∈ places, c.isDigit) ∧
      x = .ofDecimal (Numeral.digitsValue (whole ++ places)) places.length
  | .text _ | .keyword _ | .symbol _ => True

/-- The lexeme that a node holds. -/
def Node.lexeme? : Node → Option Lexeme
  | .name x | .assign x | .declare x _ | .increment x | .decrement x => some (.name x)
  | .integer n => some (.integer n)
  | .real x => some (.real x)
  | .text s => some (.text s)
  | _ => none

/-- A source can hold the names and literals of the tree. -/
def Tree.Writable (t : Tree) : Prop := ∀ u ∈ t.preorder, ∀ x ∈ u.node.lexeme?, x.Writable

theorem Token.escapes_surjective (content : List Char) : ∃ body, Escapes body content := by
  induction content with
  | nil => exact ⟨[], .nil⟩
  | cons c content ih =>
    obtain ⟨body, hbody⟩ := ih
    by_cases hq : c = '\x22'
    · exact ⟨'\\' :: '\x22' :: body, by rw [hq]; exact .escape .mark hbody⟩
    by_cases hb : c = '\\'
    · exact ⟨'\\' :: '\\' :: body, by rw [hb]; exact .escape .backslash hbody⟩
    · exact ⟨c :: body, .plain hq hb hbody⟩

theorem Numeral.digitsValue_toDigits (n : Nat) : digitsValue (Nat.toDigits 10 n) = n := by
  rw [digitsValue, ← Nat.ofDigitChars_eq_foldl, Nat.ofDigitChars_ten_toDigits]

theorem Token.symbol_spells (s : Symbol) : ∃ text, Spells text (.symbol s) := by
  cases s with
  | equal => exact ⟨['=', '='], .pair .equal⟩
  | notEqual => exact ⟨['!', '='], .pair .notEqual⟩
  | lessEqual => exact ⟨['<', '='], .pair .lessEqual⟩
  | greaterEqual => exact ⟨['>', '='], .pair .greaterEqual⟩
  | both => exact ⟨['&', '&'], .pair .both⟩
  | either => exact ⟨['|', '|'], .pair .either⟩
  | increment => exact ⟨['+', '+'], .pair .increment⟩
  | decrement => exact ⟨['-', '-'], .pair .decrement⟩
  | plus => exact ⟨['+'], .single .plus⟩
  | minus => exact ⟨['-'], .single .minus⟩
  | star => exact ⟨['*'], .single .star⟩
  | slash => exact ⟨['/'], .single .slash⟩
  | openParen => exact ⟨['('], .single .openParen⟩
  | closeParen => exact ⟨[')'], .single .closeParen⟩
  | openBrace => exact ⟨['\x7b'], .single .openBrace⟩
  | closeBrace => exact ⟨['\x7d'], .single .closeBrace⟩
  | semicolon => exact ⟨[';'], .single .semicolon⟩
  | assign => exact ⟨['='], .single .assign⟩
  | less => exact ⟨['<'], .single .less⟩
  | greater => exact ⟨['>'], .single .greater⟩
  | bang => exact ⟨['!'], .single .bang⟩

theorem Token.spelling_reserved (k : Keyword) : Reserved k.spelling.toList k := by
  cases k <;> constructor

/-- What is writable has a spelling. -/
theorem Lexeme.Writable.spells {x : Lexeme} (h : x.Writable) : ∃ text, Token.Spells text x := by
  cases x with
  | integer n =>
    obtain ⟨n, rfl⟩ := Int.eq_ofNat_of_zero_le h.1
    have hmax : n ≤ Numeral.maxInteger := Int.ofNat_le.mp h.2
    have hs := Token.Spells.integer Nat.toDigits_ne_nil
      (fun c hc => Nat.isDigit_of_mem_toDigits (by decide) (Nat.le_refl _) hc)
      ((Numeral.digitsValue_toDigits n).symm ▸ hmax)
    rw [Numeral.digitsValue_toDigits] at hs
    exact ⟨_, hs⟩
  | real x =>
    obtain ⟨whole, places, hne, hw, hp, rfl⟩ := h
    exact ⟨_, .real hne hw hp⟩
  | text s =>
    obtain ⟨body, hbody⟩ := Token.escapes_surjective s.toList
    have hs := Token.Spells.text hbody
    rw [String.ofList_toList] at hs
    exact ⟨_, hs⟩
  | name x =>
    obtain ⟨⟨c, cs, hx, hc, hcs⟩, hk⟩ := h
    have hname : ∀ k, ¬Token.Reserved (c :: cs) k := fun k hres => by
      rw [← hx, ← Token.ofWord?_eq_some] at hres
      exact hk k (by simpa using List.find?_some hres)
    have hs := Token.Spells.name (Token.isWordStart_iff.mp hc)
      (fun d hd => Token.isWordChar_iff.mp (hcs d hd)) hname
    rw [← hx, String.ofList_toList] at hs
    exact ⟨_, hs⟩
  | keyword k => exact ⟨_, .keyword (Token.spelling_reserved k)⟩
  | symbol s => exact Token.symbol_spells s

/-- What is writable can be spelled between blanks. -/
theorem Token.exists_spaced {ls : List Lexeme} (h : ∀ x ∈ ls, x.Writable) :
    ∃ source, Spaced source ls ∧ ∀ c ∈ source.head?, Text.isBlank c := by
  induction ls with
  | nil => exact ⟨[], .nil (by simp), by simp⟩
  | cons x ls ih =>
    obtain ⟨hx, hls⟩ := List.forall_mem_cons.mp h
    obtain ⟨text, htext⟩ := hx.spells
    obtain ⟨rest, hspaced, hrest⟩ := ih hls
    have hgap : ∀ c ∈ [' '], Text.isBlank c := List.forall_mem_singleton.mpr (by decide)
    exact ⟨_, .cons hgap htext hrest hspaced, by simpa using hgap⟩

/-! ## The lexemes of a tree -/

open FlowLang.Tree

theorem enclosed_writable {l m : Level} {ls : List Lexeme} (h : ∀ x ∈ ls, x.Writable) :
    ∀ x ∈ enclosed l m ls, x.Writable := by
  unfold enclosed
  split
  · exact h
  · simpa [Lexeme.Writable, or_imp, forall_and] using h

/-- The names and literals of the tree have a property. -/
def Tree.Holds (P : Lexeme → Prop) (t : Tree) : Prop := ∀ u ∈ t.preorder, ∀ x ∈ u.node.lexeme?, P x

theorem Tree.holds_mk {P : Lexeme → Prop} {n : Node} {ts : List Tree} :
    (mk n ts).Holds P ↔ (∀ x ∈ n.lexeme?, P x) ∧ ∀ t ∈ ts, t.Holds P := by
  unfold Holds
  rw [preorder, preorderAll_eq, List.forall_mem_cons]
  simp only [List.mem_flatMap, forall_exists_index, and_imp]
  exact and_congr Iff.rfl ⟨fun h t ht u hu => h u t ht hu, fun h u t ht hu => h t ht u hu⟩

theorem Tree.writable_mk {n : Node} {ts : List Tree} :
    (mk n ts).Writable ↔ (∀ x ∈ n.lexeme?, x.Writable) ∧ ∀ t ∈ ts, t.Writable := holds_mk

theorem Tree.Writable.root {n : Node} {ts : List Tree} (h : (mk n ts).Writable) {x : Lexeme}
    (hx : n.lexeme? = some x) : x.Writable := (writable_mk.mp h).1 x hx

theorem Tree.Writable.child {n : Node} {ts : List Tree} (h : (mk n ts).Writable) {t : Tree}
    (ht : t ∈ ts) : t.Writable := (writable_mk.mp h).2 t ht

theorem Tree.IsExpression.lexemes_writable {t : Tree} (h : t.IsExpression) (hw : t.Writable)
    (l : Level) : ∀ x ∈ t.lexemesAt l, x.Writable := by
  induction h generalizing l with
  | name x => simpa [lexemesAt] using hw.root rfl
  | literal lit => cases lit <;> simpa [lexemesAt, Literal.node] using hw.root rfl
  | text s => simp [lexemesAt, Lexeme.Writable]
  | binary op _ _ ihl ihr =>
    rw [lexemesAt_binary]
    refine enclosed_writable ?_
    rw [List.forall_mem_append, List.forall_mem_cons]
    exact ⟨ihl (hw.child (by simp)) _, trivial, ihr (hw.child (by simp)) _⟩
  | negate _ ih =>
    exact enclosed_writable (List.forall_mem_cons.mpr ⟨trivial, ih (hw.child (by simp)) _⟩)

theorem Tree.statementsLexemes_writable {ts : List Tree}
    (h : ∀ t ∈ ts, t.Writable → ∀ x ∈ t.statementLexemes, x.Writable) (hw : ∀ t ∈ ts, t.Writable) :
    ∀ x ∈ statementsLexemes ts, x.Writable := by
  induction ts with
  | nil => simp [statementsLexemes]
  | cons t ts ih =>
    rw [List.forall_mem_cons] at h hw
    exact List.forall_mem_append.mpr ⟨h.1 hw.1, ih h.2 hw.2⟩

theorem Tree.blockLexemes_writable {ts : List Tree}
    (h : ∀ t ∈ ts, t.Writable → ∀ x ∈ t.statementLexemes, x.Writable)
    (hw : (mk .block ts).Writable) : ∀ x ∈ (mk .block ts).blockLexemes, x.Writable := by
  simp only [blockLexemes, List.cons_append, List.forall_mem_cons, List.forall_mem_append]
  exact ⟨trivial, statementsLexemes_writable h fun t => hw.child, trivial, by simp⟩

theorem Tree.IsStatement.lexemes_writable {t : Tree} (h : t.IsStatement) (hw : t.Writable) :
    ∀ x ∈ t.statementLexemes, x.Writable := by
  induction h with
  | declare x kind => simpa [statementLexemes, Lexeme.Writable] using hw.root rfl
  | assign x he =>
    simp only [statementLexemes, List.cons_append, List.forall_mem_cons, List.forall_mem_append]
    exact ⟨hw.root rfl, trivial, he.lexemes_writable (hw.child (by simp)) _, trivial, by simp⟩
  | step k x =>
    cases k <;> simpa [statementLexemes, Lexeme.Writable, Step.node] using hw.root rfl
  | print he =>
    simp only [statementLexemes, List.cons_append, List.forall_mem_cons, List.forall_mem_append]
    exact ⟨trivial, he.lexemes_writable (hw.child (by simp)) _, trivial, by simp⟩
  | guarded g hc _ ihb =>
    have hcondition := hc.lexemes_writable (hw.child (by simp)) (.chain .disjunction)
    have hbody := blockLexemes_writable ihb (hw.child (by simp))
    cases g <;>
      simp only [Guard.node, statementLexemes, List.cons_append, List.forall_mem_cons,
        List.forall_mem_append] <;>
      exact ⟨trivial, trivial, hcondition, trivial, hbody⟩
  | choice hc _ _ ihy ihn =>
    have hcondition := hc.lexemes_writable (hw.child (by simp)) (.chain .disjunction)
    have hyes := blockLexemes_writable ihy (hw.child (by simp))
    have hno := blockLexemes_writable ihn (hw.child (by simp))
    simp only [statementLexemes, List.cons_append, List.forall_mem_cons, List.forall_mem_append]
    exact ⟨trivial, trivial, hcondition, trivial, hyes, trivial, hno⟩

theorem Tree.IsProgram.lexemes_writable {t : Tree} (h : t.IsProgram) (hw : t.Writable) :
    ∀ x ∈ t.lexemes, x.Writable := by
  obtain ⟨body, rfl, hbody⟩ := h
  have hblock : (mk .block body).Writable := hw.child (by simp)
  exact statementsLexemes_writable (fun u hu => (hbody u hu).lexemes_writable) fun u => hblock.child

/-! ## The way back -/

/-- **A program that is written out is read again**, whatever its lexemes are spelled like and how
far apart they stand. It can be written out, and with no fewer parentheses. -/
theorem parseSource_written {t : Tree} (ht : t.IsProgram) (hw : t.Writable) :
    (∃ source : String, Token.Spaced source.toList t.lexemes) ∧
    (∀ source : String, Token.Spaced source.toList t.lexemes → parseSource source = .ok t) ∧
    ∀ ls, Derives .program ls t → ls.filter (!·.isParen) = t.lexemes.filter (!·.isParen) →
      t.lexemes.count (.symbol .openParen) ≤ ls.count (.symbol .openParen) := by
  refine ⟨?_, fun source hs => ?_, fun ls h hsame => h.count_openParen_le hsame⟩
  · obtain ⟨source, hs, -⟩ := Token.exists_spaced (ht.lexemes_writable hw)
    exact ⟨String.ofList source, by rwa [String.toList_ofList]⟩
  · obtain ⟨ts, hscan, hts⟩ := hs.scanFrom_eq 1
    have hderives : Derives .program t.lexemes t := Category.Shape.derives ht
    have hread : ofTokens ts = .ok t := hderives.accepted ts hts
    simp [parseSource, Token.scan, hscan, hread]

/-- `x = x - (1 - x); if ((x < 1) == (!x)) { print 2.5; }`, in which all parentheses are needed. -/
def nestedOperators : Tree :=
  mk .program [mk .block [
    mk (.assign "x") [mk (.arithmetic .sub) [mk (.name "x") [],
      mk (.arithmetic .sub) [mk (.integer 1) [], mk (.name "x") []]]],
    mk .condition [mk (.compare .eq) [mk (.compare .lt) [mk (.name "x") [], mk (.integer 1) []],
        mk .negate [mk (.name "x") []]],
      mk .block [mk .print [mk (.real (.ofDecimal 25 1)) []]]]]]

theorem nestedOperators_written : nestedOperators.IsProgram ∧ nestedOperators.Writable ∧
    nestedOperators.lexemes = [.name "x", .symbol .assign, .name "x", .symbol .minus,
      .symbol .openParen, .integer 1, .symbol .minus, .name "x", .symbol .closeParen,
      .symbol .semicolon, .keyword .condition, .symbol .openParen, .symbol .openParen, .name "x",
      .symbol .less, .integer 1, .symbol .closeParen, .symbol .equal, .symbol .openParen,
      .symbol .bang, .name "x", .symbol .closeParen, .symbol .closeParen, .symbol .openBrace,
      .keyword .print, .real (.ofDecimal 25 1), .symbol .semicolon, .symbol .closeBrace] ∧
    ∃ source : String, Token.Spaced source.toList nestedOperators.lexemes ∧
      parseSource source = .ok nestedOperators := by
  have hx : (Lexeme.name "x").Writable :=
    ⟨⟨'x', [], rfl, by decide, by simp⟩, fun k => by cases k <;> decide⟩
  have hreal : (Lexeme.real (.ofDecimal 25 1)).Writable :=
    ⟨['2'], ['5'], by simp, List.all_eq_true.mp rfl, List.all_eq_true.mp rfl, rfl⟩
  have hone : (Lexeme.integer 1).Writable := ⟨by decide, by decide⟩
  have name : (mk (.name "x") []).IsExpression := .name "x"
  have one : (mk (.integer 1) []).IsExpression := .literal (.integer 1)
  have ht : nestedOperators.IsProgram := by
    refine ⟨_, rfl, List.forall_mem_cons.mpr ⟨?_, List.forall_mem_singleton.mpr ?_⟩⟩
    · exact .assign "x" (.binary (.arithmetic .sub) name (.binary (.arithmetic .sub) one name))
    · refine .guarded .condition (.binary (.compare .eq) (.binary (.compare .lt) name one)
        (.negate name)) (List.forall_mem_singleton.mpr ?_)
      exact .print (.literal (.real _))
  have hw : nestedOperators.Writable := by
    simp [nestedOperators, writable_mk, Node.lexeme?, hx, hreal, hone]
  obtain ⟨⟨source, hs⟩, hread, -⟩ := parseSource_written ht hw
  exact ⟨ht, hw, rfl, source, hs, hread source hs⟩

end FlowLang
