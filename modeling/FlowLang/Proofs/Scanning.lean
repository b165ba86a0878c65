import FlowLang.Token.Scan
import Mathlib.Data.List.Induction
import Mathlib.Data.List.TakeWhile

/-!
# How a source falls into pieces

The rules by which a source is split, without the function that does it (`tokenize`):

* `Spells text x`: the characters `text` are a way to write the lexeme `x`. `GoesOn` says when a
  lexeme takes in the character after it, so that numbers and words are maximal runs, a symbol of
  two characters is preferred, and two slashes start a comment. The escapes, symbols and keywords
  are named one by one (`Escape`, `Pair`, `Single`, `Reserved`), and the tables that the scanner
  looks them up in are proved to be the same.
* `IsPiece text x? rest`: at the start of `text ++ rest` stands the piece `text`, a blank character,
  a comment or a lexeme.
* `Splits before ts rest`: the characters `before` fall into pieces if `rest` follows, and `ts` are
  their lexemes in order. The line of each counts the newlines before its first character, `lineAt`.
* `FaultAt before rest e`: after `before`, what stands at the start of `rest` is no piece, and `e`
  says so.

Every source has exactly one of two descriptions, and `scan` finds it (**`scan_splits`**): all of it
falls into pieces, or the part before a fault does.
-/

namespace FlowLang.Token

/-! ## Lexemes -/

/-- What a backslash and the character after it stand for. -/
inductive Escape : Char → Char → Prop
  | newline : Escape 'n' '\n'
  | tab : Escape 't' '\t'
  | mark : Escape '\x22' '\x22'
  | backslash : Escape '\\' '\\'

/-- The symbols of two characters. -/
inductive Pair : Char → Char → Symbol → Prop
  | equal : Pair '=' '=' .equal
  | notEqual : Pair '!' '=' .notEqual
  | lessEqual : Pair '<' '=' .lessEqual
  | greaterEqual : Pair '>' '=' .greaterEqual
  | both : Pair '&' '&' .both
  | either : Pair '|' '|' .either
  | increment : Pair '+' '+' .increment
  | decrement : Pair '-' '-' .decrement

/-- The symbols of one character. -/
inductive Single : Char → Symbol → Prop
  | plus : Single '+' .plus
  | minus : Single '-' .minus
  | star : Single '*' .star
  | slash : Single '/' .slash
  | openParen : Single '(' .openParen
  | closeParen : Single ')' .closeParen
  | openBrace : Single '\x7b' .openBrace
  | closeBrace : Single '\x7d' .closeBrace
  | semicolon : Single ';' .semicolon
  | assign : Single '=' .assign
  | less : Single '<' .less
  | greater : Single '>' .greater
  | bang : Single '!' .bang

/-- The words that are no names. -/
inductive Reserved : List Char → Keyword → Prop
  | num : Reserved ['n', 'u', 'm'] .num
  | str : Reserved ['s', 't', 'r'] .str
  | print : Reserved ['p', 'r', 'i', 'n', 't'] .print
  | loop : Reserved ['w', 'h', 'i', 'l', 'e'] .loop
  | condition : Reserved ['i', 'f'] .condition
  | alternative : Reserved ['e', 'l', 's', 'e'] .alternative

/-- The characters between the marks of a text literal, and the text that they stand for. -/
inductive Escapes : List Char → List Char → Prop
  | nil : Escapes [] []
  | plain {c : Char} {body content : List Char} (hq : c ≠ '\x22') (hb : c ≠ '\\')
      (h : Escapes body content) : Escapes (c :: body) (c :: content)
  | escape {e c : Char} {body content : List Char} (he : Escape e c)
      (h : Escapes body content) : Escapes ('\\' :: e :: body) (c :: content)

/-- The ways to write a lexeme. -/
inductive Spells : List Char → Lexeme → Prop
  | integer {digits : List Char} (hne : digits ≠ []) (hd : ∀ c ∈ digits, c.isDigit)
      (hmax : Numeral.digitsValue digits ≤ Numeral.maxInteger) :
      Spells digits (.integer (Numeral.digitsValue digits))
  | real {whole places : List Char} (hne : whole ≠ []) (hw : ∀ c ∈ whole, c.isDigit)
      (hp : ∀ c ∈ places, c.isDigit) :
      Spells (whole ++ '.' :: places)
        (.real (.ofDecimal (Numeral.digitsValue (whole ++ places)) places.length))
  | keyword {text : List Char} {k : Keyword} (h : Reserved text k) : Spells text (.keyword k)
  | name {c : Char} {cs : List Char} (hc : c.isAlpha ∨ c = '_')
      (hcs : ∀ d ∈ cs, d.isAlphanum ∨ d = '_') (hk : ∀ k, ¬Reserved (c :: cs) k) :
      Spells (c :: cs) (.name (String.ofList (c :: cs)))
  | text {body content : List Char} (h : Escapes body content) :
      Spells ('\x22' :: (body ++ ['\x22'])) (.text (String.ofList content))
  | pair {c d : Char} {s : Symbol} (h : Pair c d s) : Spells [c, d] (.symbol s)
  | single {c : Char} {s : Symbol} (h : Single c s) : Spells [c] (.symbol s)

/-- The character after a lexeme belongs to it: a number takes in digits and points, a word letters,
digits and `_`, and a single symbol what makes a pair or a comment of it. -/
inductive GoesOn : List Char → Char → Prop
  | number {c d : Char} {cs : List Char} (hc : c.isDigit) (hd : d.isDigit ∨ d = '.') :
      GoesOn (c :: cs) d
  | word {c d : Char} {cs : List Char} (hc : c.isAlpha ∨ c = '_') (hd : d.isAlphanum ∨ d = '_') :
      GoesOn (c :: cs) d
  | pair {c d : Char} {s : Symbol} (h : Pair c d s) : GoesOn [c] d
  | comment : GoesOn ['/'] '/'

/-- The first piece of `text ++ rest` is `text`. It is skipped or is a lexeme. -/
inductive IsPiece : List Char → Option Lexeme → List Char → Prop
  | blank {c : Char} {rest : List Char} (h : Text.isBlank c) : IsPiece [c] none rest
  | comment {body rest : List Char} (hbody : '\n' ∉ body) (hrest : ∀ c ∈ rest.head?, c = '\n') :
      IsPiece ('/' :: '/' :: body) none rest
  | lexeme {text rest : List Char} {x : Lexeme} (h : Spells text x)
      (hrest : ∀ d ∈ rest.head?, ¬GoesOn text d) : IsPiece text (some x) rest

/-- The line of what comes after `before`. -/
def lineAt (before : List Char) : Nat := 1 + before.count '\n'

/-- If `rest` follows, then `before` falls into pieces with the tokens `ts`. -/
inductive Splits : List Char → List Token → List Char → Prop
  | start (source : List Char) : Splits [] [] source
  | skipped {before text rest : List Char} {ts : List Token} (h : Splits before ts (text ++ rest))
      (hp : IsPiece text none rest) : Splits (before ++ text) ts rest
  | token {before text rest : List Char} {ts : List Token} {x : Lexeme}
      (h : Splits before ts (text ++ rest)) (hp : IsPiece text (some x) rest) :
      Splits (before ++ text) (ts ++ [⟨x, lineAt before⟩]) rest

/-- Characters that can start a symbol or a comment only. -/
def IsMark (c : Char) : Prop :=
  Text.isBlank c = false ∧ ¬c.isDigit ∧ ¬(c.isAlpha ∨ c = '_') ∧ c ≠ '\x22'

/-- What stands after `before` is no piece. -/
inductive FaultAt (before : List Char) : List Char → ScanFault → Prop
  | character {c : Char} {rest : List Char} (hc : IsMark c) (hsingle : ∀ s, ¬Single c s)
      (hpair : ∀ d ∈ rest.head?, ∀ s, ¬Pair c d s) :
      FaultAt before (c :: rest) (.unexpectedChar (lineAt before) c)
  | number {c : Char} {run rest : List Char} (hc : c.isDigit)
      (hrun : ∀ d ∈ run, d.isDigit ∨ d = '.')
      (hrest : ∀ d ∈ rest.head?, ¬(d.isDigit ∨ d = '.'))
      (hbad : 2 ≤ (c :: run).count '.' ∨
        (c :: run).count '.' = 0 ∧ Numeral.maxInteger < Numeral.digitsValue (c :: run)) :
      FaultAt before (c :: run ++ rest) (.invalidNumber (lineAt before) (String.ofList (c :: run)))
  | unclosed {body content : List Char} (h : Escapes body content) :
      FaultAt before ('\x22' :: body) (.unterminatedText (lineAt before))
  | unclosedEscape {body content : List Char} (h : Escapes body content) :
      FaultAt before ('\x22' :: (body ++ ['\\'])) (.unterminatedText (lineAt before))
  | escape {body content rest : List Char} {e : Char} (h : Escapes body content)
      (he : ∀ c, ¬Escape e c) :
      FaultAt before ('\x22' :: (body ++ '\\' :: e :: rest))
        (.unexpectedChar (lineAt (before ++ '\x22' :: (body ++ ['\\']))) e)

/-! ## The tables of the scanner -/

theorem unescape?_eq_some {e c : Char} : unescape? e = some c ↔ Escape e c := by
  constructor
  · intro h
    unfold unescape? at h
    split at h <;> cases h <;> constructor
  · rintro ⟨⟩ <;> rfl

theorem unescape?_eq_none {e : Char} : unescape? e = none ↔ ∀ c, ¬Escape e c := by
  simp only [← unescape?_eq_some, Option.eq_none_iff_forall_ne_some, ne_eq]

theorem ofPair?_eq_some {c d : Char} {s : Symbol} : Symbol.ofPair? c d = some s ↔ Pair c d s := by
  constructor
  · intro h
    unfold Symbol.ofPair? at h
    split at h <;> cases h <;> constructor
  · rintro ⟨⟩ <;> rfl

theorem ofPair?_eq_none {c d : Char} : Symbol.ofPair? c d = none ↔ ∀ s, ¬Pair c d s := by
  simp only [← ofPair?_eq_some, Option.eq_none_iff_forall_ne_some, ne_eq]

theorem ofChar?_eq_some {c : Char} {s : Symbol} : Symbol.ofChar? c = some s ↔ Single c s := by
  constructor
  · intro h
    unfold Symbol.ofChar? at h
    split at h <;> cases h <;> constructor
  · rintro ⟨⟩ <;> rfl

theorem ofChar?_eq_none {c : Char} : Symbol.ofChar? c = none ↔ ∀ s, ¬Single c s := by
  simp only [← ofChar?_eq_some, Option.eq_none_iff_forall_ne_some, ne_eq]

theorem ofWord?_eq_some {word : String} {k : Keyword} :
    Keyword.ofWord? word = some k ↔ Reserved word.toList k := by
  constructor
  · intro h
    unfold Keyword.ofWord? at h
    have hspelling : k.spelling = word := by simpa using List.find?_some h
    rw [← hspelling]
    cases k <;> constructor
  · intro h
    obtain ⟨text, rfl⟩ : ∃ text, word = String.ofList text := ⟨_, String.ofList_toList.symm⟩
    rw [String.toList_ofList] at h
    cases h <;> decide +kernel

theorem ofWord?_eq_none {word : String} :
    Keyword.ofWord? word = none ↔ ∀ k, ¬Reserved word.toList k := by
  simp only [← ofWord?_eq_some, Option.eq_none_iff_forall_ne_some, ne_eq]

theorem isNumberChar_iff {c : Char} : isNumberChar c = true ↔ c.isDigit ∨ c = '.' := by
  simp [isNumberChar]

theorem isWordStart_iff {c : Char} : isWordStart c = true ↔ c.isAlpha ∨ c = '_' := by
  simp [isWordStart]

theorem isWordChar_iff {c : Char} : isWordChar c = true ↔ c.isAlphanum ∨ c = '_' := by
  simp [isWordChar]

theorem lineAt_append (before text : List Char) :
    lineAt (before ++ text) = lineAt before + text.count '\n' := by
  simp [lineAt, Nat.add_assoc]

/-! ## Classes of characters -/

theorem isBlank_eq_false {c : Char} (hlow : 0x20 < c.toNat) (hhigh : c.toNat < 0x85) :
    Text.isBlank c = false := by
  simp only [Text.isBlank, Text.blankRanges, List.any_cons, List.any_nil, Bool.or_false,
    Bool.or_eq_false_iff, Bool.and_eq_false_iff, decide_eq_false_iff_not]
  omega

theorem toNat_of_isDigit {c : Char} (h : c.isDigit) : 48 ≤ c.toNat ∧ c.toNat ≤ 57 := by
  simpa using Char.isDigit_iff_toNat.mp h

theorem toNat_of_isWordStart {c : Char} (h : isWordStart c) : 65 ≤ c.toNat ∧ c.toNat ≤ 122 := by
  change ((decide ('A'.val ≤ c.val ∧ c.val ≤ 'Z'.val) ||
    decide ('a'.val ≤ c.val) && decide (c.val ≤ 'z'.val)) || c == '_') = true at h
  simp only [UInt32.le_iff_toNat_le, Bool.or_eq_true, Bool.and_eq_true, decide_eq_true_eq,
    beq_iff_eq] at h
  change ((65 ≤ c.toNat ∧ c.toNat ≤ 90) ∨ (97 ≤ c.toNat ∧ c.toNat ≤ 122)) ∨ c = '_' at h
  rcases h with (h | h) | rfl
  · omega
  · omega
  · decide

theorem not_isDigit_of_isWordStart {c : Char} (h : isWordStart c) : ¬ c.isDigit = true := by
  intro hd
  have := toNat_of_isDigit hd
  have := toNat_of_isWordStart h
  omega

theorem isWordChar_of_isWordStart {c : Char} (h : isWordStart c) : isWordChar c := by
  revert h
  simp only [isWordStart, isWordChar, Char.isAlphanum, Bool.or_eq_true]
  tauto

theorem IsMark.ne_newline {c : Char} (h : IsMark c) : c ≠ '\n' := by
  rintro rfl
  exact absurd h.1 (by decide)

/-- A visible character is not skipped. -/
theorem not_skipped {c : Char} (hlow : 0x20 < c.toNat) (hhigh : c.toNat < 0x85) :
    c ≠ '\n' ∧ ¬ Text.isBlank c = true := by
  refine ⟨?_, by simp [isBlank_eq_false hlow hhigh]⟩
  rintro rfl
  simp at hlow

/-- A run ends where its class does. -/
theorem takeWhile_run {α : Type} {p : α → Bool} {run rest : List α} (hrun : ∀ c ∈ run, p c)
    (hrest : ∀ c ∈ rest.head?, p c = false) :
    (run ++ rest).takeWhile p = run ∧ (run ++ rest).dropWhile p = rest := by
  rw [List.takeWhile_append_of_pos hrun, List.dropWhile_append_of_pos hrun]
  cases rest with
  | nil => simp
  | cons c rest => simp [hrest c rfl]

theorem head?_dropWhile {p : Char → Bool} {cs : List Char} :
    ∀ c ∈ (cs.dropWhile p).head?, p c = false := by
  intro c hc
  have h := List.head?_dropWhile_not p cs
  rw [Option.mem_def.mp hc] at h
  exact h

/-! ## One piece, by its first character -/

theorem piece_digit {c : Char} (h : c.isDigit) (line : Nat) {run rest : List Char}
    (hrun : ∀ d ∈ run, isNumberChar d) (hrest : ∀ d ∈ rest.head?, isNumberChar d = false) :
    piece line c (run ++ rest) = match Numeral.ofRun? (c :: run) with
      | some n => .ok ⟨some (.ofNumeral n), line, rest⟩
      | none => .error (.invalidNumber line (String.ofList (c :: run))) := by
  have hn := toNat_of_isDigit h
  have hs := not_skipped (c := c) (by omega) (by omega)
  have hslash : c ≠ '/' := by
    rintro rfl
    simp at hn
  unfold piece
  rewrite [if_neg hs.1, if_neg hs.2, if_neg (fun hc => hslash hc.1), if_pos h,
    (takeWhile_run hrun hrest).1, (takeWhile_run hrun hrest).2]
  rfl

theorem piece_word {c : Char} (h : isWordStart c) (line : Nat) {run rest : List Char}
    (hrun : ∀ d ∈ run, isWordChar d) (hrest : ∀ d ∈ rest.head?, isWordChar d = false) :
    piece line c (run ++ rest) = .ok ⟨some (.ofWord (String.ofList (c :: run))), line, rest⟩ := by
  have hn := toNat_of_isWordStart h
  have hs := not_skipped (c := c) (by omega) (by omega)
  have hslash : c ≠ '/' := by
    rintro rfl
    simp at hn
  unfold piece
  rw [if_neg hs.1, if_neg hs.2, if_neg (fun hc => hslash hc.1),
    if_neg (not_isDigit_of_isWordStart h), if_pos h, (takeWhile_run hrun hrest).1,
    (takeWhile_run hrun hrest).2]

theorem piece_text (line : Nat) (rest : List Char) :
    piece line '\x22' rest = match readText line line rest with
      | .ok t => .ok ⟨some (.text (String.ofList t.content)), t.line, t.rest⟩
      | .error e => .error e := rfl

theorem piece_comment (line : Nat) {body rest : List Char} (hbody : '\n' ∉ body)
    (hrest : ∀ c ∈ rest.head?, c = '\n') :
    piece line '/' ('/' :: body ++ rest) = .ok ⟨none, line, rest⟩ := by
  have hrun : ∀ c ∈ '/' :: body, (c != '\n') = true := by
    intro c hc
    rw [bne_iff_ne]
    rintro rfl
    exact hbody (by simpa using hc)
  have hend : ∀ c ∈ rest.head?, (c != '\n') = false := fun c hc => by simp [hrest c hc]
  rw [show piece line '/' ('/' :: body ++ rest) =
    .ok ⟨none, line, ('/' :: body ++ rest).dropWhile (· != '\n')⟩ from rfl,
    (takeWhile_run hrun hend).2]

theorem piece_mark {c : Char} (hc : IsMark c) (line : Nat) {rest : List Char}
    (hslash : ¬ (c = '/' ∧ rest.head? = some '/')) :
    piece line c rest = match readSymbol? c rest with
      | some (s, after) => .ok ⟨some (.symbol s), line, after⟩
      | none => .error (.unexpectedChar line c) := by
  have hnewline := hc.ne_newline
  obtain ⟨hblank, hdigit, hword, hquote⟩ := hc
  unfold piece
  rewrite [if_neg hnewline, if_neg (by simp [hblank]), if_neg hslash, if_neg hdigit,
    if_neg (mt isWordStart_iff.mp hword), if_neg hquote]
  rfl

theorem Single.isMark {c : Char} {s : Symbol} (h : Single c s) : IsMark c := by
  cases h <;> exact ⟨by decide, by decide, by decide, by decide⟩

theorem Pair.isMark {c d : Char} {s : Symbol} (h : Pair c d s) : IsMark c := by
  cases h <;> exact ⟨by decide, by decide, by decide, by decide⟩

theorem Pair.ne {c d : Char} {s : Symbol} (h : Pair c d s) : c ≠ '/' ∧ d ≠ '\n' := by
  cases h <;> exact ⟨by decide, by decide⟩

/-! ## What belongs to a lexeme, by its first character -/

theorem goesOn_digit {c d : Char} {cs : List Char} (hc : c.isDigit) :
    GoesOn (c :: cs) d ↔ isNumberChar d = true := by
  rw [isNumberChar_iff]
  constructor
  · intro h
    cases h with
    | number _ hd => exact hd
    | word hword => exact absurd hc (not_isDigit_of_isWordStart (isWordStart_iff.mpr hword))
    | pair h => exact absurd hc h.isMark.2.1
    | comment => exact absurd hc (by decide)
  · exact .number hc

theorem goesOn_word {c d : Char} {cs : List Char} (hc : isWordStart c) :
    GoesOn (c :: cs) d ↔ isWordChar d = true := by
  rw [isWordChar_iff]
  constructor
  · intro h
    cases h with
    | number hdigit => exact absurd hdigit (not_isDigit_of_isWordStart hc)
    | word _ hd => exact hd
    | pair h => exact absurd (isWordStart_iff.mp hc) h.isMark.2.2.1
    | comment => exact absurd hc (by decide)
  · exact .word (isWordStart_iff.mp hc)

theorem goesOn_mark {c d : Char} {cs : List Char} (hc : IsMark c) (h : GoesOn (c :: cs) d) :
    cs = [] ∧ ((∃ s, Pair c d s) ∨ c = '/' ∧ d = '/') := by
  cases h with
  | number hdigit => exact absurd hdigit hc.2.1
  | word hword => exact absurd hword hc.2.2.1
  | pair h => exact ⟨rfl, .inl ⟨_, h⟩⟩
  | comment => exact ⟨rfl, .inr ⟨rfl, rfl⟩⟩

theorem not_goesOn_text {cs : List Char} {d : Char} : ¬GoesOn ('\x22' :: cs) d := by
  intro h
  cases h with
  | number hdigit => exact absurd hdigit (by decide)
  | word hword => exact absurd hword (by decide)
  | pair h => cases h

/-- Where no pair starts, a single character decides. -/
theorem readSymbol?_single {c : Char} {rest : List Char}
    (h : ∀ d ∈ rest.head?, Symbol.ofPair? c d = none) :
    readSymbol? c rest = (Symbol.ofChar? c).map (·, rest) := by
  cases rest with
  | nil => rfl
  | cons d rest => simp [readSymbol?, h d rfl]

/-! ## Texts -/

theorem readText_plain {c : Char} (hq : c ≠ '\x22') (hb : c ≠ '\\') (start line : Nat)
    (rest : List Char) : readText start line (c :: rest) =
      (readText start (line + [c].count '\n') rest).map (.cons c) := by
  rw [readText.eq_def]
  by_cases hc : c = '\n'
  · simp [hc]
  · simp [hq, hb, hc]

theorem readText_mark (start line : Nat) (rest : List Char) :
    readText start line ('\x22' :: rest) = .ok ⟨[], line, rest⟩ := by
  rw [readText.eq_def]
  rfl

theorem readText_escape (start line : Nat) (e : Char) (rest : List Char) :
    readText start line ('\\' :: e :: rest) = match unescape? e with
      | none => .error (.unexpectedChar line e)
      | some c => (readText start line rest).map (.cons c) := by
  rw [readText.eq_def]
  rfl

theorem Escape.ne_newline {e c : Char} (h : Escape e c) : e ≠ '\n' := by
  rintro rfl
  cases h

/-- What is escaped is read as it is, and the rest decides. -/
theorem readText_append {body content : List Char} (h : Escapes body content) (start : Nat)
    (rest : List Char) : ∀ line, readText start line (body ++ rest) =
      (readText start (line + body.count '\n') rest).map
        fun t => { t with content := content ++ t.content } := by
  induction h with
  | nil =>
    intro line
    cases hr : readText start line rest <;> simp [hr, Except.map]
  | @plain c body content hq hb _ ih =>
    intro line
    rw [List.cons_append, readText_plain hq hb, ih, Nat.add_assoc, ← List.count_append,
      List.singleton_append]
    cases readText start (line + (c :: body).count '\n') rest <;> rfl
  | @escape e c body content he _ ih =>
    intro line
    have hcount : ('\\' :: e :: body).count '\n' = body.count '\n' := by
      rw [List.count_cons_of_ne (by decide), List.count_cons_of_ne he.ne_newline]
    rw [List.cons_append, List.cons_append, readText_escape, unescape?_eq_some.mpr he, hcount]
    simp only [ih]
    cases readText start (line + body.count '\n') rest <;> rfl

/-- Every list of characters is escaped up to a mark, its end or a bad escape. -/
theorem exists_escapes (cs : List Char) : ∃ body content rest, cs = body ++ rest ∧
    Escapes body content ∧ (rest = [] ∨ rest = ['\\'] ∨ (∃ after, rest = '\x22' :: after) ∨
      ∃ e after, rest = '\\' :: e :: after ∧ ∀ c, ¬Escape e c) := by
  induction cs using List.twoStepInduction with
  | nil => exact ⟨[], [], [], rfl, .nil, .inl rfl⟩
  | singleton c =>
    by_cases hq : c = '\x22'
    · exact ⟨[], [], [c], rfl, .nil, .inr (.inr (.inl ⟨[], by rw [hq]⟩))⟩
    by_cases hb : c = '\\'
    · exact ⟨[], [], [c], rfl, .nil, .inr (.inl (by rw [hb]))⟩
    · exact ⟨[c], [c], [], rfl, .plain hq hb .nil, .inl rfl⟩
  | cons_cons c e cs ih ih' =>
    by_cases hq : c = '\x22'
    · exact ⟨[], [], c :: e :: cs, rfl, .nil, .inr (.inr (.inl ⟨e :: cs, by rw [hq]⟩))⟩
    by_cases hb : c = '\\'
    · subst hb
      cases he : unescape? e with
      | none =>
        exact ⟨[], [], _, rfl, .nil, .inr (.inr (.inr ⟨e, cs, rfl, unescape?_eq_none.mp he⟩))⟩
      | some d =>
        obtain ⟨body, content, rest, rfl, h, hrest⟩ := ih
        exact ⟨_, _, rest, rfl, .escape (unescape?_eq_some.mp he) h, hrest⟩
    · obtain ⟨body, content, rest, hcs, h, hrest⟩ := ih' e
      exact ⟨c :: body, c :: content, rest, by rw [hcs]; rfl, .plain hq hb h, hrest⟩

/-! ## Pieces and faults as they are read -/

theorem count_eq_zero_of_class {p : Char → Bool} {cs : List Char} {c : Char} (h : ∀ d ∈ cs, p d)
    (hc : p c = false) : cs.count c = 0 := by
  refine List.count_eq_zero.mpr fun hmem => ?_
  rw [h c hmem] at hc
  cases hc

/-- The run of a real number is split at its point. -/
theorem ofRun?_real {whole places : List Char} (hw : ∀ c ∈ whole, c.isDigit)
    (hp : ∀ c ∈ places, c.isDigit) : Numeral.ofRun? (whole ++ '.' :: places) =
      some (.real (.ofDecimal (Numeral.digitsValue (whole ++ places)) places.length)) := by
  have hcount : (whole ++ '.' :: places).count '.' = 1 := by
    simp [count_eq_zero_of_class hw (show '.'.isDigit = false by decide),
      count_eq_zero_of_class hp (show '.'.isDigit = false by decide)]
  have hrun : ∀ c ∈ whole, (c != '.') = true := by
    intro c hc
    rw [bne_iff_ne]
    rintro rfl
    exact absurd (hw _ hc) (by decide)
  have hpoint : ∀ c ∈ ('.' :: places).head?, (c != '.') = false := by simp
  obtain ⟨htake, hdrop⟩ := takeWhile_run hrun hpoint
  simp only [Numeral.ofRun?, hcount, htake, hdrop, List.drop_one, List.tail_cons]

/-- A word is read as the keyword that it is, or else as a name. -/
theorem piece_ofWord {c : Char} {cs rest : List Char} (hc : isWordStart c)
    (hcs : ∀ d ∈ cs, isWordChar d) (hrest : ∀ d ∈ rest.head?, ¬GoesOn (c :: cs) d) (line : Nat) :
    piece line c (cs ++ rest) = .ok ⟨some (.ofWord (String.ofList (c :: cs))),
      line + (c :: cs).count '\n', rest⟩ := by
  have hrun : ∀ d ∈ c :: cs, isWordChar d :=
    List.forall_mem_cons.mpr ⟨isWordChar_of_isWordStart hc, hcs⟩
  rw [piece_word hc line hcs (fun d hmem => by simpa [goesOn_word hc] using hrest d hmem),
    count_eq_zero_of_class hrun (by decide)]
  rfl

theorem Reserved.word {text : List Char} {k : Keyword} (h : Reserved text k) :
    ∃ c cs, text = c :: cs ∧ isWordStart c ∧ ∀ d ∈ cs, isWordChar d := by
  cases h <;> exact ⟨_, _, rfl, by decide, List.all_eq_true.mp rfl⟩

/-- The spelling of a lexeme is read as that lexeme if the next character does not belong to it. -/
theorem Spells.piece_eq {text rest : List Char} {x : Lexeme} (h : Spells text x)
    (hrest : ∀ d ∈ rest.head?, ¬GoesOn text d) (line : Nat) :
    ∃ c cs, text = c :: cs ∧
      piece line c (cs ++ rest) = .ok ⟨some x, line + text.count '\n', rest⟩ := by
  cases h with
  | @integer digits hne hd hmax =>
    obtain ⟨c, cs, rfl⟩ := List.exists_cons_of_ne_nil hne
    have hc : c.isDigit := hd c List.mem_cons_self
    refine ⟨c, cs, rfl, ?_⟩
    rw [piece_digit hc line
      (fun d hmem => by simp [isNumberChar, hd d (List.mem_cons_of_mem c hmem)])
      (fun d hmem => by simpa [goesOn_digit hc] using hrest d hmem),
      count_eq_zero_of_class hd (by decide)]
    simp [Numeral.ofRun?, count_eq_zero_of_class hd (show '.'.isDigit = false by decide), hmax,
      Lexeme.ofNumeral]
  | @real whole places hne hw hp =>
    obtain ⟨c, cs, rfl⟩ := List.exists_cons_of_ne_nil hne
    have hc : c.isDigit := hw c List.mem_cons_self
    have hrun : ∀ d ∈ c :: cs ++ '.' :: places, isNumberChar d := by
      simp only [isNumberChar, List.mem_cons, List.mem_append]
      rintro d ((rfl | hmem) | rfl | hmem)
      · simp [hc]
      · simp [hw d (List.mem_cons_of_mem c hmem)]
      · simp
      · simp [hp d hmem]
    have htail : ∀ d ∈ cs ++ '.' :: places, isNumberChar d := fun d hmem =>
      hrun d (List.mem_cons_of_mem c hmem)
    refine ⟨c, cs ++ '.' :: places, rfl, ?_⟩
    rw [piece_digit hc line htail
      (fun d hmem => by simpa [goesOn_digit hc] using hrest d hmem), ← List.cons_append,
      ofRun?_real hw hp, count_eq_zero_of_class hrun (by decide)]
    rfl
  | keyword h =>
    obtain ⟨c, cs, rfl, hc, hcs⟩ := h.word
    refine ⟨c, cs, rfl, (piece_ofWord hc hcs hrest line).trans ?_⟩
    rw [Lexeme.ofWord, ofWord?_eq_some.mpr (by rwa [String.toList_ofList])]
  | @name c cs hc hcs hk =>
    refine ⟨c, cs, rfl, (piece_ofWord (isWordStart_iff.mpr hc)
      (fun d hd => isWordChar_iff.mpr (hcs d hd)) hrest line).trans ?_⟩
    rw [Lexeme.ofWord, ofWord?_eq_none.mpr (by rwa [String.toList_ofList])]
  | @text body content h =>
    refine ⟨'\x22', body ++ ['\x22'], rfl, ?_⟩
    rw [piece_text, List.append_assoc, readText_append h, List.singleton_append, readText_mark]
    simp [Except.map]
  | @pair c d s h =>
    obtain ⟨hslash, hnewline⟩ := h.ne
    refine ⟨c, [d], rfl, ?_⟩
    rw [piece_mark h.isMark line (fun hs => hslash hs.1)]
    simp [readSymbol?, ofPair?_eq_some.mpr h, h.isMark.ne_newline, hnewline]
  | @single c s h =>
    have hc := h.isMark
    have hpair : ∀ d ∈ rest.head?, Symbol.ofPair? c d = none := fun d hd =>
      ofPair?_eq_none.mpr fun s hs => hrest d hd (.pair hs)
    refine ⟨c, [], rfl, ?_⟩
    rw [List.nil_append, piece_mark hc line ?_, readSymbol?_single hpair, ofChar?_eq_some.mpr h]
    · simp [hc.ne_newline]
    · rintro ⟨rfl, hslash⟩
      exact hrest '/' hslash .comment

/-- The first piece is what is taken off, and the line goes on by its newlines. -/
theorem IsPiece.piece_eq {text rest : List Char} {x? : Option Lexeme} (h : IsPiece text x? rest)
    (line : Nat) : ∃ c cs, text = c :: cs ∧
      piece line c (cs ++ rest) = .ok ⟨x?, line + text.count '\n', rest⟩ := by
  cases h with
  | @blank c _ h =>
    refine ⟨c, [], rfl, ?_⟩
    unfold piece
    by_cases hc : c = '\n'
    · simp [hc]
    · simp [hc, h]
  | @comment body _ hbody hrest =>
    refine ⟨'/', '/' :: body, rfl, ?_⟩
    rw [piece_comment line hbody hrest, List.count_eq_zero.mpr (by simpa using hbody)]
    rfl
  | lexeme h hrest => exact h.piece_eq hrest line

theorem FaultAt.piece_eq {before rest : List Char} {e : ScanFault} (h : FaultAt before rest e) :
    ∃ c cs, rest = c :: cs ∧ piece (lineAt before) c cs = .error e := by
  cases h with
  | @character c rest hc hsingle hpair =>
    refine ⟨c, rest, rfl, ?_⟩
    have hslash : c ≠ '/' := by
      rintro rfl
      exact hsingle _ .slash
    rw [piece_mark hc _ (fun hs => hslash hs.1),
      readSymbol?_single (fun d hd => ofPair?_eq_none.mpr (hpair d hd)),
      ofChar?_eq_none.mpr hsingle]
    rfl
  | @number c run rest hc hrun hrest hbad =>
    refine ⟨c, run ++ rest, rfl, ?_⟩
    have hnone : Numeral.ofRun? (c :: run) = none := by
      unfold Numeral.ofRun?
      rcases hbad with htwo | ⟨hzero, hlarge⟩
      · split
        · omega
        · omega
        · rfl
      · simp [hzero, hlarge]
    rw [piece_digit hc _ (fun d hd => isNumberChar_iff.mpr (hrun d hd))
      (fun d hd => by simpa [← isNumberChar_iff] using hrest d hd), hnone]
  | @unclosed body _ h =>
    refine ⟨'\x22', body, rfl, ?_⟩
    rw [piece_text, ← List.append_nil body, readText_append h]
    rfl
  | @unclosedEscape body _ h =>
    refine ⟨'\x22', body ++ ['\\'], rfl, ?_⟩
    rw [piece_text, readText_append h]
    rfl
  | @escape body _ rest e h he =>
    refine ⟨'\x22', body ++ '\\' :: e :: rest, rfl, ?_⟩
    rw [piece_text, readText_append h, readText_escape, unescape?_eq_none.mpr he, lineAt_append]
    simp [Except.map]

/-! ## Every source starts with a piece or a fault -/

/-- After `before`, there is a first piece of `source` or a fault. -/
def PieceOrFault (before source : List Char) : Prop :=
  (∃ text x? rest, source = text ++ rest ∧ IsPiece text x? rest) ∨ ∃ e, FaultAt before source e

theorem isDigit_of_isNumberChar {c : Char} (h : isNumberChar c) (hc : c ≠ '.') : c.isDigit := by
  simpa [isNumberChar, hc] using h

/-- A run of digits and points is a number, or a fault. -/
theorem piece_or_fault_of_digit (before : List Char) {c : Char} (hc : c.isDigit)
    (rest : List Char) : PieceOrFault before (c :: rest) := by
  have hsplit : c :: rest =
      (c :: rest.takeWhile isNumberChar) ++ rest.dropWhile isNumberChar := by
    rw [List.cons_append, List.takeWhile_append_dropWhile]
  have hrun : ∀ d ∈ c :: rest.takeWhile isNumberChar, isNumberChar d := by
    refine List.forall_mem_cons.mpr ⟨by simp [isNumberChar, hc], fun d hd => ?_⟩
    exact List.mem_takeWhile_imp hd
  generalize rest.takeWhile isNumberChar = run at hsplit hrun
  have hrest : ∀ d ∈ (rest.dropWhile isNumberChar).head?, isNumberChar d = false := head?_dropWhile
  generalize rest.dropWhile isNumberChar = after at hsplit hrest
  have hgoesOn : ∀ d ∈ after.head?, ¬GoesOn (c :: run) d := fun d hd => by
    simpa [goesOn_digit hc] using hrest d hd
  have hfault := fun hbad => @FaultAt.number before c run after hc
    (fun d hd => isNumberChar_iff.mp (hrun d (List.mem_cons_of_mem c hd)))
    (fun d hd => by simpa [← isNumberChar_iff] using hrest d hd) hbad
  rw [hsplit]
  rcases Nat.lt_trichotomy ((c :: run).count '.') 1 with hzero | hone | htwo
  · have hdigits : ∀ d ∈ c :: run, d.isDigit := fun d hd =>
      isDigit_of_isNumberChar (hrun d hd) (by
        rintro rfl
        exact List.count_eq_zero.mp (Nat.lt_one_iff.mp hzero) hd)
    by_cases hmax : Numeral.digitsValue (c :: run) ≤ Numeral.maxInteger
    · exact .inl ⟨_, _, after, rfl, .lexeme (.integer (by simp) hdigits hmax) hgoesOn⟩
    · exact .inr ⟨_, hfault (.inr ⟨Nat.lt_one_iff.mp hzero, Nat.lt_of_not_le hmax⟩)⟩
  · have hmem : '.' ∈ c :: run := List.count_pos_iff.mp (by omega)
    obtain ⟨whole, places, hpoint⟩ := List.append_of_mem hmem
    have hdigits : ∀ d, d ∈ whole ∨ d ∈ places → d.isDigit := by
      intro d hd
      rw [hpoint, List.count_append, List.count_cons_self] at hone
      refine isDigit_of_isNumberChar (hrun d ?_) ?_
      · rw [hpoint]
        simpa using Or.imp_right Or.inr hd
      · rintro rfl
        have := hd.imp List.count_pos_iff.mpr List.count_pos_iff.mpr
        omega
    have hne : whole ≠ [] := by
      rintro rfl
      cases hpoint
      exact absurd hc (by decide)
    rw [hpoint] at hgoesOn ⊢
    exact .inl ⟨_, _, after, rfl, .lexeme (.real hne (fun d hd => hdigits d (.inl hd))
      (fun d hd => hdigits d (.inr hd))) hgoesOn⟩
  · exact .inr ⟨_, hfault (.inl htwo)⟩

/-- A text literal is closed, or a fault. -/
theorem piece_or_fault_of_mark (before rest : List Char) :
    PieceOrFault before ('\x22' :: rest) := by
  obtain ⟨body, content, tail, rfl, h, htail⟩ := exists_escapes rest
  rcases htail with rfl | rfl | ⟨after, rfl⟩ | ⟨e, after, rfl, he⟩
  · rw [List.append_nil]
    exact .inr ⟨_, .unclosed h⟩
  · exact .inr ⟨_, .unclosedEscape h⟩
  · refine .inl ⟨_, _, after, ?_, .lexeme (.text h) ?_⟩
    · simp
    · exact fun d _ => not_goesOn_text
  · exact .inr ⟨_, .escape h he⟩

/-- What starts neither a number nor a word nor a text is a symbol, a comment or a fault. -/
theorem piece_or_fault_of_isMark (before : List Char) {c : Char} (hc : IsMark c)
    (rest : List Char) : PieceOrFault before (c :: rest) := by
  by_cases hpair : ∃ d s after, rest = d :: after ∧ Pair c d s
  · obtain ⟨d, s, after, rfl, hs⟩ := hpair
    refine .inl ⟨[c, d], _, after, rfl, .lexeme (.pair hs) fun _ _ hgo => ?_⟩
    cases (goesOn_mark hc hgo).1
  have hnone : ∀ d ∈ rest.head?, ∀ s, ¬Pair c d s := by
    intro d hd s hs
    obtain ⟨after, rfl⟩ := List.head?_eq_some_iff.mp hd
    exact hpair ⟨d, s, after, rfl, hs⟩
  by_cases hcomment : c = '/' ∧ rest.head? = some '/'
  · obtain ⟨rfl, hhead⟩ := hcomment
    obtain ⟨after, rfl⟩ := List.head?_eq_some_iff.mp hhead
    refine .inl ⟨'/' :: '/' :: after.takeWhile (· != '\n'), none, after.dropWhile (· != '\n'), ?_,
      .comment ?_ ?_⟩
    · simp [List.takeWhile_append_dropWhile]
    · intro hmem
      simpa using List.mem_takeWhile_imp hmem
    · intro d hd
      simpa using head?_dropWhile d hd
  by_cases hsingle : ∃ s, Single c s
  · obtain ⟨s, hs⟩ := hsingle
    refine .inl ⟨[c], _, rest, rfl, .lexeme (.single hs) fun d hd hgo => ?_⟩
    rcases (goesOn_mark hc hgo).2 with ⟨s', hs'⟩ | ⟨hslash, rfl⟩
    · exact hnone d hd s' hs'
    · exact hcomment ⟨hslash, hd⟩
  · exact .inr ⟨_, .character hc (not_exists.mp hsingle) hnone⟩

/-- A word is a keyword, or else a name. -/
theorem spells_ofWord {c : Char} {cs : List Char} (hc : isWordStart c)
    (hcs : ∀ d ∈ cs, isWordChar d) : Spells (c :: cs) (.ofWord (String.ofList (c :: cs))) := by
  unfold Lexeme.ofWord
  cases hk : Keyword.ofWord? (String.ofList (c :: cs)) with
  | some k =>
    rw [ofWord?_eq_some, String.toList_ofList] at hk
    exact .keyword hk
  | none =>
    rw [ofWord?_eq_none, String.toList_ofList] at hk
    exact .name (isWordStart_iff.mp hc) (fun d hd => isWordChar_iff.mp (hcs d hd)) hk

/-- There is always a first piece, or a fault. -/
theorem piece_or_fault (before : List Char) (c : Char) (rest : List Char) :
    PieceOrFault before (c :: rest) := by
  by_cases hblank : Text.isBlank c
  · exact .inl ⟨[c], none, rest, rfl, .blank hblank⟩
  by_cases hdigit : c.isDigit
  · exact piece_or_fault_of_digit before hdigit rest
  by_cases hword : isWordStart c
  · refine .inl ⟨c :: rest.takeWhile isWordChar, _, rest.dropWhile isWordChar, ?_,
      .lexeme (spells_ofWord hword fun d hd => List.mem_takeWhile_imp hd) fun d hd => ?_⟩
    · simp [List.takeWhile_append_dropWhile]
    · simpa [goesOn_word hword] using head?_dropWhile d hd
  by_cases hquote : c = '\x22'
  · rw [hquote]
    exact piece_or_fault_of_mark before rest
  · exact piece_or_fault_of_isMark before
      ⟨by simpa using hblank, hdigit, mt isWordStart_iff.mpr hword, hquote⟩ rest

/-! ## Whole sources -/

theorem scanFrom_nil (line : Nat) : scanFrom line [] = .ok [] := by
  rw [scanFrom]

/-- The tokens of a source are that of its first piece and those after it. -/
theorem scanFrom_piece {text rest : List Char} {x? : Option Lexeme} (h : IsPiece text x? rest)
    (line : Nat) : scanFrom line (text ++ rest) =
      (scanFrom (line + text.count '\n') rest).map ((x?.map (⟨·, line⟩)).toList ++ ·) := by
  obtain ⟨c, cs, rfl, hp⟩ := h.piece_eq line
  rw [List.cons_append, scanFrom]
  split
  · rename_i e he
    cases hp.symm.trans he
  · rename_i p he
    cases hp.symm.trans he
    simp only
    cases scanFrom (line + (c :: cs).count '\n') rest <;> rfl

/-- What is skipped only moves the line. -/
theorem scanFrom_skipped {text rest : List Char} (h : IsPiece text none rest) (line : Nat) :
    scanFrom line (text ++ rest) = scanFrom (line + text.count '\n') rest := by
  rw [scanFrom_piece h]
  cases scanFrom (line + text.count '\n') rest <;> rfl

theorem scanFrom_fault {before rest : List Char} {e : ScanFault} (h : FaultAt before rest e) :
    scanFrom (lineAt before) rest = .error e := by
  obtain ⟨c, cs, rfl, hp⟩ := h.piece_eq
  rw [scanFrom]
  split
  · rename_i e' he
    cases hp.symm.trans he
    rfl
  · rename_i p he
    cases hp.symm.trans he

/-- What has been split is not looked at again: the rest decides. -/
theorem Splits.scanFrom_eq {before rest : List Char} {ts : List Token} (h : Splits before ts rest) :
    scanFrom 1 (before ++ rest) = (scanFrom (lineAt before) rest).map (ts ++ ·) := by
  induction h with
  | start source => cases hs : scanFrom 1 source <;> simp [lineAt, hs, Except.map]
  | @skipped before text rest ts _ hp ih =>
    rw [List.append_assoc, ih, scanFrom_piece hp, lineAt_append]
    cases scanFrom (lineAt before + text.count '\n') rest <;> rfl
  | @token before text rest ts x _ hp ih =>
    rw [List.append_assoc, ih, scanFrom_piece hp, lineAt_append]
    cases scanFrom (lineAt before + text.count '\n') rest <;> simp [Except.map]

/-- A source that has been split up to some point can be split further, to its end or to a fault. -/
theorem Splits.split_or_fault {before rest : List Char} {ts : List Token}
    (h : Splits before ts rest) : (∃ us, Splits (before ++ rest) us []) ∨
      ∃ part us after e, before ++ rest = part ++ after ∧ Splits part us after ∧
        FaultAt part after e := by
  -- each piece takes at least one character
  induction hn : rest.length using Nat.strong_induction_on generalizing before rest ts with
  | _ n ih =>
    cases rest with
    | nil => exact .inl ⟨ts, by simpa using h⟩
    | cons c rest =>
      rcases piece_or_fault before c rest with ⟨text, x?, after, hsource, hp⟩ | ⟨e, he⟩
      · rw [hsource] at h hn ⊢
        obtain ⟨d, cs, rfl, -⟩ := hp.piece_eq 1
        rw [← List.append_assoc]
        have hlen : after.length < n := by
          simp only [List.cons_append, List.length_cons, List.length_append] at hn
          omega
        cases x? with
        | none => exact ih _ hlen (.skipped h hp) rfl
        | some x => exact ih _ hlen (.token h hp) rfl
      · exact .inr ⟨before, ts, c :: rest, e, rfl, h, he⟩

/-- **A source is split by the rules, and refused where they do not apply.** -/
theorem scan_splits (source : String) :
    (∀ ts, scan source = .ok ts ↔ Splits source.toList ts []) ∧
    (∀ e, scan source = .error e ↔ ∃ before ts rest, source.toList = before ++ rest ∧
      Splits before ts rest ∧ FaultAt before rest e) ∧
    ∀ text x? rest, IsPiece text x? rest → text ≠ [] := by
  have hok : ∀ ts, Splits source.toList ts [] → scan source = .ok ts := by
    intro ts h
    have hs := h.scanFrom_eq
    rw [List.append_nil, scanFrom_nil] at hs
    simpa [scan, Except.map] using hs
  have herror : ∀ e before ts rest, source.toList = before ++ rest → Splits before ts rest →
      FaultAt before rest e → scan source = .error e := by
    intro e before ts rest hsource h he
    rw [scan, hsource, h.scanFrom_eq, scanFrom_fault he]
    rfl
  refine ⟨fun ts => ⟨fun h => ?_, hok ts⟩, fun e => ⟨fun h => ?_, ?_⟩, ?_⟩
  · rcases (Splits.start source.toList).split_or_fault with ⟨us, hus⟩ | ⟨b, us, r, e, hb, hs, he⟩
    · cases h.symm.trans (hok us hus)
      exact hus
    · cases h.symm.trans (herror e b us r hb hs he)
  · rcases (Splits.start source.toList).split_or_fault with ⟨us, hus⟩ | ⟨b, us, r, e, hb, hs, he⟩
    · cases h.symm.trans (hok us hus)
    · cases h.symm.trans (herror e b us r hb hs he)
      exact ⟨b, us, r, hb, hs, he⟩
  · rintro ⟨before, ts, rest, hsource, h, he⟩
    exact herror e before ts rest hsource h he
  · intro text x? rest hp
    obtain ⟨c, cs, rfl, -⟩ := hp.piece_eq 1
    exact List.cons_ne_nil c cs

/-- A text literal over two lines, a comment, and a character that starts nothing. -/
def multilineText : String := "s = \"a\nb\"; // c\nx @"

theorem multilineText_splits : scan multilineText = .error (.unexpectedChar 3 '@') ∧
    (∃ before ts rest, multilineText.toList = before ++ rest ∧ Splits before ts rest ∧
      FaultAt before rest (.unexpectedChar 3 '@')) ∧
    IsPiece [' '] none ['@'] ∧ [' '] ≠ [] := by
  have hscan : scan multilineText = .error (.unexpectedChar 3 '@') := by decide +kernel
  have hpiece : IsPiece [' '] none ['@'] := .blank (by decide)
  obtain ⟨-, herror, hne⟩ := scan_splits multilineText
  exact ⟨hscan, (herror _).mp hscan, hpiece, hne _ _ _ hpiece⟩

end FlowLang.Token
