import FlowLang.Token
import FlowLang.Text.Blank

/-!
# Splitting a source into tokens

A source is a sequence of pieces: blank characters, comments from `//` to the end of the line, and
lexemes. `piece` takes the first one off, and `scan` repeats it.

* A number is a maximal run of digits and points, a word a maximal run of letters, digits and `_`.
* A text ends at the first quotation mark that no backslash escapes. It may run over several lines.
* A symbol of two characters is preferred to one of a single character.
* Only the newline character counts a line. A token's line is that of its first character.

`scan` is `tokenize` of the `Lexer`, `piece` is a round of the loop in `_tokenize`, and `readText`
is `parse_string`. `parse_number`, `parse_identifier` and `skip_line_comment` are branches of
`piece`. The lexer keeps an index into the characters; here the characters that are left are handed
on.
-/

namespace FlowLang

/-- Why a source cannot be split into tokens. -/
inductive ScanFault where
  | unexpectedChar (line : Nat) (found : Char)
  | unterminatedText (line : Nat)
  | invalidNumber (line : Nat) (text : String)
  deriving DecidableEq

/-- The fault in one line of text. -/
def ScanFault.message : ScanFault → String
  | .unexpectedChar line found => s!"line {line}: can't tokenize {Text.quotedChar found}"
  | .unterminatedText line => s!"line {line}: unterminated string literal"
  | .invalidNumber line text => s!"line {line}: invalid number literal {Text.quoted text}"

namespace Token

/-- Characters of a number. -/
def isNumberChar (c : Char) : Bool := c.isDigit || c == '.'

/-- Characters that start a word: ASCII letters and `_`. -/
def isWordStart (c : Char) : Bool := c.isAlpha || c == '_'

/-- Characters of a word: ASCII letters, digits and `_`. -/
def isWordChar (c : Char) : Bool := c.isAlphanum || c == '_'

/-- What a backslash makes of the character after it. -/
def unescape? : Char → Option Char
  | 'n' => some '\n'
  | 't' => some '\t'
  | '\x22' => some '\x22'
  | '\\' => some '\\'
  | _ => none

/-- A text literal after its opening mark: its content, the line on which it ends, and what follows
the closing mark. -/
structure TextRead where
  content : List Char
  line : Nat
  rest : List Char

/-- The same literal with one more character in front. -/
def TextRead.cons (c : Char) (t : TextRead) : TextRead := { t with content := c :: t.content }

/-- Reads a text literal that started on line `start` and has reached `line`. -/
def readText (start line : Nat) : List Char → Except ScanFault TextRead
  | [] => .error (.unterminatedText start)
  | c :: rest =>
    if c = '\x22' then .ok ⟨[], line, rest⟩
    else if c = '\\' then
      match rest with
      | [] => .error (.unterminatedText start)
      | e :: rest =>
        match unescape? e with
        | none => .error (.unexpectedChar line e)
        | some c => (readText start line rest).map (.cons c)
    else (readText start (if c = '\n' then line + 1 else line) rest).map (.cons c)

/-- The symbol at the start of `c :: rest`, and what follows it. -/
def readSymbol? (c : Char) (rest : List Char) : Option (Symbol × List Char) :=
  match rest with
  | [] => (Symbol.ofChar? c).map (·, [])
  | d :: after =>
    match Symbol.ofPair? c d with
    | some s => some (s, after)
    | none => (Symbol.ofChar? c).map (·, rest)

/-- The first piece of a source: the lexeme if it is one, the line after it, and what follows. -/
structure Piece where
  lexeme? : Option Lexeme
  line : Nat
  rest : List Char

/-- Takes the first piece off the source `c :: rest` on a line. -/
def piece (line : Nat) (c : Char) (rest : List Char) : Except ScanFault Piece :=
  if c = '\n' then .ok ⟨none, line + 1, rest⟩
  else if Text.isBlank c then .ok ⟨none, line, rest⟩
  else if c = '/' ∧ rest.head? = some '/' then .ok ⟨none, line, rest.dropWhile (· != '\n')⟩
  else if c.isDigit then
    match Numeral.ofRun? (c :: rest.takeWhile isNumberChar) with
    | some n => .ok ⟨some (.ofNumeral n), line, rest.dropWhile isNumberChar⟩
    | none => .error (.invalidNumber line (String.ofList (c :: rest.takeWhile isNumberChar)))
  else if isWordStart c then
    .ok ⟨some (.ofWord (String.ofList (c :: rest.takeWhile isWordChar))), line,
      rest.dropWhile isWordChar⟩
  else if c = '\x22' then
    match readText line line rest with
    | .ok t => .ok ⟨some (.text (String.ofList t.content)), t.line, t.rest⟩
    | .error e => .error e
  else
    match readSymbol? c rest with
    | some (s, after) => .ok ⟨some (.symbol s), line, after⟩
    | none => .error (.unexpectedChar line c)

/-- A text literal leaves no more than there was. -/
theorem readText_rest_length {start line : Nat} {cs : List Char} {t : TextRead}
    (h : readText start line cs = .ok t) : t.rest.length ≤ cs.length := by
  fun_induction readText start line cs generalizing t with
  | case1 => simp at h
  | case2 => cases h; simp
  | case3 => simp at h
  | case4 => simp at h
  | case5 line e rest c _ _ ih =>
    cases hr : readText start line rest with
    | error e => simp [hr, Except.map] at h
    | ok u =>
      simp only [hr, Except.map, Except.ok.injEq] at h
      have := ih hr
      simp only [← h, TextRead.cons, List.length_cons]
      omega
  | case6 line c rest _ _ ih =>
    cases hr : readText start (if c = '\n' then line + 1 else line) rest with
    | error e => simp [hr, Except.map] at h
    | ok u =>
      simp only [hr, Except.map, Except.ok.injEq] at h
      have := ih hr
      simp only [← h, TextRead.cons, List.length_cons]
      omega

theorem readSymbol?_rest_length {c : Char} {rest after : List Char} {s : Symbol}
    (h : readSymbol? c rest = some (s, after)) : after.length ≤ rest.length := by
  unfold readSymbol? at h
  split at h
  · obtain ⟨_, _, h⟩ := Option.map_eq_some_iff.1 h
    cases h
    exact Nat.le_refl _
  · split at h
    · cases h
      simp
    · obtain ⟨_, _, h⟩ := Option.map_eq_some_iff.1 h
      cases h
      exact Nat.le_refl _

/-- Every piece takes at least one character. -/
theorem piece_rest_length {line : Nat} {c : Char} {rest : List Char} {p : Piece}
    (h : piece line c rest = .ok p) : p.rest.length ≤ rest.length := by
  unfold piece at h
  split at h
  · cases h
    exact Nat.le_refl _
  split at h
  · cases h
    exact Nat.le_refl _
  split at h
  · cases h
    exact (List.dropWhile_sublist _).length_le
  split at h
  · split at h
    · cases h
      exact (List.dropWhile_sublist _).length_le
    · cases h
  split at h
  · cases h
    exact (List.dropWhile_sublist _).length_le
  split at h
  · split at h
    · rename_i hr
      cases h
      exact readText_rest_length hr
    · cases h
  · split at h
    · rename_i hs
      cases h
      exact readSymbol?_rest_length hs
    · cases h

/-- Splits a source that starts on a line. -/
def scanFrom (line : Nat) (cs : List Char) : Except ScanFault (List Token) :=
  match cs with
  | [] => .ok []
  | c :: rest =>
    match h : piece line c rest with
    | .error e => .error e
    | .ok p =>
      have := piece_rest_length h
      match scanFrom p.line p.rest with
      | .error e => .error e
      | .ok tokens => .ok ((p.lexeme?.map (⟨·, line⟩)).toList ++ tokens)
termination_by cs.length
decreasing_by simp; omega

/-- Splits a source into tokens. -/
def scan (source : String) : Except ScanFault (List Token) := scanFrom 1 source.toList

end Token

end FlowLang
