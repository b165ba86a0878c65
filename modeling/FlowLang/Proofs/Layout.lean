import FlowLang.Proofs.RoundTrip
import FlowLang.Proofs.Diagnostics

/-!
# Layout does not matter

Before any token of a source there may stand more blanks and comments, as long as the first of them
is a blank: no lexeme takes in a blank, and what comes after it is read as before, only on a later
line.

* `Token.StartsAt before earlier token rest`: in the source `before ++ rest`, the token starts with
  the first character of `rest`, and the tokens `earlier` come before it. Every token of a source
  has such a place (`Token.Splits.startsAt`).
* `Token.Filler`: blanks and comments in any mix.
* `Token.scan_insert`: with a blank and a filler before a token, a source has the same lexemes.
* **`parseSource_insert`**: so it has the same tree (`parse_source`), and compiles to the same
  module or is refused for the same faults.
-/

namespace FlowLang

namespace Token

/-! ## The places of tokens -/

/-- In the source `before ++ rest`, the token starts after `before`, and the tokens `earlier` come
before it. -/
structure StartsAt (before : List Char) (earlier : List Token) (token : Token) (rest : List Char) :
    Prop where
  splits : Splits before earlier rest
  piece : ∃ text after, rest = text ++ after ∧ IsPiece text (some token.lexeme) after
  line : token.line = lineAt before

/-- Every token has its place. -/
theorem Splits.startsAt {source rest : List Char} {ts : List Token} (h : Splits source ts rest)
    {k : Nat} {token : Token} (hk : ts[k]? = some token) :
    ∃ before after, source ++ rest = before ++ after ∧ StartsAt before (ts.take k) token after := by
  induction h with
  | start source => simp at hk
  | @skipped before text rest ts _ _ ih =>
    rw [List.append_assoc]
    exact ih hk
  | @token before text rest ts x h hp ih =>
    rw [List.append_assoc]
    have hlt := (List.getElem?_eq_some_iff.mp hk).1
    rw [List.length_append, List.length_singleton] at hlt
    by_cases hk' : k < ts.length
    · rw [List.getElem?_append_left hk'] at hk
      rw [List.take_append_of_le_length hk'.le]
      exact ih hk
    · -- the last token
      obtain rfl : k = ts.length := by omega
      rw [List.getElem?_concat_length] at hk
      cases hk
      rw [List.take_left' rfl]
      exact ⟨before, text ++ rest, rfl, h, ⟨text, rest, rfl, hp⟩, rfl⟩

/-! ## What follows a piece -/

variable {before text rest rest' : List Char} {ts : List Token} {x? : Option Lexeme}

/-- Of what follows a piece, only the first character matters. -/
theorem IsPiece.of_head (h : IsPiece text x? rest) (hhead : rest'.head? = rest.head?) :
    IsPiece text x? rest' := by
  cases h with
  | blank h => exact .blank h
  | comment hbody hrest => exact .comment hbody (by rwa [hhead])
  | lexeme h hrest => exact .lexeme h (by rwa [hhead])

/-- No piece is empty. -/
theorem IsPiece.head?_append (h : IsPiece text x? rest) (rest' : List Char) :
    (text ++ rest').head? = (text ++ rest).head? := by
  obtain ⟨c, cs, rfl, -⟩ := h.piece_eq 1
  rfl

theorem Splits.of_head (h : Splits before ts rest) (hhead : rest'.head? = rest.head?) :
    Splits before ts rest' := by
  induction h generalizing rest' with
  | start source => exact .start rest'
  | skipped _ hp ih => exact .skipped (ih (hp.head?_append rest')) (hp.of_head hhead)
  | token _ hp ih => exact .token (ih (hp.head?_append rest')) (hp.of_head hhead)

/-- A blank can stand after every piece but a comment, which goes on to the end of its line. -/
theorem IsPiece.before_blank {d : Char} (h : IsPiece text x? (d :: rest)) (hd : d ≠ '\n') {c : Char}
    (hc : Text.isBlank c) (rest' : List Char) : IsPiece text x? (c :: rest') := by
  have hgo : ∀ e ∈ (c :: rest').head?, ¬GoesOn text e := by
    rintro e ⟨⟩
    exact not_goesOn_blank hc text
  cases h with
  | blank h => exact .blank h
  | comment _ hrest => exact absurd (hrest d rfl) hd
  | lexeme h _ => exact .lexeme h hgo

/-- Where a token starts, a blank can stand instead. -/
theorem Splits.before_blank {d : Char} (h : Splits before ts (d :: rest)) (hd : d ≠ '\n') {c : Char}
    (hc : Text.isBlank c) (rest' : List Char) : Splits before ts (c :: rest') := by
  generalize hall : d :: rest = all at h
  cases h with
  | start source => exact .start _
  | skipped h hp =>
    subst hall
    exact .skipped (h.of_head (hp.head?_append _)) (hp.before_blank hd hc rest')
  | token h hp =>
    subst hall
    exact .token (h.of_head (hp.head?_append _)) (hp.before_blank hd hc rest')

/-- A lexeme starts with a visible character. -/
theorem Spells.ne_newline {c : Char} {cs : List Char} {x : Lexeme} (h : Spells (c :: cs) x) :
    c ≠ '\n' := by
  rintro rfl
  -- at a newline, the piece is the newline
  have hend : ∀ d ∈ ([] : List Char).head?, ¬GoesOn ('\n' :: cs) d := nofun
  obtain ⟨c, cs', hcs, hp⟩ := h.piece_eq hend 1
  cases hcs
  cases hp

/-! ## Fillers -/

/-- Blanks and comments in any mix, each comment with the newline that ends it. -/
inductive Filler : List Char → Prop
  | nil : Filler []
  | blank {c : Char} {more : List Char} (hc : Text.isBlank c) (h : Filler more) : Filler (c :: more)
  | comment {body more : List Char} (hbody : '\n' ∉ body) (h : Filler more) :
      Filler ('/' :: '/' :: body ++ '\n' :: more)

/-- A filler is skipped. -/
theorem Filler.scanFrom_eq {gap : List Char} (h : Filler gap) (rest : List Char) (line : Nat) :
    scanFrom line (gap ++ rest) = scanFrom (line + gap.count '\n') rest := by
  induction h generalizing line with
  | nil => rfl
  | @blank c more hc _ ih =>
    have hblank : IsPiece [c] none (more ++ rest) := .blank hc
    have hskip := scanFrom_skipped hblank line
    rwa [ih, Nat.add_assoc, ← List.count_append] at hskip
  | @comment body more hbody _ ih =>
    have hcomment : IsPiece ('/' :: '/' :: body) none (['\n'] ++ (more ++ rest)) :=
      .comment hbody (by rintro c ⟨⟩; rfl)
    have hnewline : IsPiece ['\n'] none (more ++ rest) := .blank (by decide)
    have hskip := scanFrom_skipped hcomment line
    rw [scanFrom_skipped hnewline, ih, Nat.add_assoc, Nat.add_assoc, ← List.count_append,
      ← List.count_append] at hskip
    simpa using hskip

/-- The line on which a source starts shows in the lines of its tokens only. -/
theorem scanFrom_lexemes {before cs : List Char} {ts : List Token}
    (h : scanFrom (lineAt before) cs = .ok ts) (before' : List Char) :
    ∃ us, scanFrom (lineAt before') cs = .ok us ∧ us.map (·.lexeme) = ts.map (·.lexeme) := by
  -- each piece takes at least one character
  induction hn : cs.length using Nat.strong_induction_on generalizing before before' cs ts with
  | _ n ih =>
    cases cs with
    | nil =>
      rw [scanFrom_nil] at h
      cases h
      exact ⟨[], scanFrom_nil _, rfl⟩
    | cons c rest =>
      rcases piece_or_fault before c rest with ⟨text, x?, after, hsource, hp⟩ | ⟨e, he⟩
      · have hlen : after.length < n := by
          obtain ⟨d, cs, rfl, -⟩ := hp.piece_eq 1
          rw [← hn, hsource, List.length_append, List.length_cons]
          omega
        rw [hsource, scanFrom_piece hp, ← lineAt_append] at h ⊢
        cases hs : scanFrom (lineAt (before ++ text)) after with
        | error e =>
          rw [hs] at h
          cases h
        | ok later =>
          rw [hs] at h
          cases h
          obtain ⟨us, hus, hlexemes⟩ := ih _ hlen hs (before' ++ text) rfl
          refine ⟨_, by rw [hus]; rfl, ?_⟩
          cases x? <;> simp [hlexemes]
      · rw [scanFrom_fault he] at h
        cases h

/-- **A blank and a filler before a token change no lexeme.** -/
theorem scan_insert {source : String} {ts : List Token} (h : scan source = .ok ts)
    {before rest : List Char} {earlier : List Token} {token : Token}
    (hs : source.toList = before ++ rest) (ht : StartsAt before earlier token rest) {c : Char}
    (hc : Text.isBlank c) {gap : List Char} (hgap : Filler gap) :
    ∃ us, scan (String.ofList (before ++ (c :: gap ++ rest))) = .ok us ∧
      us.map (·.lexeme) = ts.map (·.lexeme) := by
  obtain ⟨text, after, rfl, hp⟩ := ht.piece
  have hsplit : Splits before earlier (c :: gap ++ (text ++ after)) := by
    obtain ⟨d, cs, rfl, -⟩ := hp.piece_eq 1
    cases hp with
    | lexeme hx _ => exact ht.splits.before_blank hx.ne_newline hc _
  have hfiller : Filler (c :: gap) := .blank hc hgap
  rw [scan, hs, ht.splits.scanFrom_eq] at h
  cases hrest : scanFrom (lineAt before) (text ++ after) with
  | error e =>
    rw [hrest] at h
    cases h
  | ok later =>
    rw [hrest] at h
    cases h
    obtain ⟨us, hus, hlexemes⟩ := scanFrom_lexemes hrest (before ++ c :: gap)
    refine ⟨earlier ++ us, ?_, by rw [List.map_append, List.map_append, hlexemes]⟩
    rw [scan, String.toList_ofList, hsplit.scanFrom_eq, hfiller.scanFrom_eq, ← lineAt_append, hus]
    rfl

end Token

/-! ## Trees -/

/-- A program is read by its lexemes, wherever they stand. -/
theorem Tree.ofTokens_of_lexemes {ts us : List Token} {t : Tree} (h : ofTokens ts = .ok t)
    (hl : us.map (·.lexeme) = ts.map (·.lexeme)) : ofTokens us = .ok t :=
  (ofTokens_derives h).accepted us hl

/-- **Layout does not matter.** Every token of a source that is read has its place in it. If a blank
and then any mix of blanks and comments is put before a token, the source has the same tree as
before. So it compiles to the same module, or is refused for the same faults. -/
theorem parseSource_insert {source : String} {t : Tree} (h : parseSource source = .ok t) :
    (∃ ts, Token.scan source = .ok ts ∧ ∀ (k : Nat) (token : Token), ts[k]? = some token →
      ∃ before rest, source.toList = before ++ rest ∧
        Token.StartsAt before (ts.take k) token rest) ∧
    ∀ (before rest : List Char) (earlier : List Token) (token : Token),
      source.toList = before ++ rest →
      Token.StartsAt before earlier token rest →
      ∀ (c : Char) (gap : List Char), Text.isBlank c → Token.Filler gap →
        let spaced := String.ofList (before ++ (c :: gap ++ rest))
        parseSource spaced = .ok t ∧ compile spaced = compile source := by
  obtain ⟨ts, hscan, htree⟩ := parseSource_eq_ok.mp h
  refine ⟨⟨ts, hscan, fun k token hk => ?_⟩, ?_⟩
  · obtain ⟨before, rest, hs, hat⟩ := (Token.splits_of_scan hscan).startsAt hk
    exact ⟨before, rest, by rwa [List.append_nil] at hs, hat⟩
  · intro before rest earlier token hs hat c gap hc hgap spaced
    obtain ⟨us, hus, hlexemes⟩ := Token.scan_insert hscan hs hat hc hgap
    have hspaced : parseSource spaced = .ok t :=
      parseSource_eq_ok.mpr ⟨us, hus, Tree.ofTokens_of_lexemes htree hlexemes⟩
    exact ⟨hspaced, by rw [compile, compile, hspaced, h]⟩

/-- A quotient without blanks. -/
def quotient : String := "print 6/3;"

theorem quotient_startsAt :
    ∃ earlier, Token.StartsAt "print 6/".toList earlier ⟨.integer 3, 1⟩ "3;".toList := by
  have hword : Token.IsPiece "print".toList (some (.keyword .print)) [' ', '6', '/', '3', ';'] := by
    refine .lexeme (.keyword .print) ?_
    rintro _ ⟨⟩
    exact Token.not_goesOn_blank (by decide) _
  have hblank : Token.IsPiece [' '] none ['6', '/', '3', ';'] := .blank (by decide)
  have hsix : Token.IsPiece ['6'] (some (.integer 6)) ['/', '3', ';'] := by
    refine .lexeme (.integer (by decide) (List.all_eq_true.mp rfl) (by decide)) ?_
    rintro _ ⟨⟩
    exact mt (Token.goesOn_digit (by decide)).mp (by decide)
  have hslash : Token.IsPiece ['/'] (some (.symbol .slash)) ['3', ';'] := by
    refine .lexeme (.single .slash) ?_
    rintro _ ⟨⟩ hgo
    rcases (Token.goesOn_mark Token.Single.slash.isMark hgo).2 with ⟨s, hs⟩ | ⟨-, hs⟩
    · cases hs
    · exact absurd hs (by decide)
  have hthree : Token.IsPiece ['3'] (some (.integer 3)) [';'] := by
    refine .lexeme (.integer (by decide) (List.all_eq_true.mp rfl) (by decide)) ?_
    rintro _ ⟨⟩
    exact mt (Token.goesOn_digit (by decide)).mp (by decide)
  exact ⟨_, .token (.token (.skipped (.token (.start _) hword) hblank) hsix) hslash,
    ⟨_, _, rfl, hthree⟩, rfl⟩

/-- The slash of the quotient and that of a comment are told apart by a blank. -/
theorem quotient_insert : ∃ t, parseSource quotient = .ok t ∧
    parseSource "print 6/ // three\n3;" = .ok t ∧
      compile "print 6/ // three\n3;" = compile quotient := by
  obtain ⟨t, ht⟩ := exists_of_isOk (x := parseSource quotient) (by decide +kernel)
  obtain ⟨earlier, hat⟩ := quotient_startsAt
  have hfiller : Token.Filler "// three\n".toList :=
    .comment (show '\n' ∉ " three".toList by decide) .nil
  have hspaced :=
    (parseSource_insert ht).2 _ _ _ _ (by decide +kernel) hat ' ' _ (by decide) hfiller
  rw [show String.ofList _ = "print 6/ // three\n3;" by decide +kernel] at hspaced
  exact ⟨t, ht, hspaced⟩

end FlowLang
