import FlowLang.Proofs.Recognition

/-!
# Where reading stops

A reader (a method of `Parser`) that fails says at which token. Two things are shown of that place,
for each of the ways in which readers are put together and so for all readers:

* `Reader.LocalAt`: a reader goes by the tokens that it takes and by the one after them. So it fails
  in the same way whatever comes after the token at which it fails.
* `Reader.ViableAt`: the tokens that it took before it failed are the beginning of something that
  can be read.

**`Tree.ofTokens_error`** states both for whole programs: reading stops at the first token with
which no program goes on, or at the end of tokens that are the beginning of a program but not a
program.
-/

namespace FlowLang

namespace Reader

open FlowLang.Tree (Parsed next?)

variable {α β : Type}

/-! ## Tokens that make a difference -/

/-- The tokens that a result leaves, or that a fault stands before. -/
def left : Except SyntaxFault (α × List Token) → List Token
  | .ok p => p.2
  | .error e => e.rest

/-- The same result before other tokens. -/
def leaving : Except SyntaxFault (α × List Token) → List Token → Except SyntaxFault (α × List Token)
  | .ok p, rest => .ok (p.1, rest)
  | .error e, rest => .error ⟨e.expected, rest⟩

/-- On tokens that start like `ts`, as far as the reader took them and one further, it does the
same. -/
def LocalAt (r : Reader α) (ts : List Token) : Prop :=
  ∃ used, ts = used ++ left (r ts) ∧
    ∀ rest, rest.head? = (left (r ts)).head? → r (used ++ rest) = leaving (r ts) rest

theorem head?_append_congr {ts used rest rest' : List Token} (h : ts = used ++ rest)
    (hhead : rest'.head? = rest.head?) : (used ++ rest').head? = ts.head? := by
  rw [h, List.head?_append, List.head?_append, hhead]

theorem atEnd_of_ne_nil {yes no : Reader α} {ts : List Token} (h : ts ≠ []) :
    atEnd yes no ts = no ts := by
  simp [atEnd, h]

theorem LocalAt.pure (a : α) (ts : List Token) : LocalAt (pure a) ts :=
  ⟨[], rfl, fun _ _ => rfl⟩

theorem LocalAt.fail (x : Expected) (ts : List Token) : LocalAt (fail x : Reader α) ts :=
  ⟨[], rfl, fun _ _ => rfl⟩

theorem LocalAt.bind {r : Reader α} {s : α → Reader β} {ts : List Token} (hr : r.LocalAt ts)
    (hs : ∀ a rest, r ts = .ok (a, rest) → (s a).LocalAt rest) : (r >>= s).LocalAt ts := by
  obtain ⟨used, hts, hlocal⟩ := hr
  cases h : r ts with
  | error e =>
    rw [h] at hts hlocal
    refine ⟨used, ?_, ?_⟩
    · rw [bind_of_error h]
      exact hts
    · rw [bind_of_error h]
      exact fun rest hrest => bind_of_error (hlocal rest hrest)
  | ok p =>
    obtain ⟨a, mid⟩ := p
    rw [h] at hts hlocal
    obtain ⟨used', hmid, hlocal'⟩ := hs a mid h
    refine ⟨used ++ used', ?_, ?_⟩
    · rw [bind_of_ok h, List.append_assoc, ← hmid]
      exact hts
    · rw [bind_of_ok h]
      intro rest hrest
      rw [List.append_assoc, bind_of_ok (hlocal _ (head?_append_congr hmid hrest))]
      exact hlocal' rest hrest

theorem LocalAt.on {f : Lexeme → Option α} {yes : α → Reader β} {no : Reader β} {ts : List Token}
    (hyes : ∀ a rest, next? f ts = some (a, rest) → (yes a).LocalAt rest) (hno : no.LocalAt ts) :
    (on f yes no).LocalAt ts := by
  cases h : next? f ts with
  | some p =>
    obtain ⟨a, mid⟩ := p
    obtain ⟨t, rfl, ht⟩ := Tree.next?_eq_some.mp h
    obtain ⟨used, hmid, hlocal⟩ := hyes a mid h
    refine ⟨t :: used, ?_, ?_⟩
    · rw [on_of_some ht, List.cons_append, ← hmid]
    · rw [on_of_some ht]
      intro rest hrest
      rw [List.cons_append, on_of_some ht, hlocal rest hrest]
  | none =>
    obtain ⟨used, hts, hlocal⟩ := hno
    rw [LocalAt, on_of_next?_none h]
    refine ⟨used, hts, fun rest hrest => ?_⟩
    rw [on_of_none, hlocal rest hrest]
    rw [head?_append_congr hts hrest]
    intro t ht
    obtain ⟨_, rfl⟩ := List.head?_eq_some_iff.mp ht
    simpa [next?] using h

theorem LocalAt.atEnd {yes no : Reader α} {ts : List Token} (hyes : yes.LocalAt [])
    (hno : ts ≠ [] → no.LocalAt ts) : (atEnd yes no).LocalAt ts := by
  by_cases h : ts = []
  · subst h
    obtain ⟨used, hnil, hlocal⟩ := hyes
    obtain ⟨rfl, hleft⟩ := List.append_eq_nil_iff.mp hnil.symm
    refine ⟨[], hnil, fun rest hrest => ?_⟩
    change rest.head? = (left (yes [])).head? at hrest
    have hnone : rest = [] := by simpa [hleft] using hrest
    rw [hnone]
    exact hlocal [] (by simp [hleft])
  · obtain ⟨used, hts, hlocal⟩ := hno h
    rw [LocalAt, atEnd_of_ne_nil h]
    refine ⟨used, hts, fun rest hrest => ?_⟩
    rw [atEnd_of_ne_nil, hlocal rest hrest]
    intro hnil
    have hhead := head?_append_congr hts hrest
    rw [hnil] at hhead
    exact h (List.head?_eq_none_iff.mp hhead.symm)

theorem LocalAt.take (s : Symbol) (ts : List Token) : (take s).LocalAt ts :=
  .on (fun _ _ _ => .pure _ _) (.fail _ _)

end Reader

namespace Tree

open Reader

/-- The readers of expressions are local. -/
theorem readAt_local (ts : List Token) :
    (∀ l, (readAt l).LocalAt ts) ∧ ∀ c left, (readChain c left).LocalAt ts := by
  induction hn : ts.length using Nat.strong_induction_on generalizing ts with
  | _ n ih =>
    have shorter : ∀ rest, rest.length < ts.length →
        (∀ l, (readAt l).LocalAt rest) ∧ ∀ c left, (readChain c left).LocalAt rest :=
      fun rest hrest => ih _ (hn ▸ hrest) rest rfl
    refine ⟨fun l => ?_, fun c left => ?_⟩
    · induction l using Level.induct with
      | atom =>
        rw [readAt_atom]
        refine .on (fun _ rest h => ?_) (.on (fun _ _ _ => .pure _ _) (.fail _ _))
        exact .bind ((shorter rest (next?_length h)).1 _) fun _ _ _ =>
          .bind (.take _ _) fun _ _ _ => .pure _ _
      | signed hatom =>
        rw [readAt_signed]
        refine .on (fun _ rest h => (shorter rest (next?_length h)).1 _)
          (.on (fun _ rest h => ?_) hatom)
        exact .bind ((shorter rest (next?_length h)).1 _) fun _ _ _ => .pure _ _
      | chain c hoperand =>
        rw [readAt_chain]
        exact .bind hoperand fun t rest h => (shorter rest (readAt_length h)).2 c t
      | comparison hsum =>
        rw [readAt_comparison]
        refine .bind hsum fun t rest h => .on (fun op rest' h' => ?_) (.pure _ _)
        exact .bind ((shorter rest' ((next?_length h').trans (readAt_length h))).1 _)
          fun _ _ _ => .pure _ _
      | negation hcomparison =>
        rw [readAt_negation]
        refine .on (fun _ rest h => ?_) hcomparison
        exact .bind ((shorter rest (next?_length h)).1 _) fun _ _ _ => .pure _ _
    · rw [readChain_eq]
      refine .on (fun op rest h => ?_) (.pure _ _)
      exact .bind ((shorter rest (next?_length h)).1 _) fun t rest' h' =>
        (shorter rest' ((readAt_length h').trans (next?_length h))).2 c _

theorem readParenthesized_local (ts : List Token) : readParenthesized.LocalAt ts :=
  .bind (.take _ _) fun _ rest _ => .bind ((readAt_local rest).1 _) fun _ _ _ =>
    .bind (.take _ _) fun _ _ _ => .pure _ _

theorem readDeclaration_local (kind : Kind) (ts : List Token) :
    (readDeclaration kind).LocalAt ts :=
  .bind (.on (fun _ _ _ => .pure _ _) (.fail _ _)) fun _ _ _ =>
    .bind (.take _ _) fun _ _ _ => .pure _ _

theorem readPrinted_local (ts : List Token) : readPrinted.LocalAt ts :=
  .bind ((readAt_local ts).1 _) fun _ _ _ => .bind (.take _ _) fun _ _ _ => .pure _ _

theorem readAction_local (x : String) (ts : List Token) : (readAction x).LocalAt ts := by
  refine .on (fun _ rest _ => ?_) (.on (fun _ _ _ => ?_) (.on (fun _ _ _ => ?_) (.fail _ _)))
  · exact .bind ((readAt_local rest).1 _) fun _ _ _ => .bind (.take _ _) fun _ _ _ => .pure _ _
  · exact .bind (.take _ _) fun _ _ _ => .pure _ _
  · exact .bind (.take _ _) fun _ _ _ => .pure _ _

theorem readParenthesized_length {ts rest : List Token} {t : Tree}
    (h : readParenthesized ts = .ok (t, rest)) : rest.length < ts.length := by
  rw [← of_parenthesized] at h
  exact of_length h

/-- However a statement goes on, it is read locally if the blocks in it are. -/
theorem statementAfter?_local {x : Lexeme} {r : Reader Tree} {ts : List Token}
    (h : statementAfter? x = some r)
    (hblock : ∀ rest, rest.length < ts.length → readBlock.LocalAt rest) : r.LocalAt ts := by
  unfold statementAfter? at h
  split at h <;> cases h
  · exact readDeclaration_local _ ts
  · exact readDeclaration_local _ ts
  · exact readPrinted_local ts
  · exact .bind (readParenthesized_local ts) fun _ rest h =>
      .bind (hblock rest (readParenthesized_length h)) fun _ _ _ => .pure _ _
  · refine .bind (readParenthesized_local ts) fun _ rest h => ?_
    have hrest := readParenthesized_length h
    refine .bind (hblock rest hrest) fun _ rest' h' => .on (fun _ rest'' h'' => ?_) (.pure _ _)
    have hrest'' : rest''.length < ts.length :=
      (next?_length h'').trans ((of_length h').trans hrest)
    exact .bind (hblock rest'' hrest'') fun _ _ _ => .pure _ _
  · exact readAction_local _ ts

/-- The readers of statements are local. -/
theorem readStatement_local (ts : List Token) :
    readStatement.LocalAt ts ∧ readBlock.LocalAt ts ∧ readItems.LocalAt ts := by
  induction hn : ts.length using Nat.strong_induction_on generalizing ts with
  | _ n ih =>
    have shorter : ∀ rest, rest.length < ts.length → readStatement.LocalAt rest ∧
        readBlock.LocalAt rest ∧ readItems.LocalAt rest :=
      fun rest hrest => ih _ (hn ▸ hrest) rest rfl
    have hstatement : readStatement.LocalAt ts := by
      rw [readStatement_eq]
      refine .on (fun r rest h => ?_) (.fail _ _)
      obtain ⟨t, rfl, ht⟩ := next?_eq_some.mp h
      exact statementAfter?_local ht fun rest' hrest' =>
        (shorter rest' (hrest'.trans (Nat.lt_succ_self _))).2.1
    refine ⟨hstatement, ?_, ?_⟩
    · rw [readBlock_eq]
      refine .bind (.take _ _) fun _ rest h => ?_
      rw [← of_expect] at h
      exact .bind (shorter rest (of_length h)).2.2 fun _ _ _ => .pure _ _
    · rw [readItems_eq]
      refine .on (fun _ _ _ => .pure _ _) (.atEnd (.fail _ _) fun _ => ?_)
      exact .bind hstatement fun _ rest h => .bind (shorter rest (of_length h)).2.2
        fun _ _ _ => .pure _ _

/-- The reader of programs is local. -/
theorem readAll_local (ts : List Token) : readAll.LocalAt ts := by
  induction hn : ts.length using Nat.strong_induction_on generalizing ts with
  | _ n ih =>
    rw [readAll_eq]
    refine .atEnd (.pure _ _) fun _ => ?_
    exact .bind (readStatement_local ts).1 fun _ rest h => .bind (ih _ (hn ▸ of_length h) rest rfl)
      fun _ _ _ => .pure _ _

end Tree

/-! ## Tokens that can be completed -/

/-- The lexemes have a derivation in the category. -/
def Category.Phrase (c : Category) (ls : List Lexeme) : Prop := ∃ t, Derives c ls t

namespace Reader

/-- Where the reader fails, the tokens before are the beginning of lexemes with the property. -/
def ViableAt (r : Reader α) (ts : List Token) (P : List Lexeme → Prop) : Prop :=
  ∀ e, r ts = .error e → ∃ before more, ts = before ++ e.rest ∧ P (before.map (·.lexeme) ++ more)

variable {P Q : List Lexeme → Prop} {ts : List Token}

theorem ViableAt.mono {r : Reader α} (h : r.ViableAt ts P) (hPQ : ∀ ls, P ls → Q ls) :
    r.ViableAt ts Q := by
  intro e he
  obtain ⟨before, more, hts, hP⟩ := h e he
  exact ⟨before, more, hts, hPQ _ hP⟩

/-- What is a part of something else can be completed to that. -/
theorem ViableAt.of_part {r : Reader α} {c : Category} (h : r.ViableAt ts c.Phrase)
    (after : List Lexeme) (hP : ∀ ls t, Derives c ls t → P (ls ++ after)) : r.ViableAt ts P := by
  intro e he
  obtain ⟨before, more, hts, t, ht⟩ := h e he
  exact ⟨before, more ++ after, hts, by rw [← List.append_assoc]; exact hP _ t ht⟩

/-- What is read as something else can be completed to that. -/
theorem ViableAt.of_phrase {r : Reader α} {c : Category} (h : r.ViableAt ts c.Phrase)
    (hP : ∀ ls t, Derives c ls t → P ls) : r.ViableAt ts P :=
  h.of_part [] fun ls t ht => by
    rw [List.append_nil]
    exact hP ls t ht

theorem ViableAt.pure (a : α) : ViableAt (pure a) ts P := by
  intro e he
  cases he

theorem ViableAt.fail {x : Expected} {more : List Lexeme} (h : P more) :
    ViableAt (fail x : Reader α) ts P := by
  intro e he
  cases he
  exact ⟨[], more, rfl, h⟩

theorem ViableAt.bind {r : Reader α} {s : α → Reader β} (hr : r.ViableAt ts P)
    (hs : ∀ a rest, r ts = .ok (a, rest) → ∃ used, ts = used ++ rest ∧
      (s a).ViableAt rest fun ls => P (used.map (·.lexeme) ++ ls)) : (r >>= s).ViableAt ts P := by
  intro e he
  cases h : r ts with
  | error e' =>
    rw [bind_of_error h] at he
    cases he
    exact hr _ h
  | ok p =>
    obtain ⟨a, rest⟩ := p
    rw [bind_of_ok h] at he
    obtain ⟨used, hts, hviable⟩ := hs a rest h
    obtain ⟨before, more, hrest, hP⟩ := hviable e he
    refine ⟨used ++ before, more, Tree.append_of_rest hts hrest, ?_⟩
    rwa [List.map_append, List.append_assoc]

/-- Something made of what was read. -/
theorem ViableAt.map {r : Reader α} {f : α → β} (hr : r.ViableAt ts P) :
    (r >>= fun a => Pure.pure (f a)).ViableAt ts P := by
  intro e he
  cases h : r ts with
  | error e' =>
    rw [bind_of_error h] at he
    cases he
    exact hr _ h
  | ok p =>
    obtain ⟨a, rest⟩ := p
    rw [bind_of_ok h] at he
    cases he

theorem ViableAt.on {f : Lexeme → Option α} {yes : α → Reader β} {no : Reader β}
    (hyes : ∀ t rest a, ts = t :: rest → f t.lexeme = some a →
      (yes a).ViableAt rest fun ls => P (t.lexeme :: ls)) (hno : no.ViableAt ts P) :
    (on f yes no).ViableAt ts P := by
  intro e he
  cases h : Tree.next? f ts with
  | some p =>
    obtain ⟨a, rest⟩ := p
    obtain ⟨t, rfl, ht⟩ := Tree.next?_eq_some.mp h
    rw [on_of_some ht] at he
    obtain ⟨before, more, hrest, hP⟩ := hyes t rest a rfl ht e he
    exact ⟨t :: before, more, by rw [hrest]; rfl, hP⟩
  | none =>
    rw [on_of_next?_none h] at he
    exact hno e he

theorem ViableAt.atEnd {yes no : Reader α} (hyes : yes.ViableAt ts P) (hno : no.ViableAt ts P) :
    (atEnd yes no).ViableAt ts P := by
  intro e he
  unfold Reader.atEnd at he
  split at he
  · exact hyes e he
  · exact hno e he

theorem only_eq_some {l x : Lexeme} {u : Unit} (h : only l x = some u) : x = l := by
  unfold only at h
  split at h
  · assumption
  · cases h

/-- A symbol is taken, and then something else. -/
theorem ViableAt.take {s : Symbol} {k : Unit → Reader α} {more : List Lexeme}
    (hmore : P (.symbol s :: more))
    (hk : ∀ t rest, ts = t :: rest → (k ()).ViableAt rest fun ls => P (.symbol s :: ls)) :
    (take s >>= k).ViableAt ts P := by
  refine .bind (.on (fun _ _ _ _ _ => .pure ()) (.fail hmore)) fun a rest h => ?_
  obtain ⟨t, hts, ht⟩ := take_eq_ok h
  refine ⟨[t], hts, ?_⟩
  rw [List.map_singleton, ht]
  exact hk t _ hts

end Reader

namespace Tree

open Reader

theorem readAt_reads {l : Level} {ts rest : List Token} {t : Tree}
    (h : readAt l ts = .ok (t, rest)) : Reads (.expression l) ts rest t := by
  obtain ⟨p, hp, rfl, rfl⟩ := of_eq_ok h
  exact expressionAt_reads l ts p hp

theorem phrase_atom : (Category.expression .atom).Phrase [.integer 0] :=
  ⟨_, .leaf (.integer 0)⟩

/-- The readers of expressions stop after the beginning of an expression. -/
theorem readAt_viable (ts : List Token) :
    (∀ l, (readAt l).ViableAt ts (Category.expression l).Phrase) ∧
    ∀ c us left, Derives (.expression (.chain c)) us left →
      (readChain c left).ViableAt ts fun ls =>
        (Category.expression (.chain c)).Phrase (us ++ ls) := by
  induction hn : ts.length using Nat.strong_induction_on generalizing ts with
  | _ n ih =>
    have shorter : ∀ rest : List Token, rest.length < ts.length →
        (∀ l, (readAt l).ViableAt rest (Category.expression l).Phrase) ∧
        ∀ c us left, Derives (.expression (.chain c)) us left → (readChain c left).ViableAt rest
          fun ls => (Category.expression (.chain c)).Phrase (us ++ ls) :=
      fun rest hrest => ih _ (hn ▸ hrest) rest rfl
    -- an expression after the first token
    have after : ∀ {t : Token} {rest : List Token}, ts = t :: rest →
        ∀ l, (readAt l).ViableAt rest (Category.expression l).Phrase :=
      fun hts => (shorter _ (by simp [hts])).1
    refine ⟨fun l => ?_, fun c us left hleft => ?_⟩
    · induction l using Level.induct with
      | atom =>
        rw [readAt_atom]
        refine .on (fun t rest _ hts ht => ?_) (.on (fun _ _ _ _ _ => .pure _) (.fail phrase_atom))
        rw [only_eq_some ht]
        refine .bind ((after hts _).of_part [.symbol .closeParen] fun ls inner h =>
          ⟨inner, .parenthesized h⟩) fun inner rest' h => ?_
        obtain ⟨used, hused, hinner⟩ := readAt_reads h
        exact ⟨used, hused, .take ⟨_, .parenthesized hinner⟩ fun _ _ _ => .pure _⟩
      | signed hatom =>
        rw [readAt_signed]
        refine .on (fun t rest _ hts ht => ?_) (.on (fun t rest _ hts ht => ?_) ?_)
        · rw [only_eq_some ht]
          exact (after hts _).of_phrase fun ls t h => ⟨t, .positive h⟩
        · rw [only_eq_some ht]
          exact ((after hts _).of_phrase fun ls t h => ⟨_, .negative h⟩).map
        · exact hatom.of_phrase fun ls t h => ⟨t, .unsigned h⟩
      | chain c hoperand =>
        rw [readAt_chain]
        refine .bind (hoperand.of_phrase fun ls t h => ⟨t, .operand c.over_operand h⟩)
          fun first rest h => ?_
        obtain ⟨used, hused, hfirst⟩ := readAt_reads h
        exact ⟨used, hused,
          (shorter rest (readAt_length h)).2 c _ _ (.operand c.over_operand hfirst)⟩
      | comparison hsum =>
        rw [readAt_comparison]
        refine .bind (hsum.of_phrase fun ls t h => ⟨t, .uncompared h⟩) fun left rest h => ?_
        obtain ⟨used, hused, hleft⟩ := readAt_reads h
        refine ⟨used, hused, .on (fun t rest' op hrest hop => ?_) (.pure _)⟩
        have hshorter : rest'.length < ts.length :=
          Nat.lt_trans (by simp [hrest]) (readAt_length h)
        exact (((shorter rest' hshorter).1 _).of_phrase fun ls right hright =>
          ⟨_, .compared hleft (comparison?_eq_some.mp hop) hright⟩).map
      | negation hcomparison =>
        rw [readAt_negation]
        refine .on (fun t rest _ hts ht => ?_) ?_
        · rw [only_eq_some ht]
          exact ((after hts _).of_phrase fun ls t h => ⟨_, .negated h⟩).map
        · exact hcomparison.of_phrase fun ls t h => ⟨t, .unnegated h⟩
    · rw [readChain_eq]
      refine .on (fun t rest op hts hop => ?_) (.pure _)
      have hover := c.over_operand
      have hop := Chain.operator?_eq_some.mp hop
      refine .bind ((after hts _).of_phrase fun ls right hright =>
        ⟨_, .chained hover hleft hop hright⟩) fun right rest' h => ?_
      obtain ⟨used, hused, hright⟩ := readAt_reads h
      have hshorter : rest'.length < ts.length := (readAt_length h).trans (by simp [hts])
      refine ⟨used, hused,
        ((shorter rest' hshorter).2 c _ _ (.chained hover hleft hop hright)).mono ?_⟩
      intro ls hls
      simpa using hls

/-! ## Statements that can be completed -/

theorem readStatement_reads {ts rest : List Token} {t : Tree}
    (h : readStatement ts = .ok (t, rest)) : Reads .statement ts rest t := by
  obtain ⟨p, hp, rfl, rfl⟩ := of_eq_ok h
  exact statement_reads ts p hp

/-- What is read up to a closing brace. -/
theorem readItems_reads (ts : List Token) : ∀ items rest, readItems ts = .ok (items, rest) →
    ∃ used close, ts = used ++ close :: rest ∧ close.lexeme = .symbol .closeBrace ∧
      Derives .statements (used.map (·.lexeme)) (mk .block items) := by
  induction hn : ts.length using Nat.strong_induction_on generalizing ts with
  | _ n ih =>
    intro items rest h
    rw [readItems_eq] at h
    cases hclose : next? (only (.symbol .closeBrace)) ts with
    | some p =>
      obtain ⟨u, after⟩ := p
      rw [on_of_next? hclose] at h
      cases h
      obtain ⟨t, rfl, ht⟩ := next?_eq_some.mp hclose
      exact ⟨[], t, rfl, only_eq_some ht, .nothing⟩
    | none =>
      rw [on_of_next?_none hclose] at h
      by_cases hnil : ts = []
      · subst hnil
        cases h
      rw [atEnd_of_ne_nil hnil] at h
      obtain ⟨first, mid, hfirst, h⟩ := exists_of_bind h
      obtain ⟨others, _, hothers, h⟩ := exists_of_bind h
      cases h
      obtain ⟨used, hts, hd⟩ := readStatement_reads hfirst
      obtain ⟨used', close, hmid, hlexeme, hd'⟩ := ih _ (hn ▸ of_length hfirst) mid rfl _ _ hothers
      refine ⟨used ++ used', close, append_of_rest hts hmid, hlexeme, ?_⟩
      rw [List.map_append]
      exact .next hd hd'

theorem readBlock_reads {ts rest : List Token} {t : Tree} (h : readBlock ts = .ok (t, rest)) :
    Reads .block ts rest t := by
  rw [readBlock_eq] at h
  obtain ⟨_, mid, hopen, h⟩ := exists_of_bind h
  obtain ⟨items, _, hitems, h⟩ := exists_of_bind h
  cases h
  obtain ⟨o, rfl, ho⟩ := take_eq_ok hopen
  obtain ⟨used, close, rfl, hclose, hd⟩ := readItems_reads mid _ _ hitems
  refine ⟨o :: (used ++ [close]), by simp, ?_⟩
  rw [List.map_cons, List.map_append, List.map_singleton, ho, hclose]
  exact .braces hd

theorem phrase_statement :
    Category.statement.Phrase [.keyword .num, .name "x", .symbol .semicolon] :=
  ⟨_, .declare "x" .number⟩

/-- What is read between parentheses stops after the beginning of it. -/
theorem readParenthesized_viable {P : List Lexeme → Prop} (ts : List Token) (after : List Lexeme)
    (hP : ∀ ls t, Derives (.expression (.chain .disjunction)) ls t →
      P (.symbol .openParen :: ls ++ .symbol .closeParen :: after)) :
    readParenthesized.ViableAt ts P := by
  have hzero : Derives (.expression (.chain .disjunction)) [.integer 0] (mk (.integer 0) []) :=
    .operand .disjunction <| .operand .conjunction <| .unnegated <| .uncompared <|
      .operand .sum <| .operand .product <| .unsigned <| .leaf (.integer 0)
  refine .take (hP _ _ hzero) fun _ rest _ => ?_
  refine .bind (((readAt_viable rest).1 _).of_part (.symbol .closeParen :: after) hP)
    fun inner rest' h => ?_
  obtain ⟨used, hused, hinner⟩ := readAt_reads h
  exact ⟨used, hused, .take (hP _ _ hinner) fun _ _ _ => .pure _⟩

theorem readPrinted_viable (ts : List Token) :
    readPrinted.ViableAt ts fun ls => Category.statement.Phrase (.keyword .print :: ls) := by
  refine .bind (((readAt_viable ts).1 _).of_part [.symbol .semicolon] fun ls t h => ⟨_, .print h⟩)
    fun value rest h => ?_
  obtain ⟨used, hused, hvalue⟩ := readAt_reads h
  exact ⟨used, hused, .take ⟨_, .print hvalue⟩ fun _ _ _ => .pure _⟩

theorem readDeclaration_viable (kind : Kind) (ts : List Token) :
    (readDeclaration kind).ViableAt ts fun ls =>
      Category.statement.Phrase (.keyword kind.keyword :: ls) := by
  refine .bind (.on (fun _ _ _ _ _ => .pure _) (.fail ⟨_, .declare "x" kind⟩)) fun x rest h => ?_
  have hname : Reader.of expectName ts = .ok (x, rest) := by rwa [of_expectName]
  obtain ⟨p, hp, rfl, rfl⟩ := of_eq_ok hname
  obtain ⟨t, hts, ht⟩ := expectName_ok hp
  refine ⟨[t], hts, ?_⟩
  rw [List.map_singleton, ht]
  exact .take ⟨_, .declare p.value kind⟩ fun _ _ _ => .pure _

theorem readAction_viable (x : String) (ts : List Token) :
    (readAction x).ViableAt ts fun ls => Category.statement.Phrase (.name x :: ls) := by
  have step : ∀ (k : Step) {rest : List Token} {t : Tree},
      ViableAt (take .semicolon >>= fun _ => pure t) rest fun ls =>
        Category.statement.Phrase (.name x :: .symbol k.symbol :: ls) :=
    fun k {_ _} => .take ⟨_, .step k x⟩ fun _ _ _ => .pure _
  refine .on (fun t rest _ _ ht => ?_) (.on (fun t rest _ _ ht => ?_) (.on (fun t rest _ _ ht => ?_)
    (.fail ⟨_, .step .up x⟩)))
  · rw [only_eq_some ht]
    refine .bind (((readAt_viable rest).1 _).of_part [.symbol .semicolon] fun ls t h =>
      ⟨_, .assign x h⟩) fun value rest' h => ?_
    obtain ⟨used, hused, hvalue⟩ := readAt_reads h
    exact ⟨used, hused, .take ⟨_, .assign x hvalue⟩ fun _ _ _ => .pure _⟩
  · rw [only_eq_some ht]
    exact step .up
  · rw [only_eq_some ht]
    exact step .down

theorem phrase_block : Category.block.Phrase [.symbol .openBrace, .symbol .closeBrace] :=
  ⟨_, .braces .nothing⟩

theorem readParenthesized_reads {ts rest : List Token} {t : Tree}
    (h : readParenthesized ts = .ok (t, rest)) : ∃ ls used, ts = used ++ rest ∧
      used.map (·.lexeme) = .symbol .openParen :: ls ++ [.symbol .closeParen] ∧
      Derives (.expression (.chain .disjunction)) ls t := by
  rw [← of_parenthesized] at h
  obtain ⟨p, hp, rfl, rfl⟩ := of_eq_ok h
  exact parenthesized_reads hp

/-- A loop can be completed if the blocks in it can. -/
theorem readLoop_viable {ts : List Token}
    (hblock : ∀ rest, rest.length < ts.length → readBlock.ViableAt rest Category.block.Phrase) :
    readLoop.ViableAt ts fun ls => Category.statement.Phrase (.keyword .loop :: ls) := by
  obtain ⟨empty, hempty⟩ := phrase_block
  refine .bind (readParenthesized_viable ts _ fun ls t h => ⟨_, .guarded .loop h hempty⟩)
    fun test rest h => ?_
  obtain ⟨ls, used, hused, hls, htest⟩ := readParenthesized_reads h
  refine ⟨used, hused, ((hblock _ (readParenthesized_length h)).of_phrase fun ms b hb => ?_).map⟩
  rw [hls, List.append_assoc]
  exact ⟨_, .guarded .loop htest hb⟩

/-- A condition can be completed if the blocks in it can. -/
theorem readCondition_viable {ts : List Token}
    (hblock : ∀ rest, rest.length < ts.length → readBlock.ViableAt rest Category.block.Phrase) :
    readCondition.ViableAt ts fun ls => Category.statement.Phrase (.keyword .condition :: ls) := by
  obtain ⟨empty, hempty⟩ := phrase_block
  refine .bind (readParenthesized_viable ts _ fun ls t h => ⟨_, .guarded .condition h hempty⟩)
    fun test rest h => ?_
  obtain ⟨ls, used, hused, hls, htest⟩ := readParenthesized_reads h
  have hrest := readParenthesized_length h
  refine ⟨used, hused, .bind ((hblock rest hrest).of_phrase fun ms b hb => ?_)
    fun body rest' h' => ?_⟩
  · rw [hls, List.append_assoc]
    exact ⟨_, .guarded .condition htest hb⟩
  obtain ⟨used', hused', hbody⟩ := readBlock_reads h'
  refine ⟨used', hused', .on (fun t rest'' _ hrest' ht => ?_) (.pure _)⟩
  have hrest'' : rest''.length < ts.length :=
    Nat.lt_trans (by simp [hrest']) ((of_length h').trans hrest)
  refine ((hblock rest'' hrest'').of_phrase fun ns e he => ?_).map
  rw [only_eq_some ht, hls, List.append_assoc]
  exact ⟨_, .choice htest hbody he⟩

/-- However a statement goes on, it can be completed if the blocks in it can. -/
theorem statementAfter?_viable {x : Lexeme} {r : Reader Tree} {ts : List Token}
    (h : statementAfter? x = some r)
    (hblock : ∀ rest, rest.length < ts.length → readBlock.ViableAt rest Category.block.Phrase) :
    r.ViableAt ts fun ls => Category.statement.Phrase (x :: ls) := by
  unfold statementAfter? at h
  split at h <;> cases h
  · exact readDeclaration_viable .number ts
  · exact readDeclaration_viable .text ts
  · exact readPrinted_viable ts
  · exact readLoop_viable hblock
  · exact readCondition_viable hblock
  · exact readAction_viable _ ts

/-- A statement before others. -/
theorem phrase_next {ls ms : List Lexeme} {t : Tree} (h : Derives .statement ls t)
    (hs : Category.statements.Phrase ms) : Category.statements.Phrase (ls ++ ms) := by
  obtain ⟨u, hu⟩ := hs
  obtain ⟨body, rfl, -⟩ := hu.shape
  exact ⟨_, .next h hu⟩

theorem phrase_single {ls : List Lexeme} {t : Tree} (h : Derives .statement ls t) :
    Category.statements.Phrase ls := by
  simpa using phrase_next h ⟨_, .nothing⟩

/-- The readers of statements stop after the beginning of a statement. -/
theorem readStatement_viable (ts : List Token) :
    readStatement.ViableAt ts Category.statement.Phrase ∧
    readBlock.ViableAt ts Category.block.Phrase ∧
    readItems.ViableAt ts fun ls => ∃ ms, ls = ms ++ [.symbol .closeBrace] ∧
      Category.statements.Phrase ms := by
  induction hn : ts.length using Nat.strong_induction_on generalizing ts with
  | _ n ih =>
    have shorter := fun (rest : List Token) (hrest : rest.length < ts.length) =>
      ih _ (hn ▸ hrest) rest rfl
    have hstatement : readStatement.ViableAt ts Category.statement.Phrase := by
      rw [readStatement_eq]
      refine .on (fun t rest r hts ht => ?_) (.fail phrase_statement)
      refine statementAfter?_viable ht fun rest' hrest' => (shorter rest' ?_).2.1
      exact hrest'.trans (by simp [hts])
    refine ⟨hstatement, ?_, ?_⟩
    · rw [readBlock_eq]
      refine .take phrase_block fun t rest hts => ((shorter rest (by simp [hts])).2.2.mono ?_).map
      rintro ls ⟨ms, rfl, t, h⟩
      exact ⟨t, .braces h⟩
    · rw [readItems_eq]
      refine .on (fun _ _ _ _ _ => .pure _) (.atEnd (.fail ⟨[], rfl, _, .nothing⟩) ?_)
      refine .bind (hstatement.of_part [.symbol .closeBrace]
        fun ls t h => ⟨ls, rfl, phrase_single h⟩)
        fun first rest h => ?_
      obtain ⟨used, hused, hfirst⟩ := readStatement_reads h
      refine ⟨used, hused, ((shorter rest (of_length h)).2.2.mono ?_).map⟩
      rintro ls ⟨ms, rfl, hms⟩
      exact ⟨used.map (·.lexeme) ++ ms, by rw [List.append_assoc], phrase_next hfirst hms⟩

/-- The reader of programs stops after the beginning of a program. -/
theorem readAll_viable (ts : List Token) : readAll.ViableAt ts Category.statements.Phrase := by
  induction hn : ts.length using Nat.strong_induction_on generalizing ts with
  | _ n ih =>
    rw [readAll_eq]
    refine .atEnd (.pure _) ?_
    refine .bind ((readStatement_viable ts).1.of_phrase fun ls t h => phrase_single h)
      fun first rest h => ?_
    obtain ⟨used, hused, hfirst⟩ := readStatement_reads h
    exact ⟨used, hused, ((ih _ (hn ▸ of_length h) rest rfl).mono fun ls hls =>
      phrase_next hfirst hls).map⟩

/-! ## Programs -/

/-- The tokens are those of a program. -/
def Parses (ts : List Token) : Prop := ∃ t, ofTokens ts = .ok t

theorem readAll_eq_error {ts : List Token} {e : SyntaxFault} (h : ofTokens ts = .error e) :
    readAll ts = .error e := by
  unfold ofTokens at h
  unfold readAll
  cases hs : statements ts with
  | error e' =>
    rw [hs] at h
    cases h
    rfl
  | ok items =>
    rw [hs] at h
    cases h

theorem not_parses_of_error {ts : List Token} {e : SyntaxFault} (h : readAll ts = .error e) :
    ¬ Parses ts := by
  rintro ⟨t, ht⟩
  unfold ofTokens at ht
  unfold readAll at h
  cases hs : statements ts with
  | error e' =>
    rw [hs] at ht
    cases ht
  | ok items =>
    rw [hs] at h
    cases h

/-- Lexemes that go on to a program are those of tokens that do. -/
theorem parses_of_phrase {before : List Token} {more : List Lexeme}
    (h : Category.statements.Phrase (before.map (·.lexeme) ++ more)) :
    ∃ more, Parses (before ++ more) := by
  obtain ⟨t, ht⟩ := h
  refine ⟨more.map (Token.mk · 1), _, ht.program.accepted _ ?_⟩
  rw [List.map_append, List.map_map]
  exact congrArg _ (List.map_id more)

/-- What is known of a fault: what is before it can be completed, and nothing is a program that goes
on with the token at which it stands. -/
theorem ofTokens_stops {ts : List Token} {e : SyntaxFault} (h : ofTokens ts = .error e) :
    ∃ before, ts = before ++ e.rest ∧ (∃ more, Parses (before ++ more)) ∧
      ∀ t after, e.rest = t :: after → ∀ more, ¬ Parses (before ++ t :: more) := by
  have hread := readAll_eq_error h
  obtain ⟨before, more, hts, hmore⟩ := readAll_viable ts e hread
  obtain ⟨used, hts', hlocal⟩ := readAll_local ts
  rw [hread] at hts' hlocal
  obtain rfl : before = used := List.append_cancel_right (hts.symm.trans hts')
  refine ⟨before, hts, parses_of_phrase hmore, fun t after hrest more => ?_⟩
  refine not_parses_of_error (hlocal (t :: more) ?_)
  simp [left, hrest]

/-- **Reading stops at the first token with which no program goes on**, and at the end exactly if
the tokens are the beginning of a program, but not one. -/
theorem ofTokens_error (ts : List Token) :
    (∀ e, ofTokens ts = .error e → ∃ k, k ≤ ts.length ∧ e.rest = ts.drop k ∧
      (∃ more, Parses (ts.take k ++ more)) ∧
      ∀ t, ts[k]? = some t →
        e.message =
        s!"line {t.line}: unexpected token {t.lexeme.describe} (was expecting {e.expected.title})" ∧
        ∀ more, ¬ Parses (ts.take (k + 1) ++ more)) ∧
    ((∃ e, ofTokens ts = .error e ∧ e.rest = []) ↔
      ¬ Parses ts ∧ ∃ more, more ≠ [] ∧ Parses (ts ++ more)) := by
  refine ⟨fun e he => ?_, ?_, ?_⟩
  · obtain ⟨before, hts, hviable, hrefused⟩ := ofTokens_stops he
    have hdrop : e.rest = ts.drop before.length := by simp [hts]
    have htake : ts.take before.length = before := by simp [hts]
    refine ⟨before.length, by simp [hts], hdrop, by rwa [htake], fun t ht => ?_⟩
    obtain ⟨hk, rfl⟩ := List.getElem?_eq_some_iff.mp ht
    have hrest := hdrop.trans (List.drop_eq_getElem_cons hk)
    refine ⟨by simp only [SyntaxFault.message, hrest], fun more => ?_⟩
    rw [List.take_succ_eq_append_getElem hk, htake, List.append_assoc]
    exact hrefused _ _ hrest more
  · rintro ⟨e, he, hrest⟩
    obtain ⟨before, hts, ⟨more, hmore⟩, -⟩ := ofTokens_stops he
    rw [hrest, List.append_nil] at hts
    have hnot := not_parses_of_error (readAll_eq_error he)
    refine ⟨hnot, more, ?_, hts ▸ hmore⟩
    rintro rfl
    exact hnot (by simpa [hts] using hmore)
  · rintro ⟨hnot, more, -, hmore⟩
    cases he : ofTokens ts with
    | ok t => exact absurd ⟨t, he⟩ hnot
    | error e =>
      refine ⟨e, rfl, ?_⟩
      obtain ⟨before, hts, -, hrefused⟩ := ofTokens_stops he
      cases hrest : e.rest with
      | nil => rfl
      | cons t after =>
        -- the tokens go on with `t`, so what starts with them is no program
        rw [hts, hrest, List.append_assoc, List.cons_append] at hmore
        exact absurd hmore (hrefused t after hrest _)

/-- The tokens of `if (a < b < c) { }`. -/
def doubleComparison : List Token :=
  [.keyword .condition, .symbol .openParen, .name "a", .symbol .less, .name "b", .symbol .less,
    .name "c", .symbol .closeParen, .symbol .openBrace, .symbol .closeBrace].map (Token.mk · 1)

/-- A comparison is not compared: the second sign is the first token that goes on with no
program. -/
theorem doubleComparison_error :
    ofTokens doubleComparison = .error ⟨.symbol .closeParen, doubleComparison.drop 5⟩ ∧
    (∃ more, Parses (doubleComparison.take 5 ++ more)) ∧
    ∀ more, ¬ Parses (doubleComparison.take 6 ++ more) := by
  have he : ofTokens doubleComparison = .error ⟨.symbol .closeParen, doubleComparison.drop 5⟩ := by
    decide +kernel
  obtain ⟨k, hle, hdrop, hviable, hrefused⟩ := (ofTokens_error doubleComparison).1 _ he
  obtain rfl : k = 5 := by
    have hlength := congrArg List.length hdrop
    simp only [List.length_drop] at hlength
    have : doubleComparison.length = 10 := rfl
    omega
  exact ⟨he, hviable, (hrefused _ rfl).2⟩

end Tree

end FlowLang
