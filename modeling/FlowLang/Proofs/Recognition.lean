import FlowLang.Proofs.Readers

/-!
# The readers accept the grammar

What has a derivation is read (`parse` of a `Parser`), and with the tree of the derivation. A reader
of expressions goes on as long as an operator of its level follows, so an expression is read to its
end only if something else comes after it: `Level.Ends`. A condition goes on if an `else` follows.

* `Level.joinedBy?`: the one level whose expressions an operator joins.
* `Derives.accepted`: tokens with a derivation in a category are taken by the reader of the
  category, whatever comes after them, as long as it does not go on with it (`Category.Accepted`).
* **`Tree.ofTokens_iff_derives`**: the programs are exactly the tokens with a derivation, and no two
  trees have the same tokens.
-/

namespace FlowLang

namespace Tree

open Reader

/-! ## Operators and their levels -/

/-- The level whose expressions a lexeme joins. -/
def Level.joinedBy? : Lexeme → Option Level
  | .symbol .either => some (.chain .disjunction)
  | .symbol .both => some (.chain .conjunction)
  | .symbol .equal | .symbol .notEqual | .symbol .greater | .symbol .less
  | .symbol .greaterEqual | .symbol .lessEqual => some .comparison
  | .symbol .plus | .symbol .minus => some (.chain .sum)
  | .symbol .star | .symbol .slash => some (.chain .product)
  | _ => none

/-- An expression of the level ends before the tokens: no operator of it or of a tighter level
follows. -/
def Level.Ends (l : Level) (rest : List Token) : Prop :=
  ∀ t ∈ rest.head?, ∀ m, joinedBy? t.lexeme = some m → l.rank < m.rank

theorem Chain.Joins.joinedBy? {c : Chain} {x : Lexeme} {n : Node} (h : c.Joins x n) :
    Level.joinedBy? x = some (.chain c) := by
  cases h <;> rfl

theorem Compares.joinedBy? {x : Lexeme} {op : RelOp} (h : Compares x op) :
    Level.joinedBy? x = some .comparison := by
  cases h <;> rfl

namespace Level

theorem Ends.mono {l m : Level} {rest : List Token} (h : l.Ends rest) (hm : m.rank ≤ l.rank) :
    m.Ends rest := fun t ht k hk => Nat.lt_of_le_of_lt hm (h t ht k hk)

/-- An operator of a looser level ends an expression. -/
theorem ends_of_joinedBy? {l m : Level} {t : Token} (h : joinedBy? t.lexeme = some m)
    (hm : l.rank < m.rank) (rest : List Token) : l.Ends (t :: rest) := by
  rintro t' ht k hk
  cases ht
  cases h.symm.trans hk
  exact hm

/-- What is no operator ends every expression. -/
theorem ends_of_none {t : Token} (h : joinedBy? t.lexeme = none) (l : Level) (rest : List Token) :
    l.Ends (t :: rest) := by
  rintro t' ht k hk
  cases ht
  cases h.symm.trans hk

end Level

theorem readChain_of_ends {c : Chain} {rest : List Token} (h : (Level.chain c).Ends rest)
    (t : Tree) : readChain c t rest = .ok (t, rest) := by
  rw [readChain_eq, on_of_none]
  · rfl
  · intro u hu
    refine Option.eq_none_iff_forall_ne_some.mpr fun n hn => ?_
    exact Nat.lt_irrefl _ (h u hu _ (Chain.operator?_eq_some.mp hn).joinedBy?)

/-! ## First lexemes -/

/-- What starts with a negation is no expression of a tighter level. -/
theorem readAt_bang {t : Token} (h : t.lexeme = .symbol .bang) (rest : List Token) (l : Level) :
    l.rank < Level.negation.rank → readAt l (t :: rest) = .error ⟨.expression, t :: rest⟩ := by
  induction l using Level.induct with
  | atom =>
    intro _
    rw [readAt_atom, on_of_none (by simp [h, only]), on_of_none (by simp [h, leaf?])]
    rfl
  | signed ih =>
    intro _
    rw [readAt_signed, on_of_none (by simp [h, only]), on_of_none (by simp [h, only])]
    exact ih (by decide)
  | chain c ih =>
    intro hc
    rw [readAt_chain, bind_of_error (ih (c.operand_rank.trans hc))]
  | comparison ih =>
    intro _
    rw [readAt_comparison, bind_of_error (ih (by decide))]
  | negation _ => exact fun hn => absurd hn (Nat.lt_irrefl _)

/-- What starts with a sign is no atom. -/
theorem readAt_sign {t : Token} (h : t.lexeme = .symbol .plus ∨ t.lexeme = .symbol .minus)
    (rest : List Token) : readAt .atom (t :: rest) = .error ⟨.expression, t :: rest⟩ := by
  rw [readAt_atom, on_of_none (by rcases h with h | h <;> simp [h, only]),
    on_of_none (by rcases h with h | h <;> simp [h, leaf?])]
  rfl

/-- A reading that succeeds started with another lexeme than one that is refused. -/
theorem only_eq_none {x : Lexeme} {r : Reader Tree} {ts : List Token} {p : Tree × List Token}
    (h : r ts = .ok p) (hx : ∀ t rest, t.lexeme = x → ∃ e, r (t :: rest) = .error e) :
    ∀ t ∈ ts.head?, only x t.lexeme = none := by
  intro t ht
  obtain ⟨rest, rfl⟩ := List.head?_eq_some_iff.mp ht
  by_cases hlex : t.lexeme = x
  · obtain ⟨e, he⟩ := hx t rest hlex
    cases h.symm.trans he
  · exact if_neg hlex

theorem take_of_lexeme {s : Symbol} {t : Token} (h : t.lexeme = .symbol s) (rest : List Token) :
    take s (t :: rest) = .ok ((), rest) :=
  on_of_some (if_pos h) rest

end Tree

open FlowLang.Tree Reader

/-- A statement starts with a lexeme that says how it goes on. -/
theorem Derives.statement_starts {ls : List Lexeme} {t : Tree} (h : Derives .statement ls t) :
    ∃ x xs r, ls = x :: xs ∧ statementAfter? x = some r := by
  cases h with
  | declare x kind => cases kind <;> exact ⟨_, _, _, rfl, rfl⟩
  | guarded g _ _ => cases g <;> exact ⟨_, _, _, rfl, rfl⟩
  | _ => exact ⟨_, _, _, rfl, rfl⟩

/-- No statement starts with an `else`. -/
theorem Derives.not_alternative {ls : List Lexeme} {t : Tree} (h : Derives .statements ls t)
    {ts : List Token} (hts : ts.map (·.lexeme) = ls) (rest : List Token)
    (hrest : ∀ u ∈ rest.head?, only (.keyword .alternative) u.lexeme = none) :
    ∀ u ∈ (ts ++ rest).head?, only (.keyword .alternative) u.lexeme = none := by
  cases ts with
  | nil => exact hrest
  | cons v ts =>
    rintro u hu
    cases hu
    cases h with
    | nothing => cases hts
    | next h _ =>
      obtain ⟨x, xs, r, rfl, hx⟩ := h.statement_starts
      have hvx : v.lexeme = x := (List.cons.inj hts).1
      refine if_neg fun hv => ?_
      rw [← hvx, hv] at hx
      cases hx

/-! ## Derivations are read -/

/-- The tokens are taken by the reader of the category, with the tree. In a chain, what was read of
it so far is the left operand of what follows. -/
def Category.Accepted : Category → List Token → Tree → Prop
  | .expression (.chain c), ts, t => ∀ rest, c.operand.Ends rest →
      readAt (.chain c) (ts ++ rest) = readChain c t rest
  | .expression l, ts, t => ∀ rest, l.Ends rest → readAt l (ts ++ rest) = .ok (t, rest)
  | .statement, ts, t => ∀ rest, (∀ u ∈ rest.head?, only (.keyword .alternative) u.lexeme = none) →
      readStatement (ts ++ rest) = .ok (t, rest)
  | .statements, ts, t =>
      (∀ close rest, close.lexeme = .symbol .closeBrace →
        readItems (ts ++ close :: rest) = .ok (t.children, rest)) ∧
      readAll ts = .ok (t.children, [])
  | .block, ts, t => ∀ rest, readBlock (ts ++ rest) = .ok (t, rest)
  | .program, ts, t => ofTokens ts = .ok t

/-- An expression is read to its end. -/
theorem Category.Accepted.readAt_eq {l : Level} {ts rest : List Token} {t : Tree}
    (h : (Category.expression l).Accepted ts t) (hrest : l.Ends rest) :
    readAt l (ts ++ rest) = .ok (t, rest) := by
  cases l with
  | chain c => rw [h rest (hrest.mono c.operand_rank.le), readChain_of_ends hrest]
  | negation => exact h rest hrest
  | comparison => exact h rest hrest
  | signed => exact h rest hrest
  | atom => exact h rest hrest

theorem readStatement_of_start {t : Token} {r : Reader Tree} (h : statementAfter? t.lexeme = some r)
    (rest : List Token) : readStatement (t :: rest) = r rest := by
  rw [readStatement_eq]
  exact on_of_some h rest

/-- The test of a loop or a condition is read between its parentheses. -/
theorem Category.Accepted.readParenthesized_eq {ts : List Token} {t : Tree}
    (h : (Category.expression (.chain .disjunction)).Accepted ts t) {v w : Token}
    (hv : v.lexeme = .symbol .openParen) (hw : w.lexeme = .symbol .closeParen) (rest : List Token) :
    readParenthesized (v :: (ts ++ w :: rest)) = .ok (t, rest) := by
  rw [readParenthesized, bind_of_ok (take_of_lexeme hv _),
    bind_of_ok (h.readAt_eq (Level.ends_of_none (by rw [hw]; rfl) _ _)),
    bind_of_ok (take_of_lexeme hw _)]
  rfl

/-- An expression is read up to a semicolon. -/
theorem Category.Accepted.readAt_semicolon {ts : List Token} {t : Tree}
    (h : (Category.expression (.chain .disjunction)).Accepted ts t) {v : Token}
    (hv : v.lexeme = .symbol .semicolon) (rest : List Token) :
    readAt (.chain .disjunction) (ts ++ v :: rest) = .ok (t, v :: rest) :=
  h.readAt_eq (Level.ends_of_none (by rw [hv]; rfl) _ _)

theorem readDeclaration_of_lexemes (kind : Kind) {x : String} {v w : Token}
    (hv : v.lexeme = .name x) (hw : w.lexeme = .symbol .semicolon) (rest : List Token) :
    readDeclaration kind (v :: w :: rest) = .ok (mk (.declare x kind) [], rest) := by
  have hname : readName (v :: w :: rest) = .ok (x, w :: rest) := by
    rw [readName, on_of_some (show nameOf? v.lexeme = some x by rw [hv]; rfl)]
    rfl
  rw [readDeclaration, bind_of_ok hname, bind_of_ok (take_of_lexeme hw _)]
  rfl

theorem readAction_of_step (k : Step) (x : String) {v w : Token} (hv : v.lexeme = .symbol k.symbol)
    (hw : w.lexeme = .symbol .semicolon) (rest : List Token) :
    readAction x (v :: w :: rest) = .ok (mk (k.node x) [mk (.name x) []], rest) := by
  rw [readAction]
  cases k with
  | up =>
    rw [on_of_none (by simp [hv, only, Step.symbol]), on_of_some (if_pos hv),
      bind_of_ok (take_of_lexeme hw _)]
    rfl
  | down =>
    rw [on_of_none (by simp [hv, only, Step.symbol]), on_of_none (by simp [hv, only, Step.symbol]),
      on_of_some (if_pos hv), bind_of_ok (take_of_lexeme hw _)]
    rfl

/-- A statement before others is read before them. -/
theorem Derives.accepted_next {ls ms : List Lexeme} {t : Tree} {items : List Tree}
    (h : Derives .statement ls t) (hs : Derives .statements ms (mk .block items))
    {us vs : List Token} (hus : us.map (·.lexeme) = ls) (hvs : vs.map (·.lexeme) = ms)
    (ht : Category.statement.Accepted us t)
    (hitems : Category.statements.Accepted vs (mk .block items)) :
    Category.statements.Accepted (us ++ vs) (mk .block (t :: items)) := by
  obtain ⟨x, xs, r, rfl, hx⟩ := h.statement_starts
  obtain ⟨u, us, rfl, rfl, hus'⟩ := List.map_eq_cons_iff.mp hus
  have hbrace : u.lexeme ≠ .symbol .closeBrace := fun hu => by
    rw [hu] at hx
    cases hx
  refine ⟨fun close rest hclose => ?_, ?_⟩
  · have hfirst := ht (vs ++ close :: rest) (hs.not_alternative hvs _ (by simp [hclose, only]))
    rw [List.append_assoc, readItems_eq, List.cons_append,
      on_of_none (by simpa [only] using hbrace)]
    change (readStatement >>= _) ((u :: us) ++ (vs ++ close :: rest)) = _
    rw [bind_of_ok hfirst, bind_of_ok (hitems.1 close rest hclose)]
    rfl
  · have hfirst := ht vs (by simpa using hs.not_alternative hvs [] (by simp))
    rw [readAll_eq]
    change (readStatement >>= _) ((u :: us) ++ vs) = _
    rw [bind_of_ok hfirst, bind_of_ok hitems.2]
    rfl

theorem ofTokens_of_readAll {ts : List Token} {items : List Tree}
    (h : readAll ts = .ok (items, [])) : ofTokens ts = .ok (mk .program [mk .block items]) := by
  unfold readAll at h
  unfold ofTokens
  cases hs : statements ts with
  | error e => simp [hs, Except.map] at h
  | ok others =>
    simp only [hs, Except.map, Except.ok.injEq, Prod.mk.injEq, and_true] at h
    rw [h]
    rfl

/-- **What has a derivation is read.** -/
theorem Derives.accepted {c : Category} {ls : List Lexeme} {t : Tree} (h : Derives c ls t) :
    ∀ ts : List Token, ts.map (·.lexeme) = ls → c.Accepted ts t := by
  induction h with
  | operand hk _ ih =>
    intro ts hts rest hrest
    obtain rfl := Chain.operand_eq.mpr hk
    rw [readAt_chain, bind_of_ok ((ih ts hts).readAt_eq hrest)]
  | @chained c _ _ _ op _ _ _ hk _ hop _ ihl ihr =>
    intro ts hts rest hrest
    obtain rfl := Chain.operand_eq.mpr hk
    simp only [List.map_eq_append_iff, List.map_eq_cons_iff] at hts
    obtain ⟨us, _, rfl, hus, v, vs, rfl, rfl, hvs⟩ := hts
    have hends := Level.ends_of_joinedBy? hop.joinedBy? c.operand_rank (vs ++ rest)
    rw [List.append_assoc, List.cons_append, ihl us hus _ hends, readChain_eq,
      on_of_some (Chain.operator?_eq_some.mpr hop), bind_of_ok ((ihr vs hvs).readAt_eq hrest)]
  | negated _ ih =>
    intro ts hts rest hrest
    obtain ⟨v, us, rfl, hv, hus⟩ := List.map_eq_cons_iff.mp hts
    rw [readAt_negation, List.cons_append, on_of_some (if_pos hv),
      bind_of_ok (ih us hus rest hrest)]
    rfl
  | unnegated _ ih =>
    intro ts hts rest hrest
    have hread := ih ts hts rest (hrest.mono (by decide))
    rw [readAt_negation, on_of_none (only_eq_none hread fun t rest ht =>
      ⟨_, readAt_bang ht rest .comparison (by decide)⟩)]
    exact hread
  | compared _ hop _ ihl ihr =>
    intro ts hts rest hrest
    simp only [List.map_eq_append_iff, List.map_eq_cons_iff] at hts
    obtain ⟨us, _, rfl, hus, v, vs, rfl, rfl, hvs⟩ := hts
    have hends : (Level.chain .sum).Ends (v :: (vs ++ rest)) :=
      Level.ends_of_joinedBy? hop.joinedBy? (by decide) _
    rw [readAt_comparison, List.append_assoc, List.cons_append,
      bind_of_ok ((ihl us hus).readAt_eq hends), on_of_some (comparison?_eq_some.mpr hop),
      bind_of_ok ((ihr vs hvs).readAt_eq (hrest.mono (by decide)))]
    rfl
  | uncompared _ ih =>
    intro ts hts rest hrest
    rw [readAt_comparison, bind_of_ok ((ih ts hts).readAt_eq (hrest.mono (by decide))), on_of_none]
    · rfl
    · intro t ht
      refine Option.eq_none_iff_forall_ne_some.mpr fun op hop => ?_
      exact Nat.lt_irrefl _ (hrest t ht _ (comparison?_eq_some.mp hop).joinedBy?)
  | positive _ ih =>
    intro ts hts rest hrest
    obtain ⟨v, us, rfl, hv, hus⟩ := List.map_eq_cons_iff.mp hts
    rw [readAt_signed, List.cons_append, on_of_some (if_pos hv)]
    exact ih us hus rest (hrest.mono (by decide))
  | negative _ ih =>
    intro ts hts rest hrest
    obtain ⟨v, us, rfl, hv, hus⟩ := List.map_eq_cons_iff.mp hts
    rw [readAt_signed, List.cons_append, on_of_none (by simp [hv, only]), on_of_some (if_pos hv),
      bind_of_ok (ih us hus rest (hrest.mono (by decide)))]
    rfl
  | unsigned _ ih =>
    intro ts hts rest hrest
    have hread := ih ts hts rest (hrest.mono (by decide))
    rw [readAt_signed,
      on_of_none (only_eq_none hread fun t rest ht => ⟨_, readAt_sign (.inl ht) rest⟩),
      on_of_none (only_eq_none hread fun t rest ht => ⟨_, readAt_sign (.inr ht) rest⟩)]
    exact hread
  | parenthesized _ ih =>
    intro ts hts rest hrest
    simp only [List.map_eq_append_iff, List.map_eq_cons_iff, List.map_eq_nil_iff] at hts
    obtain ⟨_, _, rfl, ⟨v, us, rfl, hv, hus⟩, w, _, rfl, hw, rfl⟩ := hts
    simp only [List.cons_append, List.append_assoc, List.nil_append]
    rw [readAt_atom, on_of_some (if_pos hv),
      bind_of_ok ((ih us hus).readAt_eq (Level.ends_of_none (by rw [hw]; rfl) _ _)),
      bind_of_ok (take_of_lexeme hw _)]
    rfl
  | leaf hleaf =>
    intro ts hts rest hrest
    obtain ⟨v, rfl, rfl⟩ := List.map_eq_singleton_iff.mp hts
    have hparen : v.lexeme ≠ .symbol .openParen := fun hv => by
      rw [hv] at hleaf
      cases hleaf
    rw [readAt_atom, List.singleton_append, on_of_none (by simpa [only] using hparen),
      on_of_some (leaf?_eq_some.mpr hleaf)]
    rfl
  | declare x kind =>
    intro ts hts rest _
    simp only [List.map_eq_cons_iff, List.map_eq_nil_iff] at hts
    obtain ⟨v, _, rfl, hv, w, _, rfl, hw, s, _, rfl, hs, rfl⟩ := hts
    have hstart : statementAfter? v.lexeme = some (readDeclaration kind) := by
      rw [hv]
      cases kind <;> rfl
    simp only [List.cons_append, List.nil_append]
    rw [readStatement_of_start hstart, readDeclaration_of_lexemes kind hw hs]
  | print _ ih =>
    intro ts hts rest _
    simp only [List.map_eq_append_iff, List.map_eq_cons_iff, List.map_eq_nil_iff] at hts
    obtain ⟨_, _, rfl, ⟨v, us, rfl, hv, hus⟩, w, _, rfl, hw, rfl⟩ := hts
    have hstart : statementAfter? v.lexeme = some readPrinted := by rw [hv]; rfl
    simp only [List.cons_append, List.append_assoc, List.nil_append]
    rw [readStatement_of_start hstart, readPrinted,
      bind_of_ok ((ih us hus).readAt_semicolon hw rest), bind_of_ok (take_of_lexeme hw _)]
    rfl
  | assign x _ ih =>
    intro ts hts rest _
    simp only [List.map_eq_append_iff, List.map_eq_cons_iff, List.map_eq_nil_iff] at hts
    obtain ⟨_, _, rfl, ⟨v, _, rfl, hv, w, us, rfl, hw, hus⟩, s, _, rfl, hs, rfl⟩ := hts
    have hstart : statementAfter? v.lexeme = some (readAction x) := by rw [hv]; rfl
    simp only [List.cons_append, List.append_assoc, List.nil_append]
    rw [readStatement_of_start hstart, readAction, on_of_some (if_pos hw),
      bind_of_ok ((ih us hus).readAt_semicolon hs rest), bind_of_ok (take_of_lexeme hs _)]
    rfl
  | step k x =>
    intro ts hts rest _
    simp only [List.map_eq_cons_iff, List.map_eq_nil_iff] at hts
    obtain ⟨v, _, rfl, hv, w, _, rfl, hw, s, _, rfl, hs, rfl⟩ := hts
    have hstart : statementAfter? v.lexeme = some (readAction x) := by rw [hv]; rfl
    simp only [List.cons_append, List.nil_append]
    rw [readStatement_of_start hstart, readAction_of_step k x hw hs]
  | guarded g _ _ ihc ihb =>
    intro ts hts rest hrest
    simp only [List.map_eq_append_iff, List.map_eq_cons_iff] at hts
    obtain ⟨_, _, rfl, ⟨v, _, rfl, hv, w, us, rfl, hw, hus⟩, x, vs, rfl, hx, hvs⟩ := hts
    have htest := (ihc us hus).readParenthesized_eq hw hx (vs ++ rest)
    simp only [List.cons_append, List.append_assoc]
    cases g with
    | loop =>
      have hstart : statementAfter? v.lexeme = some readLoop := by rw [hv]; rfl
      rw [readStatement_of_start hstart, readLoop, bind_of_ok htest, bind_of_ok (ihb vs hvs rest)]
      rfl
    | condition =>
      have hstart : statementAfter? v.lexeme = some readCondition := by rw [hv]; rfl
      rw [readStatement_of_start hstart, readCondition, bind_of_ok htest,
        bind_of_ok (ihb vs hvs rest), on_of_none hrest]
      rfl
  | choice _ _ _ ihc ihb ihe =>
    intro ts hts rest _
    simp only [List.map_eq_append_iff, List.map_eq_cons_iff] at hts
    obtain ⟨_, _, rfl, ⟨v, _, rfl, hv, w, us, rfl, hw, hus⟩, x, _, rfl, hx, vs, _, rfl, hvs, y, ws,
      rfl, hy, hws⟩ := hts
    have htest := (ihc us hus).readParenthesized_eq hw hx (vs ++ y :: (ws ++ rest))
    have hstart : statementAfter? v.lexeme = some readCondition := by rw [hv]; rfl
    simp only [List.cons_append, List.append_assoc]
    rw [readStatement_of_start hstart, readCondition, bind_of_ok htest,
      bind_of_ok (ihb vs hvs _), on_of_some (if_pos hy), bind_of_ok (ihe ws hws rest)]
    rfl
  | nothing =>
    intro ts hts
    rw [List.map_eq_nil_iff.mp hts]
    refine ⟨fun close rest hclose => ?_, ?_⟩
    · rw [List.nil_append, readItems_eq, on_of_some (if_pos hclose)]
      rfl
    · rw [readAll_eq]
      rfl
  | next h hs ih ihs =>
    intro ts hts
    obtain ⟨us, vs, rfl, hus, hvs⟩ := List.map_eq_append_iff.mp hts
    exact h.accepted_next hs hus hvs (ih us hus) (ihs vs hvs)
  | braces h ih =>
    intro ts hts rest
    simp only [List.map_eq_append_iff, List.map_eq_cons_iff, List.map_eq_nil_iff] at hts
    obtain ⟨_, _, rfl, ⟨v, us, rfl, hv, hus⟩, w, _, rfl, hw, rfl⟩ := hts
    simp only [List.cons_append, List.append_assoc, List.nil_append]
    rw [readBlock_eq, bind_of_ok (take_of_lexeme hv _), bind_of_ok ((ih us hus).1 w rest hw)]
    obtain ⟨body, rfl, -⟩ := h.shape
    rfl
  | program h ih =>
    intro ts hts
    obtain ⟨body, rfl, -⟩ := h.shape
    exact ofTokens_of_readAll (ih ts hts).2

/-- **The programs are the tokens with a derivation, and each has one tree.** -/
theorem Tree.ofTokens_iff_derives :
    (∀ (ts : List Token) (t : Tree),
      ofTokens ts = .ok t ↔ Derives .program (ts.map (·.lexeme)) t) ∧
    ∀ (ls : List Lexeme) (t u : Tree), Derives .program ls t → Derives .program ls u → t = u := by
  refine ⟨fun ts t => ⟨ofTokens_derives, fun h => h.accepted ts rfl⟩, fun ls t u ht hu => ?_⟩
  have hls : (ls.map (Token.mk · 1)).map (·.lexeme) = ls := by
    rw [List.map_map]
    exact List.map_id ls
  have hread : ofTokens (ls.map (Token.mk · 1)) = .ok t := ht.accepted _ hls
  cases hread.symm.trans (hu.accepted _ hls)
  rfl

/-- The tokens of `x = - 1 - 2 * ( y < 3 );`. -/
def signedChain : List Token :=
  [.name "x", .symbol .assign, .symbol .minus, .integer 1, .symbol .minus, .integer 2,
    .symbol .star, .symbol .openParen, .name "y", .symbol .less, .integer 3, .symbol .closeParen,
    .symbol .semicolon].map (Token.mk · 1)

open FlowLang.Tree in
/-- The chain leans to the left, and its first operand is subtracted from zero. -/
def signedChainTree : Tree :=
  mk .program [mk .block [mk (.assign "x") [mk (.arithmetic .sub)
    [mk (.arithmetic .sub) [mk (.integer 0) [], mk (.integer 1) []],
      mk (.arithmetic .mul) [mk (.integer 2) [],
        mk (.compare .lt) [mk (.name "y") [], mk (.integer 3) []]]]]]]

theorem signedChain_derives : ofTokens signedChain = .ok signedChainTree ∧
    Derives .program (signedChain.map (·.lexeme)) signedChainTree ∧
    ∀ t, Derives .program (signedChain.map (·.lexeme)) t → t = signedChainTree := by
  have hread : ofTokens signedChain = .ok signedChainTree := by decide +kernel
  have hderives := (Tree.ofTokens_iff_derives.1 _ _).mp hread
  exact ⟨hread, hderives, fun t ht => Tree.ofTokens_iff_derives.2 _ _ _ ht hderives⟩

end FlowLang
