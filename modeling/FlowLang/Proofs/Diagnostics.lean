import FlowLang.Proofs.DecimalText
import FlowLang.Proofs.NameAgreement
import FlowLang.Proofs.RoundTrip

/-!
# Diagnostics of one line

A diagnostic (`diagnostics` of a `CompileError`) may quote what the source holds, but it never
breaks its line: quoted text and numbers have no line breaks, and the names of a program are words.

* `OneLine s`: the text has no line break.
* `parseSource_writable`: what is read from a source can be written, so its names are words.
* `Tree.names`: the names in a tree. The check of declarations finds fault with no others
  (`Checker.name_of_check`).
* **`compile_oneLine`**: the diagnostics of a refused source are one line each.
-/

namespace FlowLang

/-- The text has no line break. -/
def OneLine (s : String) : Prop := '\n' ∉ s.toList

/-! ## Parts of texts -/

/-- What is no digit in any base does not stand in a number. -/
theorem not_mem_toDigits {c : Char} (hc : ∀ n, c ≠ Nat.digitChar n) (b n : Nat) :
    c ∉ Nat.toDigits b n := by
  suffices hcore : ∀ fuel n ds, c ∉ ds → c ∉ Nat.toDigitsCore b fuel n ds from
    hcore _ _ _ List.not_mem_nil
  intro fuel
  induction fuel with
  | zero => exact fun _ _ h => h
  | succ fuel ih =>
    intro n ds h
    have hds : c ∉ Nat.digitChar (n % b) :: ds := by simp [h, hc]
    rw [Nat.toDigitsCore]
    split
    · exact hds
    · exact ih _ _ hds

/-- No digit breaks a line. -/
@[simp] theorem newline_not_mem_toDigits (b n : Nat) : '\n' ∉ Nat.toDigits b n :=
  not_mem_toDigits (by simp) b n

@[simp] theorem newline_not_mem_intRepr (n : Int) : '\n' ∉ n.repr.toList := by
  cases n with
  | ofNat n =>
    show '\n' ∉ n.repr.toList
    simp
  | negSucc n =>
    show '\n' ∉ ("-" ++ (n + 1).repr).toList
    simp

theorem Text.newline_not_mem_escape (mark c : Char) : '\n' ∉ escape mark c := by
  unfold escape codePoint
  by_cases hn : c = '\n'
  · simp [hn]
  · have hc : '\n' ≠ c := fun h => hn h.symm
    rw [if_neg hn]
    split_ifs <;> simp [hc]

theorem Text.newline_not_mem_quotedBy {mark : Char} (hm : '\n' ≠ mark) (text : List Char) :
    '\n' ∉ (quotedBy mark text).toList := by
  simp [quotedBy, hm, newline_not_mem_escape]

@[simp] theorem Text.newline_not_mem_quoted (s : String) : '\n' ∉ (quoted s).toList :=
  newline_not_mem_quotedBy (by decide) _

@[simp] theorem Text.newline_not_mem_quotedChar (c : Char) : '\n' ∉ (quotedChar c).toList :=
  newline_not_mem_quotedBy (by decide) _

@[simp] theorem Binary64.newline_not_mem_text (style : Decimal.Style) (x : Binary64) :
    '\n' ∉ (x.text style).toList := by
  intro h
  have hplain := plain_text style x _ h
  revert hplain
  decide

/-! ## Messages -/

@[simp] theorem Symbol.newline_not_mem_title (s : Symbol) : '\n' ∉ s.title.toList := by
  cases s <;> simp [title]

@[simp] theorem Kind.newline_not_mem_title (k : Kind) : '\n' ∉ k.title.toList := by
  cases k <;> simp [title]

@[simp] theorem Ty.newline_not_mem_title (ty : Ty) : '\n' ∉ ty.title.toList := by
  cases ty <;> simp [title]

@[simp] theorem Expected.newline_not_mem_title (e : Expected) : '\n' ∉ e.title.toList := by
  cases e <;> simp [title]

@[simp] theorem Use.newline_not_mem_title (use : Use) : '\n' ∉ use.title.toList := by
  cases use with
  | call callee => cases callee <;> simp [title, Printer.symbol]
  | _ => simp [title]

@[simp] theorem Lexeme.newline_not_mem_describe (x : Lexeme) : '\n' ∉ x.describe.toList := by
  cases x with
  | keyword k => cases k <;> simp [describe, Keyword.title]
  | _ => simp [describe, toString]

theorem ScanFault.oneLine_message (e : ScanFault) : OneLine e.message := by
  cases e <;> simp [OneLine, message, toString]

theorem SyntaxFault.oneLine_message (e : SyntaxFault) : OneLine e.message := by
  unfold message
  split <;> simp [OneLine, toString]

theorem DeclarationFault.oneLine_message {e : DeclarationFault} (h : OneLine e.name) :
    OneLine e.message := by
  cases e with
  | redeclared x =>
    have hx : '\n' ∉ x.toList := h
    show OneLine ("redeclared var " ++ x)
    simp [OneLine, hx]
  | undeclared x =>
    have hx : '\n' ∉ x.toList := h
    show OneLine ("undeclared var " ++ x)
    simp [OneLine, hx]
  | incorrectKind x declared found =>
    have hx : '\n' ∉ x.toList := h
    show OneLine ("type mismatch: incorrect type assigned to " ++ x ++ " (declared " ++
      declared.title ++ ", got " ++ found.title ++ ")")
    simp [OneLine, hx]

theorem LoweringFault.OfTypes.oneLine_message {e : LoweringFault} (h : e.OfTypes) :
    OneLine e.message := by
  cases h with
  | unprintable =>
    show OneLine ("unable to print value of type " ++ Ty.truth.title)
    simp [OneLine]
  | typeMismatch use expected found =>
    show OneLine (use.title ++ ": expected operand of type " ++ expected.title ++ ", found " ++
      found.title)
    simp [OneLine]

/-! ## Names in programs -/

/-- The name that a node holds. -/
def Node.name? : Node → Option String
  | .name x | .assign x | .declare x _ | .increment x | .decrement x => some x
  | _ => none

namespace Tree

/-- The names in a tree, one for each node that holds one. -/
def names (t : Tree) : List String := t.postorder.filterMap (·.node.name?)

theorem postorder_perm (t : Tree) : t.postorder.Perm t.preorder := by
  refine postorder.induct (fun t => t.postorder.Perm t.preorder)
    (fun ts => (postorderAll ts).Perm (preorderAll ts)) (fun n ts ih => ?_) ?_
    (fun t ts ih ihs => ?_) t
  · rw [postorder, preorder]
    exact List.perm_append_comm.trans (ih.cons _)
  · rw [postorderAll, preorderAll]
  · rw [postorderAll, preorderAll]
    exact ih.append ihs

/-- The names of a writable tree are words. -/
theorem Writable.name {t : Tree} (h : t.Writable) {x : String} (hx : x ∈ t.names) :
    (Lexeme.name x).Writable := by
  obtain ⟨u, hu, hn⟩ := List.mem_filterMap.mp hx
  refine h u (t.postorder_perm.mem_iff.mp hu) _ ?_
  unfold Node.name? at hn
  split at hn <;> cases hn
  all_goals
    rename_i hnode
    rw [hnode]
    rfl

end Tree

open FlowLang.Tree in
/-- The names and literals of a tree are lexemes from which it is derived, or the zero that a minus
sign adds. -/
theorem Derives.holds {P : Lexeme → Prop} (hzero : P (.integer 0)) {c : Category} {ls : List Lexeme}
    {t : Tree} (h : Derives c ls t) (hw : ∀ l ∈ ls, P l) : t.Holds P := by
  induction h with
  | operand _ _ ih => exact ih hw
  | chained _ _ hop _ ihl ihr =>
    obtain ⟨op, rfl⟩ := hop.node_eq
    have hnode : op.node.lexeme? = none := by cases op <;> rfl
    rw [List.forall_mem_append, List.forall_mem_cons] at hw
    simp [holds_mk, hnode, ihl hw.1, ihr hw.2.2]
  | negated _ ih =>
    rw [List.forall_mem_cons] at hw
    simp [holds_mk, Node.lexeme?, ih hw.2]
  | unnegated _ ih => exact ih hw
  | compared _ _ _ ihl ihr =>
    rw [List.forall_mem_append, List.forall_mem_cons] at hw
    simp [holds_mk, Node.lexeme?, ihl hw.1, ihr hw.2.2]
  | uncompared _ ih => exact ih hw
  | positive _ ih => exact ih (List.forall_mem_cons.mp hw).2
  | negative _ ih =>
    rw [List.forall_mem_cons] at hw
    simp [holds_mk, Node.lexeme?, hzero, ih hw.2]
  | unsigned _ ih => exact ih hw
  | parenthesized _ ih =>
    rw [List.forall_mem_append, List.forall_mem_cons] at hw
    exact ih hw.1.2
  | leaf h =>
    cases h <;> simpa [holds_mk, Node.lexeme?] using hw
  | declare y kind =>
    simp only [List.forall_mem_cons] at hw
    simp [holds_mk, Node.lexeme?, hw.2.1]
  | print _ ih =>
    rw [List.forall_mem_append, List.forall_mem_cons] at hw
    simp [holds_mk, Node.lexeme?, ih hw.1.2]
  | assign y _ ih =>
    simp only [List.forall_mem_append, List.forall_mem_cons] at hw
    simp [holds_mk, Node.lexeme?, hw.1.1, ih hw.1.2.2]
  | step k y =>
    have hy := hw _ List.mem_cons_self
    cases k <;> simp [holds_mk, Node.lexeme?, Step.node, hy]
  | guarded g _ _ ihc ihb =>
    have hnode : g.node.lexeme? = none := by cases g <;> rfl
    simp only [List.forall_mem_append, List.forall_mem_cons] at hw
    simp [holds_mk, hnode, ihc hw.1.2.2, ihb hw.2.2]
  | choice _ _ _ ihc ihb ihe =>
    simp only [List.forall_mem_append, List.forall_mem_cons] at hw
    simp [holds_mk, Node.lexeme?, ihc hw.1.2.2, ihb hw.2.2.1, ihe hw.2.2.2.2]
  | nothing => simp [holds_mk, Node.lexeme?]
  | next _ _ ih ihs =>
    rw [List.forall_mem_append] at hw
    have hrest := (holds_mk.mp (ihs hw.2)).2
    exact holds_mk.mpr ⟨by simp [Node.lexeme?], List.forall_mem_cons.mpr ⟨ih hw.1, hrest⟩⟩
  | braces _ ih =>
    rw [List.forall_mem_append, List.forall_mem_cons] at hw
    exact ih hw.1.2
  | program _ ih => simp [holds_mk, Node.lexeme?, ih hw]

/-- A tree that is derived from writable lexemes is writable. -/
theorem Derives.writable {c : Category} {ls : List Lexeme} {t : Tree} (h : Derives c ls t)
    (hw : ∀ l ∈ ls, l.Writable) : t.Writable := h.holds (by simp [Lexeme.Writable]) hw

namespace Token

/-- What a source is split into are its tokens. -/
theorem splits_of_scan {source : String} {ts : List Token} (h : scan source = .ok ts) :
    Splits source.toList ts [] := by
  rcases (Splits.start source.toList).split_or_fault with
    ⟨us, hus⟩ | ⟨before, us, rest, e, hb, hs, he⟩
  · rw [List.nil_append] at hus
    have hscan := hus.scanFrom_eq
    rw [List.append_nil, scanFrom_nil, show scanFrom 1 source.toList = .ok ts from h] at hscan
    obtain rfl : ts = us := by simpa [Except.map] using hscan
    exact hus
  · rw [List.nil_append] at hb
    rw [scan, hb, hs.scanFrom_eq, scanFrom_fault he] at h
    cases h

/-- A token is spelled with characters of the source. -/
theorem Splits.spelled {before rest : List Char} {ts : List Token} (h : Splits before ts rest)
    {t : Token} (ht : t ∈ ts) : ∃ text ⊆ before, Spells text t.lexeme := by
  induction h with
  | start source => cases ht
  | skipped _ _ ih =>
    obtain ⟨text, hsub, hs⟩ := ih ht
    exact ⟨text, List.subset_append_of_subset_left _ hsub, hs⟩
  | token _ hp ih =>
    rcases List.mem_append.mp ht with ht | ht
    · obtain ⟨text, hsub, hs⟩ := ih ht
      exact ⟨text, List.subset_append_of_subset_left _ hsub, hs⟩
    · rw [List.mem_singleton.mp ht]
      cases hp with
      | lexeme hs _ => exact ⟨_, List.subset_append_right _ _, hs⟩

/-- What is spelled can be written. -/
theorem Spells.writable {text : List Char} {l : Lexeme} (h : Spells text l) : l.Writable := by
  cases h with
  | integer _ _ hmax => exact ⟨Int.natCast_nonneg _, Int.ofNat_le.mpr hmax⟩
  | real hne hw hp => exact ⟨_, _, hne, hw, hp, rfl⟩
  | keyword => trivial
  | @name c cs hc hcs hk =>
    refine ⟨⟨c, cs, String.toList_ofList, isWordStart_iff.mpr hc,
      fun d hd => isWordChar_iff.mpr (hcs d hd)⟩, fun k hspelling => hk k ?_⟩
    have hres := spelling_reserved k
    rwa [hspelling, String.toList_ofList] at hres
  | text => trivial
  | pair => trivial
  | single => trivial

end Token

theorem Lexeme.Writable.oneLine {x : String} (h : (Lexeme.name x).Writable) : OneLine x := by
  obtain ⟨⟨c, cs, hx, hc, hcs⟩, -⟩ := h
  have hword : ∀ d ∈ c :: cs, Token.isWordChar d :=
    List.forall_mem_cons.mpr ⟨Token.isWordChar_of_isWordStart hc, hcs⟩
  rw [OneLine, hx]
  intro hn
  exact absurd (hword _ hn) (by decide)

/-- **What is read from a source can be written.** -/
theorem parseSource_writable {source : String} {t : Tree} (h : parseSource source = .ok t) :
    t.Writable := by
  obtain ⟨ts, hscan, htree⟩ := parseSource_eq_ok.mp h
  refine (Tree.ofTokens_derives htree).writable (List.forall_mem_map.mpr fun token htoken => ?_)
  obtain ⟨text, -, htext⟩ := (Token.splits_of_scan hscan).spelled htoken
  exact htext.writable

/-! ## The faults of a program -/

namespace Checker

theorem mem_report {c : Checker} {e e' : DeclarationFault} (h : e ∈ (c.report e').faults) :
    e ∈ c.faults ∨ e = e' := by
  simpa [report] using h

/-- Looking at a node finds fault only with its name. -/
theorem name_of_examine {c : Checker} {t : Tree} {e : DeclarationFault}
    (he : e ∈ (c.examine t).faults) : e ∈ c.faults ∨ t.node.name? = some e.name := by
  have hreport : ∀ e', t.node.name? = some e'.name → e ∈ (c.report e').faults →
      e ∈ c.faults ∨ t.node.name? = some e.name := by
    intro e' hname h
    rcases mem_report h with h | rfl
    · exact .inl h
    · exact .inr hname
  unfold examine at he
  split at he
  · rename_i x kind hn
    split_ifs at he
    · exact hreport _ (by rw [hn]; rfl) he
    · exact .inl he
  · rename_i x hn
    split_ifs at he
    · exact .inl he
    · exact hreport _ (by rw [hn]; rfl) he
  · rename_i x hn
    split at he
    · exact hreport _ (by rw [hn]; rfl) he
    · split at he
      · exact .inl he
      · split_ifs at he
        · exact .inl he
        · exact hreport _ (by rw [hn]; rfl) he
  · exact .inl he

/-- The check finds fault only with names of the tree. -/
theorem name_of_check {c : Checker} {t : Tree} {e : DeclarationFault}
    (he : e ∈ (c.check t).faults) : e ∈ c.faults ∨ e.name ∈ t.names := by
  have hfold : ∀ (ts : List Tree) (c : Checker), e ∈ (ts.foldl examine c).faults →
      e ∈ c.faults ∨ e.name ∈ ts.filterMap (·.node.name?) := by
    intro ts
    induction ts with
    | nil => exact fun c h => .inl h
    | cons t ts ih =>
      intro c h
      rcases ih (c.examine t) h with h | h
      · rcases name_of_examine h with h | h
        · exact .inl h
        · exact .inr (List.mem_filterMap.mpr ⟨t, List.mem_cons_self, h⟩)
      · exact .inr (List.filterMap_subset _ (List.subset_cons_self t ts) h)
  exact hfold t.postorder c (c.check_eq_foldl t ▸ he)

end Checker

/-- In a program without wrong names, lowering finds fault only with types. -/
theorem Tree.IsProgram.lower_ofTypes {t : Tree} (h : t.IsProgram)
    (hc : (Checker.fresh.check t).faults = []) {faults : List LoweringFault}
    (hf : t.lower.result = .error faults) : ∀ e ∈ faults, e.OfTypes := by
  obtain ⟨-, hfaults, -⟩ := (h.agrees .fresh hc).attempt ⟨.empty, []⟩ rfl (List.forall_mem_nil _)
  rw [eq_findings_of_lower hf]
  exact hfaults

theorem parseSource_oneLine {source : String} {e : CompileFault}
    (h : parseSource source = .error e) : ∀ line ∈ e.diagnostics, OneLine line := by
  unfold parseSource at h
  split at h
  · cases h
    exact List.forall_mem_singleton.mpr (ScanFault.oneLine_message _)
  · split at h <;> cases h
    exact List.forall_mem_singleton.mpr (SyntaxFault.oneLine_message _)

/-- **The diagnostics of a refused source are one line each.** -/
theorem compile_oneLine {source : String} {e : CompileFault} (h : compile source = .error e) :
    ∀ line ∈ e.diagnostics, OneLine line := by
  cases hp : parseSource source with
  | error e' =>
    rw [compile, hp] at h
    cases h
    exact parseSource_oneLine hp
  | ok t =>
    have hcompile : t.compile = .error e := by rwa [compile, hp] at h
    unfold Tree.compile Checker.toExcept at hcompile
    by_cases hc : (Checker.fresh.check t).faults = []
    · rw [hc] at hcompile
      cases hl : t.lower.result with
      | ok m =>
        rw [hl] at hcompile
        cases hcompile
      | error faults =>
        rw [hl] at hcompile
        cases hcompile
        have hfaults := (parseSource_shape hp).lower_ofTypes hc hl
        exact List.forall_mem_map.mpr fun e he => (hfaults e he).oneLine_message
    · rw [if_neg (by rwa [List.isEmpty_iff])] at hcompile
      cases hcompile
      refine List.forall_mem_map.mpr fun e he => DeclarationFault.oneLine_message ?_
      rcases Checker.name_of_check he with he | he
      · cases he
      · exact ((parseSource_writable hp).name he).oneLine

end FlowLang
