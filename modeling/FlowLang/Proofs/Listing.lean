import FlowLang.Graph.Listing
import FlowLang.Proofs.Diagnostics
import FlowLang.Proofs.GraphShape
import FlowLang.Proofs.TypeSoundness

/-!
# Reading listings

A listing, the text of a module that is printed, shows values by number only, without their types,
and the targets of jumps by label.

* `flatMap_inj`, `flatMap_chunks_inj`: what was strung together can be taken apart in one way only.
* `Text.quoted_injective`: a text can be read from its quotation.
* `lines_inj`, `words_inj`: and so can lines and words, if none of them has a line break or a blank
  in it.
* `Instr.eq_of_words`, `Terminator.eq_of_words`: the types of values follow from the instruction
  that names them and from the slots, and the index of a block from its label.
* **`Module.Legible.eq_of_listing`**: the listing says all about a legible module, one with names of
  one line, labels that differ, and instructions of the right types.
-/

namespace FlowLang

/-! ## Lists that can be cut in one way only -/

/-- Where one part ends is seen from its elements. -/
theorem append_inj_of_run {α : Type} {p : α → Bool} {run run' rest rest' : List α}
    (hrun : ∀ a ∈ run, p a) (hrun' : ∀ a ∈ run', p a) (hrest : ∀ a ∈ rest.head?, p a = false)
    (hrest' : ∀ a ∈ rest'.head?, p a = false) (h : run ++ rest = run' ++ rest') :
    run = run' ∧ rest = rest' := by
  obtain ⟨htake, hdrop⟩ := Token.takeWhile_run hrun hrest
  obtain ⟨htake', hdrop'⟩ := Token.takeWhile_run hrun' hrest'
  rw [h] at htake hdrop
  exact ⟨htake.symm.trans htake', hdrop.symm.trans hdrop'⟩

/-- Where one part ends is marked by an element that is not in it. -/
theorem append_inj_of_mark {α : Type} [DecidableEq α] {mark : α} {l l' rest rest' : List α}
    (hl : mark ∉ l) (hl' : mark ∉ l') (h : l ++ mark :: rest = l' ++ mark :: rest') :
    l = l' ∧ rest = rest' := by
  have hmark : ∀ {rest : List α}, ∀ a ∈ (mark :: rest).head?, (a != mark) = false := by
    rintro rest _ ⟨⟩
    exact bne_self_eq_false mark
  obtain ⟨hl, hrest⟩ := append_inj_of_run (bne_of_not_mem hl) (bne_of_not_mem hl') hmark hmark h
  exact ⟨hl, (List.cons.inj hrest).2⟩

/-- If no code is the beginning of another, a list can be read from its codes. -/
theorem flatMap_inj {α β : Type} {P : α → Prop} {f : α → List β} (hne : ∀ a, P a → f a ≠ [])
    (hf : ∀ a b u v, P a → P b → f a ++ u = f b ++ v → a = b) {l l' : List α} (hl : ∀ a ∈ l, P a)
    (hl' : ∀ a ∈ l', P a) (h : l.flatMap f = l'.flatMap f) : l = l' := by
  induction l generalizing l' with
  | nil =>
    cases l' with
    | nil => rfl
    | cons b l' =>
      rw [List.flatMap_cons, List.flatMap_nil] at h
      exact absurd (List.append_eq_nil_iff.mp h.symm).1 (hne b (hl' b List.mem_cons_self))
  | cons a l ih =>
    obtain ⟨ha, htail⟩ := List.forall_mem_cons.mp hl
    cases l' with
    | nil => exact absurd (List.append_eq_nil_iff.mp h).1 (hne a ha)
    | cons b l' =>
      obtain ⟨hb, htail'⟩ := List.forall_mem_cons.mp hl'
      rw [List.flatMap_cons, List.flatMap_cons] at h
      obtain rfl := hf a b _ _ ha hb h
      rw [ih htail htail' (List.append_cancel_left h)]

theorem head_flatMap_chunks {α : Type} {p : α → Bool} {cs : List (α × List α)}
    (h : ∀ c ∈ cs, p c.1 = false ∧ ∀ a ∈ c.2, p a) :
    ∀ a ∈ (cs.flatMap (fun c => c.1 :: c.2)).head?, p a = false := by
  intro a ha
  cases cs with
  | nil => cases ha
  | cons c cs =>
    cases ha
    exact (h c List.mem_cons_self).1

/-- Parts that begin with a head, which none of the other elements can be. -/
theorem flatMap_chunks_inj {α : Type} {p : α → Bool} {cs cs' : List (α × List α)}
    (h₁ : ∀ c ∈ cs, p c.1 = false ∧ ∀ a ∈ c.2, p a) (h₂ : ∀ c ∈ cs', p c.1 = false ∧ ∀ a ∈ c.2, p a)
    (h : cs.flatMap (fun c => c.1 :: c.2) = cs'.flatMap (fun c => c.1 :: c.2)) : cs = cs' := by
  induction cs generalizing cs' with
  | nil =>
    cases cs' with
    | nil => rfl
    | cons c cs' => cases h
  | cons c cs ih =>
    cases cs' with
    | nil => cases h
    | cons c' cs' =>
      obtain ⟨hc, hcs⟩ := List.forall_mem_cons.mp h₁
      obtain ⟨hc', hcs'⟩ := List.forall_mem_cons.mp h₂
      rw [List.flatMap_cons, List.flatMap_cons, List.cons_append, List.cons_append,
        List.cons.injEq] at h
      obtain ⟨hfirst, hrest⟩ := h
      obtain ⟨hbody, hrest⟩ := append_inj_of_run hc.2 hc'.2 (head_flatMap_chunks hcs)
        (head_flatMap_chunks hcs') hrest
      rw [ih hcs hcs' hrest, Prod.ext hfirst hbody]

theorem eq_of_map_eq {α β : Type} {f g : α → β} {l l' : List α} (h : l.map f = l'.map g)
    (hinj : ∀ a ∈ l, ∀ b ∈ l', f a = g b → a = b) : l = l' := by
  induction l generalizing l' with
  | nil =>
    cases l' with
    | nil => rfl
    | cons b l' => cases h
  | cons a l ih =>
    cases l' with
    | nil => cases h
    | cons b l' =>
      rw [List.map_cons, List.map_cons, List.cons.injEq] at h
      rw [hinj a List.mem_cons_self b List.mem_cons_self h.1,
        ih h.2 fun a ha b hb => hinj a (List.mem_cons_of_mem _ ha) b (List.mem_cons_of_mem _ hb)]

theorem eq_of_zipIdx_map_eq {α β : Type} {f : α → Nat → β} (hf : ∀ i, Function.Injective (f · i))
    {l l' : List α} {n : Nat}
    (h : (l.zipIdx n).map (fun p => f p.1 p.2) = (l'.zipIdx n).map fun p => f p.1 p.2) :
    l = l' := by
  induction l generalizing l' n with
  | nil =>
    cases l' with
    | nil => rfl
    | cons b l' => cases h
  | cons a l ih =>
    cases l' with
    | nil => cases h
    | cons b l' =>
      rw [List.zipIdx_cons, List.zipIdx_cons, List.map_cons, List.map_cons, List.cons.injEq] at h
      obtain rfl : a = b := hf n h.1
      rw [ih h.2]

/-! ## Quoted texts -/

/-- The digits of a number in a base up to sixteen determine it. -/
theorem toDigits_inj {b : Nat} (hb : 1 < b) (hb' : b ≤ 16) {m n : Nat}
    (h : Nat.toDigits b m = Nat.toDigits b n) : m = n := by
  have hchar : ∀ {i j : Nat}, i < b → j < b → i.digitChar = j.digitChar → i = j := by
    have hsixteen : ∀ i < 16, ∀ j < 16, Nat.digitChar i = Nat.digitChar j → i = j := by decide
    intro i j hi hj h
    exact hsixteen i (by omega) j (by omega) h
  induction m using Nat.strongRecOn generalizing n with
  | ind m ih =>
    have hpos : ∀ k, 0 < (Nat.toDigits b k).length := fun k => Nat.length_toDigits_pos
    rw [Nat.toDigits_eq_if (n := m) hb, Nat.toDigits_eq_if (n := n) hb] at h
    split_ifs at h with hm hn hn
    · exact hchar hm hn (List.singleton_inj.mp h)
    · -- one digit and more than one
      have hlength := congrArg List.length h
      rw [List.length_append, List.length_singleton, List.length_singleton] at hlength
      have := hpos (n / b)
      omega
    · have hlength := congrArg List.length h
      rw [List.length_append, List.length_singleton, List.length_singleton] at hlength
      have := hpos (m / b)
      omega
    · obtain ⟨hinit, hlast⟩ := List.append_inj' h rfl
      have hdiv := ih (m / b) (Nat.div_lt_self (by omega) hb) hinit
      have hmod :=
        hchar (Nat.mod_lt _ (by omega)) (Nat.mod_lt _ (by omega)) (List.singleton_inj.mp hlast)
      rw [← Nat.div_add_mod m b, ← Nat.div_add_mod n b, hdiv, hmod]

namespace Text

/-- The character for which a letter after a backslash stands. -/
def ofLetter : Char → Char
  | '0' => '\x00'
  | 't' => '\t'
  | 'n' => '\n'
  | 'r' => '\r'
  | c => c

/-- What stands for a character between quotation marks: the character itself, a backslash with a
letter, or its code point. -/
theorem escape_cases (c : Char) : escape '\x22' c = [c] ∧ c ≠ '\\' ∨
    (∃ d, escape '\x22' c = ['\\', d] ∧ ofLetter d = c ∧ d ≠ 'u') ∨
      escape '\x22' c = codePoint c := by
  unfold escape
  split_ifs with h₀ ht hn hr hm hp hx
  · exact .inr (.inl ⟨'0', rfl, h₀.symm, by decide⟩)
  · exact .inr (.inl ⟨'t', rfl, ht.symm, by decide⟩)
  · exact .inr (.inl ⟨'n', rfl, hn.symm, by decide⟩)
  · exact .inr (.inl ⟨'r', rfl, hr.symm, by decide⟩)
  · rcases hm with rfl | rfl
    · exact .inr (.inl ⟨_, rfl, rfl, by decide⟩)
    · exact .inr (.inl ⟨_, rfl, rfl, by decide⟩)
  · exact .inl ⟨rfl, fun h => hm (.inl h)⟩
  · exact .inr (.inr rfl)
  · exact .inl ⟨rfl, fun h => hm (.inl h)⟩

theorem codePoint_inj {c c' : Char} {u v : List Char} (h : codePoint c ++ u = codePoint c' ++ v) :
    c = c' := by
  have hbrace : ∀ n, '\x7d' ∉ Nat.toDigits 16 n := not_mem_toDigits (by simp) 16
  have hdigits :
      Nat.toDigits 16 c.toNat ++ '\x7d' :: u = Nat.toDigits 16 c'.toNat ++ '\x7d' :: v := by
    simpa [codePoint] using h
  have hn :=
    toDigits_inj (by decide) (by decide) (append_inj_of_mark (hbrace _) (hbrace _) hdigits).1
  exact Char.toNat_inj.mp hn

theorem escape_inj {c c' : Char} {u v : List Char}
    (h : escape '\x22' c ++ u = escape '\x22' c' ++ v) : c = c' := by
  rcases escape_cases c with ⟨hc, hb⟩ | ⟨d, hc, hd, hu⟩ | hc <;>
    rcases escape_cases c' with ⟨hc', hb'⟩ | ⟨d', hc', hd', hu'⟩ | hc' <;>
    rw [hc, hc'] at h
  · exact (List.cons.inj h).1
  · exact absurd (List.cons.inj h).1 hb
  · exact absurd (List.cons.inj h).1 hb
  · exact absurd (List.cons.inj h).1.symm hb'
  · rw [← hd, ← hd', (List.cons.inj (List.cons.inj h).2).1]
  · exact absurd (List.cons.inj (List.cons.inj h).2).1 hu
  · exact absurd (List.cons.inj h).1.symm hb'
  · exact absurd (List.cons.inj (List.cons.inj h).2).1.symm hu'
  · exact codePoint_inj h

/-- **A text can be read from its quotation.** -/
theorem quoted_injective : Function.Injective quoted := by
  intro s t h
  have hne : ∀ c, escape '\x22' c ≠ [] := by
    intro c
    rcases escape_cases c with ⟨hc, -⟩ | ⟨d, hc, -⟩ | hc <;> rw [hc] <;> exact List.cons_ne_nil _ _
  have hl := String.ofList_injective h
  rw [List.cons_append, List.cons_append] at hl
  have hchars := List.append_cancel_right (List.cons.inj hl).2
  exact String.toList_inj.mp (flatMap_inj (P := fun _ => True) (fun c _ => hne c)
    (fun _ _ _ _ _ _ => escape_inj) (fun _ _ => trivial) (fun _ _ => trivial) hchars)

end Text

/-! ## Lines and words -/

/-- Lines that were ended by a newline each can be told apart. -/
theorem lines_inj {ls ls' : List String} (hl : ∀ l ∈ ls, OneLine l) (hl' : ∀ l ∈ ls', OneLine l)
    (h : String.join (ls.map (· ++ "\n")) = String.join (ls'.map (· ++ "\n"))) : ls = ls' := by
  have hchars : ∀ ls : List String, (String.join (ls.map (· ++ "\n"))).toList =
      ls.flatMap fun l => l.toList ++ ['\n'] := by
    intro ls
    rw [String.toList_join, List.flatMap_map]
    simp [List.flatMap]
  have hl₁ := congrArg String.toList h
  rw [hchars, hchars] at hl₁
  refine flatMap_inj (fun l _ => by simp) (fun a b u v ha hb hab => ?_) hl hl' hl₁
  rw [List.append_assoc, List.append_assoc] at hab
  exact String.toList_inj.mp (append_inj_of_mark ha hb hab).1

/-- The text is a word: it has no blank and no line break. -/
def Solid (s : String) : Prop := ' ' ∉ s.toList ∧ OneLine s

/-- Words with single blanks between them can be told apart. -/
theorem words_inj {ws ws' : List String} (hw : ∀ w ∈ ws, Solid w) (hw' : ∀ w ∈ ws', Solid w)
    (hne : ws ≠ []) (hne' : ws' ≠ []) (h : " ".intercalate ws = " ".intercalate ws') :
    ws = ws' := by
  have hsplit : ∀ {ws : List String}, (∀ w ∈ ws, Solid w) → ws ≠ [] →
      (" ".intercalate ws).toList.splitOn ' ' = ws.map String.toList := by
    intro ws hw hne
    rw [String.toList_intercalate]
    exact List.splitOn_intercalate ' ' (List.forall_mem_map.mpr fun w h => (hw w h).1)
      (by simpa using hne)
  have hmap : ws.map String.toList = ws'.map String.toList := by
    rw [← hsplit hw hne, ← hsplit hw' hne', h]
  exact eq_of_map_eq hmap fun _ _ _ _ => String.toList_inj.mp

theorem oneLine_intercalate {ws : List String} (hw : ∀ w ∈ ws, Solid w) :
    OneLine (" ".intercalate ws) := by
  unfold OneLine
  rw [String.toList_intercalate]
  induction ws with
  | nil => exact List.not_mem_nil
  | cons w ws ih =>
    obtain ⟨hfirst, hrest⟩ := List.forall_mem_cons.mp hw
    cases ws with
    | nil =>
      rw [List.map_cons, List.map_nil, List.intercalate_singleton]
      exact hfirst.2
    | cons w' ws =>
      rw [List.map_cons, List.map_cons, List.intercalate_cons_cons, List.mem_append,
        List.mem_append]
      rintro ((h | h) | h)
      · exact hfirst.2 h
      · exact absurd h (by decide)
      · exact ih hrest h

@[simp] theorem space_not_mem_toDigits (b n : Nat) : ' ' ∉ Nat.toDigits b n :=
  not_mem_toDigits (by simp) b n

@[simp] theorem Binary64.space_not_mem_text (style : Decimal.Style) (x : Binary64) :
    ' ' ∉ (x.text style).toList := by
  intro h
  have hplain := plain_text style x _ h
  revert hplain
  decide

namespace Value

theorem eq_of_listing {v w : Value} (h : v.listing = w.listing) (ht : v.ty = w.ty) : v = w := by
  change "v" ++ toString v.index = "v" ++ toString w.index at h
  have hindex := (numbered_inj (by simp) (by simp) h).2
  cases v
  cases w
  exact congrArg₂ mk hindex ht

@[simp] theorem space_not_mem_listing (v : Value) : ' ' ∉ v.listing.toList := by
  simp [listing, toString]

@[simp] theorem newline_not_mem_listing (v : Value) : '\n' ∉ v.listing.toList := by
  simp [listing, toString]

end Value

theorem slotListing_inj {i j : Nat} (h : slotListing i = slotListing j) : i = j :=
  (numbered_inj (by simp) (by simp) (show "ss" ++ toString i = "ss" ++ toString j from h)).2

theorem stringListing_inj {i j : Nat} (h : stringListing i = stringListing j) : i = j :=
  (numbered_inj (by simp) (by simp) (show "@str" ++ toString i = "@str" ++ toString j from h)).2

theorem Arithmetic.mnemonic_inj {op op' : Arithmetic} (h : op.mnemonic = op'.mnemonic) :
    op = op' := by
  revert h
  cases op <;> cases op' <;> decide

theorem Comparison.mnemonic_inj {op op' : Comparison} (h : op.mnemonic = op'.mnemonic) :
    op = op' := by
  revert h
  cases op <;> cases op' <;> decide

theorem Connective.mnemonic_inj {op op' : Connective} (h : op.mnemonic = op'.mnemonic) :
    op = op' := by
  revert h
  cases op <;> cases op' <;> decide

namespace Instr

/-- The words of the line of an instruction. -/
def words : Instr → List String
  | .constant dest x => [dest.listing, "=", "f64const", x.text .marked]
  | .string dest id => [dest.listing, "=", "global_str", stringListing id]
  | .load dest slot => [dest.listing, "=", "load." ++ dest.ty.title, slotListing slot]
  | .store slot value => ["store", slotListing slot ++ ",", value.listing]
  | .arithmetic dest op lhs rhs => [dest.listing, "=", op.mnemonic, lhs.listing ++ ",", rhs.listing]
  | .compare dest op lhs rhs =>
    [dest.listing, "=", "fcmp", op.mnemonic, lhs.listing ++ ",", rhs.listing]
  | .connect dest op lhs rhs => [dest.listing, "=", op.mnemonic, lhs.listing ++ ",", rhs.listing]
  | .negate dest operand => [dest.listing, "=", "not", operand.listing]
  | .call callee args =>
    ["call", callee.symbol ++ "(" ++ String.intercalate ", " (args.map Value.listing) ++ ")"]

theorem listing_eq (i : Instr) : i.listing = " ".intercalate i.words := by
  rw [← String.toList_inj]
  cases i <;> simp [listing, words, toString]

theorem words_ne_nil (i : Instr) : i.words ≠ [] := by
  cases i <;> exact List.cons_ne_nil _ _

theorem solid_words {m : Module} {i : Instr} (hi : i.WellFormed m) : ∀ w ∈ i.words, Solid w := by
  cases i with
  | load dest slot =>
    cases h : dest.ty <;> simp [Solid, OneLine, words, slotListing, toString, Ty.title, h]
  | arithmetic dest op lhs rhs => cases op <;> simp [Solid, OneLine, words, Arithmetic.mnemonic]
  | compare dest op lhs rhs => cases op <;> simp [Solid, OneLine, words, Comparison.mnemonic]
  | connect dest op lhs rhs => cases op <;> simp [Solid, OneLine, words, Connective.mnemonic]
  | call callee args =>
    obtain ⟨arg, rfl, -⟩ := hi
    cases callee <;> simp [Solid, OneLine, words, Printer.symbol]
  | _ => simp [Solid, OneLine, words, stringListing, slotListing, toString]

/-- The constant of an instruction. -/
def constant? : Instr → Option Binary64
  | .constant _ x => some x
  | _ => none

/-- **An instruction can be read from its words**, since the types of the values that it names
follow from it and from the slots. -/
theorem eq_of_words {m m' : Module} {i j : Instr} (hslots : m.graph.slots = m'.graph.slots)
    (hi : i.WellFormed m) (hj : j.WellFormed m') (hci : ∀ x ∈ i.constant?, x.Canonical)
    (hcj : ∀ x ∈ j.constant?, x.Canonical) (h : i.words = j.words) : i = j := by
  have hchars := congrArg (List.map String.toList) h
  have hmnemonic : ∀ (a : Arithmetic) (c : Connective), a.mnemonic.toList ≠ c.mnemonic.toList := by
    intro a c
    cases a <;> cases c <;> decide
  cases i with
  | constant dest x =>
    cases j with
    | constant dest' x' =>
      simp only [words, List.cons.injEq] at h
      rw [Value.eq_of_listing h.1 (hi.trans hj.symm),
        Binary64.text_inj (hci x rfl) (hcj x' rfl) h.2.2.2.1]
    | _ => simp [words] at hchars
  | string dest id =>
    cases j with
    | string dest' id' =>
      simp only [words, List.cons.injEq] at h
      rw [Value.eq_of_listing h.1 (hi.1.trans hj.1.symm), stringListing_inj h.2.2.2.1]
    | _ => simp [words] at hchars
  | load dest slot =>
    cases j with
    | load dest' slot' =>
      simp only [words, List.cons.injEq] at h
      obtain rfl := slotListing_inj h.2.2.2.1
      obtain ⟨entry, he, ht⟩ := hi
      obtain ⟨entry', he', ht'⟩ := hj
      rw [← hslots, he] at he'
      cases he'
      rw [Value.eq_of_listing h.1 (ht.trans ht'.symm)]
    | _ => simp [words] at hchars
  | store slot v =>
    cases j with
    | store slot' v' =>
      simp only [words, List.cons.injEq, String.append_left_inj] at h
      obtain rfl := slotListing_inj h.2.1
      obtain ⟨entry, he, ht⟩ := hi
      obtain ⟨entry', he', ht'⟩ := hj
      rw [← hslots, he] at he'
      cases he'
      rw [Value.eq_of_listing h.2.2.1 (ht.trans ht'.symm)]
    | _ => simp [words] at hchars
  | arithmetic dest op lhs rhs =>
    cases j with
    | arithmetic dest' op' lhs' rhs' =>
      simp only [words, List.cons.injEq, String.append_left_inj] at h
      rw [Value.eq_of_listing h.1 (hi.1.trans hj.1.symm), Arithmetic.mnemonic_inj h.2.2.1,
        Value.eq_of_listing h.2.2.2.1 (hi.2.1.trans hj.2.1.symm),
        Value.eq_of_listing h.2.2.2.2.1 (hi.2.2.trans hj.2.2.symm)]
    | connect dest' op' lhs' rhs' =>
      simp only [words, List.map_cons, List.cons.injEq] at hchars
      exact absurd hchars.2.2.1 (hmnemonic op op')
    | _ => simp [words] at hchars
  | compare dest op lhs rhs =>
    cases j with
    | compare dest' op' lhs' rhs' =>
      simp only [words, List.cons.injEq, String.append_left_inj] at h
      rw [Value.eq_of_listing h.1 (hi.1.trans hj.1.symm), Comparison.mnemonic_inj h.2.2.2.1,
        Value.eq_of_listing h.2.2.2.2.1 (hi.2.1.trans hj.2.1.symm),
        Value.eq_of_listing h.2.2.2.2.2.1 (hi.2.2.trans hj.2.2.symm)]
    | _ => simp [words] at hchars
  | connect dest op lhs rhs =>
    cases j with
    | connect dest' op' lhs' rhs' =>
      simp only [words, List.cons.injEq, String.append_left_inj] at h
      rw [Value.eq_of_listing h.1 (hi.1.trans hj.1.symm), Connective.mnemonic_inj h.2.2.1,
        Value.eq_of_listing h.2.2.2.1 (hi.2.1.trans hj.2.1.symm),
        Value.eq_of_listing h.2.2.2.2.1 (hi.2.2.trans hj.2.2.symm)]
    | arithmetic dest' op' lhs' rhs' =>
      simp only [words, List.map_cons, List.cons.injEq] at hchars
      exact absurd hchars.2.2.1.symm (hmnemonic op' op)
    | _ => simp [words] at hchars
  | negate dest v =>
    cases j with
    | negate dest' v' =>
      simp only [words, List.cons.injEq] at h
      rw [Value.eq_of_listing h.1 (hi.1.trans hj.1.symm),
        Value.eq_of_listing h.2.2.2.1 (hi.2.trans hj.2.symm)]
    | _ => simp [words] at hchars
  | call callee args =>
    cases j with
    | call callee' args' =>
      obtain ⟨v, rfl, hv⟩ := hi
      obtain ⟨v', rfl, hv'⟩ := hj
      have hcallee : callee = callee' := by
        cases callee with
        | number =>
          cases callee' with
          | number => rfl
          | text => simp [words, Printer.symbol] at hchars
        | text =>
          cases callee' with
          | number => simp [words, Printer.symbol] at hchars
          | text => rfl
      subst hcallee
      have hlisting : v.listing = v'.listing := by simpa [words] using h
      rw [Value.eq_of_listing hlisting (hv.trans hv'.symm)]
    | _ => simp [words] at hchars

end Instr

/-! ## Terminators -/

namespace Terminator

/-- The words of the line of a terminator. -/
def words (label : Nat → String) : Terminator → List String
  | .jump target => ["jump", label target]
  | .branch test yes no => ["brif", test.listing ++ ",", label yes ++ ",", label no]
  | .ret code => ["return", toString code]

theorem words_ne_nil (label : Nat → String) (t : Terminator) : t.words label ≠ [] := by
  cases t <;> exact List.cons_ne_nil _ _

theorem solid_words {label : Nat → String} {t : Terminator}
    (h : ∀ k ∈ t.successors, Solid (label k)) : ∀ w ∈ t.words label, Solid w := by
  cases t with
  | jump target =>
    have hlabel := h target List.mem_cons_self
    unfold Solid OneLine at *
    simp [words, hlabel]
  | branch test yes no =>
    have hyes := h yes List.mem_cons_self
    have hno := h no (List.mem_cons_of_mem _ List.mem_cons_self)
    unfold Solid OneLine at *
    simp [words, hyes, hno]
  | ret code =>
    have hcode : ' ' ∉ code.repr.toList := by
      obtain ⟨k, ⟨hr, -⟩ | ⟨hr, -⟩⟩ := Decimal.toList_intRepr code <;> rw [hr] <;> simp
    simp [words, Solid, OneLine, hcode]

/-- A terminator can be read from its words, if no two blocks have one label. -/
theorem eq_of_words {label label' : Nat → String} {t t' : Terminator}
    (ht : ∀ v ∈ t.reads, v.ty = .truth) (ht' : ∀ v ∈ t'.reads, v.ty = .truth)
    (hl : ∀ k ∈ t.successors, ∀ k' ∈ t'.successors, label k = label' k' → k = k')
    (h : t.words label = t'.words label') : t = t' := by
  have hchars := congrArg (List.map String.toList) h
  cases t with
  | jump target =>
    cases t' with
    | jump target' =>
      simp only [words, List.cons.injEq] at h
      rw [hl target List.mem_cons_self target' List.mem_cons_self h.2.1]
    | _ => simp [words] at hchars
  | branch test yes no =>
    cases t' with
    | branch test' yes' no' =>
      simp only [words, List.cons.injEq, String.append_left_inj] at h
      have htest := (ht test List.mem_cons_self).trans (ht' test' List.mem_cons_self).symm
      rw [Value.eq_of_listing h.2.1 htest,
        hl yes (by simp [successors]) yes' (by simp [successors]) h.2.2.1,
        hl no (by simp [successors]) no' (by simp [successors]) h.2.2.2.1]
    | _ => simp [words] at hchars
  | ret code =>
    cases t' with
    | ret code' =>
      simp only [words, List.cons.injEq] at h
      have hcode := congrArg (fun s => Decimal.readInt s.toList) h.2.1
      simp only [Int.toString_eq_repr, Decimal.readInt_repr] at hcode
      rw [hcode]
    | _ => simp [words] at hchars

end Terminator

namespace Graph

theorem exitListing_eq (g : Graph) (t : Terminator) :
    g.exitListing (some t) = " ".intercalate (t.words g.labelOf) := by
  rw [← String.toList_inj]
  cases t <;> simp [exitListing, Terminator.words, toString]

theorem labelOf_eq {g : Graph} {i : Nat} (hi : i < g.blocks.length) :
    g.labels[i]? = some (g.labelOf i) := by
  unfold labels labelOf
  rw [List.getElem?_map, List.getElem?_eq_getElem hi]
  rfl

/-- Where labels are told apart, a label says which block it is. -/
theorem labelOf_inj {g g' : Graph} (hl : g.labels = g'.labels) (hn : g.labels.Nodup) {i j : Nat}
    (hi : i < g.blocks.length) (hj : j < g'.blocks.length) (h : g.labelOf i = g'.labelOf j) :
    i = j := by
  have hij : g.labels[i]? = g.labels[j]? := by rw [labelOf_eq hi, hl, labelOf_eq hj, h]
  exact (List.getElem?_inj (by simpa [labels] using hi) hn).mp hij

/-! ## Kinds of lines -/

/-- The line is one of those below a label, or that of a slot. -/
def indented (line : String) : Bool := line.toList[2]? == some ' '

/-- The label line of a block, and the lines below it. -/
def chunk (g : Graph) (b : Block) : String × List String :=
  (s!"  {b.label}:", b.instrs.map ("    " ++ ·.listing) ++ ["    " ++ g.exitListing b.exit?])

theorem slotLine_injective (i : Nat) : Function.Injective (slotLine · i) := by
  intro slot slot' h
  obtain ⟨name, ty⟩ := slot
  obtain ⟨name', ty'⟩ := slot'
  have hchars := congrArg String.toList h
  cases ty <;> cases ty' <;> simp [slotLine, toString, Ty.title, String.toList_inj] at hchars <;>
    rw [hchars]

theorem slotLines_indented (slots : List Slot) :
    ∀ l ∈ slots.zipIdx.map (fun (slot, i) => slotLine slot i), indented l := by
  refine List.forall_mem_map.mpr fun p _ => ?_
  simp [indented, slotLine, toString]

theorem flatMap_blockLines (g : Graph) :
    g.blocks.flatMap g.blockLines = (g.blocks.map g.chunk).flatMap fun c => c.1 :: c.2 := by
  rw [List.flatMap_map]
  rfl

theorem chunk_indented (g : Graph) {b : Block} (hb : Solid b.label) :
    indented (g.chunk b).1 = false ∧ ∀ l ∈ (g.chunk b).2, indented l := by
  have hspace := hb.1
  constructor
  · cases hl : b.label.toList with
    | nil => simp [chunk, indented, toString, hl]
    | cons c cs =>
      rw [hl, List.mem_cons, not_or] at hspace
      simp [chunk, indented, toString, hl, Ne.symm hspace.1]
  · refine List.forall_mem_append.mpr
      ⟨List.forall_mem_map.mpr fun i _ => ?_, List.forall_mem_singleton.mpr ?_⟩
    · simp [indented]
    · simp [indented]

end Graph

namespace Module

/-- The line is that of a string constant. -/
def isStringLine (line : String) : Bool := line.toList[2]? == some '@'

theorem stringLine_injective (i : Nat) : Function.Injective (stringLine · i) := by
  intro s t h
  exact Text.quoted_injective (by simpa [stringLine, toString] using h)

theorem oneLine_stringLines (m : Module) :
    ∀ l ∈ m.strings.zipIdx.map (fun (s, i) => stringLine s i), OneLine l := by
  refine List.forall_mem_map.mpr fun p _ => ?_
  simp [OneLine, stringLine, stringListing, toString]

theorem isStringLine_stringLines (m : Module) :
    ∀ l ∈ m.strings.zipIdx.map (fun (s, i) => stringLine s i), isStringLine l := by
  refine List.forall_mem_map.mpr fun p _ => ?_
  simp [isStringLine, stringLine, stringListing, toString]

theorem not_isStringLine_head (m : Module) :
    ∀ l ∈ ((if m.strings.isEmpty then [] else [""]) ++ m.graph.lines).head?,
      isStringLine l = false := by
  intro l hl
  split_ifs at hl
  · cases hl
    simp [isStringLine]
  · cases hl
    rfl

end Module

/-! ## Modules -/

/-- The lines of a legible module are told apart: names do not break their line, labels are
different words, and instructions and terminators are well formed. -/
structure Module.Legible (m : Module) : Prop where
  name : OneLine m.name
  routine : OneLine m.graph.name
  slots : ∀ slot ∈ m.graph.slots, OneLine slot.name
  labels : ∀ block ∈ m.graph.blocks, Solid block.label
  nodup : m.graph.labels.Nodup
  instrs : ∀ ins ∈ m.graph.instrs, ins.WellFormed m ∧ ∀ x ∈ ins.constant?, x.Canonical
  exits : ∀ block ∈ m.graph.blocks, ∃ t, block.exit? = some t ∧ t.WellFormed m

namespace Module.Legible

variable {m m' : Module} {block block' : Block}

theorem instr_words (h : m.Legible) (hb : block ∈ m.graph.blocks) {ins : Instr}
    (hi : ins ∈ block.instrs) : ins.WellFormed m ∧ ∀ x ∈ ins.constant?, x.Canonical :=
  h.instrs ins (List.mem_flatMap.mpr ⟨block, hb, hi⟩)

theorem solid_labelOf (h : m.Legible) {i : Nat} (hi : i < m.graph.blocks.length) :
    Solid (m.graph.labelOf i) := by
  have hl := List.mem_of_getElem? (Graph.labelOf_eq hi)
  obtain ⟨block, hb, he⟩ := List.mem_map.mp hl
  rw [← he]
  exact h.labels block hb

theorem oneLine_instr (h : m.Legible) (hb : block ∈ m.graph.blocks) {ins : Instr}
    (hi : ins ∈ block.instrs) : OneLine ins.listing := by
  rw [Instr.listing_eq]
  exact oneLine_intercalate (Instr.solid_words (h.instr_words hb hi).1)

theorem oneLine_exit (h : m.Legible) (hb : block ∈ m.graph.blocks) :
    OneLine (m.graph.exitListing block.exit?) := by
  obtain ⟨t, ht, -, htargets⟩ := h.exits block hb
  rw [ht, Graph.exitListing_eq]
  exact oneLine_intercalate (Terminator.solid_words fun k hk => h.solid_labelOf (htargets k hk))

theorem oneLine_slotLines (h : m.Legible) :
    ∀ l ∈ m.graph.slots.zipIdx.map (fun (slot, i) => Graph.slotLine slot i), OneLine l := by
  refine List.forall_mem_map.mpr fun p hp => ?_
  have hslot : '\n' ∉ p.1.name.toList := h.slots p.1 (List.fst_mem_of_mem_zipIdx hp)
  simp [OneLine, Graph.slotLine, slotListing, toString, hslot]

theorem oneLine_blockLines (h : m.Legible) (hb : block ∈ m.graph.blocks) :
    ∀ l ∈ m.graph.blockLines block, OneLine l := by
  have hlabel : '\n' ∉ block.label.toList := (h.labels block hb).2
  have hexit : '\n' ∉ (m.graph.exitListing block.exit?).toList := h.oneLine_exit hb
  unfold Graph.blockLines
  simp only [List.forall_mem_append, List.forall_mem_cons, List.forall_mem_map]
  refine ⟨⟨?_, fun ins hins => ?_⟩, ?_, List.forall_mem_nil _⟩
  · simp [OneLine, toString, hlabel]
  · have hinstr : '\n' ∉ ins.listing.toList := h.oneLine_instr hb hins
    simp [OneLine, hinstr]
  · simp [OneLine, hexit]

/-- No line of the listing is broken. -/
theorem oneLine_lines (h : m.Legible) : ∀ l ∈ m.lines, OneLine l := by
  have hname : '\n' ∉ m.name.toList := h.name
  have hroutine : '\n' ∉ m.graph.name.toList := h.routine
  have hblocks : ∀ l ∈ m.graph.blocks.flatMap m.graph.blockLines, OneLine l := by
    intro l hl
    obtain ⟨block, hb, hl⟩ := List.mem_flatMap.mp hl
    exact h.oneLine_blockLines hb l hl
  unfold lines Graph.lines
  simp only [List.forall_mem_append, List.forall_mem_cons]
  refine ⟨⟨⟨⟨?_, m.oneLine_stringLines⟩, ?_⟩, ⟨⟨?_, h.oneLine_slotLines⟩, hblocks⟩, ?_⟩, ?_⟩
  · simp [OneLine, hname]
  · split_ifs <;> simp [OneLine]
  · simp [OneLine, hroutine]
  · simp [OneLine]
  · simp [OneLine]

/-- Blocks with equal lines are equal. -/
theorem block_eq (h : m.Legible) (h' : m'.Legible) (hslots : m.graph.slots = m'.graph.slots)
    (hlabels : m.graph.labels = m'.graph.labels) (hb : block ∈ m.graph.blocks)
    (hb' : block' ∈ m'.graph.blocks) (hlines : m.graph.chunk block = m'.graph.chunk block') :
    block = block' := by
  obtain ⟨hlabel, hbody⟩ := Prod.mk.inj hlines
  obtain ⟨hinstrs, hexit⟩ := List.append_inj' hbody rfl
  have hlabel : block.label = block'.label := by simpa [toString] using hlabel
  have hinstrs : block.instrs = block'.instrs := by
    refine eq_of_map_eq hinstrs fun i hi j hj hij => ?_
    obtain ⟨hwi, hci⟩ := h.instr_words hb hi
    obtain ⟨hwj, hcj⟩ := h'.instr_words hb' hj
    have hlisting : i.listing = j.listing := by simpa using hij
    rw [Instr.listing_eq, Instr.listing_eq] at hlisting
    exact Instr.eq_of_words hslots hwi hwj hci hcj
      (words_inj (Instr.solid_words hwi) (Instr.solid_words hwj)
      i.words_ne_nil j.words_ne_nil hlisting)
  have hexit : block.exit? = block'.exit? := by
    obtain ⟨t, ht, htruth, htargets⟩ := h.exits block hb
    obtain ⟨t', ht', htruth', htargets'⟩ := h'.exits block' hb'
    have hlisting : m.graph.exitListing (some t) = m'.graph.exitListing (some t') := by
      simpa [ht, ht'] using hexit
    rw [Graph.exitListing_eq, Graph.exitListing_eq] at hlisting
    have hwords := words_inj (Terminator.solid_words fun k hk => h.solid_labelOf (htargets k hk))
      (Terminator.solid_words fun k hk => h'.solid_labelOf (htargets' k hk)) (t.words_ne_nil _)
      (t'.words_ne_nil _) hlisting
    rw [ht, ht', Terminator.eq_of_words htruth htruth' (fun k hk k' hk' =>
      Graph.labelOf_inj hlabels h.nodup (htargets k hk) (htargets' k' hk')) hwords]
  exact (Block.mk.injEq _ _ _ _ _ _).mpr ⟨hlabel, hinstrs, hexit⟩

/-- The routine can be read from its lines. -/
theorem graph_eq (h : m.Legible) (h' : m'.Legible) (hlines : m.graph.lines = m'.graph.lines) :
    m.graph = m'.graph := by
  unfold Graph.lines at hlines
  have hlines := List.append_cancel_right hlines
  rw [List.cons_append, List.cons_append, List.cons.injEq, Graph.flatMap_blockLines,
    Graph.flatMap_blockLines] at hlines
  obtain ⟨hname, hlines⟩ := hlines
  have hname : m.graph.name = m'.graph.name := by simpa using hname
  have hchunks : ∀ {m : Module}, m.Legible → ∀ c ∈ m.graph.blocks.map m.graph.chunk,
      Graph.indented c.1 = false ∧ ∀ l ∈ c.2, Graph.indented l := by
    intro m h
    exact List.forall_mem_map.mpr fun b hb => m.graph.chunk_indented (h.labels b hb)
  -- the first line that is not indented is that of a label, so the slots end before it
  obtain ⟨hslots, hlines⟩ :=
    append_inj_of_run (Graph.slotLines_indented _) (Graph.slotLines_indented _)
    (head_flatMap_chunks (hchunks h)) (head_flatMap_chunks (hchunks h')) hlines
  have hslots : m.graph.slots = m'.graph.slots :=
    eq_of_zipIdx_map_eq Graph.slotLine_injective hslots
  have hblocks := flatMap_chunks_inj (hchunks h) (hchunks h') hlines
  have hlabels : m.graph.labels = m'.graph.labels := by
    have hline : Function.Injective fun label : String => s!"  {label}:" := by
      intro a b hab
      simpa [toString] using hab
    have hheads := congrArg (List.map Prod.fst) hblocks
    rw [List.map_map, List.map_map] at hheads
    refine List.map_injective_iff.mpr hline ?_
    unfold Graph.labels
    rw [List.map_map, List.map_map]
    exact hheads
  have hblocks : m.graph.blocks = m'.graph.blocks :=
    eq_of_map_eq hblocks fun _ hb _ hb' => block_eq h h' hslots hlabels hb hb'
  exact (Graph.mk.injEq _ _ _ _ _ _).mpr ⟨hname, hslots, hblocks⟩

/-- **A listing says all about a legible module.** -/
theorem eq_of_listing (h : m.Legible) (h' : m'.Legible) (hl : m.listing = m'.listing) : m = m' := by
  have hlines := lines_inj h.oneLine_lines h'.oneLine_lines hl
  unfold lines at hlines
  have hlines := List.append_cancel_right hlines
  rw [List.append_assoc, List.append_assoc, List.cons_append, List.cons_append,
    List.cons.injEq] at hlines
  obtain ⟨hname, hlines⟩ := hlines
  have hname : m.name = m'.name := by simpa using hname
  obtain ⟨hstrings, hlines⟩ :=
    append_inj_of_run m.isStringLine_stringLines m'.isStringLine_stringLines
    m.not_isStringLine_head m'.not_isStringLine_head hlines
  have hstrings : m.strings = m'.strings := eq_of_zipIdx_map_eq stringLine_injective hstrings
  rw [hstrings] at hlines
  have hgraph := graph_eq h h' (List.append_cancel_left hlines)
  exact (Module.mk.injEq _ _ _ _ _ _).mpr ⟨hname, hstrings, hgraph⟩

end Module.Legible

end FlowLang
