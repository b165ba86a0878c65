import FlowLang.Tree.Diagram
import FlowLang.Proofs.Listing

/-!
# Labels between quotation marks

A drawing puts the label of a node between quotation marks. Whoever reads it takes a backslash
together with the character after it, and stops at the first quotation mark that stands alone.

* `Text.Quotable`: the text has no quotation mark that stands alone, and does not end in the middle
  of an escape.
* `Text.closing?_append`: so the mark that is put behind it is the first one that stands alone.
* `Node.quotable_textLabel`, `Node.textLabel_injective`: the label of a text literal is quotable,
  and says which text it is.
* **`Tree.Writable.label`**: all labels of a tree that was read from a source are quotable and one
  line.
-/

namespace FlowLang

namespace Text

/-- Read with a backslash that takes the next character with it, the text has no other quotation
mark, and no backslash is left alone at its end. -/
inductive Quotable : List Char → Prop
  | nil : Quotable []
  | plain {c : Char} {cs : List Char} (hm : c ≠ '\x22') (hb : c ≠ '\\') (h : Quotable cs) :
      Quotable (c :: cs)
  | escape {cs : List Char} (c : Char) (h : Quotable cs) : Quotable ('\\' :: c :: cs)

/-- The place of the first quotation mark that no backslash takes with it. -/
def closing? : List Char → Option Nat
  | '\\' :: _ :: cs => (closing? cs).map (· + 2)
  | '\x22' :: _ => some 0
  | _ :: cs => (closing? cs).map (· + 1)
  | [] => none

/-- **A quotable text ends at the mark that is put behind it.** -/
theorem closing?_append {cs : List Char} (h : Quotable cs) (rest : List Char) :
    closing? (cs ++ '\x22' :: rest) = some cs.length := by
  induction h with
  | nil => rfl
  | @plain c cs hm hb _ ih =>
    have hstep :
        closing? (c :: (cs ++ '\x22' :: rest)) = (closing? (cs ++ '\x22' :: rest)).map (· + 1) := by
      rw [closing?]
      · exact fun _ _ hc _ => hb hc
      · exact hm
    rw [List.cons_append, hstep, ih]
    rfl
  | escape c _ ih =>
    rw [List.cons_append, List.cons_append, closing?, ih]
    rfl

namespace Quotable

variable {cs ds : List Char}

theorem append (h : Quotable cs) (h' : Quotable ds) : Quotable (cs ++ ds) := by
  induction h with
  | nil => exact h'
  | plain hm hb _ ih => exact .plain hm hb ih
  | escape c _ ih => exact .escape c ih

theorem flatMap {α : Type} {f : α → List Char} (h : ∀ a, Quotable (f a)) (l : List α) :
    Quotable (l.flatMap f) := by
  induction l with
  | nil => exact .nil
  | cons a l ih => exact (h a).append ih

end Quotable

/-- A character that needs no escape in a label. -/
def Bare (c : Char) : Prop := c ≠ '\\' ∧ c ≠ '\x22' ∧ c ≠ '\n' ∧ c ≠ '\t'

instance (c : Char) : Decidable (Bare c) := inferInstanceAs (Decidable (_ ∧ _))

theorem quotable_of_bare {cs : List Char} (h : ∀ c ∈ cs, Bare c) : Quotable cs := by
  induction cs with
  | nil => exact .nil
  | cons c cs ih =>
    obtain ⟨hc, hcs⟩ := List.forall_mem_cons.mp h
    exact .plain hc.2.1 hc.1 (ih hcs)

theorem bare_of_plain {c : Char} (h : Decimal.Plain c) : Bare c := by
  refine ⟨?_, ?_, ?_, ?_⟩ <;>
  · rintro rfl
    revert h
    decide

theorem bare_of_isWordChar {c : Char} (h : Token.isWordChar c) : Bare c := by
  refine ⟨?_, ?_, ?_, ?_⟩ <;>
  · rintro rfl
    revert h
    decide

end Text

open Text

namespace Node

/-! ## Text literals -/

/-- A character of a text literal stands for itself, or is a backslash with a letter. -/
theorem escapeLabel_cases (c : Char) : escapeLabel c = [c] ∧ Bare c ∨
    ∃ d, escapeLabel c = ['\\', d] ∧ ofLetter d = c ∧ d ≠ '\n' ∧ d ≠ '\t' := by
  unfold escapeLabel
  split_ifs with hb hm hn ht
  · exact .inr ⟨'\\', rfl, hb.symm, by decide, by decide⟩
  · exact .inr ⟨'\x22', rfl, hm.symm, by decide, by decide⟩
  · exact .inr ⟨'n', rfl, hn.symm, by decide, by decide⟩
  · exact .inr ⟨'t', rfl, ht.symm, by decide, by decide⟩
  · exact .inl ⟨rfl, hb, hm, hn, ht⟩

theorem quotable_escapeLabel (c : Char) : Quotable (escapeLabel c) := by
  rcases escapeLabel_cases c with ⟨hc, hbare⟩ | ⟨d, hc, -⟩
  · rw [hc]
    exact .plain hbare.2.1 hbare.1 .nil
  · rw [hc]
    exact .escape d .nil

/-- **The label of a text literal can stand between quotation marks.** -/
theorem quotable_textLabel (s : String) : Quotable (textLabel s).toList := by
  rw [textLabel, String.toList_ofList]
  exact .append (.escape _ (.flatMap quotable_escapeLabel _)) (.escape _ .nil)

/-- It has no line breaks and no tabs. -/
theorem not_mem_textLabel (s : String) :
    '\n' ∉ (textLabel s).toList ∧ '\t' ∉ (textLabel s).toList := by
  have hescape : ∀ c, '\n' ∉ escapeLabel c ∧ '\t' ∉ escapeLabel c := by
    intro c
    rcases escapeLabel_cases c with ⟨hc, -, -, hn, ht⟩ | ⟨d, hc, -, hn, ht⟩
    · simp [hc, hn.symm, ht.symm]
    · simp [hc, hn.symm, ht.symm]
  simp [textLabel, hescape]

/-- No escape is the beginning of another. -/
theorem escapeLabel_inj {c c' : Char} {u v : List Char}
    (h : escapeLabel c ++ u = escapeLabel c' ++ v) : c = c' := by
  rcases escapeLabel_cases c with ⟨hc, hb, -⟩ | ⟨d, hc, hd, -⟩ <;>
    rcases escapeLabel_cases c' with ⟨hc', hb', -⟩ | ⟨d', hc', hd', -⟩ <;>
    rw [hc, hc'] at h
  · exact (List.cons.inj h).1
  · exact absurd (List.cons.inj h).1 hb
  · exact absurd (List.cons.inj h).1.symm hb'
  · rw [← hd, ← hd', (List.cons.inj (List.cons.inj h).2).1]

/-- **A text can be read from its label.** -/
theorem textLabel_injective : Function.Injective textLabel := by
  intro s t h
  have hne : ∀ c, escapeLabel c ≠ [] := by
    intro c
    rcases escapeLabel_cases c with ⟨hc, -⟩ | ⟨d, hc, -⟩ <;> rw [hc] <;> exact List.cons_ne_nil _ _
  have hl := String.ofList_injective h
  rw [List.cons_append, List.cons_append, List.cons_append, List.cons_append] at hl
  have hchars := List.append_cancel_right (List.cons.inj (List.cons.inj hl).2).2
  exact String.toList_inj.mp (flatMap_inj (P := fun _ => True) (fun c _ => hne c)
    (fun _ _ _ _ _ _ => escapeLabel_inj) (fun _ _ => trivial) (fun _ _ => trivial) hchars)

/-! ## All labels -/

/-- If the name of a node is a word, its label needs no escape, unless it is the label of a text
literal. -/
theorem bare_label {n : Node} (h : ∀ x, n.name? = some x → ∀ c ∈ x.toList, Bare c)
    (hn : ∀ s, n ≠ .text s) : ∀ c ∈ n.label.toList, Bare c := by
  cases n with
  | name x => exact h x rfl
  | assign x =>
    rw [label, String.toList_append]
    exact List.forall_mem_append.mpr ⟨h x rfl, by simp [Bare]⟩
  | declare x kind =>
    rw [label, String.toList_append]
    refine List.forall_mem_append.mpr ⟨?_, h x rfl⟩
    cases kind <;> simp [Kind.title, Bare]
  | real value => exact fun c hc => bare_of_plain (value.plain_fixed 6 c hc)
  | integer value => exact fun c hc => bare_of_plain (Decimal.plain_intRepr value c hc)
  | text s => exact absurd rfl (hn s)
  | arithmetic op => cases op <;> simp [label, Bare]
  | compare op => cases op <;> simp [label, Bare]
  | connect op => cases op <;> simp [label, Bare]
  | _ => simp [label, Bare]

end Node

/-- **The labels of a tree that was read from a source are quotable and one line.** -/
theorem Tree.Writable.label {t u : Tree} (h : t.Writable) (hu : u ∈ t.postorder) :
    Quotable u.node.label.toList ∧ OneLine u.node.label := by
  by_cases htext : ∃ s, u.node = .text s
  · obtain ⟨s, hs⟩ := htext
    rw [hs]
    exact ⟨Node.quotable_textLabel s, (Node.not_mem_textLabel s).1⟩
  · have hbare : ∀ c ∈ u.node.label.toList, Bare c := by
      refine Node.bare_label (fun x hx c hc => ?_) fun s hs => htext ⟨s, hs⟩
      obtain ⟨⟨d, ds, hword, hd, hds⟩, -⟩ := h.name (List.mem_filterMap.mpr ⟨u, hu, hx⟩)
      rw [hword] at hc
      rcases List.mem_cons.mp hc with rfl | hc
      · exact bare_of_isWordChar (Token.isWordChar_of_isWordStart hd)
      · exact bare_of_isWordChar (hds c hc)
    exact ⟨quotable_of_bare hbare, fun hn => (hbare _ hn).2.2.1 rfl⟩

end FlowLang
