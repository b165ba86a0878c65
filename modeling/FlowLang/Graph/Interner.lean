import Std.Data.TreeMap

/-!
# String constants

An `Interner` gives the texts of a module their numbers. It renders the part of `ModuleBuilder` that
`intern_string` works on, and holds both of its tables: the list of the texts, in which a number
leads to its text, and the map of the numbers, in which a text leads to its number.

`Interner.intern` looks only into the map. That the number it finds there leads back to the text is
`Interner.inverse`, which every interner carries, and `inverse_insert` is what one new text keeps.

The map is ordered by the texts where the builder's is hashed. No order of it is ever read.
-/

namespace FlowLang

/-- The texts in the order of their numbers, and the numbers by their texts. -/
structure Interner where
  texts : List String
  ids : Std.TreeMap String Nat
  /-- Each table undoes the other. -/
  inverse : ∀ (text : String) (i : Nat), ids[text]? = some i ↔ texts[i]? = some text

namespace Interner

/-- Two tables without entries. -/
def empty : Interner := ⟨[], ∅, by simp⟩

/-- A text that the map does not have gets the next number in both tables. -/
theorem inverse_insert {texts : List String} {ids : Std.TreeMap String Nat} {text : String}
    (h : ∀ (s : String) (i : Nat), ids[s]? = some i ↔ texts[i]? = some s) (hnew : ids[text]? = none)
    (s : String) (i : Nat) :
    (ids.insert text texts.length)[s]? = some i ↔ (texts ++ [text])[i]? = some s := by
  rw [Std.TreeMap.getElem?_insert, List.getElem?_append]
  by_cases hs : text = s
  · subst hs
    have hold : texts[i]? ≠ some text := fun hi => by simp [(h text i).mpr hi] at hnew
    simp only [Std.ReflCmp.compare_self, if_true, Option.some.injEq]
    split
    · next hi => simp [hold, Nat.ne_of_gt hi]
    · next hi =>
      rw [List.getElem?_singleton]
      split <;> simp <;> omega
  · have hne : compare text s ≠ .eq := fun he => hs (Std.LawfulEqCmp.eq_of_compare he)
    simp only [hne, if_false, h]
    split
    · rfl
    · next hi =>
      rw [List.getElem?_eq_none (Nat.le_of_not_lt hi), List.getElem?_singleton]
      split <;> simp [hs]

/-- Gives a new text the next number. -/
def push (t : Interner) (text : String) (h : t.ids[text]? = none) : Interner :=
  ⟨t.texts ++ [text], t.ids.insert text t.texts.length, inverse_insert t.inverse h⟩

/-- The number of a text, which is a new one if the map does not have the text. -/
def intern (t : Interner) (text : String) : Nat × Interner :=
  match h : t.ids[text]? with
  | some id => (id, t)
  | none => (t.texts.length, t.push text h)

theorem getElem?_intern (t : Interner) (text : String) :
    (t.intern text).2.texts[(t.intern text).1]? = some text := by
  unfold intern
  split
  · next id h => exact (t.inverse text id).mp h
  · exact List.getElem?_concat_length

theorem texts_prefix_intern (t : Interner) (text : String) :
    t.texts <+: (t.intern text).2.texts := by
  unfold intern
  split
  · exact List.prefix_refl _
  · exact List.prefix_append _ _

/-- Only a text that is not there is added. -/
theorem texts_intern (t : Interner) (text : String) :
    (t.intern text).2.texts = if text ∈ t.texts then t.texts else t.texts ++ [text] := by
  unfold intern
  split
  · next id h =>
    rw [if_pos (List.mem_of_getElem? ((t.inverse text id).mp h))]
  · next h =>
    have hnew : text ∉ t.texts := fun hmem => by
      obtain ⟨i, hi⟩ := List.getElem?_of_mem hmem
      rw [(t.inverse text i).mpr hi] at h
      cases h
    rw [if_neg hnew]
    rfl

end Interner

end FlowLang
