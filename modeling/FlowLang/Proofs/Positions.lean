import Mathlib.Data.List.Range

/-!
# What is found along a list

Something that goes through a list and remembers what it has seen can find at each position what the
element there and the elements before it call for. `foundIn` says so without a memory, and
`foundIn_append` is the law by which a list is taken apart.
-/

namespace FlowLang

variable {α β : Type}

/-- What is found at a position. -/
def foundAt? (find? : List α → α → Option β) (xs : List α) (i : Nat) : Option β :=
  xs[i]?.bind (find? (xs.take i))

/-- All that is found, in the order of the positions. -/
def foundIn (find? : List α → α → Option β) (xs : List α) : List β :=
  (List.range xs.length).filterMap (foundAt? find? xs)

theorem foundIn_singleton (find? : List α → α → Option β) (x : α) :
    foundIn find? [x] = (find? [] x).toList := by
  show [0].filterMap (foundAt? find? [x]) = _
  cases h : find? [] x with
  | none => exact List.filterMap_cons_none h
  | some y => exact List.filterMap_cons_some h

/-- What comes after a list finds the same in front of it, and nothing changes in the list. -/
theorem foundIn_append (find? : List α → α → Option β) (xs ys : List α) :
    foundIn find? (xs ++ ys) = foundIn find? xs ++
      foundIn (fun earlier => find? (xs ++ earlier)) ys := by
  have hxs : ∀ i ∈ List.range xs.length, foundAt? find? (xs ++ ys) i = foundAt? find? xs i := by
    intro i hi
    have hlt : i < xs.length := List.mem_range.mp hi
    unfold foundAt?
    rw [List.getElem?_append_left hlt, List.take_append_of_le_length (Nat.le_of_lt hlt)]
  have hys : foundAt? find? (xs ++ ys) ∘ (xs.length + ·) =
      foundAt? (fun earlier => find? (xs ++ earlier)) ys := by
    funext i
    show (xs ++ ys)[xs.length + i]?.bind (find? ((xs ++ ys).take (xs.length + i))) = _
    rw [List.getElem?_append_right (Nat.le_add_right _ _), Nat.add_sub_cancel_left,
      List.take_length_add_append]
    rfl
  unfold foundIn
  rw [List.length_append, List.range_add, List.filterMap_append, List.filterMap_congr hxs,
    List.filterMap_map, hys]

/-- Nothing is found iff there is nothing to find at any position. -/
theorem foundIn_eq_nil {find? : List α → α → Option β} {xs : List α} :
    foundIn find? xs = [] ↔ ∀ i, foundAt? find? xs i = none := by
  unfold foundIn
  rw [List.filterMap_eq_nil_iff]
  refine ⟨fun h i => ?_, fun h i _ => h i⟩
  by_cases hi : i < xs.length
  · exact h i (List.mem_range.mpr hi)
  · unfold foundAt?
    rw [List.getElem?_eq_none (Nat.not_lt.mp hi)]
    rfl

end FlowLang
