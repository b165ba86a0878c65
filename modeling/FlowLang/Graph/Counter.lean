/-!
# Numbering values

The values of a routine are numbered in the order in which they are made. A `Counter` is the
register that holds the next number: it starts at its first state, and `next` moves it on.

* Natural numbers count without end (`Counter.reaches_nat`).
* A 32-bit word is the register that `FunctionBuilder` has. It counts up to `2 ^ 32` values and then
  starts again at zero (`Counter.number_word`). A program that is built to stop when a register
  overflows stops there instead, so all its runs are runs within that bound.

`Counter.Reaches` says that the numbers of so many values are `0, 1, 2, ...`.
-/

namespace FlowLang

/-- A register from which values get their numbers. -/
class Counter (N : Type) where
  first : N
  next : N → N
  /-- The number that the register shows. -/
  index : N → Nat

instance : Counter Nat := ⟨0, (· + 1), id⟩

instance : Counter UInt32 := ⟨0, (· + 1), UInt32.toNat⟩

namespace Counter

@[simp] theorem first_nat : (first : Nat) = 0 := rfl

@[simp] theorem next_nat (n : Nat) : next n = n + 1 := rfl

@[simp] theorem index_nat (n : Nat) : index n = n := rfl

variable (N : Type) [Counter N]

/-- The register after so many values. -/
def after : Nat → N
  | 0 => first
  | k + 1 => next (after k)

/-- The number of the value that comes after so many others. -/
def number (k : Nat) : Nat := index (after N k)

/-- The first `n` values are numbered `0, 1, 2, ...`. -/
def Reaches (n : Nat) : Prop := ∀ k < n, number N k = k

variable {N}

theorem Reaches.mono {m n : Nat} (h : Reaches N n) (hle : m ≤ n) : Reaches N m :=
  fun k hk => h k (Nat.lt_of_lt_of_le hk hle)

@[simp] theorem after_nat (k : Nat) : after Nat k = k := by
  induction k with
  | zero => rfl
  | succ k ih => rw [after, ih, next_nat]

@[simp] theorem number_nat (k : Nat) : number Nat k = k := by
  rw [number, after_nat, index_nat]

theorem reaches_nat (n : Nat) : Reaches Nat n := fun k _ => number_nat k

theorem after_word (k : Nat) : after UInt32 k = UInt32.ofNat k := by
  induction k with
  | zero => rfl
  | succ k ih =>
    rw [after, ih]
    exact (UInt32.ofNat_add k 1).symm

/-- A word starts again at zero. -/
theorem number_word (k : Nat) : number UInt32 k = k % UInt32.size := by
  rw [number, after_word]
  exact UInt32.toNat_ofNat'

/-- A word reaches `2 ^ 32` values. -/
theorem reaches_word {n : Nat} : Reaches UInt32 n ↔ n ≤ UInt32.size := by
  constructor
  · intro h
    refine Nat.le_of_not_lt fun hn => ?_
    have hzero := h UInt32.size hn
    rw [number_word, Nat.mod_self] at hzero
    cases hzero
  · intro hn k hk
    rw [number_word, Nat.mod_eq_of_lt (Nat.lt_of_lt_of_le hk hn)]

end Counter

end FlowLang
