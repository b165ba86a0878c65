/-!
# Output sinks

Where a program's output goes. A `Writer` is anything that takes texts and may fail. A `Sink` is one
that may have a capacity in bytes: it keeps what fits, also a part of a character, and fails when
something does not fit.

A `Writer` is all that `run` needs of the output that it is given: whether a write went well, and
that what was written stays. A text is one write, where the program may write it in parts; a failed
write may have taken any part of it.
-/

namespace FlowLang

/-- The states of something that takes output. It takes a text, or fails and has taken any part of
it. -/
class Writer (W : Type) where
  /-- Writes a text, and says whether that went well. -/
  write : W → String → Bool × W
  /-- The bytes taken so far. -/
  written : W → ByteArray
  /-- What was taken stays. -/
  written_write : ∀ w text, ∃ more, written (write w text).2 = written w ++ more

/-- The bytes written so far, and how many there may be; `none` for any number. -/
structure Sink where
  capacity? : Option Nat
  written : ByteArray

namespace Sink

def ofCapacity (capacity? : Option Nat) : Sink := ⟨capacity?, ByteArray.empty⟩

/-- A sink that never fails. -/
def unlimited : Sink := ofCapacity none

/-- Writes the part of a text that fits, and says whether that was all of it. -/
def write (s : Sink) (text : String) : Bool × Sink :=
  match s with
  | ⟨none, written⟩ => (true, ⟨none, written ++ text.toUTF8⟩)
  | ⟨some n, written⟩ =>
    let room := n - written.size
    (decide (text.toUTF8.size ≤ room), ⟨some n, written ++ text.toUTF8.extract 0 room⟩)

instance : Writer Sink where
  write := write
  written := written
  written_write s text := by rcases s with ⟨_ | n, written⟩ <;> exact ⟨_, rfl⟩

/-- What a full sink says. -/
def fullMessage : String := "sink full"

end Sink

end FlowLang
