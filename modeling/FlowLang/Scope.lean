import FlowLang.Tree

/-!
# Scopes

Which slot and kind a variable has. There is one flat scope, and declaring a name again replaces
what was known of it.

A `Scope` is a `SymbolTable`, and a `Binding` is a `Symbol`. It is a list without repetitions where
the table is a hash map. No order of it is read.
-/

namespace FlowLang

/-- What is known of a variable. -/
structure Binding where
  slot : Nat
  kind : Kind
  deriving DecidableEq

/-- The variables with their bindings; no name stands in it twice. -/
structure Scope where
  bindings : List (String × Binding)

namespace Scope

def empty : Scope := ⟨[]⟩

/-- Binds a name, instead of an earlier binding if there is one. -/
def declare (s : Scope) (x : String) (b : Binding) : Scope :=
  ⟨(x, b) :: s.bindings.filter (·.1 ≠ x)⟩

def lookup? (s : Scope) (x : String) : Option Binding := s.bindings.lookup x

/-- The number of names. -/
def size (s : Scope) : Nat := s.bindings.length

def isEmpty (s : Scope) : Bool := s.bindings.isEmpty

end Scope

end FlowLang
