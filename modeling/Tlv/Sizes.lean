import Tlv.DynArr

/-!
# The block behind an array

The macros that grow an array do so in one way: nothing, or a `realloc` for some
number of elements, which they count by the size of an operand (`daResize`). The
block has the size that was asked for last (`DynArr.blockSize`).

Results: what growing leaves of count, capacity, elements and block
(`daResize_ok`), and that `da_append` grows and then writes (`daAppend_ok`).
-/

namespace Tlv
open Lib

variable {α : Type}

/-- The bytes that were asked for the block of an array, while the block is live. -/
def DynArr.blockSize (arr : DynArr α) (heap : Heap) : Option Nat :=
  match arr.header with
  | .block i => (heap.cells i).map Block.size
  | _ => none

/-- The growth part of the macros: a reallocation for the given number of elements,
if there is to be one. -/
def daResize (h : Host) (A : Allocator) (size : Nat) (arr : DynArr α) :
    Option Nat → CProg (DynArr α)
  | none => pure arr
  | some capacity => daRealloc h A size arr capacity

/-- The elements that `da_append` reallocates for, if it does. -/
def appendRequest (h : Host) (count capacity : Nat) : Option Nat :=
  if count = capacity then some (grownCapacity h capacity) else none

/-- The elements that `da_reserve` reallocates for, if it does. -/
def reserveRequest (capacity n : Nat) : Option Nat := if n > capacity then some n else none

variable {h : Host} {A : Allocator} {size n : Nat} {arr arr' : DynArr α} {elem : α}
  {heap heap' : Heap} {request : Option Nat}

theorem daGrow_eq_resize (size : Nat) (arr : DynArr α) :
    daGrow h A size arr = daResize h A size arr (appendRequest h arr.count arr.capacity) := by
  unfold daGrow appendRequest
  split <;> rfl

theorem daReserve_eq_resize (size : Nat) (arr : DynArr α) (n : Nat) :
    daReserve h A size arr n = daResize h A size arr (reserveRequest arr.capacity n) := by
  unfold daReserve reserveRequest
  split <;> rfl

theorem DynArr.blockSize_eq_some (hb : arr.blockSize heap = some n) :
    ∃ i b, arr.header = .block i ∧ heap.cells i = some b ∧ b.size = n := by
  unfold blockSize at hb
  split at hb
  · next i hi =>
    obtain ⟨b, hcell, hsize⟩ := Option.map_eq_some_iff.mp hb
    exact ⟨i, b, hi, hcell, hsize⟩
  · cases hb

/-- The block of an array that was just reallocated. -/
theorem DynArr.blockSize_new (hh : arr.header = .block heap.next) (n : Nat) (m : Mem) :
    arr.blockSize (heap.new n m) = some n := by
  rw [blockSize, hh]
  simp

/-- A new array: no elements, and a block of the size of the header. -/
theorem daNew_ok (hr : daNew h A heap = .ok (arr, heap')) :
    arr.count = 0 ∧ arr.capacity = 0 ∧ arr.Holds [] ∧ arr.blockSize heap' = some h.headerSize := by
  have hgo := malloc_exists_ok hr
  cases hgo
  exact ⟨rfl, rfl, ⟨rfl, fun _ hj => absurd hj (Nat.not_lt_zero _)⟩, DynArr.blockSize_new rfl _ _⟩

/-! ## Growing -/

theorem daResize_ok (hb : arr.blockSize heap = some n)
    (hr : daResize h A size arr request heap = .ok (arr', heap')) :
    arr'.count = arr.count ∧ arr'.slots = arr.slots ∧
      arr'.capacity = request.getD arr.capacity ∧
      arr'.blockSize heap' = some (request.elim n (daBytes h size)) := by
  cases request with
  | none =>
    cases hr
    exact ⟨rfl, rfl, rfl, hb⟩
  | some capacity =>
    obtain ⟨i, -, hh, -, -⟩ := DynArr.blockSize_eq_some hb
    obtain ⟨b, -, rfl, rfl⟩ := daRealloc_cases hh hr
    exact ⟨rfl, rfl, rfl, DynArr.blockSize_new rfl _ _⟩

theorem daResize_always (hb : arr.blockSize heap = some n) (request : Option Nat) (size : Nat) :
    ∃ arr' heap', daResize h .always size arr request heap = .ok (arr', heap') := by
  cases request with
  | none => exact ⟨arr, heap, rfl⟩
  | some capacity =>
    obtain ⟨i, b, hh, hcell, -⟩ := DynArr.blockSize_eq_some hb
    exact ⟨_, _, daRealloc_always hh hcell capacity⟩

/-- `da_append` grows the array, if it is full, and then writes the element behind
the others. -/
theorem daAppend_ok (hb : arr.blockSize heap = some n)
    (hr : daAppend h A size arr elem heap = .ok (arr', heap')) :
    ∃ arr₁, daGrow h A size arr heap = .ok (arr₁, heap') ∧ arr₁.count < arr₁.capacity ∧
      arr' = { arr₁ with
        count := h.sz (arr₁.count + 1)
        slots := fun j => if j = arr₁.count then some elem else arr₁.slots j } := by
  obtain ⟨i, -, hh, -, -⟩ := DynArr.blockSize_eq_some hb
  rw [daAppend, hh, Prog.bind_ok (existsPtr_block i heap)] at hr
  obtain ⟨arr₁, heap₁, hgrow, hr⟩ := Prog.bind_eq_ok.mp hr
  obtain ⟨arr₂, heap₂, hwrite, hr⟩ := Prog.bind_eq_ok.mp hr
  cases hr
  obtain ⟨hlt, rfl, rfl⟩ := daWrite_cases hwrite
  exact ⟨arr₁, hgrow, hlt, rfl⟩

/-- The block behind a `da_append` that returned. -/
theorem daAppend_size (hb : arr.blockSize heap = some n)
    (hr : daAppend h A size arr elem heap = .ok (arr', heap')) :
    arr'.blockSize heap' =
      some ((appendRequest h arr.count arr.capacity).elim n (daBytes h size)) := by
  obtain ⟨arr₁, hgrow, -, rfl⟩ := daAppend_ok hb hr
  rw [daGrow_eq_resize] at hgrow
  exact (daResize_ok hb hgrow).2.2.2

/-- When there is room behind the elements, `da_append` fails only if the allocation is
refused that it makes to grow. -/
theorem daAppend_refused {f : Fault} (hb : arr.blockSize heap = some n)
    (hlt : arr.count < arr.nextCapacity h)
    (hr : daAppend h A size arr elem heap = .error (f, heap')) :
    f = .nullPointer ∧ arr.count = arr.capacity ∧
      A heap.next (daBytes h size (arr.nextCapacity h)) = false := by
  obtain ⟨i, b, hh, hcell, -⟩ := DynArr.blockSize_eq_some hb
  rw [daAppend, hh, Prog.bind_ok (existsPtr_block i heap)] at hr
  rcases Prog.bind_eq_error.mp hr with hr | ⟨arr₁, heap₁, hgrow, hr⟩
  · unfold daGrow at hr
    split at hr
    · next hfull =>
      obtain ⟨hf, hA⟩ := daRealloc_error hh hcell hr
      rw [DynArr.nextCapacity, if_pos hfull]
      exact ⟨hf, hfull, hA⟩
    · cases hr
  · obtain ⟨i', rfl, -⟩ := daGrow_cases hh hgrow
    rw [Prog.bind_ok (daWrite_ok hlt heap₁)] at hr
    cases hr

/-- The bytes of a request that does not wrap. -/
theorem daBytes_of_lt {capacity : Nat} (hlt : h.headerSize + capacity * size < h.szMod) :
    daBytes h size capacity = h.headerSize + capacity * size := by
  rw [daBytes, Host.sz_of_lt (n := capacity * size) (by omega), Host.sz_of_lt hlt]

end Tlv
