import Tlv.Lib.Ownership
import Tlv.Runtime

/-!
# The dynamic array

The macros of `dynarr.h`. An array is a heap block (a header with `count` and
`capacity`, and the elements behind it) and the pointer variable that the macros
reassign, so the model keeps all of it in one value, `DynArr`. The elements are
the slots of that value: a slot that was never written holds nothing, and a
write at an index not below the capacity is a fault.

`new_header` and `copy_header` come prebuilt with the repository. They are
modelled as `dynarr.h` documents them: an empty array without capacity, and a
copy whose capacity is its count.

Results: what `daAppend` and `daReserve` do to the array and to the heap
(`daAppend_always`, `daAppend_cases`, `daReserve_always`), and the capacities
that appends alone can reach (`ByAppends`).
-/

namespace Tlv
open Lib

/-- An array with elements of type `α`. `header` is the block it lives in. -/
structure DynArr (α : Type) where
  header : Ptr
  count : Nat
  capacity : Nat
  slots : Nat → Option α

variable {α : Type}

/-! ## The macros -/

/-- `da_new`, that is `new_header`. -/
def daNew (h : Host) (A : Allocator) : CProg (DynArr α) := do
  let p ← malloc A h.headerSize
  existsPtr p
  pure ⟨p, 0, 0, fun _ => none⟩

def daFree (arr : DynArr α) : CProg Unit := free arr.header

/-- `arr[i] = elem`. -/
def daWrite (arr : DynArr α) (i : Nat) (elem : α) : CProg (DynArr α) :=
  if i < arr.capacity then
    pure { arr with slots := fun j => if j = i then some elem else arr.slots j }
  else Prog.stop .writePastEnd

/-- The capacity that `da_append` gives a full array. -/
def grownCapacity (h : Host) (capacity : Nat) : Nat :=
  if capacity = 0 then 8 else h.sz (capacity + capacity / 2)

/-- The bytes requested for `capacity` elements of `size` bytes. -/
def daBytes (h : Host) (size capacity : Nat) : Nat := h.sz (h.headerSize + h.sz (capacity * size))

/-- The growth step of `da_append` and the one of `da_reserve`: `realloc` to
`capacity` elements of `size` bytes. -/
def daRealloc (h : Host) (A : Allocator) (size : Nat) (arr : DynArr α) (capacity : Nat) :
    CProg (DynArr α) := do
  let tmp ← realloc A arr.header (daBytes h size capacity)
  existsPtr tmp
  pure { arr with header := tmp, capacity := capacity }

/-- The first part of `da_append`: a full array grows. -/
def daGrow (h : Host) (A : Allocator) (size : Nat) (arr : DynArr α) : CProg (DynArr α) :=
  if arr.count = arr.capacity then daRealloc h A size arr (grownCapacity h arr.capacity)
  else pure arr

/-- `da_append`. `size` is `sizeof(elem)`. -/
def daAppend (h : Host) (A : Allocator) (size : Nat) (arr : DynArr α) (elem : α) :
    CProg (DynArr α) := do
  existsPtr arr.header
  let arr ← daGrow h A size arr
  let arr ← daWrite arr arr.count elem
  pure { arr with count := h.sz (arr.count + 1) }

/-- `da_reserve`. `size` is `sizeof(*arr)`. -/
def daReserve (h : Host) (A : Allocator) (size : Nat) (arr : DynArr α) (n : Nat) :
    CProg (DynArr α) :=
  if n > arr.capacity then daRealloc h A size arr n else pure arr

/-- The `memcpy` of `da_extend`, element by element. -/
def daWriteAll (arr : DynArr α) (i : Nat) : List α → CProg (DynArr α)
  | [] => pure arr
  | x :: xs => do
    let arr ← daWrite arr i x
    daWriteAll arr (i + 1) xs

/-- `da_extend`, from a source array of `xs.length` elements. -/
def daExtend (h : Host) (A : Allocator) (size : Nat) (arr : DynArr α) (xs : List α) :
    CProg (DynArr α) := do
  let count := arr.count
  let arr ← daReserve h A size arr (h.sz (count + xs.length))
  let arr ← daWriteAll arr count xs
  pure { arr with count := h.sz (count + xs.length) }

/-- `arr[i]`. -/
def daRead (arr : DynArr α) (i : Nat) : CProg α :=
  match arr.slots i with
  | some x => pure x
  | none => Prog.stop .readPastEnd

/-- `da_pop`: the element, and the array without it. -/
def daPop (h : Host) (arr : DynArr α) : CProg (α × DynArr α) := do
  let count := h.sz (arr.count + (h.szMod - 1))
  let x ← daRead arr count
  pure (x, { arr with count := count })

def daSwapRemove (h : Host) (arr : DynArr α) (i : Nat) : CProg (DynArr α) := do
  if ¬ i < arr.count then Prog.stop .assertFailed
  let last ← daRead arr (h.sz (arr.count + (h.szMod - 1)))
  let arr ← daWrite arr i last
  pure { arr with count := h.sz (arr.count + (h.szMod - 1)) }

def daClear (arr : DynArr α) : DynArr α := { arr with count := 0 }

/-- `da_copy`, that is `copy_header`. -/
def daCopy (h : Host) (A : Allocator) (size : Nat) (arr : DynArr α) : CProg (DynArr α) := do
  let p ← malloc A (daBytes h size arr.count)
  existsPtr p
  pure ⟨p, arr.count, arr.count, fun j => if j < arr.count then arr.slots j else none⟩

/-! ## What they do -/

/-- The first `count` slots of the array are the list `l`. -/
def DynArr.Holds (arr : DynArr α) (l : List α) : Prop :=
  arr.count = l.length ∧ ∀ i < l.length, arr.slots i = l[i]?

/-- The array block `i` of `h` is the array block `i'` of `h'`: nothing happened,
or the block moved. -/
inductive Resized (h : Heap) (i : Nat) : Heap → Nat → Prop
  | same : Resized h i h i
  | moved {b : Block} (n : Nat) (m : Mem) :
      h.cells i = some b → Resized h i ((h.drop i).new n m) h.next

/-- The capacity after one `da_append`. -/
def DynArr.nextCapacity (h : Host) (arr : DynArr α) : Nat :=
  if arr.count = arr.capacity then grownCapacity h arr.capacity else arr.capacity

/-- The array after one `da_append` that left it in the block `header`. -/
def DynArr.pushed (h : Host) (arr : DynArr α) (elem : α) (header : Ptr) : DynArr α where
  header := header
  count := h.sz (arr.count + 1)
  capacity := arr.nextCapacity h
  slots := fun j => if j = arr.count then some elem else arr.slots j

variable {h : Host} {A : Allocator} {size : Nat} {arr arr' : DynArr α} {elem : α}
  {heap heap' : Heap} {i : Nat} {b : Block} {l : List α}

theorem daRealloc_always (hh : arr.header = .block i) (hb : heap.cells i = some b)
    (capacity : Nat) :
    daRealloc h .always size arr capacity heap =
      .ok ({ arr with header := .block heap.next, capacity := capacity },
        (heap.drop i).new (daBytes h size capacity) (b.mem.cut (daBytes h size capacity))) := by
  rw [daRealloc, hh, Prog.bind_ok (realloc_always hb _),
    Prog.bind_ok (existsPtr_block heap.next _)]
  rfl

/-- A growth step that goes on has moved the array into a new block. -/
theorem daRealloc_cases {capacity : Nat} (hh : arr.header = .block i)
    (hr : daRealloc h A size arr capacity heap = .ok (arr', heap')) :
    ∃ b, heap.cells i = some b ∧
      heap' = (heap.drop i).new (daBytes h size capacity) (b.mem.cut (daBytes h size capacity)) ∧
      arr' = { arr with header := .block heap.next, capacity := capacity } := by
  rw [daRealloc, hh] at hr
  obtain ⟨b, hb, hgo⟩ := realloc_exists_ok hr
  cases hgo
  exact ⟨b, hb, rfl, rfl⟩

theorem daWrite_ok (hi : i < arr.capacity) (heap : Heap) :
    daWrite arr i elem heap =
      .ok ({ arr with slots := fun j => if j = i then some elem else arr.slots j }, heap) := by
  rw [daWrite, if_pos hi]
  rfl

theorem daWrite_cases (hr : daWrite arr i elem heap = .ok (arr', heap')) :
    i < arr.capacity ∧ heap' = heap ∧
      arr' = { arr with slots := fun j => if j = i then some elem else arr.slots j } := by
  unfold daWrite at hr
  split at hr
  · next hi =>
    cases hr
    exact ⟨hi, rfl, rfl⟩
  · cases hr

/-- The growth part when allocations succeed. -/
theorem daGrow_always (size : Nat) (hh : arr.header = .block i) (hb : heap.cells i = some b) :
    ∃ i' heap', daGrow h .always size arr heap =
      .ok ({ arr with header := .block i', capacity := arr.nextCapacity h }, heap') ∧
      Resized heap i heap' i' := by
  unfold daGrow DynArr.nextCapacity
  by_cases hfull : arr.count = arr.capacity
  · rw [if_pos hfull, if_pos hfull]
    exact ⟨heap.next, _, daRealloc_always hh hb _, .moved _ _ hb⟩
  · rw [if_neg hfull, if_neg hfull]
    exact ⟨i, heap, by rw [← hh]; rfl, .same⟩

theorem daGrow_cases (hh : arr.header = .block i)
    (hr : daGrow h A size arr heap = .ok (arr', heap')) :
    ∃ i', arr' = { arr with header := .block i', capacity := arr.nextCapacity h } ∧
      Resized heap i heap' i' := by
  unfold daGrow at hr
  unfold DynArr.nextCapacity
  by_cases hfull : arr.count = arr.capacity
  · rw [if_pos hfull] at hr ⊢
    obtain ⟨b, hb, rfl, rfl⟩ := daRealloc_cases hh hr
    exact ⟨heap.next, rfl, .moved _ _ hb⟩
  · rw [if_neg hfull] at hr ⊢
    cases hr
    exact ⟨i, by rw [← hh], .same⟩

/-- `da_append` when allocations succeed and the capacity afterwards exceeds the
count: it stores the element, in the same block or in a new one. -/
theorem daAppend_always (size : Nat) (elem : α) (hh : arr.header = .block i)
    (hb : heap.cells i = some b) (hcap : arr.count < arr.nextCapacity h) :
    ∃ i' heap', daAppend h .always size arr elem heap =
      .ok (arr.pushed h elem (.block i'), heap') ∧ Resized heap i heap' i' := by
  obtain ⟨i', heap', hgrow, hres⟩ := daGrow_always (h := h) size hh hb
  refine ⟨i', heap', ?_, hres⟩
  rw [daAppend, hh, Prog.bind_ok (existsPtr_block i heap), Prog.bind_ok hgrow,
    Prog.bind_ok (daWrite_ok hcap heap')]
  rfl

/-- A `da_append` that goes on did exactly that, for every allocator. -/
theorem daAppend_cases (hh : arr.header = .block i)
    (hr : daAppend h A size arr elem heap = .ok (arr', heap')) :
    arr.count < arr.nextCapacity h ∧
      ∃ i', arr' = arr.pushed h elem (.block i') ∧ Resized heap i heap' i' := by
  rw [daAppend, hh, Prog.bind_ok (existsPtr_block i heap)] at hr
  obtain ⟨arr1, heap1, hgrow, hr⟩ := Prog.bind_eq_ok.mp hr
  obtain ⟨arr2, heap2, hwrite, hr⟩ := Prog.bind_eq_ok.mp hr
  cases hr
  obtain ⟨i', rfl, hres⟩ := daGrow_cases hh hgrow
  obtain ⟨hi, rfl, rfl⟩ := daWrite_cases hwrite
  exact ⟨hi, i', rfl, hres⟩

/-- Growing fails for want of memory only. -/
theorem daRealloc_error {capacity : Nat} {f : Fault} (hh : arr.header = .block i)
    (hb : heap.cells i = some b)
    (hr : daRealloc h A size arr capacity heap = .error (f, heap')) :
    f = .nullPointer ∧ A heap.next (daBytes h size capacity) = false := by
  rw [daRealloc, hh] at hr
  by_cases hA : A heap.next (daBytes h size capacity) = true
  · rw [Prog.bind_ok (realloc_granted hb hA), Prog.bind_ok (existsPtr_block heap.next _)] at hr
    cases hr
  · rw [Prog.bind_ok (realloc_refused hb hA),
      Prog.bind_error (e := (.nullPointer, heap)) rfl] at hr
    cases hr
    exact ⟨rfl, Bool.eq_false_of_not_eq_true hA⟩

/-- `da_append` fails for want of memory, or with a write past the capacity. -/
theorem daAppend_error {f : Fault} (hh : arr.header = .block i) (hb : heap.cells i = some b)
    (hr : daAppend h A size arr elem heap = .error (f, heap')) :
    f = .nullPointer ∨ f = .writePastEnd := by
  rw [daAppend, hh, Prog.bind_ok (existsPtr_block i heap)] at hr
  rcases Prog.bind_eq_error.mp hr with hr | ⟨arr1, heap1, -, hr⟩
  · unfold daGrow at hr
    split at hr
    · exact .inl (daRealloc_error hh hb hr).1
    · cases hr
  · rcases Prog.bind_eq_error.mp hr with hr | ⟨arr2, heap2, -, hr⟩
    · unfold daWrite at hr
      split at hr
      · cases hr
      · cases hr
        exact .inr rfl
    · cases hr

/-- `da_reserve` when allocations succeed. -/
theorem daReserve_always (size : Nat) (hh : arr.header = .block i) (hb : heap.cells i = some b)
    (n : Nat) :
    ∃ i' heap', daReserve h .always size arr n heap =
      .ok ({ arr with header := .block i', capacity := max arr.capacity n }, heap') ∧
      Resized heap i heap' i' := by
  unfold daReserve
  by_cases hn : n > arr.capacity
  · rw [if_pos hn, Nat.max_eq_right (Nat.le_of_lt hn)]
    exact ⟨heap.next, _, daRealloc_always hh hb n, .moved _ _ hb⟩
  · rw [if_neg hn, Nat.max_eq_left (Nat.le_of_not_lt hn)]
    exact ⟨i, heap, by rw [← hh]; rfl, .same⟩

/-- A program that owns the array block still owns it, under its new name. -/
theorem Resized.owns {heap₀ : Heap} {i' : Nat} {ids done : List Nat}
    (hr : Resized heap i heap' i') (ho : heap₀.Owns heap (i :: ids) done) :
    ∃ done', heap₀.Owns heap' (i' :: ids) done' := by
  cases hr with
  | same => exact ⟨done, ho⟩
  | moved n m _ => exact ⟨done ++ [i], ho.drop.new n m⟩

theorem Resized.live {i' : Nat} (hr : Resized heap i heap' i') (hb : heap.cells i = some b) :
    ∃ b', heap'.cells i' = some b' := by
  cases hr with
  | same => exact ⟨b, hb⟩
  | moved n m _ => exact ⟨⟨n, m⟩, by rw [Heap.new_cells, Heap.drop_next, if_pos rfl]⟩

/-- Blocks other than the array block keep their bytes. -/
theorem Resized.cells_eq {i' j : Nat} (hr : Resized heap i heap' i') (hji : j ≠ i)
    (hj : j < heap.next) : heap'.cells j = heap.cells j := by
  cases hr with
  | same => rfl
  | moved n m _ =>
    rw [Heap.new_cells, Heap.drop_next, if_neg (Nat.ne_of_lt hj), Heap.drop_cells, if_neg hji]

/-! ## Contents -/

theorem DynArr.Holds.pushed (hl : arr.Holds l) (hcount : arr.count + 1 < h.szMod) (elem : α)
    (p : Ptr) : (arr.pushed h elem p).Holds (l ++ [elem]) := by
  obtain ⟨hc, hs⟩ := hl
  refine ⟨?_, ?_⟩
  · show h.sz (arr.count + 1) = _
    rw [Host.sz_of_lt hcount, hc, List.length_append, List.length_singleton]
  · intro j hj
    show (if j = arr.count then some elem else arr.slots j) = _
    rw [List.length_append, List.length_singleton] at hj
    by_cases hjc : j = arr.count
    · rw [if_pos hjc, hjc, hc, List.getElem?_append_right (Nat.le_refl _)]
      simp
    · have hjl : j < l.length := by omega
      rw [if_neg hjc, hs j hjl, List.getElem?_append_left hjl]

/-- The slot of an element that was mapped from `y`. -/
theorem DynArr.Holds.slot_map {β : Type} {f : β → α} {l : List β} {y : β}
    (hl : arr.Holds (l.map f)) (hy : l[i]? = some y) : arr.slots i = some (f y) := by
  have hm : (l.map f)[i]? = some (f y) := by rw [List.getElem?_map, hy, Option.map_some]
  exact (hl.2 i (List.getElem?_eq_some_iff.mp hm).1).trans hm

theorem DynArr.Holds.set (hl : arr.Holds l) (i : Nat)
    (x : α) (hi : i < l.length) :
    DynArr.Holds { arr with slots := fun j => if j = i then some x else arr.slots j }
      (l.set i x) := by
  refine ⟨hl.1.trans List.length_set.symm, fun j hj => ?_⟩
  rw [List.length_set] at hj
  show (if j = i then some x else arr.slots j) = _
  rw [List.getElem?_set]
  by_cases hji : j = i
  · rw [if_pos hji, if_pos hji.symm, if_pos hi]
  · rw [if_neg hji, if_neg (Ne.symm hji), hl.2 j hj]

theorem DynArr.Holds.unique {l' : List α} (hl : arr.Holds l)
    (hl' : arr.Holds l') : l = l' := by
  have hlen : l.length = l'.length := hl.1.symm.trans hl'.1
  refine List.ext_getElem? fun i => ?_
  rcases Nat.lt_or_ge i l.length with hi | hi
  · rw [← hl.2 i hi, hl'.2 i (hlen ▸ hi)]
  · rw [List.getElem?_eq_none hi, List.getElem?_eq_none (hlen ▸ hi)]

/-! ## Growth by appends alone -/

/-- What holds of count and capacity when the array was only appended to: the
capacity is 0 or at least 8, and at most one and a half times the count, the
first 8 elements apart. -/
structure ByAppends (arr : DynArr α) : Prop where
  count_le : arr.count ≤ arr.capacity
  capacity_ge : arr.capacity = 0 ∨ 8 ≤ arr.capacity
  capacity_le : arr.capacity ≤ 8 ∨ 2 * arr.capacity ≤ 3 * arr.count

/-- From these capacities the growth step really grows. -/
theorem ByAppends.lt_nextCapacity (hb : ByAppends arr) (hcount : 2 * arr.count < h.szMod) :
    arr.count < arr.nextCapacity h ∧
      (arr.nextCapacity h ≤ 8 ∨ 2 * arr.nextCapacity h ≤ 3 * (arr.count + 1)) ∧
      8 ≤ arr.nextCapacity h := by
  obtain ⟨h1, h2, h3⟩ := hb
  unfold DynArr.nextCapacity grownCapacity
  by_cases hfull : arr.count = arr.capacity
  · by_cases h0 : arr.capacity = 0
    · rw [if_pos hfull, if_pos h0]
      omega
    · rw [if_pos hfull, if_neg h0, Host.sz_of_lt (by omega)]
      omega
  · rw [if_neg hfull]
    omega

theorem ByAppends.pushed (hb : ByAppends arr) (hcount : 2 * arr.count < h.szMod) (elem : α)
    (p : Ptr) : ByAppends (arr.pushed h elem p) := by
  obtain ⟨hlt, hle, hge⟩ := hb.lt_nextCapacity hcount
  have hbig := h.szMod_ge
  have hc : h.sz (arr.count + 1) = arr.count + 1 := Host.sz_of_lt (by omega)
  refine ⟨?_, .inr hge, ?_⟩
  · show h.sz (arr.count + 1) ≤ arr.nextCapacity h
    omega
  · show arr.nextCapacity h ≤ 8 ∨ 2 * arr.nextCapacity h ≤ 3 * h.sz (arr.count + 1)
    rw [hc]
    exact hle

end Tlv
