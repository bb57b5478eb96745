import Tlv.ArrayOps
import Tlv.Decode

/-!
# Runs of array operations

Any number of operations in a row, on an array that comes from `da_new` or from
`deserialize`. As long as no operation is stuck, the array is the list on which
the same operations were done (`runOps_represents`), and a stuck operation ends
the run (`behaves_iff`). `arrayRuns_iff` is this for every array that a caller can
get, with the comparison of `da_extend` and `da_append`.

A stuck operation is a `da_append` to an array with count and capacity 1: the new
capacity is `1 + 1 / 2`, that is 1 again, and the element is written behind the
block. Appends alone do not lead there, but `da_reserve`, `da_extend` and
`da_copy` give an array whatever capacity is asked for (`not_behaves_reserved`).
-/

namespace Tlv
open Lib

variable {α : Type}

/-- The operations, one after the other. -/
def runOps (h : Host) (A : Allocator) (size : Nat) : DynArr α → List (ArrayOp α) → CProg (DynArr α)
  | arr, [] => pure arr
  | arr, op :: ops => do
    let arr ← op.run h A size arr
    runOps h A size arr ops

/-- The caller may use each of the operations in its turn. -/
def AllowedRun (h : Host) (size : Nat) : Plain α → List (ArrayOp α) → Prop
  | _, [] => True
  | s, op :: ops => op.Allowed h size s ∧ AllowedRun h size (s.after op) ops

/-- None of the operations is stuck in its turn. -/
def NeverStuck : Plain α → List (ArrayOp α) → Prop
  | _, [] => True
  | s, op :: ops => ¬ op.Stuck s ∧ NeverStuck (s.after op) ops

instance decidableAllowedRun (h : Host) (size : Nat) :
    (s : Plain α) → (ops : List (ArrayOp α)) → Decidable (AllowedRun h size s ops)
  | _, [] => inferInstanceAs (Decidable True)
  | s, op :: ops => @instDecidableAnd _ _ _ (decidableAllowedRun h size (s.after op) ops)

instance decidableNeverStuck :
    (s : Plain α) → (ops : List (ArrayOp α)) → Decidable (NeverStuck s ops)
  | _, [] => inferInstanceAs (Decidable True)
  | s, op :: ops => @instDecidableAnd _ _ _ (decidableNeverStuck (s.after op) ops)

/-- Each operation returns, which it does only if it writes at indices below the
capacity. After each of them the count is at most the capacity, and the array has
the elements of the list on which the operations were done. -/
def Behaves (h : Host) (size : Nat) : DynArr α → Heap → List α → List (ArrayOp α) → Prop
  | _, _, _, [] => True
  | arr, heap, l, op :: ops => ∃ arr' heap', op.run h .always size arr heap = .ok (arr', heap') ∧
    arr'.count ≤ arr'.capacity ∧ arr'.Holds (op.apply l) ∧
    Behaves h size arr' heap' (op.apply l) ops

/-- After the operations `ops`, a `da_extend` gives the same count and the same
elements as one `da_append` after the other. -/
def ExtendsAsAppends (h : Host) (size : Nat) (arr : DynArr α) (heap : Heap)
    (ops : List (ArrayOp α)) (elems : List α) : Prop :=
  ∃ arr₁ heap₁ arr₂ heap₂,
    runOps h .always size arr (ops ++ [.extend elems]) heap = .ok (arr₁, heap₁) ∧
    runOps h .always size arr (ops ++ elems.map .append) heap = .ok (arr₂, heap₂) ∧
    arr₁.count = arr₂.count ∧ ∀ i < arr₁.count, arr₁.slots i = arr₂.slots i

variable {h : Host} {size : Nat} {arr arr' : DynArr α} {heap heap' : Heap} {s : Plain α}
  {ops ops' : List (ArrayOp α)} {elems : List α}

theorem DynArr.Represents.count_le_capacity (hr : arr.Represents h heap s) :
    arr.count ≤ arr.capacity := by
  rw [hr.count_eq, hr.capacity_eq]
  exact hr.count_le

/-! ## Runs -/

theorem NeverStuck.append_iff :
    NeverStuck s (ops ++ ops') ↔ NeverStuck s ops ∧ NeverStuck (ops.foldl Plain.after s) ops' := by
  induction ops generalizing s with
  | nil => exact ⟨fun hn => ⟨trivial, hn⟩, fun hn => hn.2⟩
  | cons op ops ih =>
    show ¬ op.Stuck s ∧ NeverStuck (s.after op) (ops ++ ops') ↔ _
    rw [ih, ← and_assoc]
    rfl

/-- A run without a stuck operation does to the array what it does to the list. -/
theorem runOps_represents (hr : arr.Represents h heap s) (hsize : 0 < size)
    (ha : AllowedRun h size s ops) (hst : NeverStuck s ops) :
    ∃ arr' heap', runOps h .always size arr ops heap = .ok (arr', heap') ∧
      arr'.Represents h heap' (ops.foldl Plain.after s) := by
  induction ops generalizing arr heap s with
  | nil => exact ⟨arr, heap, rfl, hr⟩
  | cons op ops ih =>
    obtain ⟨arr₁, heap₁, hrun, hr₁⟩ := ArrayOp.run_represents hr hsize ha.1 hst.1
    obtain ⟨arr', heap', hruns, hr'⟩ := ih hr₁ ha.2 hst.2
    exact ⟨arr', heap', (Prog.bind_ok hrun).trans hruns, hr'⟩

/-- A run that returns had no stuck operation. -/
theorem neverStuck_of_runOps (hr : arr.Represents h heap s) (hsize : 0 < size)
    (ha : AllowedRun h size s ops)
    (hrun : runOps h .always size arr ops heap = .ok (arr', heap')) : NeverStuck s ops := by
  induction ops generalizing arr heap s with
  | nil => trivial
  | cons op ops ih =>
    obtain ⟨arr₁, heap₁, hop, hops⟩ := Prog.bind_eq_ok.mp hrun
    obtain ⟨hst, hr₁⟩ := ArrayOp.of_run_ok hr hsize ha.1 hop
    exact ⟨hst, ih hr₁ ha.2 hops⟩

/-- The array behaves as the list if and only if no operation is stuck. -/
theorem behaves_iff (hr : arr.Represents h heap s) (hsize : 0 < size)
    (ha : AllowedRun h size s ops) :
    Behaves h size arr heap s.items ops ↔ NeverStuck s ops := by
  induction ops generalizing arr heap s with
  | nil => exact Iff.rfl
  | cons op ops ih =>
    constructor
    · rintro ⟨arr₁, heap₁, hop, -, -, hrest⟩
      obtain ⟨hst, hr₁⟩ := ArrayOp.of_run_ok hr hsize ha.1 hop
      exact ⟨hst, (ih hr₁ ha.2).mp hrest⟩
    · rintro ⟨hst, hrest⟩
      obtain ⟨arr₁, heap₁, hop, hr₁⟩ := ArrayOp.run_represents hr hsize ha.1 hst
      exact ⟨arr₁, heap₁, hop, hr₁.count_le_capacity, hr₁.holds, (ih hr₁ ha.2).mpr hrest⟩

/-! ## `da_extend` and `da_append` -/

theorem items_appends (s : Plain α) (elems : List α) :
    ((elems.map ArrayOp.append).foldl Plain.after s).items = s.items ++ elems := by
  induction elems generalizing s with
  | nil => exact (List.append_nil s.items).symm
  | cons x xs ih =>
    rw [List.map_cons, List.foldl_cons, ih]
    exact List.append_assoc s.items [x] xs

theorem extendsAsAppends_iff (hr : arr.Represents h heap s) (hsize : 0 < size)
    (hext : AllowedRun h size s (ops ++ [.extend elems]))
    (happ : AllowedRun h size s (ops ++ elems.map .append)) :
    ExtendsAsAppends h size arr heap ops elems ↔ NeverStuck s (ops ++ elems.map .append) := by
  constructor
  · rintro ⟨_, _, arr₂, heap₂, -, hrun, -⟩
    exact neverStuck_of_runOps hr hsize happ hrun
  · intro hst
    have hstops := (NeverStuck.append_iff.mp hst).1
    have hstext : NeverStuck s (ops ++ [.extend elems]) :=
      NeverStuck.append_iff.mpr ⟨hstops, not_false, trivial⟩
    obtain ⟨arr₁, heap₁, hrun₁, hr₁⟩ := runOps_represents hr hsize hext hstext
    obtain ⟨arr₂, heap₂, hrun₂, hr₂⟩ := runOps_represents hr hsize happ hst
    have hitems₁ := hr₁.holds
    have hitems₂ := hr₂.holds
    -- Both lists are the one before with the new elements behind it.
    rw [List.foldl_append] at hitems₁ hitems₂
    rw [items_appends] at hitems₂
    refine ⟨arr₁, heap₁, arr₂, heap₂, hrun₁, hrun₂, hitems₁.1.trans hitems₂.1.symm,
      fun i hi => ?_⟩
    rw [hitems₁.1] at hi
    exact (hitems₁.2 i hi).trans (hitems₂.2 i hi).symm

/-! ## The arrays that a caller gets -/

/-- What holds of an array that stands for a list: runs behave, and `da_extend`
acts as `da_append`, exactly when no operation is stuck. -/
structure RunsAsList (h : Host) (size : Nat) (arr : DynArr α) (heap : Heap) (s : Plain α) :
    Prop where
  holds : arr.Holds s.items
  count_le : arr.count ≤ arr.capacity
  run : ∀ ops, AllowedRun h size s ops → (Behaves h size arr heap s.items ops ↔ NeverStuck s ops)
  extend : ∀ ops elems, AllowedRun h size s (ops ++ [.extend elems]) →
    AllowedRun h size s (ops ++ elems.map .append) →
    (ExtendsAsAppends h size arr heap ops elems ↔ NeverStuck s (ops ++ elems.map .append))

theorem DynArr.Represents.runsAsList (hr : arr.Represents h heap s) (hsize : 0 < size) :
    RunsAsList h size arr heap s :=
  ⟨hr.holds, hr.count_le_capacity, fun _ ha => behaves_iff hr hsize ha,
    fun _ _ hext happ => extendsAsAppends_iff hr hsize hext happ⟩

/-- A new array stands for the empty list. -/
theorem represents_new {A : Allocator} (hr : daNew h A heap = .ok (arr, heap')) :
    arr.Represents h heap' ⟨[], 0⟩ := by
  have hgo := malloc_exists_ok hr
  cases hgo
  exact ⟨⟨heap.next, _, rfl, by rw [Heap.alloc, Heap.new_cells, if_pos rfl]⟩,
    ⟨rfl, fun _ hj => absurd hj (Nat.not_lt_zero _)⟩, rfl, Nat.le_refl 0,
    Nat.pow_pos (by decide)⟩

/-- An array that `deserialize` returned stands for the list of its messages. -/
theorem Received.represents {es : List Entry} {hdr : Nat} {heap₀ : Heap}
    {arr : DynArr (Message (Buffer Ptr))} (hr : Received h heap₀ hdr es arr heap) :
    arr.Represents h heap ⟨es.map (Entry.message h.order), arr.capacity⟩ := by
  obtain ⟨b, hb⟩ := hr.live
  refine ⟨⟨hdr, b, hr.header, hb⟩, hr.holds, rfl, ?_, hr.capacity_lt⟩
  rw [← hr.holds.1]
  exact hr.count_le

/-- Every array from `da_new`, with elements of any type and size, and every array
that `deserialize` returned: any sequence of operations that the caller may use,
with allocations that succeed, behaves as on a list if and only if none of them
is a `da_append` to an array with count and capacity 1. The same condition on the
`da_append` calls decides whether they agree with a `da_extend`. -/
theorem arrayRuns_iff (h : Host) :
    (∀ (α : Type) size, 0 < size → ∀ A heap (arr : DynArr α) heap',
      daNew h A heap = .ok (arr, heap') → RunsAsList h size arr heap' ⟨[], 0⟩) ∧
    ∀ A buf heap arr heap', Deserializes h A buf heap (.ok (arr, heap')) →
      ∃ ms, RunsAsList h h.messageSize arr heap' ⟨ms, arr.capacity⟩ := by
  refine ⟨fun α size hsize A heap arr heap' hr => (represents_new hr).runsAsList hsize,
    fun A buf heap arr heap' hr => ?_⟩
  obtain ⟨es, hdr, hrec⟩ := received_of_returns hr
  have hsize : 0 < h.messageSize := Nat.add_pos_left (by decide) _
  exact ⟨_, hrec.represents.runsAsList hsize⟩

/-- Two elements are appended, and one is removed. -/
theorem arrayRuns_sample :
    ∃ (arr : DynArr Nat) (heap : Heap),
      daNew ⟨.big, .w64⟩ .always Heap.empty = .ok (arr, heap) ∧
      Behaves ⟨.big, .w64⟩ 4 arr heap [] [.append 7, .append 8, .swapRemove 0] ∧
      ExtendsAsAppends ⟨.big, .w64⟩ 4 arr heap [.append 7] [8, 9] := by
  refine ⟨_, _, rfl, ?_⟩
  obtain ⟨-, -, hrun, hext⟩ := (arrayRuns_iff ⟨.big, .w64⟩).1 Nat 4 (by decide) .always
    Heap.empty _ _ rfl
  exact ⟨(hrun _ (by decide)).mpr (by decide),
    (hext [.append 7] [8, 9] (by decide) (by decide)).mpr (by decide)⟩

/-- Reserve room for one element and append two: the second is written behind the
room for the first. The caller has done nothing that `dynarr.h` forbids. -/
theorem not_behaves_reserved :
    ∃ (arr : DynArr Nat) (heap : Heap),
      daNew ⟨.big, .w64⟩ .always Heap.empty = .ok (arr, heap) ∧
      AllowedRun ⟨.big, .w64⟩ 4 ⟨[], 0⟩ [.reserve 1, .append 7, .append 8] ∧
      ¬ Behaves ⟨.big, .w64⟩ 4 arr heap [] [.reserve 1, .append 7, .append 8] := by
  refine ⟨_, _, rfl, by decide, ?_⟩
  rintro ⟨arr₁, heap₁, h₁, -, -, arr₂, heap₂, h₂, -, -, arr₃, heap₃, h₃, -⟩
  cases h₁
  cases h₂
  cases h₃

end Tlv
