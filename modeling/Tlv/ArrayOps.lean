import Tlv.DynArr

/-!
# The array as a list

An array stands for the plain list of its elements. Each operation of `dynarr.h`
that changes an array is a value of `ArrayOp`, with its effect on the array
(`ArrayOp.run`) and on the list (`ArrayOp.apply`). The capacity is no part of the
list, but the caller's side of an operation speaks of it, so `Plain` keeps both.

Results: an operation that the caller may use does to the array what it does to
the list (`ArrayOp.run_represents`), except for one case of `da_append`, in which
it writes outside the array (`ArrayOp.run_of_stuck`).
-/

namespace Tlv
open Lib

/-- An operation on an array, and its arguments. -/
inductive ArrayOp (α : Type)
  | append (elem : α)
  | extend (elems : List α)
  | reserve (n : Nat)
  | pop
  | swapRemove (i : Nat)
  | clear
  | copy

/-- The list that an array stands for, and the capacity of the array. -/
structure Plain (α : Type) where
  items : List α
  capacity : Nat

variable {α : Type}

namespace ArrayOp

/-- The macro. After `da_copy` it is the copy that is used. -/
def run (h : Host) (A : Allocator) (size : Nat) (arr : DynArr α) : ArrayOp α → CProg (DynArr α)
  | .append elem => daAppend h A size arr elem
  | .extend elems => daExtend h A size arr elems
  | .reserve n => daReserve h A size arr n
  | .pop => do
    let (_, arr) ← daPop h arr
    pure arr
  | .swapRemove i => daSwapRemove h arr i
  | .clear => pure (daClear arr)
  | .copy => daCopy h A size arr

/-- The operation on a list. -/
def apply (l : List α) : ArrayOp α → List α
  | .append elem => l ++ [elem]
  | .extend elems => l ++ elems
  | .reserve _ => l
  | .pop => l.dropLast
  | .swapRemove i =>
    match l.getLast? with
    | some last => (l.set i last).dropLast
    | none => l
  | .clear => []
  | .copy => l

/-- The capacity behind the operation, in numbers without a bound. -/
def capacity (s : Plain α) : ArrayOp α → Nat
  | .append _ =>
    if s.items.length = s.capacity then
      if s.capacity = 0 then 8 else s.capacity + s.capacity / 2
    else s.capacity
  | .extend elems => max s.capacity (s.items.length + elems.length)
  | .reserve n => max s.capacity n
  | .copy => s.items.length
  | _ => s.capacity

/-- What `dynarr.h` asks of the caller. -/
def Pre (l : List α) : ArrayOp α → Prop
  | .pop => l ≠ []
  | .swapRemove i => i < l.length
  | _ => True

/-- The one case in which growing adds no room: one and a half times 1 is 1. -/
def Stuck (s : Plain α) : ArrayOp α → Prop
  | .append _ => s.items.length = 1 ∧ s.capacity = 1
  | _ => False

end ArrayOp

def Plain.after (s : Plain α) (op : ArrayOp α) : Plain α := ⟨op.apply s.items, op.capacity s⟩

/-- The caller may use the operation: its precondition holds, and when it grows
the array the size asked for is a `size_t`. -/
structure ArrayOp.Allowed (h : Host) (size : Nat) (s : Plain α) (op : ArrayOp α) : Prop where
  pre : op.Pre s.items
  growth : s.capacity < op.capacity s → h.headerSize + op.capacity s * size < h.szMod

instance (s : Plain α) : (op : ArrayOp α) → Decidable (op.Stuck s)
  | .append _ => inferInstanceAs (Decidable (_ ∧ _))
  | .extend _ | .reserve _ | .pop | .swapRemove _ | .clear | .copy =>
    inferInstanceAs (Decidable False)

instance (l : List α) : (op : ArrayOp α) → Decidable (op.Pre l)
  | .pop => inferInstanceAs (Decidable (¬ l = []))
  | .swapRemove i => inferInstanceAs (Decidable (i < l.length))
  | .append _ | .extend _ | .reserve _ | .clear | .copy => inferInstanceAs (Decidable True)

instance (h : Host) (size : Nat) (s : Plain α) (op : ArrayOp α) :
    Decidable (op.Allowed h size s) :=
  decidable_of_iff (op.Pre s.items ∧
    (s.capacity < op.capacity s → h.headerSize + op.capacity s * size < h.szMod))
    ⟨fun ha => ⟨ha.1, ha.2⟩, fun ha => ⟨ha.pre, ha.growth⟩⟩

/-- The array on the heap stands for the list. -/
structure DynArr.Represents (h : Host) (arr : DynArr α) (heap : Heap) (s : Plain α) : Prop where
  live : ∃ i b, arr.header = .block i ∧ heap.cells i = some b
  holds : arr.Holds s.items
  capacity_eq : arr.capacity = s.capacity
  count_le : s.items.length ≤ s.capacity
  capacity_lt : s.capacity < h.szMod

variable {h : Host} {size n : Nat} {arr : DynArr α} {heap : Heap} {s : Plain α} {op : ArrayOp α}
  {elem : α} {elems : List α} {i : Nat}

namespace DynArr.Represents

variable (hr : arr.Represents h heap s)
include hr

theorem count_eq : arr.count = s.items.length := hr.holds.1

/-- Growing does not wrap around. -/
theorem capacity_after_lt (hsize : 0 < size) (ha : op.Allowed h size s) :
    op.capacity s < h.szMod := by
  by_cases hg : s.capacity < op.capacity s
  · have hfit := ha.growth hg
    have hle : op.capacity s ≤ op.capacity s * size := Nat.le_mul_of_pos_right _ hsize
    omega
  · exact Nat.lt_of_le_of_lt (Nat.le_of_not_lt hg) hr.capacity_lt

end DynArr.Represents

/-! ## The operations -/

namespace ArrayOp

variable (hr : arr.Represents h heap s)
include hr

theorem nextCapacity_eq (hsize : 0 < size) (ha : (append elem).Allowed h size s) :
    arr.nextCapacity h = (append elem).capacity s := by
  have hlt := hr.capacity_after_lt hsize ha
  unfold DynArr.nextCapacity grownCapacity
  rw [hr.count_eq, hr.capacity_eq]
  simp only [capacity] at hlt ⊢
  split
  · next hfull =>
    rw [if_pos hfull] at hlt
    split
    · rfl
    · next h0 =>
      rw [if_neg h0] at hlt
      exact Host.sz_of_lt hlt
  · rfl

theorem append_represents (hsize : 0 < size) (ha : (append elem).Allowed h size s)
    (hst : ¬ (append elem).Stuck s) :
    ∃ arr' heap', daAppend h .always size arr elem heap = .ok (arr', heap') ∧
      arr'.Represents h heap' (s.after (append elem)) := by
  obtain ⟨i, b, hh, hb⟩ := hr.live
  have hnext := nextCapacity_eq hr hsize ha
  have hlt := hr.capacity_after_lt hsize ha
  have hroom : s.items.length < (append elem).capacity s := by
    have hle := hr.count_le
    simp only [Stuck] at hst
    simp only [capacity]
    -- A full array grows from capacity 0, and from 2 on; 1 is the stuck case.
    split
    · split <;> omega
    · omega
  have hcount := hr.count_eq
  obtain ⟨i', heap', happ, hres⟩ := daAppend_always (h := h) size elem hh hb
    (by rw [hnext, hcount]; exact hroom)
  obtain ⟨b', hb'⟩ := hres.live hb
  refine ⟨_, heap', happ, ⟨i', b', rfl, hb'⟩, hr.holds.pushed (by omega) elem _, hnext, ?_, hlt⟩
  show (s.items ++ [elem]).length ≤ (append elem).capacity s
  rw [List.length_append, List.length_singleton]
  exact hroom

theorem append_stuck (ha : (append elem).Stuck s) :
    ∃ heap', daAppend h .always size arr elem heap = .error (.writePastEnd, heap') := by
  obtain ⟨i, b, hh, hb⟩ := hr.live
  obtain ⟨h1, h2⟩ := ha
  have hbig := h.szMod_ge
  have hnext : arr.nextCapacity h = 1 := by
    unfold DynArr.nextCapacity grownCapacity
    rw [hr.count_eq, hr.capacity_eq, h1, h2, if_pos rfl, if_neg (by omega)]
    exact Host.sz_of_lt (by omega)
  obtain ⟨i', heap', hgrow, -⟩ := daGrow_always (h := h) size hh hb
  refine ⟨heap', ?_⟩
  rw [daAppend, hh, Prog.bind_ok (existsPtr_block i heap), Prog.bind_ok hgrow, Prog.bind_error]
  rw [daWrite, if_neg]
  · rfl
  · show ¬ arr.count < arr.nextCapacity h
    rw [hnext, hr.count_eq, h1]
    exact Nat.lt_irrefl 1

theorem reserve_represents (hsize : 0 < size) (ha : (reserve n).Allowed h size s) :
    ∃ arr' heap', daReserve h .always size arr n heap = .ok (arr', heap') ∧
      arr'.Represents h heap' (s.after (reserve n)) := by
  obtain ⟨i, b, hh, hb⟩ := hr.live
  obtain ⟨i', heap', hres, hmoved⟩ := daReserve_always (h := h) size hh hb n
  obtain ⟨b', hb'⟩ := hmoved.live hb
  refine ⟨_, heap', hres, ⟨i', b', rfl, hb'⟩, hr.holds, ?_, ?_, hr.capacity_after_lt hsize ha⟩
  · show max arr.capacity n = max s.capacity n
    rw [hr.capacity_eq]
  · exact Nat.le_trans hr.count_le (Nat.le_max_left s.capacity n)

omit hr in
/-- The `memcpy` of `da_extend` writes the elements behind the first `i`. -/
theorem writeAll_holds (arr : DynArr α) (l : List α)
    (hcap : i + elems.length ≤ arr.capacity) (hi : i = l.length)
    (hl : ∀ j < i, arr.slots j = l[j]?) (heap : Heap) :
    ∃ slots, daWriteAll arr i elems heap = .ok ({ arr with slots := slots }, heap) ∧
      ∀ j < (l ++ elems).length, slots j = (l ++ elems)[j]? := by
  induction elems generalizing arr i l with
  | nil => exact ⟨arr.slots, rfl, by simpa [← hi] using hl⟩
  | cons x xs ih =>
    rw [List.length_cons] at hcap
    have hwrite : daWrite arr i x heap = _ := daWrite_ok (by omega) heap
    have hfirst : ∀ j < i + 1, (if j = i then some x else arr.slots j) = (l ++ [x])[j]? := by
      intro j hj
      by_cases hji : j = i
      · rw [if_pos hji, hji, hi, List.getElem?_concat_length]
      · rw [if_neg hji, hl j (by omega), List.getElem?_append_left (by omega)]
    have hroom : i + 1 + xs.length ≤ arr.capacity := by omega
    obtain ⟨slots, hrun, hslots⟩ := ih { arr with
      slots := fun j => if j = i then some x else arr.slots j } (l ++ [x]) hroom (by simp [hi])
      hfirst
    rw [List.append_assoc, List.singleton_append] at hslots
    exact ⟨slots, (Prog.bind_ok hwrite).trans hrun, hslots⟩

theorem extend_represents (hsize : 0 < size) (ha : (extend elems).Allowed h size s) :
    ∃ arr' heap', daExtend h .always size arr elems heap = .ok (arr', heap') ∧
      arr'.Represents h heap' (s.after (extend elems)) := by
  obtain ⟨i, b, hh, hb⟩ := hr.live
  have hlt := hr.capacity_after_lt hsize ha
  have hcount := hr.count_eq
  have hle : s.items.length + elems.length ≤ (extend elems).capacity s := Nat.le_max_right _ _
  have hsz : h.sz (arr.count + elems.length) = arr.count + elems.length :=
    Host.sz_of_lt (by omega)
  obtain ⟨i', heap', hres, hmoved⟩ :=
    daReserve_always (h := h) size hh hb (arr.count + elems.length)
  obtain ⟨b', hb'⟩ := hmoved.live hb
  obtain ⟨slots, hwrite, hslots⟩ := writeAll_holds
    ⟨.block i', arr.count, max arr.capacity (arr.count + elems.length), arr.slots⟩ s.items
    (Nat.le_max_right _ _) hcount (fun j hj => hr.holds.2 j (hcount ▸ hj)) heap'
  refine ⟨⟨.block i', arr.count + elems.length, max arr.capacity (arr.count + elems.length), slots⟩,
    heap', ?_, ⟨i', b', rfl, hb'⟩, ⟨?_, hslots⟩, ?_, ?_, hlt⟩
  · rw [daExtend, hsz, Prog.bind_ok hres, Prog.bind_ok hwrite]
    rfl
  · show arr.count + elems.length = _
    rw [hcount, ← List.length_append]
    rfl
  · show max arr.capacity (arr.count + elems.length) = max s.capacity (s.items.length + _)
    rw [hr.capacity_eq, hcount]
  · show (s.items ++ elems).length ≤ _
    rw [List.length_append]
    exact hle

/-- The index of the last element, as the source computes it. -/
theorem last_eq (hne : s.items ≠ []) : h.sz (arr.count + (h.szMod - 1)) = s.items.length - 1 := by
  have hpos := List.length_pos_iff.mpr hne
  have hle := hr.count_le
  have hlt := hr.capacity_lt
  have hsum : arr.count + (h.szMod - 1) = s.items.length - 1 + h.szMod := by
    rw [hr.count_eq]
    omega
  rw [hsum, Host.sz, Nat.add_mod_right]
  exact Nat.mod_eq_of_lt (by omega)

theorem read_last {last : α} (hlast : s.items.getLast? = some last) :
    daRead arr (s.items.length - 1) heap = .ok (last, heap) := by
  have hpos : s.items.length - 1 < s.items.length := by
    have : s.items ≠ [] := by
      rintro hnil
      rw [hnil] at hlast
      cases hlast
    have := List.length_pos_iff.mpr this
    omega
  rw [daRead, hr.holds.2 _ hpos, ← List.getLast?_eq_getElem?, hlast]
  rfl

omit hr in
theorem holds_dropLast {arr : DynArr α} {l : List α} (hl : arr.Holds l) :
    DynArr.Holds { arr with count := l.length - 1 } l.dropLast := by
  refine ⟨List.length_dropLast.symm, fun j hj => ?_⟩
  rw [List.length_dropLast] at hj
  rw [List.getElem?_dropLast, if_pos hj]
  exact hl.2 j (by omega)

theorem pop_represents (ha : pop.Allowed h size s) :
    ∃ last arr', s.items.getLast? = some last ∧ daPop h arr heap = .ok ((last, arr'), heap) ∧
      arr'.Represents h heap (s.after pop) := by
  have hne : s.items ≠ [] := ha.pre
  have hlast := List.getLast?_eq_some_getLast hne
  refine ⟨_, { arr with count := s.items.length - 1 }, hlast, ?_, hr.live,
    holds_dropLast hr.holds, hr.capacity_eq, ?_, hr.capacity_lt⟩
  · rw [daPop, last_eq hr hne]
    exact Prog.bind_ok (read_last hr hlast)
  · exact (List.length_dropLast.trans_le (Nat.sub_le _ 1)).trans hr.count_le

theorem swapRemove_represents (ha : (swapRemove i).Allowed h size s) :
    ∃ arr', daSwapRemove h arr i heap = .ok (arr', heap) ∧
      arr'.Represents h heap (s.after (swapRemove i)) := by
  have hi : i < s.items.length := ha.pre
  have hne : s.items ≠ [] := List.length_pos_iff.mp (Nat.zero_lt_of_lt hi)
  have hlast := List.getLast?_eq_some_getLast hne
  have hcap : i < arr.capacity := hr.capacity_eq ▸ Nat.lt_of_lt_of_le hi hr.count_le
  have hset := holds_dropLast (hr.holds.set i (s.items.getLast hne) hi)
  have hitems : (swapRemove i).apply s.items = (s.items.set i (s.items.getLast hne)).dropLast := by
    simp only [apply, hlast]
  rw [List.length_set, ← hitems] at hset
  have hassert : ¬ ¬ i < arr.count := not_not.mpr (hr.count_eq ▸ hi)
  refine ⟨{ arr with
    count := s.items.length - 1
    slots := fun j => if j = i then some (s.items.getLast hne) else arr.slots j },
    ?_, hr.live, hset, hr.capacity_eq, ?_, hr.capacity_lt⟩
  · rw [daSwapRemove, if_neg hassert, last_eq hr hne]
    refine (Prog.bind_ok (read_last hr hlast)).trans ?_
    rw [Prog.bind_ok (daWrite_ok hcap heap)]
    show Except.ok (DynArr.mk _ (h.sz (arr.count + (h.szMod - 1))) _ _, heap) = _
    rw [last_eq hr hne]
  · show ((swapRemove i).apply s.items).length ≤ s.capacity
    rw [hitems, List.length_dropLast, List.length_set]
    exact (Nat.sub_le _ 1).trans hr.count_le

theorem clear_represents :
    (daClear arr).Represents h heap (s.after clear) :=
  ⟨hr.live, ⟨rfl, fun _ hj => absurd hj (Nat.not_lt_zero _)⟩, hr.capacity_eq, Nat.zero_le _,
    hr.capacity_lt⟩

theorem copy_represents :
    ∃ arr' heap', daCopy h .always size arr heap = .ok (arr', heap') ∧
      arr'.Represents h heap' (s.after copy) := by
  refine ⟨⟨.block heap.next, arr.count, arr.count,
    fun j => if j < arr.count then arr.slots j else none⟩, heap.alloc (daBytes h size arr.count),
    ?_, ⟨heap.next, ⟨daBytes h size arr.count, Mem.empty⟩, rfl, ?_⟩, ⟨hr.count_eq, fun j hj => ?_⟩,
    hr.count_eq, Nat.le_refl _, Nat.lt_of_le_of_lt hr.count_le hr.capacity_lt⟩
  · rw [daCopy, Prog.bind_ok (malloc_always _ _), Prog.bind_ok (existsPtr_block _ _)]
    rfl
  · rw [Heap.alloc, Heap.new_cells, if_pos rfl]
  · show (if j < arr.count then arr.slots j else none) = _
    rw [if_pos (hr.count_eq ▸ hj)]
    exact hr.holds.2 j hj

/-- An operation that the caller may use, and that is not stuck, does to the array
what it does to the list. -/
theorem run_represents (hsize : 0 < size) (ha : op.Allowed h size s) (hst : ¬ op.Stuck s) :
    ∃ arr' heap', op.run h .always size arr heap = .ok (arr', heap') ∧
      arr'.Represents h heap' (s.after op) := by
  cases op with
  | append elem => exact append_represents hr hsize ha hst
  | extend elems => exact extend_represents hr hsize ha
  | reserve n => exact reserve_represents hr hsize ha
  | pop =>
    obtain ⟨last, arr', -, hpop, hr'⟩ := pop_represents hr ha
    exact ⟨arr', heap, Prog.bind_ok hpop, hr'⟩
  | swapRemove i =>
    obtain ⟨arr', hrun, hr'⟩ := swapRemove_represents hr ha
    exact ⟨arr', heap, hrun, hr'⟩
  | clear => exact ⟨daClear arr, heap, rfl, clear_represents hr⟩
  | copy => exact copy_represents hr

/-- A stuck operation writes at an index that is not below the capacity. -/
theorem run_of_stuck (hst : op.Stuck s) :
    ∃ heap', op.run h .always size arr heap = .error (.writePastEnd, heap') := by
  cases op with
  | append elem => exact append_stuck hr hst
  | _ => exact hst.elim

/-- What an operation that returned has done. -/
theorem of_run_ok {arr' : DynArr α} {heap' : Heap} (hsize : 0 < size) (ha : op.Allowed h size s)
    (hop : op.run h .always size arr heap = .ok (arr', heap')) :
    ¬ op.Stuck s ∧ arr'.Represents h heap' (s.after op) := by
  have hst : ¬ op.Stuck s := by
    intro hst
    obtain ⟨heap₂, hstop⟩ := run_of_stuck hr hst
    rw [hstop] at hop
    cases hop
  obtain ⟨arr₂, heap₂, hop₂, hr₂⟩ := run_represents hr hsize ha hst
  rw [hop] at hop₂
  cases hop₂
  exact ⟨hst, hr₂⟩

end ArrayOp

end Tlv
