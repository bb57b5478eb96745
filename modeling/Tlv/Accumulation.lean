import Tlv.Decode
import Tlv.Sizes

/-!
# Messages that are appended one after the other

`deserialize` starts with a new array and does nothing to it but `da_append`. From
the capacities that this gives, the growth step, one and a half times rounded down,
always makes room, and the sizes that are asked for do not wrap as long as the
elements take no more than half of what a `size_t` can count.

Results: one append keeps `Accumulated`, and reallocates only to a larger capacity
(`Accumulated.append`); so does any number of them, and so do the passes of `deserialize`
(`messages_accumulate`).
-/

namespace Tlv
open Lib

variable {α : Type}

/-- The array consists of the elements `l`, and its block of the header and as many
elements as the capacity says. -/
structure Accumulated (h : Host) (size : Nat) (l : List α) (arr : DynArr α) (heap : Heap) :
    Prop where
  holds : arr.Holds l
  count_le : arr.count ≤ arr.capacity
  capacity_ge : arr.capacity = 0 ∨ 8 ≤ arr.capacity
  noWrap : h.headerSize + arr.capacity * size < h.szMod
  block : arr.blockSize heap = some (h.headerSize + arr.capacity * size)

/-- The array stays where it is, or moves and has more capacity than before. -/
def StaysOrGrows (arr : DynArr α) (heap : Heap) (arr' : DynArr α) (heap' : Heap) : Prop :=
  arr.count < arr.capacity ∧ arr'.header = arr.header ∧ arr'.capacity = arr.capacity ∧
      heap' = heap ∨
    arr.count = arr.capacity ∧ arr.capacity < arr'.capacity

/-- The elements `xs` are appended to an array that has the elements `l`. Each append
adds its element behind the others, and fails only if the array is full and the block for
its next capacity is refused. Between two of them anything may happen on the heap that
keeps the array's block. -/
def Accumulates (h : Host) (A : Allocator) (size : Nat) :
    DynArr α → Heap → List α → List α → Prop
  | _, _, _, [] => True
  | arr, heap, l, x :: xs =>
    (∀ f heap', daAppend h A size arr x heap = .error (f, heap') →
      f = .nullPointer ∧ arr.count = arr.capacity ∧
        A heap.next (h.headerSize + arr.nextCapacity h * size) = false) ∧
    ∀ arr' heap', daAppend h A size arr x heap = .ok (arr', heap') →
      Accumulated h size (l ++ [x]) arr' heap' ∧ StaysOrGrows arr heap arr' heap' ∧
      ∀ heap'', arr'.blockSize heap'' = arr'.blockSize heap' →
        Accumulates h A size arr' heap'' (l ++ [x]) xs

variable {h : Host} {A : Allocator} {size n : Nat} {arr arr' : DynArr α} {x : α} {l xs : List α}
  {heap heap' : Heap}

/-- The elements of the list with one more, and the room to grow, are half of what a
`size_t` can count. -/
def Roomy (h : Host) (size n : Nat) : Prop := h.headerSize + 2 * n * size + 8 * size < h.szMod

theorem Roomy.mono {n' : Nat} (hr : Roomy h size n) (hn : n' ≤ n) : Roomy h size n' := by
  have hmul := Nat.mul_le_mul_right size (Nat.mul_le_mul_left 2 hn)
  unfold Roomy at hr ⊢
  omega

theorem Roomy.count_lt (hr : Roomy h size n) (hsize : 0 < size) : 2 * n < h.szMod := by
  have hmul := Nat.le_mul_of_pos_right (2 * n) hsize
  unfold Roomy at hr
  omega

/-! ## One append -/

/-- The size that a full array asks for does not wrap. -/
theorem ByAppends.size_lt (hby : ByAppends arr) (hsize : 0 < size)
    (hr : Roomy h size (arr.count + 1)) : h.headerSize + arr.nextCapacity h * size < h.szMod := by
  have hcount := (hr.mono (Nat.le_succ _)).count_lt hsize
  obtain ⟨-, hle, -⟩ := hby.lt_nextCapacity hcount
  have hcap : arr.nextCapacity h ≤ 2 * (arr.count + 1) + 8 := by omega
  have hmul := Nat.mul_le_mul_right size hcap
  rw [Nat.add_mul] at hmul
  unfold Roomy at hr
  omega

/-- An array with room is not touched by the growth step. -/
theorem daAppend_stays (hb : arr.blockSize heap = some n) (hroom : arr.count ≠ arr.capacity)
    (happ : daAppend h A size arr x heap = .ok (arr', heap')) :
    arr'.header = arr.header ∧ heap' = heap := by
  obtain ⟨arr₁, hgrow, -, rfl⟩ := daAppend_ok hb happ
  rw [daGrow, if_neg hroom] at hgrow
  cases hgrow
  exact ⟨rfl, rfl⟩

theorem Accumulated.append (ha : Accumulated h size l arr heap) (hby : ByAppends arr)
    (hsize : 0 < size) (hr : Roomy h size (l.length + 1))
    (happ : daAppend h A size arr x heap = .ok (arr', heap')) :
    Accumulated h size (l ++ [x]) arr' heap' ∧ ByAppends arr' ∧
      StaysOrGrows arr heap arr' heap' := by
  rw [← ha.holds.1] at hr
  have hcount := (hr.mono (Nat.le_succ _)).count_lt hsize
  have hcount' : arr.count + 1 < h.szMod := by
    have := hr.count_lt hsize
    omega
  have hlt := hby.size_lt hsize hr
  obtain ⟨i, -, hh, -, -⟩ := DynArr.blockSize_eq_some ha.block
  obtain ⟨hroom, i', harr, -⟩ := daAppend_cases hh happ
  have hblock := daAppend_size ha.block happ
  have hcap : arr'.capacity = arr.nextCapacity h := by rw [harr]; rfl
  have hby' : ByAppends arr' := harr ▸ hby.pushed hcount x _
  rw [← hcap] at hlt hroom
  refine ⟨⟨harr ▸ ha.holds.pushed hcount' x _, hby'.count_le, hby'.capacity_ge, hlt, ?_⟩, hby', ?_⟩
  · rw [hblock]
    unfold DynArr.nextCapacity at hcap
    unfold appendRequest
    split at hcap
    · next hfull => rw [if_pos hfull, Option.elim_some, ← hcap, daBytes_of_lt hlt]
    · next hfull => rw [if_neg hfull, Option.elim_none, hcap]
  · unfold DynArr.nextCapacity at hcap
    split at hcap
    · next hfull => exact .inr ⟨hfull, hfull ▸ hroom⟩
    · next hfull =>
      obtain ⟨hheader, hheap⟩ := daAppend_stays ha.block hfull happ
      exact .inl ⟨Nat.lt_of_le_of_ne ha.count_le hfull, hheader, hcap, hheap⟩

/-! ## Any number of appends -/

theorem Accumulated.congr {heap'' : Heap} (ha : Accumulated h size l arr heap)
    (hb : arr.blockSize heap'' = arr.blockSize heap) : Accumulated h size l arr heap'' :=
  { ha with block := hb.trans ha.block }

theorem Accumulated.accumulates (ha : Accumulated h size l arr heap) (hby : ByAppends arr)
    (hsize : 0 < size) (hr : Roomy h size (l.length + xs.length)) :
    Accumulates h A size arr heap l xs := by
  induction xs generalizing arr heap l with
  | nil => trivial
  | cons x xs ih =>
    rw [List.length_cons] at hr
    have hr₁ : Roomy h size (l.length + 1) := hr.mono (by omega)
    refine ⟨fun f heap' hstop => ?_, fun arr' heap' happ => ?_⟩
    · -- The size in the refused request does not wrap either.
      have hcount := (hr.mono (Nat.le_add_right l.length _)).count_lt hsize
      rw [← ha.holds.1] at hcount hr₁
      rw [← daBytes_of_lt (hby.size_lt hsize hr₁)]
      exact daAppend_refused ha.block (hby.lt_nextCapacity hcount).1 hstop
    · obtain ⟨ha', hby', hgrows⟩ := ha.append hby hsize hr₁ happ
      refine ⟨ha', hgrows, fun heap'' hb => ih (ha'.congr hb) hby' ?_⟩
      rw [List.length_append, List.length_singleton, Nat.add_assoc, Nat.add_comm 1]
      exact hr

theorem accumulated_new (hr : daNew h A heap = .ok (arr, heap')) (size : Nat) :
    Accumulated h size [] arr heap' ∧ ByAppends arr := by
  obtain ⟨hcount, hcap, hholds, hb⟩ := daNew_ok hr
  have hzero : h.headerSize + arr.capacity * size = h.headerSize := by
    rw [hcap, Nat.zero_mul, Nat.add_zero]
  refine ⟨⟨hholds, by omega, .inl hcap, ?_, ?_⟩, ⟨by omega, .inl hcap, .inl (by omega)⟩⟩
  · rw [hzero]
    exact h.headerSize_lt
  · rw [hzero]
    exact hb

theorem messageSize_pos (h : Host) : 0 < h.messageSize := Nat.add_pos_left (by decide) _

/-! ## The passes of `deserialize` -/

/-- A payload that is stowed does not touch the array's block. -/
theorem Accumulated.stow (ha : Accumulated h size l arr heap) (t : TypeTag) (bs : List Byte) :
    Accumulated h size l arr (stow heap t bs) := by
  refine ha.congr ?_
  obtain ⟨i, b, hh, hb, -⟩ := DynArr.blockSize_eq_some ha.block
  have hne : i ≠ heap.next := Nat.ne_of_lt (Heap.lt_next_of_cells hb)
  unfold Tlv.stow
  split
  · simp only [DynArr.blockSize, hh, Heap.new_cells, if_neg hne]
  · rfl

variable {m : Mem} {len : Nat} {arr₀ : DynArr (Message (Buffer Ptr))}

/-- Each pass of the decoder is an append. -/
theorem run_accumulated {st : DecodeState × Heap} (hnew : daNew h A heap = .ok (arr₀, heap'))
    (hr : (deserializeLoop h A m len).Reaches (⟨0, 0, arr₀⟩, heap') n st)
    (hn : Roomy h h.messageSize n) :
    (∃ ms, ms.length = n ∧ Accumulated h h.messageSize ms st.1.messages st.2) ∧
      ByAppends st.1.messages := by
  induction hr with
  | refl =>
    obtain ⟨ha, hby⟩ := accumulated_new hnew h.messageSize
    exact ⟨⟨[], rfl, ha⟩, hby⟩
  | pass _ _ hb ih =>
    obtain ⟨⟨ms, hlen, ha⟩, hby⟩ := ih (hn.mono (Nat.le_succ _))
    obtain ⟨v, -, -, -, happ⟩ := pass_ok hb
    obtain ⟨ha', hby', -⟩ := (ha.stow v.type v.value).append hby (messageSize_pos h)
      (hlen.symm ▸ hn) happ
    exact ⟨⟨_, by rw [List.length_append, List.length_singleton, hlen], ha'⟩, hby'⟩

/-- The calls of `deserialize` that start with the array `arr₀`, as far as `k` messages.
After any number of passes the array consists of the messages of the frames, in order;
and so does the array that a call returns. -/
structure DecoderAccumulates (h : Host) (A : Allocator) (heap : Heap)
    (arr₀ : DynArr (Message (Buffer Ptr))) (heap₀ : Heap) (k : Nat) : Prop where
  passes : ∀ m len n st, (deserializeLoop h A m len).Reaches (⟨0, 0, arr₀⟩, heap₀) n st → n ≤ k →
    ∃ es : List Entry, (readerLoop h m len).Reaches (0, []) n (st.1.offset, es.map Entry.view) ∧
      Accumulated h h.messageSize (es.map (Entry.message h.order)) st.1.messages st.2
  returns : ∀ m len arr heap', Deserializes h A ⟨some m, len⟩ heap (.ok (arr, heap')) →
    arr.count ≤ k →
    ∃ o, ∃ es : List Entry, (readerLoop h m len).Ends (0, []) (.ok (o, es.map Entry.view)) ∧
      Accumulated h h.messageSize (es.map (Entry.message h.order)) arr heap'

/-- The elements are the messages of the frames that were taken. -/
theorem reaches_accumulated {st : DecodeState × Heap} (hnew : daNew h A heap = .ok (arr₀, heap'))
    (hr : (deserializeLoop h A m len).Reaches (⟨0, 0, arr₀⟩, heap') n st) :
    ∃ es : List Entry, (readerLoop h m len).Reaches (0, []) n (st.1.offset, es.map Entry.view) ∧
      st.1.messages.count = n ∧ (Roomy h h.messageSize n →
        Accumulated h h.messageSize (es.map (Entry.message h.order)) st.1.messages st.2) := by
  obtain ⟨es, hdr, hreads, hrec⟩ := run_cases (Received.start hnew).1 hr
  have hlen := reader_length hreads
  rw [List.length_map, List.length_nil, Nat.zero_add, ← hrec.count_eq] at hlen
  refine ⟨es, hreads, hlen, fun hn => ?_⟩
  obtain ⟨⟨ms, -, ha⟩, -⟩ := run_accumulated hnew hr hn
  exact { ha with holds := hrec.holds }

theorem decoder_accumulates {k : Nat} (hnew : daNew h A heap = .ok (arr₀, heap'))
    (hk : Roomy h h.messageSize k) : DecoderAccumulates h A heap arr₀ heap' k := by
  refine ⟨fun m len n st hr hn => ?_, fun m len arr heap₁ hr hcount => ?_⟩
  · obtain ⟨es, hreads, -, ha⟩ := reaches_accumulated hnew hr
    exact ⟨es, hreads, ha (hk.mono hn)⟩
  · obtain ⟨e, he, hres⟩ := (deserializes_iff hnew).mp hr
    cases e with
    | error e => cases hres
    | ok st =>
      cases hres
      obtain ⟨n, hreach, hg⟩ := WhileLoop.ends_ok_iff.mp he
      obtain ⟨es, hreads, hn, ha⟩ := reaches_accumulated hnew hreach
      exact ⟨_, es, WhileLoop.ends_ok_iff.mpr ⟨n, hreads, hg⟩, ha (hk.mono (hn ▸ hcount))⟩

/-! ## Any number of messages -/

/-- Messages that are appended to a new array, however many of them: the array has
them in order and in a block of the exact size, it moves only to a larger capacity,
and an append fails only if the block for that capacity is refused. `deserialize`
appends the messages of the frames in this way. -/
theorem messages_accumulate {arr : DynArr (Message (Buffer Ptr))} (ms : List (Message (Buffer Ptr)))
    (hnew : daNew h A heap = .ok (arr, heap'))
    (hms : h.headerSize + 2 * ms.length * h.messageSize + 8 * h.messageSize < h.szMod) :
    Accumulated h h.messageSize [] arr heap' ∧ Accumulates h A h.messageSize arr heap' [] ms ∧
      DecoderAccumulates h A heap arr heap' ms.length := by
  obtain ⟨ha, hby⟩ := accumulated_new hnew h.messageSize
  refine ⟨ha, ha.accumulates hby (messageSize_pos h) ?_, decoder_accumulates hnew hms⟩
  rw [List.length_nil, Nat.zero_add]
  exact hms

/-- Nine messages, so that the array grows twice. -/
theorem messages_accumulate_sample :
    ∃ (arr : DynArr (Message (Buffer Ptr))) (heap : Heap),
      daNew ⟨.little, .w64⟩ .always Heap.empty = .ok (arr, heap) ∧
      Accumulates ⟨.little, .w64⟩ .always 24 arr heap [] (List.replicate 9 ⟨.nul, .zero⟩) ∧
      DecoderAccumulates ⟨.little, .w64⟩ .always Heap.empty arr heap 9 := by
  refine ⟨_, _, rfl, ?_⟩
  exact (messages_accumulate (List.replicate 9 ⟨.nul, .zero⟩) rfl (by decide)).2

end Tlv
