import Tlv.Accumulation
import Tlv.Grammar
import Tlv.Lib.Blocks
import Tlv.Lib.Growth

/-!
# What a decoded buffer costs

The peer chooses how many frames there are and how long they say they are, and the
receiver pays with memory. A message takes more bytes in the array than its frame in the
buffer, and the array has more room than messages; but the frames lie in the buffer one
behind the other, so that the payloads and five bytes for each message are no more than
was received.

Results: the capacity of the array and the number of its moves are those of `daGrowth`
(`Spent`), the frames that were taken fit into the buffer (`reader_bytes`), and a call
that returns holds at most 208 bytes and 7.2 bytes for each byte received
(`deserialize_bounded`).
-/

namespace Tlv
open Lib

variable {h : Host} {A : Allocator} {α : Type} {arr arr' : DynArr α} {heap heap' heap₀ : Heap}
  {x : α} {size n hdr o : Nat} {bs : List Byte} {vs : List View} {es : List Entry} {m : Mem}
  {v : View}

/-! ## The array -/

/-- The growth of `da_append`: eight places, then half as many more each time. -/
def daGrowth : Growth where
  first := 8
  next c := c + c / 2
  first_pos := by decide
  lt_next := fun c hc => by omega

theorem grownCapacity_eq {c : Nat} (hc : 2 * c < h.szMod) :
    grownCapacity h c = daGrowth.grow c := by
  unfold grownCapacity Growth.grow
  split
  · rfl
  · exact Host.sz_of_lt (by omega)

theorem daGrowth_capacity_le (k : Nat) : daGrowth.capacity k ≤ max 8 (k + k / 2) := by
  refine Growth.capacity_le (f := fun k => max 8 (k + k / 2)) (fun a b hab => ?_)
    (fun c => ?_) k
  · exact max_le_max_left 8 (Nat.add_le_add hab (Nat.div_le_div_right hab))
  · unfold Growth.grow
    split
    · exact Nat.le_max_left 8 _
    · refine Nat.le_trans ?_ (Nat.le_max_right 8 _)
      exact Nat.add_le_add (Nat.le_succ c) (Nat.div_le_div_right (Nat.le_succ c))

/-- The capacity grows by a third at least. -/
theorem daGrowth_moves {k : Nat} (hk : 0 < k) :
    ∃ n, daGrowth.moves k = n + 1 ∧ 8 * 4 ^ n ≤ daGrowth.capacity k * 3 ^ n := by
  obtain ⟨j, rfl⟩ := Nat.exists_eq_succ_of_ne_zero (Nat.ne_of_gt hk)
  refine Growth.pow_moves_le (g := daGrowth) (fun c hc => ?_) j
  have height : 8 ≤ c := hc
  show 4 * c ≤ 3 * (c + c / 2)
  omega

/-- An append allocates when the array is full. -/
theorem daAppend_next (hb : arr.blockSize heap = some n)
    (happ : daAppend h A size arr x heap = .ok (arr', heap')) :
    heap'.next = if arr.count = arr.capacity then heap.next + 1 else heap.next := by
  by_cases hfull : arr.count = arr.capacity
  · obtain ⟨i, -, hh, -, -⟩ := DynArr.blockSize_eq_some hb
    obtain ⟨arr₁, hgrow, -, -⟩ := daAppend_ok hb happ
    unfold daGrow at hgrow
    rw [if_pos hfull] at hgrow ⊢
    obtain ⟨b, -, rfl, -⟩ := daRealloc_cases hh hgrow
    rfl
  · rw [if_neg hfull, (daAppend_stays hb hfull happ).2]

/-- The block of an array has no more bytes than its capacity needs. -/
def Tight (h : Host) (size : Nat) (arr : DynArr α) (heap : Heap) : Prop :=
  ∃ n, arr.blockSize heap = some n ∧ n ≤ h.headerSize + arr.capacity * size

theorem daBytes_le (h : Host) (size capacity : Nat) :
    daBytes h size capacity ≤ h.headerSize + capacity * size :=
  (Nat.mod_le _ _).trans (Nat.add_le_add_left (Nat.mod_le _ _) _)

theorem Tight.append (ht : Tight h size arr heap)
    (happ : daAppend h A size arr x heap = .ok (arr', heap')) : Tight h size arr' heap' := by
  obtain ⟨n, hb, hn⟩ := ht
  obtain ⟨i, -, hh, -, -⟩ := DynArr.blockSize_eq_some hb
  obtain ⟨-, i', rfl, -⟩ := daAppend_cases hh happ
  refine ⟨_, daAppend_size hb happ, ?_⟩
  show _ ≤ h.headerSize + arr.nextCapacity h * size
  unfold appendRequest DynArr.nextCapacity
  split
  · exact daBytes_le h size _
  · exact hn

/-! ## The payloads -/

/-- The bytes of the value that the decoder copies into a block. -/
def View.payload (v : View) : Nat := if v.type.isPayload then v.value.length else 0

/-- What the frames that were taken have at least: a header each, and the payloads. -/
def taken (vs : List View) : Nat := (vs.map fun v => 5 + v.payload).sum

theorem taken_append (vs : List View) (v : View) :
    taken (vs ++ [v]) = taken vs + (5 + v.payload) := by
  unfold taken
  rw [List.map_append, List.sum_append, List.map_singleton, List.sum_singleton]

theorem five_mul_length_le_taken (vs : List View) : 5 * vs.length ≤ taken vs := by
  induction vs with
  | nil => exact Nat.le_refl 0
  | cons v vs ih =>
    have hcons : taken (v :: vs) = 5 + v.payload + taken vs := rfl
    rw [hcons, List.length_cons]
    omega

/-- The payload of a frame that is taken lies inside the buffer, and so does its
header. -/
theorem payload_inside (ho : o < bs.length) (hp : peek (Mem.ofList bs) o = .ok v) :
    o + (5 + v.payload) ≤ bs.length ∧ v.payload ≤ v.declared := by
  obtain ⟨hh, hv⟩ := peek_eq_ok hp
  have hfive : o + 5 ≤ bs.length := (headerAt_ofList_isSome ho).mp (by rw [hh]; rfl)
  unfold View.payload
  cases hpay : v.type.isPayload with
  | false => exact ⟨hfive, Nat.zero_le _⟩
  | true =>
    rw [TypeTag.width_of_isPayload hpay] at hv
    have hlen := Mem.length_of_read hv
    obtain ⟨hinside, -⟩ := (Mem.read_ofList_eq_some_iff hfive).mp hv
    rw [if_pos rfl, hlen]
    omega

/-- The frames that were taken lie in the buffer one behind the other. -/
theorem reader_bytes (hw : h.word = .w64) (hlen : bs.length ≤ h.ptrdiffMax)
    (hr : (readerLoop h (Mem.ofList bs) bs.length).Reaches (0, []) n (o, vs)) :
    taken vs ≤ bs.length := by
  have hmod := Host.szMod_w64 hw
  unfold Host.ptrdiffMax at hlen
  refine (hr.invariant (I := fun s => taken s.2 ≤ s.1 ∧ taken s.2 ≤ bs.length)
    ⟨Nat.le_refl 0, Nat.zero_le _⟩ ?_).2
  rintro s t ⟨hs, -⟩ hg hb
  obtain ⟨v, hp, rfl⟩ := readerLoop_body_cases hb
  have ho := readerLoop_guard.mp hg
  obtain ⟨hinside, hdeclared⟩ := payload_inside ho hp
  have hlt := peek_declared_lt hp
  have hnext : nextOffset h s.1 v.declared = s.1 + (5 + v.declared) :=
    nextOffset_of_lt (by omega)
  simp only [taken_append, hnext]
  omega

/-- The blocks of the payloads. -/
theorem bytesIn_owned (hst : ∀ e ∈ es, e.Stored heap) :
    heap.bytesIn (es.flatMap Entry.owned) + 5 * es.length = taken (es.map Entry.view) := by
  induction es with
  | nil => rfl
  | cons e es ih =>
    obtain ⟨he, hes⟩ := List.forall_mem_cons.mp hst
    have hcons : taken ((e :: es).map Entry.view) =
        5 + e.view.payload + taken (es.map Entry.view) := rfl
    have hown : heap.bytesIn e.owned = e.view.payload := by
      unfold Entry.owned View.payload
      cases hpay : e.view.type.isPayload with
      | false => rfl
      | true =>
        rw [if_pos rfl, if_pos rfl, Heap.bytesIn_cons (he hpay)]
        rfl
    rw [hcons, ← ih hes, List.flatMap_cons, Heap.bytesIn_append, hown, List.length_cons]
    omega

/-! ## A call -/

variable {ms ms' : DynArr (Message (Buffer Ptr))} {msg : Message (Buffer Ptr)}

/-- What has been spent since the heap `heap₀` when the frames `es` have been taken: a
block for the array and its moves, and one for each payload. -/
structure Spent (h : Host) (heap₀ : Heap) (es : List Entry) (ms : DynArr (Message (Buffer Ptr)))
    (heap : Heap) : Prop where
  capacity : ms.capacity = daGrowth.capacity es.length
  next : heap.next =
    heap₀.next + (1 + (es.flatMap Entry.owned).length) + daGrowth.moves es.length
  tight : Tight h h.messageSize ms heap

theorem Spent.start (hnew : daNew h A heap = .ok (ms, heap')) : Spent h heap [] ms heap' := by
  obtain ⟨-, hcap, -, hb⟩ := daNew_ok hnew
  refine ⟨hcap, ?_, _, hb, Nat.le_add_right _ _⟩
  cases malloc_exists_ok hnew
  rfl

theorem Tight.stow (ht : Tight h size arr heap) (t : TypeTag) (bs : List Byte) :
    Tight h size arr (stow heap t bs) := by
  obtain ⟨n, hb, hn⟩ := ht
  refine ⟨n, ?_, hn⟩
  obtain ⟨i, b, hh, hcell, hsize⟩ := DynArr.blockSize_eq_some hb
  have hne : i ≠ heap.next := Nat.ne_of_lt (Heap.lt_next_of_cells hcell)
  unfold Tlv.stow
  split
  · simp only [DynArr.blockSize, hh, Heap.new_cells, if_neg hne, hcell, Option.map_some, hsize]
  · exact hb

/-- The blocks of one more entry. -/
theorem stow_next (heap : Heap) (v : View) (i : Nat) :
    (stow heap v.type v.value).next = heap.next + (Entry.owned ⟨v, i⟩).length := by
  unfold stow Entry.owned
  cases v.type.isPayload <;> rfl

theorem Spent.pass (hs : Spent h heap₀ es ms heap) (hcount : ms.count = es.length)
    (hn : 2 * es.length < h.szMod) (i : Nat)
    (happ : daAppend h A h.messageSize ms msg (stow heap v.type v.value) = .ok (ms', heap')) :
    Spent h heap₀ (es ++ [⟨v, i⟩]) ms' heap' := by
  have ht := hs.tight.stow v.type v.value
  obtain ⟨k, hb, -⟩ := id ht
  obtain ⟨j, -, hh, -, -⟩ := DynArr.blockSize_eq_some hb
  obtain ⟨-, j', harr, -⟩ := daAppend_cases hh happ
  have hnext := daAppend_next hb happ
  have hcap : ms'.capacity = ms.nextCapacity h := by rw [harr]; rfl
  have hlen : (es ++ [Entry.mk v i]).length = es.length + 1 := by simp
  have howned : ((es ++ [Entry.mk v i]).flatMap Entry.owned).length =
      (es.flatMap Entry.owned).length + (Entry.owned ⟨v, i⟩).length := by simp
  rw [stow_next heap v i, hs.next, hcount, hs.capacity] at hnext
  unfold DynArr.nextCapacity at hcap
  rw [hcount, hs.capacity] at hcap
  refine ⟨?_, ?_, ht.append happ⟩
  · rw [hlen]
    by_cases hfull : daGrowth.capacity es.length = es.length
    · rw [if_pos hfull.symm, hfull, grownCapacity_eq hn] at hcap
      rw [Growth.capacity_full hfull, hcap]
    · rw [if_neg (Ne.symm hfull)] at hcap
      rw [Growth.capacity_room hfull, hcap]
  · rw [hlen, howned]
    by_cases hfull : daGrowth.capacity es.length = es.length
    · rw [if_pos hfull.symm] at hnext
      rw [Growth.moves_full hfull]
      omega
    · rw [if_neg (Ne.symm hfull)] at hnext
      rw [Growth.moves_room hfull]
      omega

/-- What has been spent between two passes of a call. -/
theorem run_spent {len : Nat} {st : DecodeState × Heap} (hnew : daNew h A heap = .ok (ms, heap'))
    (hr : (deserializeLoop h A m len).Reaches (⟨0, 0, ms⟩, heap') n st) (hn : 2 * n ≤ h.szMod) :
    ∃ es hdr, (readerLoop h m len).Reaches (0, []) n (st.1.offset, es.map Entry.view) ∧
      Received h heap hdr es st.1.messages st.2 ∧ Spent h heap es st.1.messages st.2 := by
  induction hr with
  | refl => exact ⟨[], heap.next, .refl, (Received.start hnew).1, .start hnew⟩
  | @pass k t u hreach hg hb ih =>
    obtain ⟨es, hdr, hreads, hrec, hs⟩ := ih (by omega)
    obtain ⟨v, hp, hoff, -, happ⟩ := pass_ok hb
    obtain ⟨v', hdr', hp', -, -, hrec'⟩ := pass_cases hrec hb
    cases hp.symm.trans hp'
    have hlen : es.length = k := by
      have hcount := reader_length hreads
      rwa [List.length_map, List.length_nil, Nat.zero_add] at hcount
    refine ⟨_, hdr', ?_, hrec', hs.pass hrec.count_eq (by omega) _ happ⟩
    rw [List.map_append, hoff]
    exact .pass hreads hg (readerLoop_body_ok hp)

/-- What a call that returned holds: the blocks `ids`, which are live, and the blocks
`done`, which the array has left. -/
structure Bounded (h : Host) (heap : Heap) (bytes : Nat) (ms : DynArr (Message (Buffer Ptr)))
    (heap' : Heap) (ids done : List Nat) : Prop where
  owns : heap.Owns heap' ids done
  blocks : ids.length ≤ 1 + ms.count
  capacity : ms.capacity = daGrowth.capacity ms.count
  moves : done.length = daGrowth.moves ms.count
  held : heap'.bytesIn ids + 5 * ms.count ≤
    h.headerSize + ms.capacity * h.messageSize + bytes
  taken : 5 * ms.count ≤ bytes

theorem length_owned_le (es : List Entry) : (es.flatMap Entry.owned).length ≤ es.length := by
  induction es with
  | nil => exact Nat.le_refl 0
  | cons e es ih =>
    rw [List.flatMap_cons, List.length_append, List.length_cons, Nat.add_comm]
    refine Nat.add_le_add ih ?_
    unfold Entry.owned
    split
    · exact Nat.le_refl 1
    · exact Nat.zero_le 1

theorem Spent.bounded {bytes : Nat} (hs : Spent h heap es ms heap')
    (hrec : Received h heap hdr es ms heap') (htaken : taken (es.map Entry.view) ≤ bytes) :
    ∃ ids done, Bounded h heap bytes ms heap' ids done := by
  obtain ⟨done, ho⟩ := hrec.owns
  have hfive := five_mul_length_le_taken (es.map Entry.view)
  rw [List.length_map] at hfive
  refine ⟨_, done, ho, ?_, ?_, ?_, ?_, ?_⟩
  · have hle := length_owned_le es
    rw [List.length_cons, hrec.count_eq]
    omega
  · rw [hrec.count_eq]
    exact hs.capacity
  · have hall := ho.allocated.length_eq
    rw [List.length_append, List.length_range', List.length_cons, hs.next] at hall
    rw [hrec.count_eq]
    omega
  · obtain ⟨k, hb, hk⟩ := hs.tight
    obtain ⟨i, b, hh, hcell, rfl⟩ := DynArr.blockSize_eq_some hb
    cases hh.symm.trans hrec.header
    have hown := bytesIn_owned hrec.stored
    rw [Heap.bytesIn_cons hcell, hrec.count_eq]
    omega
  · rw [hrec.count_eq]
    exact hfive.trans htaken

section Bounded
variable {bytes : Nat} {ids done : List Nat} (hb : Bounded h heap bytes ms heap' ids done)
include hb

theorem Bounded.capacity_le : ms.capacity ≤ max 8 (ms.count + ms.count / 2) := by
  rw [hb.capacity]
  exact daGrowth_capacity_le ms.count

/-- Five bytes that were received become 36 in the array at most, and a payload as many
as it was. -/
theorem Bounded.held_le (hw : h.word = .w64) : 5 * heap'.bytesIn ids ≤ 1040 + 36 * bytes := by
  have hheader : h.headerSize = 16 := by
    unfold Host.headerSize
    rw [hw]
    rfl
  have hmessage : h.messageSize = 24 := by
    unfold Host.messageSize
    rw [hw]
    rfl
  have hcap := hb.capacity_le
  have hheld := hb.held
  have htaken := hb.taken
  rw [hheader, hmessage] at hheld
  omega

end Bounded

/-- On a 64-bit host, with any allocator: what a call of `deserialize` that returned holds
is bounded by the bytes that it was given, and the array has not moved more often than
the logarithm of its length says. -/
theorem deserialize_bounded (hw : h.word = .w64) (hlen : bs.length ≤ h.ptrdiffMax)
    (hr : Deserializes h A (received bs) heap (.ok (ms, heap'))) :
    ∃ ids done, Bounded h heap bs.length ms heap' ids done ∧
      5 * heap'.bytesIn ids ≤ 1040 + 36 * bs.length ∧
      ms.count ≤ ms.capacity ∧ ms.capacity ≤ max 8 (ms.count + ms.count / 2) ∧
      (0 < ms.count → ∃ n, done.length = n + 1 ∧ 8 * 4 ^ n ≤ ms.capacity * 3 ^ n) := by
  cases hnew : daNew (α := Message (Buffer Ptr)) h A heap with
  | error e => cases deserializes_new_error hnew hr
  | ok p =>
    obtain ⟨arr₀, heap₁⟩ := p
    obtain ⟨e, he, hres⟩ := (deserializes_iff hnew).mp hr
    cases e with
    | error e => cases hres
    | ok st =>
      cases hres
      obtain ⟨n, hreach, -⟩ := WhileLoop.ends_ok_iff.mp he
      obtain ⟨es', hdr', hreads', -⟩ := run_cases (Received.start hnew).1 hreach
      obtain ⟨es, hdr, hreads, hrec, hs⟩ := run_spent hnew hreach (reader_count hw hlen hreads')
      obtain ⟨ids, done, hb⟩ := hs.bounded hrec (reader_bytes hw hlen hreads)
      refine ⟨ids, done, hb, hb.held_le hw, ?_, hb.capacity_le, fun hpos => ?_⟩
      · rw [hb.capacity]
        exact daGrowth.le_capacity st.1.messages.count
      · rw [hb.moves, hb.capacity]
        exact daGrowth_moves hpos

/-- Two messages, one with a payload: 16 bytes of header, room for eight messages, and
the payload. -/
theorem deserialize_bounded_sample :
    ∃ ms heap', Deserializes ⟨.little, .w64⟩ .always
        (received (stream [⟨.u08, [7], by decide⟩, ⟨.str, [65, 66], by decide⟩])) .empty
        (.ok (ms, heap')) ∧
      ∃ ids done, Bounded ⟨.little, .w64⟩ .empty 13 ms heap' ids done ∧
        5 * heap'.bytesIn ids ≤ 1508 := by
  obtain ⟨s, heap', es, hdr, hfin, -⟩ :=
    finishes_stream (h := ⟨.little, .w64⟩) [⟨.u08, [7], by decide⟩, ⟨.str, [65, 66], by decide⟩]
      (by decide) (by decide) .empty
  obtain ⟨ids, done, hb, hheld, -⟩ := deserialize_bounded rfl (by decide) hfin.deserializes
  exact ⟨s.messages, heap', hfin.deserializes, ids, done, hb, hheld⟩

end Tlv
