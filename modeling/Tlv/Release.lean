import Tlv.Accessors
import Tlv.Decode

/-!
# Releasing what `deserialize` returned

`message_free` decides by the tag whether the union holds a pointer to release,
and puts a null pointer in its place. `Releasing` is what holds of a returned
array while the caller releases its messages, in whatever order: the messages
called on so far are cleared, and the blocks owned are the array's and those of
the payloads that are left.

Results: a call keeps `Releasing` (`messageFreeAt_step`) and does nothing to a
scalar or a second time (`messageFreeAt_idle`); a sequence of calls keeps it
(`messageFreeAll_run`).
-/

namespace Tlv
open Lib

/-! ## The elements -/

/-- A message of the returned array, and whether `message_free` was called on it. -/
structure Item where
  entry : Entry
  freed : Bool

namespace Item

def message (o : ByteOrder) (c : Item) : Message (Buffer Ptr) :=
  if c.freed then (c.entry.message o).cleared else c.entry.message o

/-- The blocks that the message still owns. -/
def owned (c : Item) : List Nat := if c.freed then [] else c.entry.owned

/-- The item after a call of `message_free`. -/
def release (c : Item) : Item := { c with freed := true }

/-- There is nothing to release. -/
def Idle (c : Item) : Prop := c.entry.view.type.isPayload = false ∨ c.freed = true

variable {c : Item} {o : ByteOrder}

theorem message_scalar (hs : c.entry.view.type.isPayload = false) :
    c.message o = c.entry.message o := by
  obtain ⟨⟨⟨type, declared, value⟩, block⟩, freed⟩ := c
  cases freed with
  | false => rfl
  | true =>
    cases type with
    | str | bin | err => cases hs
    | _ => rfl

theorem freeArgument_scalar (hs : c.entry.view.type.isPayload = false) :
    freeArgument (c.message o) = none := by
  rw [message_scalar hs]
  exact if_neg (by simpa [Entry.message] using hs)

theorem freeArgument_freed (hp : c.entry.view.type.isPayload = true) (hf : c.freed = true) :
    freeArgument (c.message o) = some .null := by
  obtain ⟨⟨⟨type, declared, value⟩, block⟩, freed⟩ := c
  cases hf
  cases type with
  | str | bin | err => rfl
  | _ => cases hp

theorem freeArgument_live (hp : c.entry.view.type.isPayload = true) (hf : c.freed = false) :
    freeArgument (c.message o) = some (.block c.entry.block) := by
  obtain ⟨⟨⟨type, declared, value⟩, block⟩, freed⟩ := c
  cases hf
  cases type with
  | str | bin | err => rfl
  | _ => cases hp

/-- Clearing a message twice is clearing it once. -/
theorem cleared_message : (c.message o).cleared = (c.release).message o := by
  obtain ⟨⟨⟨type, declared, value⟩, block⟩, freed⟩ := c
  cases freed with
  | false => rfl
  | true => cases type <;> rfl

theorem message_release (hi : c.Idle) : c.release.message o = c.message o := by
  rcases hi with hs | hf
  · rw [message_scalar hs, message_scalar (c := c.release) hs]
    rfl
  · rw [release, ← hf]

theorem owned_release (hi : c.Idle) : c.owned = [] := by
  rcases hi with hs | hf
  · simp only [owned, Entry.owned, hs, Bool.false_eq_true, if_false, ite_self]
  · rw [owned, if_pos hf]

end Item

/-- The messages of an array when `message_free` was called on those with an index
in `gone`. -/
def items (es : List Entry) (gone : List Nat) : List Item :=
  es.mapIdx fun i e => ⟨e, decide (i ∈ gone)⟩

variable {es : List Entry} {gone is : List Nat} {i : Nat} {c : Item}

@[simp] theorem length_items : (items es gone).length = es.length := List.length_mapIdx

theorem items_nil : items es [] = es.map (Item.mk · false) := by
  refine List.ext_getElem? fun i => ?_
  simp [items]

theorem getElem?_items :
    (items es gone)[i]? = es[i]?.map fun e => Item.mk e (decide (i ∈ gone)) :=
  List.getElem?_mapIdx

/-- One more call. -/
theorem items_concat (hc : (items es gone)[i]? = some c) :
    items es (gone ++ [i]) = (items es gone).set i c.release := by
  refine List.ext_getElem? fun j => ?_
  rw [List.getElem?_set, getElem?_items, getElem?_items]
  rw [getElem?_items] at hc
  by_cases hij : i = j
  · subst hij
    obtain ⟨e, he, rfl⟩ := Option.map_eq_some_iff.mp hc
    have hlt := (List.getElem?_eq_some_iff.mp he).1
    rw [if_pos rfl, length_items, if_pos hlt, he]
    simp [Item.release]
  · rw [if_neg hij]
    congr 1
    funext e
    simp [Ne.symm hij]

/-- The blocks that one more call takes away. -/
theorem owned_items_concat (hc : (items es gone)[i]? = some c) :
    ((items es gone).flatMap Item.owned).Perm
      (c.owned ++ (items es (gone ++ [i])).flatMap Item.owned) := by
  obtain ⟨hi, rfl⟩ := List.getElem?_eq_some_iff.mp hc
  obtain ⟨l₁, l₂, hl, -, hset⟩ : ∃ l₁ l₂, items es gone = l₁ ++ (items es gone)[i] :: l₂ ∧
      l₁.length = i ∧ (items es gone).set i (items es gone)[i].release =
        l₁ ++ (items es gone)[i].release :: l₂ := List.exists_of_set hi
  have hnil : (items es gone)[i].release.owned = [] := rfl
  rw [items_concat hc, hset, List.flatMap_append, List.flatMap_cons, hnil, List.nil_append,
    congrArg (List.flatMap Item.owned) hl, List.flatMap_append, List.flatMap_cons]
  exact List.perm_append_comm_assoc _ _ _

/-- When all messages are released, none owns a block. -/
theorem owned_items_all (hall : ∀ i < es.length, i ∈ gone) :
    (items es gone).flatMap Item.owned = [] := by
  rw [List.flatMap_eq_nil_iff]
  intro c hc
  obtain ⟨i, hi⟩ := List.mem_iff_getElem?.mp hc
  rw [getElem?_items] at hi
  obtain ⟨e, he, rfl⟩ := Option.map_eq_some_iff.mp hi
  exact Item.owned_release (.inr (decide_eq_true (hall i (List.getElem?_eq_some_iff.mp he).1)))

/-! ## The array while its messages are released -/

/-- What holds of the array that a call on `heap₀` returned, when `message_free`
was called on the messages with an index in `gone`. -/
structure Releasing (h : Host) (heap₀ : Heap) (hdr : Nat) (es : List Entry) (gone : List Nat)
    (arr : DynArr (Message (Buffer Ptr))) (heap : Heap) : Prop where
  header : arr.header = .block hdr
  owns : ∃ done, heap₀.Owns heap (hdr :: (items es gone).flatMap Item.owned) done
  holds : arr.Holds ((items es gone).map (Item.message h.order))
  count_le : arr.count ≤ arr.capacity

variable {h : Host} {heap heap' heap₀ : Heap} {hdr : Nat}
  {arr arr' : DynArr (Message (Buffer Ptr))} {m : Message (Buffer Ptr)}

/-- The array as it was returned. -/
theorem Received.releasing (hr : Received h heap₀ hdr es arr heap) :
    Releasing h heap₀ hdr es [] arr heap := by
  refine ⟨hr.header, ?_, ?_, hr.count_le⟩
  · rw [items_nil, List.flatMap_map]
    exact hr.owns
  · rw [items_nil, List.map_map]
    exact hr.holds

namespace Releasing

variable (hr : Releasing h heap₀ hdr es gone arr heap)
include hr

theorem count_eq : arr.count = es.length := by
  rw [hr.holds.1, List.length_map, length_items]

theorem slot (hc : (items es gone)[i]? = some c) : arr.slots i = some (c.message h.order) :=
  hr.holds.slot_map hc

theorem lt_capacity (hc : (items es gone)[i]? = some c) : i < arr.capacity := by
  have hi := (List.getElem?_eq_some_iff.mp hc).1
  rw [length_items, ← hr.count_eq] at hi
  exact Nat.lt_of_lt_of_le hi hr.count_le

/-- What a call of `message_free` passes to `free`: a null pointer, or the live block
of a payload that is left. -/
theorem freeArgument_cases (hc : (items es gone)[i]? = some c) {p : Ptr}
    (hp : freeArgument (c.message h.order) = some p) :
    p = .null ∨ c.entry.view.type.isPayload = true ∧ p = .block c.entry.block ∧
      (heap.cells c.entry.block).isSome := by
  cases ht : c.entry.view.type.isPayload with
  | false =>
    rw [Item.freeArgument_scalar ht] at hp
    cases hp
  | true =>
    cases hf : c.freed with
    | true =>
      rw [Item.freeArgument_freed ht hf] at hp
      cases hp
      exact .inl rfl
    | false =>
      rw [Item.freeArgument_live ht hf] at hp
      cases hp
      obtain ⟨done, ho⟩ := hr.owns
      have hown : c.entry.block ∈ c.owned := by simp [Item.owned, Entry.owned, hf, ht]
      exact .inr ⟨rfl, rfl, ho.live _ (List.mem_cons_of_mem hdr
        (List.mem_flatMap.mpr ⟨c, List.mem_of_getElem? hc, hown⟩))⟩

/-- A call with nothing to release changes nothing. -/
theorem messageFreeAt_idle (hc : (items es gone)[i]? = some c) (hi : c.Idle) :
    messageFreeAt arr i heap = .ok (arr, heap) := by
  have hslot := hr.slot hc
  have hread : daRead arr i heap = .ok (c.message h.order, heap) := by
    rw [daRead, hslot]
    rfl
  have hfree : messageFree (c.message h.order) heap = .ok (c.message h.order, heap) := by
    rw [messageFree_eq]
    cases hp : c.entry.view.type.isPayload with
    | false =>
      rw [Item.freeArgument_scalar hp]
      rfl
    | true =>
      have hf := hi.resolve_left (by simp [hp])
      rw [Item.freeArgument_freed hp hf, Item.cleared_message, Item.message_release hi]
      exact Prog.bind_ok (free_null heap)
  rw [messageFreeAt, Prog.bind_ok hread, Prog.bind_ok hfree, daWrite_ok (hr.lt_capacity hc)]
  -- The element is written back as it was.
  congr 2
  obtain ⟨header, count, capacity, slots⟩ := arr
  congr 1
  funext j
  split
  · next heq => rw [heq, ← hslot]
  · rfl

/-- An item with nothing to release can be marked: it shows the same message. -/
theorem mark_idle (hc : (items es gone)[i]? = some c) (hi : c.Idle) :
    Releasing h heap₀ hdr es (gone ++ [i]) arr heap := by
  obtain ⟨done, ho⟩ := hr.owns
  have hperm := owned_items_concat hc
  rw [Item.owned_release hi, List.nil_append] at hperm
  refine ⟨hr.header, ⟨done, ho.perm (hperm.cons hdr)⟩, ?_, hr.count_le⟩
  obtain ⟨hlt, hci⟩ := List.getElem?_eq_some_iff.mp hc
  rw [items_concat hc, List.map_set, Item.message_release hi, ← List.map_set, ← hci,
    List.set_getElem_self]
  exact hr.holds

/-- A call on a payload that is left releases its block. -/
theorem messageFreeAt_live (hc : (items es gone)[i]? = some c)
    (hp : c.entry.view.type.isPayload = true) (hf : c.freed = false) :
    ∃ arr' heap', messageFreeAt arr i heap = .ok (arr', heap') ∧
      Releasing h heap₀ hdr es (gone ++ [i]) arr' heap' := by
  have hi := (List.getElem?_eq_some_iff.mp hc).1
  obtain ⟨done, ho⟩ := hr.owns
  have hperm := owned_items_concat hc
  have howned : c.owned = [c.entry.block] := by
    simp only [Item.owned, Entry.owned, hf, hp, Bool.false_eq_true, if_false, if_true]
  rw [howned, List.singleton_append] at hperm
  -- The payload's block is the one that leaves the owned blocks.
  have ho' := ho.perm ((hperm.cons hdr).trans (List.Perm.swap _ _ _))
  obtain ⟨b, hb⟩ := ho'.exists_block List.mem_cons_self
  have hread : daRead arr i heap = .ok (c.message h.order, heap) := by
    rw [daRead, hr.slot hc]
    rfl
  have hfree : messageFree (c.message h.order) heap =
      .ok (c.release.message h.order, heap.drop c.entry.block) := by
    rw [messageFree_eq, Item.freeArgument_live hp hf, Item.cleared_message]
    exact Prog.bind_ok (free_block hb)
  refine ⟨{ arr with
    slots := fun j => if j = i then some (c.release.message h.order) else arr.slots j },
    heap.drop c.entry.block, ?_, hr.header, ⟨_, ho'.drop⟩, ?_, hr.count_le⟩
  · rw [messageFreeAt, Prog.bind_ok hread, Prog.bind_ok hfree, daWrite_ok (hr.lt_capacity hc)]
  · rw [items_concat hc, List.map_set]
    exact hr.holds.set i _ (by rwa [List.length_map])

/-- A call releases what its message owns, and nothing else. -/
theorem messageFreeAt_step (hi : i < arr.count) :
    ∃ arr' heap', messageFreeAt arr i heap = .ok (arr', heap') ∧
      Releasing h heap₀ hdr es (gone ++ [i]) arr' heap' := by
  have hlen : (items es gone).length = es.length := length_items
  rw [hr.count_eq, ← hlen] at hi
  obtain ⟨c, hc⟩ : ∃ c, (items es gone)[i]? = some c := ⟨_, List.getElem?_eq_getElem hi⟩
  by_cases hidle : c.Idle
  · exact ⟨arr, heap, hr.messageFreeAt_idle hc hidle, hr.mark_idle hc hidle⟩
  · obtain ⟨hp, hf⟩ : c.entry.view.type.isPayload = true ∧ c.freed = false := by
      simpa [Item.Idle] using hidle
    exact hr.messageFreeAt_live hc hp hf

/-- So does a sequence of calls, in any order and with any repetitions. -/
theorem messageFreeAll_run (his : ∀ i ∈ is, i < arr.count) :
    ∃ arr' heap', messageFreeAll arr is heap = .ok (arr', heap') ∧
      Releasing h heap₀ hdr es (gone ++ is) arr' heap' := by
  induction is generalizing gone arr heap with
  | nil => exact ⟨arr, heap, rfl, by rwa [List.append_nil]⟩
  | cons i is ih =>
    obtain ⟨arr₁, heap₁, hstep, hr₁⟩ := hr.messageFreeAt_step (his i List.mem_cons_self)
    have hcount : arr₁.count = arr.count := hr₁.count_eq.trans hr.count_eq.symm
    obtain ⟨arr', heap', hrun, hr'⟩ := ih hr₁ fun j hj =>
      hcount ▸ his j (List.mem_cons_of_mem i hj)
    refine ⟨arr', heap', (Prog.bind_ok hstep).trans hrun, ?_⟩
    rwa [List.append_assoc, List.singleton_append] at hr'

end Releasing

/-! ## What is released -/

/-- The block `k` was allocated by a call of `deserialize` from `heap₀` to `heap`
for the message at index `i` of the array that it returned, and for no other. -/
structure AllocatedFor (heap₀ heap : Heap) (arr : DynArr (Message (Buffer Ptr))) (i k : Nat) :
    Prop where
  not_live_before : heap₀.cells k = none
  live : (heap.cells k).isSome
  own : ∃ m, arr.slots i = some m ∧ freeArgument m = some (.block k)
  only : ∀ j < arr.count, ∀ m, arr.slots j = some m → freeArgument m = some (.block k) → j = i

/-- An element that is no payload owns no block, and the others own theirs. -/
theorem Entry.mem_owned {e : Entry} {o : ByteOrder} {k : Nat}
    (hk : freeArgument (e.message o) = some (.block k)) : k ∈ e.owned := by
  cases hp : e.view.type.isPayload with
  | false =>
    have hnone := Item.freeArgument_scalar (c := ⟨e, false⟩) (o := o) hp
    rw [Item.message_scalar hp, hk] at hnone
    cases hnone
  | true =>
    have hsome := Item.freeArgument_live (c := ⟨e, false⟩) (o := o) hp rfl
    have heq : some (Ptr.block k) = some (.block e.block) := hk.symm.trans hsome
    cases heq
    simp [Entry.owned, hp]

/-- No two payloads are in one block. -/
theorem index_of_block {j k : Nat} {e e' : Entry} (hnd : (es.flatMap Entry.owned).Nodup)
    (hi : es[i]? = some e) (hj : es[j]? = some e') (hk : k ∈ e.owned) (hk' : k ∈ e'.owned) :
    j = i := by
  obtain ⟨hil, rfl⟩ := List.getElem?_eq_some_iff.mp hi
  obtain ⟨hjl, rfl⟩ := List.getElem?_eq_some_iff.mp hj
  have hdisj := List.pairwise_iff_getElem.mp (List.nodup_flatMap.mp hnd).2
  rcases Nat.lt_trichotomy j i with hlt | heq | hlt
  · exact absurd hk (hdisj j i hjl hil hlt hk')
  · exact heq
  · exact absurd hk' (hdisj i j hil hjl hlt hk)

theorem Received.allocatedFor {e : Entry} (hr : Received h heap₀ hdr es arr heap)
    (hi : es[i]? = some e) (hp : e.view.type.isPayload = true) :
    AllocatedFor heap₀ heap arr i e.block := by
  obtain ⟨done, ho⟩ := hr.owns
  have hown : e.block ∈ e.owned := by simp [Entry.owned, hp]
  have hmem : e.block ∈ hdr :: es.flatMap Entry.owned :=
    List.mem_cons_of_mem hdr (List.mem_flatMap.mpr ⟨e, List.mem_of_getElem? hi, hown⟩)
  have hnd := (List.nodup_cons.mp (List.nodup_append.mp ho.nodup).1).2
  refine ⟨ho.not_live_before hmem, ho.live _ hmem, ⟨_, hr.holds.slot_map hi, ?_⟩, ?_⟩
  · exact Item.freeArgument_live (c := ⟨e, false⟩) hp rfl
  · intro j hj m hm harg
    rw [hr.count_eq] at hj
    have hje := List.getElem?_eq_getElem hj
    have hslot := (hr.holds.slot_map hje).symm.trans hm
    cases hslot
    exact index_of_block hnd hi hje hown (Entry.mem_owned harg)

end Tlv
