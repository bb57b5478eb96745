import Tlv.ArrayRuns
import Tlv.Lib.Layout
import Tlv.Sizes

/-!
# The dynamic array in bytes

`DynArr` keeps an array as numbers and slots. In the source it is one block: the fields
`count` and `capacity` of the header, each a `size_t` in the host's byte order, and
behind them the elements. Here the macros of `dynarr.h` are loads and stores in that
block; an array is the pointer to its header. Elements are the bytes that a `Layout`
gives them.

`ArrayBlock` says that a block holds a list and a capacity, and `Effect` what an
operation leaves of the other blocks. Results: an operation that the caller may use does
to the block what it does to the list (`ArrayOp.rawRun_block`), unless it is stuck, and
then its store misses the block (`ArrayOp.rawRun_stuck`).
-/

namespace Tlv
open Lib

variable {α : Type}

/-! ## The macros -/

/-- `da_header(arr)->count`. -/
def rawCount (h : Host) (arr : Ptr) : CProg Nat := do
  let block ← lend ⟨arr, h.headerSize⟩
  loadFrom h block.bytes 0 h.word.bytes

/-- `da_header(arr)->capacity`. -/
def rawCapacity (h : Host) (arr : Ptr) : CProg Nat := do
  let block ← lend ⟨arr, h.headerSize⟩
  loadFrom h block.bytes h.word.bytes h.word.bytes

def rawSetCount (h : Host) (arr : Ptr) (n : Nat) : CProg Unit :=
  memcpyTo arr 0 (h.order.store h.word.bytes n)

def rawSetCapacity (h : Host) (arr : Ptr) (n : Nat) : CProg Unit :=
  memcpyTo arr h.word.bytes (h.order.store h.word.bytes n)

/-- Where `arr[i]` lies behind the start of the header. -/
def rawOffset (h : Host) (L : Layout α) (i : Nat) : Nat := h.headerSize + i * L.size

/-- The bytes of `arr[i]`. -/
def rawAt (h : Host) (L : Layout α) (arr : Ptr) (i : Nat) : CProg (List Byte) := do
  let block ← lend ⟨arr, h.headerSize⟩
  memcpyFrom block.bytes (rawOffset h L i) L.size

/-- `da_get`: the assertion, and then `arr[i]`. -/
def rawGet (h : Host) (L : Layout α) (arr : Ptr) (i : Nat) : CProg (List Byte) := do
  let count ← rawCount h arr
  if ¬ i < count then Prog.stop .assertFailed
  rawAt h L arr i

/-- `da_last`, at the index `count - 1` of a `size_t`. -/
def rawLast (h : Host) (L : Layout α) (arr : Ptr) : CProg (List Byte) := do
  let count ← rawCount h arr
  rawAt h L arr (h.sz (count + (h.szMod - 1)))

/-- `da_empty`. -/
def rawEmpty (h : Host) (arr : Ptr) : CProg Bool := do
  let count ← rawCount h arr
  pure (count == 0)

/-- `da_new`: a header with count and capacity 0. -/
def rawNew (h : Host) (A : Allocator) : CProg Ptr := do
  let p ← malloc A h.headerSize
  existsPtr p
  rawSetCount h p 0
  rawSetCapacity h p 0
  pure p

/-- The growth step: `realloc`, and the new capacity into the header. -/
def rawRealloc (h : Host) (A : Allocator) (L : Layout α) (arr : Ptr) (capacity : Nat) :
    CProg Ptr := do
  let tmp ← realloc A arr (daBytes h L.size capacity)
  existsPtr tmp
  rawSetCapacity h tmp capacity
  pure tmp

/-- The first part of `da_append`: room for one more element. -/
def rawGrow (h : Host) (A : Allocator) (L : Layout α) (arr : Ptr) : CProg Ptr := do
  let count ← rawCount h arr
  let capacity ← rawCapacity h arr
  if count = capacity then rawRealloc h A L arr (grownCapacity h capacity) else pure arr

/-- `da_append`, for an element of the array's type. -/
def rawAppend (h : Host) (A : Allocator) (L : Layout α) (arr : Ptr) (elem : α) : CProg Ptr := do
  existsPtr arr
  let arr ← rawGrow h A L arr
  let count ← rawCount h arr
  memcpyTo arr (rawOffset h L count) (L.encode elem)
  rawSetCount h arr (h.sz (count + 1))
  pure arr

/-- `da_reserve`. -/
def rawReserve (h : Host) (A : Allocator) (L : Layout α) (arr : Ptr) (n : Nat) : CProg Ptr := do
  let capacity ← rawCapacity h arr
  if n > capacity then rawRealloc h A L arr n else pure arr

/-- `da_extend`, from a source array with the elements `elems`. -/
def rawExtend (h : Host) (A : Allocator) (L : Layout α) (arr : Ptr) (elems : List α) :
    CProg Ptr := do
  let count ← rawCount h arr
  let arr ← rawReserve h A L arr (h.sz (count + elems.length))
  let bytes ← memcpyFrom (Mem.ofList (L.all elems)) 0 (h.sz (elems.length * L.size))
  memcpyTo arr (rawOffset h L count) bytes
  rawSetCount h arr (h.sz (count + elems.length))
  pure arr

/-- `da_pop`: the bytes of the element, and the array without it. -/
def rawPop (h : Host) (L : Layout α) (arr : Ptr) : CProg (List Byte × Ptr) := do
  let count ← rawCount h arr
  rawSetCount h arr (h.sz (count + (h.szMod - 1)))
  let bytes ← rawAt h L arr (h.sz (count + (h.szMod - 1)))
  pure (bytes, arr)

/-- `da_swap_remove`. -/
def rawSwapRemove (h : Host) (L : Layout α) (arr : Ptr) (i : Nat) : CProg Ptr := do
  let count ← rawCount h arr
  if ¬ i < count then Prog.stop .assertFailed
  let last ← rawAt h L arr (h.sz (count + (h.szMod - 1)))
  memcpyTo arr (rawOffset h L i) last
  rawSetCount h arr (h.sz (count + (h.szMod - 1)))
  pure arr

/-- `da_clear`. -/
def rawClear (h : Host) (arr : Ptr) : CProg Ptr := do
  rawSetCount h arr 0
  pure arr

/-- `da_copy`: a fresh block, whose capacity is the count, with the elements copied. -/
def rawCopy (h : Host) (A : Allocator) (L : Layout α) (arr : Ptr) : CProg Ptr := do
  let count ← rawCount h arr
  let p ← malloc A (daBytes h L.size count)
  existsPtr p
  rawSetCount h p count
  rawSetCapacity h p count
  let block ← lend ⟨arr, h.headerSize⟩
  let bytes ← memcpyFrom block.bytes h.headerSize (count * L.size)
  memcpyTo p h.headerSize bytes
  pure p

/-- An operation on the block. -/
def ArrayOp.rawRun (h : Host) (A : Allocator) (L : Layout α) (arr : Ptr) : ArrayOp α → CProg Ptr
  | .append elem => rawAppend h A L arr elem
  | .extend elems => rawExtend h A L arr elems
  | .reserve n => rawReserve h A L arr n
  | .pop => do
    let (_, arr) ← rawPop h L arr
    pure arr
  | .swapRemove i => rawSwapRemove h L arr i
  | .clear => rawClear h arr
  | .copy => rawCopy h A L arr

/-- The blocks that an operation on the array in the block `i` leaves behind. -/
def ArrayOp.kept (i : Nat) : ArrayOp α → List Nat
  | .copy => [i]
  | _ => []

/-! ## Blocks that hold an array -/

/-- The block has the elements `s.items` and room for `s.capacity`, and its header says
so. -/
structure ArrayBlock (h : Host) (L : Layout α) (b : Block) (s : Plain α) : Prop where
  room : h.headerSize + s.capacity * L.size ≤ b.size
  size_lt : b.size < h.szMod
  count : b.mem.read 0 h.word.bytes = some (h.order.store h.word.bytes s.items.length)
  capacity : b.mem.read h.word.bytes h.word.bytes = some (h.order.store h.word.bytes s.capacity)
  items : b.mem.read h.headerSize (s.items.length * L.size) = some (L.all s.items)
  count_le : s.items.length ≤ s.capacity

variable {h : Host} {L : Layout α} {b : Block} {s : Plain α} {c i n : Nat} {x : α} {xs : List α}

namespace ArrayBlock

/-- The block of `da_new`. -/
theorem new (h : Host) (L : Layout α) :
    ArrayBlock h L ⟨h.headerSize, (Mem.empty.write 0 (h.order.store h.word.bytes 0)).write
      h.word.bytes (h.order.store h.word.bytes 0)⟩ ⟨[], 0⟩ where
  room := by simp
  size_lt := h.headerSize_lt
  count := by
    have hread := Mem.read_write Mem.empty 0 (h.order.store h.word.bytes 0)
    rw [length_store] at hread
    rw [Mem.read_write_other (.inl (by omega))]
    exact hread
  capacity := by
    have hread := Mem.read_write (Mem.empty.write 0 (h.order.store h.word.bytes 0)) h.word.bytes
      (h.order.store h.word.bytes 0)
    rwa [length_store] at hread
  items := by simp
  count_le := Nat.le_refl 0

variable (hb : ArrayBlock h L b s)
include hb

theorem capacity_lt : s.capacity < h.szMod := by
  have hle : s.capacity ≤ s.capacity * L.size := Nat.le_mul_of_pos_right _ L.size_pos
  have hroom := hb.room
  have hsize := hb.size_lt
  omega

theorem items_lt : s.items.length < h.szMod := Nat.lt_of_le_of_lt hb.count_le hb.capacity_lt

/-- The elements lie in the block. -/
theorem offset_le (hi : i ≤ s.capacity) : rawOffset h L i ≤ b.size :=
  (Nat.add_le_add_left (Nat.mul_le_mul_right _ hi) _).trans hb.room

theorem read_item (hx : s.items[i]? = some x) :
    b.mem.read (rawOffset h L i) L.size = some (L.encode x) := by
  have hi := (List.getElem?_eq_some_iff.mp hx).1
  have hle : (i + 1) * L.size ≤ s.items.length * L.size := Nat.mul_le_mul_right _ hi
  rw [Nat.succ_mul] at hle
  have hitems := hb.items
  have hsplit : s.items.length * L.size =
      i * L.size + (L.size + (s.items.length * L.size - (i * L.size + L.size))) := by omega
  rw [hsplit] at hitems
  have hread := (Mem.read_parts (Mem.read_parts hitems).2).1
  rwa [L.take_drop_all hx] at hread

/-- A block that was reallocated for `c` elements. -/
theorem grown (hc : s.items.length ≤ c) (hsz : h.headerSize + c * L.size < h.szMod) :
    ArrayBlock h L ⟨h.headerSize + c * L.size, (b.mem.cut (h.headerSize + c * L.size)).write
      h.word.bytes (h.order.store h.word.bytes c)⟩ ⟨s.items, c⟩ where
  room := Nat.le_refl _
  size_lt := hsz
  count := by
    have hle : 0 + h.word.bytes ≤ h.headerSize + c * L.size := by
      rw [Host.headerSize]
      omega
    rw [Mem.read_write_other (.inl (by omega)), Mem.read_cut hle]
    exact hb.count
  capacity := by
    have hread := Mem.read_write (b.mem.cut (h.headerSize + c * L.size)) h.word.bytes
      (h.order.store h.word.bytes c)
    rwa [length_store] at hread
  items := by
    have hle : s.items.length * L.size ≤ c * L.size := Nat.mul_le_mul_right _ hc
    have hbehind : h.word.bytes + (h.order.store h.word.bytes c).length ≤ h.headerSize := by
      rw [length_store, Host.headerSize]
      omega
    rw [Mem.read_write_other (.inr hbehind), Mem.read_cut (Nat.add_le_add_left hle _)]
    exact hb.items
  count_le := hc

/-- Elements written behind the others, and counted. -/
theorem extended (hroom : s.items.length + xs.length ≤ s.capacity) :
    ArrayBlock h L ⟨b.size, (b.mem.write (rawOffset h L s.items.length) (L.all xs)).write 0
      (h.order.store h.word.bytes (s.items.length + xs.length))⟩ ⟨s.items ++ xs, s.capacity⟩ where
  room := hb.room
  size_lt := hb.size_lt
  count := by
    have hread := Mem.read_write (b.mem.write (rawOffset h L s.items.length) (L.all xs)) 0
      (h.order.store h.word.bytes (s.items.length + xs.length))
    rw [length_store] at hread
    rw [List.length_append]
    exact hread
  capacity := by
    have hbehind : h.word.bytes + h.word.bytes ≤ rawOffset h L s.items.length := by
      rw [rawOffset, Host.headerSize]
      omega
    rw [Mem.read_write_other (.inr (by rw [length_store]; omega)),
      Mem.read_write_other (.inl hbehind)]
    exact hb.capacity
  items := by
    have hbehind : 0 + (h.order.store h.word.bytes (s.items.length + xs.length)).length ≤
        h.headerSize := by
      rw [length_store, Host.headerSize]
      omega
    rw [Mem.read_write_other (.inr hbehind), List.length_append, Nat.add_mul, L.all_append]
    refine Mem.read_append ?_ ?_
    · rw [rawOffset, Mem.read_write_other (.inl (Nat.le_refl _))]
      exact hb.items
    · have hread := Mem.read_write b.mem (rawOffset h L s.items.length) (L.all xs)
      rwa [L.length_all] at hread
  count_le := by
    rw [List.length_append]
    exact hroom

/-- Fewer elements are counted. -/
theorem shortened (hn : n ≤ s.items.length) :
    ArrayBlock h L ⟨b.size, b.mem.write 0 (h.order.store h.word.bytes n)⟩
      ⟨s.items.take n, s.capacity⟩ where
  room := hb.room
  size_lt := hb.size_lt
  count := by
    have hread := Mem.read_write b.mem 0 (h.order.store h.word.bytes n)
    rw [length_store] at hread
    rw [List.length_take, Nat.min_eq_left hn]
    exact hread
  capacity := by
    rw [Mem.read_write_other (.inr (by rw [length_store]; omega))]
    exact hb.capacity
  items := by
    have hbehind : 0 + (h.order.store h.word.bytes n).length ≤ h.headerSize := by
      rw [length_store, Host.headerSize]
      omega
    have hsplit : s.items.length * L.size = n * L.size + (s.items.length - n) * L.size := by
      rw [← Nat.add_mul, Nat.add_sub_cancel' hn]
    have hitems := hb.items
    rw [hsplit] at hitems
    rw [Mem.read_write_other (.inr hbehind), List.length_take, Nat.min_eq_left hn, ← L.take_all]
    exact (Mem.read_parts hitems).1
  count_le := (List.length_take_le n s.items).trans (hn.trans hb.count_le)

/-- One element is overwritten. -/
theorem set (hi : i < s.items.length) (x : α) :
    ArrayBlock h L ⟨b.size, b.mem.write (rawOffset h L i) (L.encode x)⟩
      ⟨s.items.set i x, s.capacity⟩ where
  room := hb.room
  size_lt := hb.size_lt
  count := by
    have hle : 0 + h.word.bytes ≤ rawOffset h L i := by
      rw [rawOffset, Host.headerSize]
      omega
    rw [Mem.read_write_other (.inl hle), List.length_set]
    exact hb.count
  capacity := by
    have hle : h.word.bytes + h.word.bytes ≤ rawOffset h L i := by
      rw [rawOffset, Host.headerSize]
      omega
    rw [Mem.read_write_other (.inl hle)]
    exact hb.capacity
  items := by
    have hle : (i + 1) * L.size ≤ s.items.length * L.size := Nat.mul_le_mul_right _ hi
    have hfit : i * L.size + (L.encode x).length ≤ s.items.length * L.size := by
      rwa [L.length_encode, ← Nat.succ_mul]
    have hread := Mem.read_write_inside hb.items hfit
    rw [L.length_encode, ← L.all_set hi] at hread
    rw [List.length_set]
    exact hread
  count_le := by
    rw [List.length_set]
    exact hb.count_le

end ArrayBlock

/-- The block of `da_copy`. -/
theorem ArrayBlock.copied (hsz : h.headerSize + xs.length * L.size < h.szMod) :
    ArrayBlock h L ⟨h.headerSize + xs.length * L.size,
      ((Mem.empty.write 0 (h.order.store h.word.bytes xs.length)).write h.word.bytes
        (h.order.store h.word.bytes xs.length)).write h.headerSize (L.all xs)⟩
      ⟨xs, xs.length⟩ where
  room := Nat.le_refl _
  size_lt := hsz
  count := by
    have hread := Mem.read_write Mem.empty 0 (h.order.store h.word.bytes xs.length)
    rw [length_store] at hread
    rw [Mem.read_write_other (.inl (by rw [Host.headerSize]; omega)),
      Mem.read_write_other (.inl (by omega))]
    exact hread
  capacity := by
    have hread := Mem.read_write (Mem.empty.write 0 (h.order.store h.word.bytes xs.length))
      h.word.bytes (h.order.store h.word.bytes xs.length)
    rw [length_store] at hread
    rw [Mem.read_write_other (.inl (by rw [Host.headerSize]; omega))]
    exact hread
  items := by
    have hread := Mem.read_write ((Mem.empty.write 0 (h.order.store h.word.bytes xs.length)).write
      h.word.bytes (h.order.store h.word.bytes xs.length)) h.headerSize (L.all xs)
    rwa [L.length_all] at hread
  count_le := Nat.le_refl _

/-! ## Loads and stores -/

/-- The heap after stores into the block `i`, which is `b'` now. -/
structure Updated (heap : Heap) (i : Nat) (heap' : Heap) (b' : Block) : Prop where
  self : heap'.cells i = some b'
  other : ∀ j, j ≠ i → heap'.cells j = heap.cells j
  next : heap'.next = heap.next
  owns : ∀ (heap₀ : Heap) ids done, heap₀.Owns heap (i :: ids) done →
    heap₀.Owns heap' (i :: ids) done

/-- What an operation on the array in the block `i` leaves: the array is in the block
`i'`, the blocks `kept` of the array before are still owned, and every other block is as
it was. -/
structure Effect (heap : Heap) (i : Nat) (heap' : Heap) (i' : Nat) (b' : Block) (kept : List Nat) :
    Prop where
  self : heap'.cells i' = some b'
  place : i' = i ∨ heap.next ≤ i'
  next_le : heap.next ≤ heap'.next
  other : ∀ j < heap.next, j ≠ i → heap'.cells j = heap.cells j
  kept_eq : ∀ j ∈ kept, j ≠ i' ∧ heap'.cells j = heap.cells j
  owns : ∀ (heap₀ : Heap) ids done, heap₀.Owns heap (i :: ids) done →
    ∃ done', heap₀.Owns heap' (i' :: (kept ++ ids)) done'

variable {heap heap' heap₁ heap₂ : Heap} {i' off : Nat} {b₁ b₂ : Block} {bs : List Byte}
  {kept : List Nat} {op : ArrayOp α}

theorem memcpyTo_updated (hcell : heap.cells i = some b) (hle : off + bs.length ≤ b.size) :
    ∃ heap', memcpyTo (.block i) off bs heap = .ok ((), heap') ∧
      Updated heap i heap' ⟨b.size, b.mem.write off bs⟩ := by
  have hstore : heap.store i off bs = some (heap.set i ⟨b.size, b.mem.write off bs⟩) := by
    rw [Heap.store, hcell, Option.bind_some, if_pos hle]
  have hlt := Heap.lt_next_of_cells hcell
  refine ⟨heap.set i ⟨b.size, b.mem.write off bs⟩, by simp only [memcpyTo, hstore], ?_,
    fun j hj => ?_, rfl, fun heap₀ ids done ho => ?_⟩
  · show (if i = i ∧ i < heap.next then some _ else heap.cells i) = _
    rw [if_pos ⟨rfl, hlt⟩]
  · show (if j = i ∧ i < heap.next then some _ else heap.cells j) = _
    rw [if_neg fun hc => hj hc.1]
  · exact ho.store List.mem_cons_self hstore

theorem memcpyTo_outside (hcell : heap.cells i = some b) (hlt : b.size < off + bs.length) :
    memcpyTo (.block i) off bs heap = .error (.writePastEnd, heap) := by
  have hstore : heap.store i off bs = none := by
    rw [Heap.store, hcell, Option.bind_some, if_neg (Nat.not_le.mpr hlt)]
  simp only [memcpyTo, hstore]

theorem Updated.trans (hu : Updated heap i heap₁ b₁) (hu' : Updated heap₁ i heap₂ b₂) :
    Updated heap i heap₂ b₂ where
  self := hu'.self
  other := fun j hj => (hu'.other j hj).trans (hu.other j hj)
  next := hu'.next.trans hu.next
  owns := fun heap₀ ids done ho => hu'.owns heap₀ ids done (hu.owns heap₀ ids done ho)

/-- Nothing has happened yet. -/
theorem Effect.refl (hcell : heap.cells i = some b) : Effect heap i heap i b [] where
  self := hcell
  place := .inl rfl
  next_le := Nat.le_refl _
  other := fun _ _ _ => rfl
  kept_eq := by simp
  owns := fun _ _ done ho => ⟨done, ho⟩

theorem Effect.updated (he : Effect heap i heap₁ i' b₁ kept) (hu : Updated heap₁ i' heap₂ b₂) :
    Effect heap i heap₂ i' b₂ kept where
  self := hu.self
  place := he.place
  next_le := he.next_le.trans (Nat.le_of_eq hu.next.symm)
  other := fun j hlt hj => by
    have hne : j ≠ i' := by
      rcases he.place with rfl | hge
      · exact hj
      · omega
    rw [hu.other j hne, he.other j hlt hj]
  kept_eq := fun j hj => by
    obtain ⟨hne, heq⟩ := he.kept_eq j hj
    exact ⟨hne, (hu.other j hne).trans heq⟩
  owns := fun heap₀ ids done ho => by
    obtain ⟨done', ho'⟩ := he.owns heap₀ ids done ho
    exact ⟨done', hu.owns heap₀ _ done' ho'⟩

/-- A field of the header that holds a `size_t`. -/
theorem load_field (hcell : heap.cells i = some b)
    (hread : b.mem.read off h.word.bytes = some (h.order.store h.word.bytes n)) (hn : n < h.szMod) :
    (do let block ← lend ⟨.block i, h.headerSize⟩
        loadFrom h block.bytes off h.word.bytes) heap = .ok (n, heap) := by
  have hview : (ptrView heap (.block i)).read off h.word.bytes =
      some (h.order.store h.word.bytes n) := by
    rw [ptrView, Heap.view_eq hcell, hread]
  have hload : h.order.load (h.order.store h.word.bytes n) = n := by
    rw [load_store]
    exact Nat.mod_eq_of_lt hn
  rw [Prog.bind_ok (x := lend _) rfl, loadFrom, Prog.bind_ok (memcpyFrom_some hview heap), hload]
  rfl

section Fields
variable (hcell : heap.cells i = some b) (hb : ArrayBlock h L b s)
include hcell hb

theorem rawCount_ok : rawCount h (.block i) heap = .ok (s.items.length, heap) :=
  load_field hcell hb.count hb.items_lt

theorem rawCapacity_ok : rawCapacity h (.block i) heap = .ok (s.capacity, heap) :=
  load_field hcell hb.capacity hb.capacity_lt

end Fields

theorem rawAt_ok (hcell : heap.cells i = some b) {k : Nat}
    (hread : b.mem.read (rawOffset h L k) L.size = some bs) :
    rawAt h L (.block i) k heap = .ok (bs, heap) := by
  have hview : (ptrView heap (.block i)).read (rawOffset h L k) L.size = some bs := by
    rw [ptrView, Heap.view_eq hcell, hread]
  rw [rawAt, Prog.bind_ok (x := lend _) rfl]
  exact memcpyFrom_some hview heap

/-! ## The operations -/

/-- The index of the last element, as the source computes it. -/
theorem ArrayBlock.last_eq (hb : ArrayBlock h L b s) (hne : s.items ≠ []) :
    h.sz (s.items.length + (h.szMod - 1)) = s.items.length - 1 := by
  have hpos := List.length_pos_iff.mpr hne
  have hlt := hb.items_lt
  have hsum : s.items.length + (h.szMod - 1) = s.items.length - 1 + h.szMod := by omega
  rw [hsum, Host.sz, Nat.add_mod_right]
  exact Nat.mod_eq_of_lt (by omega)

section Operations
variable (hcell : heap.cells i = some b) (hb : ArrayBlock h L b s)
include hcell hb

theorem rawRealloc_block (hc : s.items.length ≤ c) (hsz : h.headerSize + c * L.size < h.szMod) :
    ∃ heap' b', rawRealloc h .always L (.block i) c heap = .ok (.block heap.next, heap') ∧
      Effect heap i heap' heap.next b' [] ∧ ArrayBlock h L b' ⟨s.items, c⟩ ∧
      b'.size = h.headerSize + c * L.size := by
  have hbytes : daBytes h L.size c = h.headerSize + c * L.size := daBytes_of_lt hsz
  have hfield : h.word.bytes + (h.order.store h.word.bytes c).length ≤
      h.headerSize + c * L.size := by
    rw [length_store, Host.headerSize]
    omega
  have hmoved : Effect heap i ((heap.drop i).new (h.headerSize + c * L.size)
      (b.mem.cut (h.headerSize + c * L.size))) heap.next
      ⟨h.headerSize + c * L.size, b.mem.cut (h.headerSize + c * L.size)⟩ [] := by
    refine ⟨by rw [Heap.new_cells, Heap.drop_next, if_pos rfl], .inr (Nat.le_refl _),
      Nat.le_succ _, fun j hj hji => ?_, by simp, fun heap₀ ids done ho => ?_⟩
    · rw [Heap.new_cells, Heap.drop_next, if_neg (Nat.ne_of_lt hj), Heap.drop_cells, if_neg hji]
    · exact ⟨_, ho.drop.new _ _⟩
  obtain ⟨heap', hset, hu⟩ := memcpyTo_updated hmoved.self hfield
  refine ⟨heap', _, ?_, hmoved.updated hu, hb.grown hc hsz, rfl⟩
  rw [rawRealloc, hbytes, Prog.bind_ok (realloc_always hcell _),
    Prog.bind_ok (existsPtr_block heap.next _)]
  exact Prog.bind_ok hset

/-- Elements are written behind the others, and counted. -/
theorem rawWrite_block (xs : List α) (hroom : s.items.length + xs.length ≤ s.capacity) :
    ∃ heap' b', (do
        memcpyTo (.block i) (rawOffset h L s.items.length) (L.all xs)
        rawSetCount h (.block i) (h.sz (s.items.length + xs.length))
        pure (Ptr.block i)) heap = .ok (.block i, heap') ∧
      Updated heap i heap' b' ∧ ArrayBlock h L b' ⟨s.items ++ xs, s.capacity⟩ := by
  have hsz : h.sz (s.items.length + xs.length) = s.items.length + xs.length :=
    Host.sz_of_lt (Nat.lt_of_le_of_lt hroom hb.capacity_lt)
  have hend : rawOffset h L s.items.length + (L.all xs).length ≤ b.size := by
    have hle := hb.offset_le hroom
    rwa [rawOffset, Nat.add_mul, ← Nat.add_assoc, ← L.length_all xs] at hle
  have hfield : 0 + (h.order.store h.word.bytes (s.items.length + xs.length)).length ≤ b.size := by
    have hle := hb.room
    rw [Host.headerSize] at hle
    rw [length_store]
    omega
  obtain ⟨heap₁, hwrite, hu₁⟩ := memcpyTo_updated hcell hend
  obtain ⟨heap₂, hset, hu₂⟩ := memcpyTo_updated hu₁.self hfield
  refine ⟨heap₂, _, ?_, hu₁.trans hu₂, hb.extended hroom⟩
  rw [Prog.bind_ok hwrite, hsz]
  exact Prog.bind_ok hset

theorem rawGrow_block (x : α) (ha : (ArrayOp.append x).Allowed h L.size s)
    (hst : ¬ (ArrayOp.append x).Stuck s) :
    ∃ i' heap' b', rawGrow h .always L (.block i) heap = .ok (.block i', heap') ∧
      Effect heap i heap' i' b' [] ∧
      ArrayBlock h L b' ⟨s.items, (ArrayOp.append x).capacity s⟩ ∧
      s.items.length < (ArrayOp.append x).capacity s := by
  have hle := hb.count_le
  simp only [ArrayOp.Stuck] at hst
  rw [rawGrow, Prog.bind_ok (rawCount_ok hcell hb), Prog.bind_ok (rawCapacity_ok hcell hb)]
  by_cases hfull : s.items.length = s.capacity
  · have hcap : (ArrayOp.append x).capacity s =
        if s.capacity = 0 then 8 else s.capacity + s.capacity / 2 := if_pos hfull
    have hroom : s.capacity < (ArrayOp.append x).capacity s := by
      rw [hcap]
      split <;> omega
    have hsz := ha.growth hroom
    have hpos : (ArrayOp.append x).capacity s ≤ (ArrayOp.append x).capacity s * L.size :=
      Nat.le_mul_of_pos_right _ L.size_pos
    have hgrown : grownCapacity h s.capacity = (ArrayOp.append x).capacity s := by
      rw [hcap] at hsz hpos ⊢
      unfold grownCapacity
      split
      · rfl
      · next h0 =>
        rw [if_neg h0] at hsz hpos
        exact Host.sz_of_lt (by omega)
    obtain ⟨heap', b', hrun, he, hb', -⟩ :=
      rawRealloc_block hcell hb (by omega : s.items.length ≤ (ArrayOp.append x).capacity s) hsz
    rw [if_pos hfull, hgrown]
    exact ⟨heap.next, heap', b', hrun, he, hb', by omega⟩
  · have hcap : (ArrayOp.append x).capacity s = s.capacity := if_neg hfull
    rw [if_neg hfull, hcap]
    exact ⟨i, heap, b, rfl, .refl hcell, hb, by omega⟩

theorem rawAppend_block (x : α) (ha : (ArrayOp.append x).Allowed h L.size s)
    (hst : ¬ (ArrayOp.append x).Stuck s) :
    ∃ i' heap' b', rawAppend h .always L (.block i) x heap = .ok (.block i', heap') ∧
      Effect heap i heap' i' b' [] ∧ ArrayBlock h L b' (s.after (.append x)) := by
  obtain ⟨i', heap₁, b₁, hgrow, he, hb₁, hroom⟩ := rawGrow_block hcell hb x ha hst
  obtain ⟨heap₂, b₂, hwrite, hu, hb₂⟩ := rawWrite_block he.self hb₁ [x] hroom
  refine ⟨i', heap₂, b₂, ?_, he.updated hu, hb₂⟩
  rw [rawAppend, Prog.bind_ok (existsPtr_block i heap), Prog.bind_ok hgrow,
    Prog.bind_ok (rawCount_ok he.self hb₁)]
  rw [L.all_cons, L.all_nil, List.append_nil] at hwrite
  exact hwrite

theorem rawReserve_block (ha : (ArrayOp.reserve n : ArrayOp α).Allowed h L.size s) :
    ∃ i' heap' b', rawReserve h .always L (.block i) n heap = .ok (.block i', heap') ∧
      Effect heap i heap' i' b' [] ∧ ArrayBlock h L b' (s.after (.reserve n)) := by
  have hafter : s.after (.reserve n) = ⟨s.items, max s.capacity n⟩ := rfl
  rw [rawReserve, Prog.bind_ok (rawCapacity_ok hcell hb), hafter]
  by_cases hn : n > s.capacity
  · have hmax : max s.capacity n = n := Nat.max_eq_right (Nat.le_of_lt hn)
    have hsz : h.headerSize + max s.capacity n * L.size < h.szMod :=
      ha.growth (lt_max_of_lt_right hn)
    rw [hmax] at hsz ⊢
    obtain ⟨heap', b', hrun, he, hb', -⟩ :=
      rawRealloc_block hcell hb (hb.count_le.trans (Nat.le_of_lt hn)) hsz
    rw [if_pos hn]
    exact ⟨heap.next, heap', b', hrun, he, hb'⟩
  · rw [if_neg hn, Nat.max_eq_left (Nat.le_of_not_lt hn)]
    exact ⟨i, heap, b, rfl, .refl hcell, hb⟩

theorem rawExtend_block (ha : (ArrayOp.extend xs).Allowed h L.size s) :
    ∃ i' heap' b', rawExtend h .always L (.block i) xs heap = .ok (.block i', heap') ∧
      Effect heap i heap' i' b' [] ∧ ArrayBlock h L b' (s.after (.extend xs)) := by
  have hreserve : (ArrayOp.reserve (s.items.length + xs.length) : ArrayOp α).Allowed h L.size s :=
    ⟨trivial, ha.growth⟩
  obtain ⟨i', heap₁, b₁, hres, he, hb₁⟩ := rawReserve_block hcell hb hreserve
  have hroom : s.items.length + xs.length ≤ max s.capacity (s.items.length + xs.length) :=
    Nat.le_max_right _ _
  have hsz : h.sz (s.items.length + xs.length) = s.items.length + xs.length :=
    Host.sz_of_lt (Nat.lt_of_le_of_lt hroom hb₁.capacity_lt)
  have hbytes : h.sz (xs.length * L.size) = (L.all xs).length := by
    rw [L.length_all]
    refine Host.sz_of_lt ?_
    have hle : xs.length * L.size ≤ max s.capacity (s.items.length + xs.length) * L.size :=
      Nat.mul_le_mul_right _ (by omega)
    have hroom₁ := hb₁.room
    have hlt₁ := hb₁.size_lt
    simp only [Plain.after, ArrayOp.capacity] at hroom₁
    omega
  have hread : (Mem.ofList (L.all xs)).read 0 (L.all xs).length = some (L.all xs) := by
    rw [Mem.read_ofList (by omega)]
    simp
  obtain ⟨heap₂, b₂, hwrite, hu, hb₂⟩ := rawWrite_block he.self hb₁ xs hroom
  refine ⟨i', heap₂, b₂, ?_, he.updated hu, hb₂⟩
  rw [rawExtend, Prog.bind_ok (rawCount_ok hcell hb), hsz, Prog.bind_ok hres, hbytes,
    Prog.bind_ok (memcpyFrom_some hread heap₁)]
  rw [show (s.after (.reserve (s.items.length + xs.length))).items = s.items from rfl, hsz]
    at hwrite
  exact hwrite

/-- A count that is not larger than before is stored. -/
theorem rawShorten_block (hn : n ≤ s.items.length) :
    ∃ heap', rawSetCount h (.block i) n heap = .ok ((), heap') ∧
      Updated heap i heap' ⟨b.size, b.mem.write 0 (h.order.store h.word.bytes n)⟩ ∧
      ArrayBlock h L ⟨b.size, b.mem.write 0 (h.order.store h.word.bytes n)⟩
        ⟨s.items.take n, s.capacity⟩ := by
  have hfield : 0 + (h.order.store h.word.bytes n).length ≤ b.size := by
    have hle := hb.room
    rw [Host.headerSize] at hle
    rw [length_store]
    omega
  obtain ⟨heap', hset, hu⟩ := memcpyTo_updated hcell hfield
  exact ⟨heap', hset, hu, hb.shortened hn⟩

theorem rawPop_block (ha : (ArrayOp.pop : ArrayOp α).Allowed h L.size s) :
    ∃ last heap' b', s.items.getLast? = some last ∧
      rawPop h L (.block i) heap = .ok ((L.encode last, .block i), heap') ∧
      Effect heap i heap' i b' [] ∧ ArrayBlock h L b' (s.after .pop) := by
  have hne : s.items ≠ [] := ha.pre
  have hlast := List.getLast?_eq_some_getLast hne
  have hitem : s.items[s.items.length - 1]? = some (s.items.getLast hne) := by
    rw [← List.getLast?_eq_getElem?, hlast]
  obtain ⟨heap', hset, hu, hb'⟩ := rawShorten_block hcell hb (Nat.sub_le s.items.length 1)
  have hbehind : 0 + (h.order.store h.word.bytes (s.items.length - 1)).length ≤
      rawOffset h L (s.items.length - 1) := by
    rw [length_store, rawOffset, Host.headerSize]
    omega
  have hread : (b.mem.write 0 (h.order.store h.word.bytes (s.items.length - 1))).read
      (rawOffset h L (s.items.length - 1)) L.size = some (L.encode (s.items.getLast hne)) := by
    rw [Mem.read_write_other (.inr hbehind)]
    exact hb.read_item hitem
  rw [← List.dropLast_eq_take] at hb'
  refine ⟨_, heap', _, hlast, ?_, (Effect.refl hcell).updated hu, hb'⟩
  rw [rawPop, Prog.bind_ok (rawCount_ok hcell hb), hb.last_eq hne, Prog.bind_ok hset]
  exact Prog.bind_ok (rawAt_ok hu.self hread)

theorem rawSwapRemove_block {k : Nat}
    (ha : (ArrayOp.swapRemove k : ArrayOp α).Allowed h L.size s) :
    ∃ heap' b', rawSwapRemove h L (.block i) k heap = .ok (.block i, heap') ∧
      Effect heap i heap' i b' [] ∧ ArrayBlock h L b' (s.after (.swapRemove k)) := by
  have hk : k < s.items.length := ha.pre
  have hne : s.items ≠ [] := List.length_pos_iff.mp (Nat.zero_lt_of_lt hk)
  have hlast := List.getLast?_eq_some_getLast hne
  have hitem : s.items[s.items.length - 1]? = some (s.items.getLast hne) := by
    rw [← List.getLast?_eq_getElem?, hlast]
  have hafter : s.after (.swapRemove k) =
      ⟨(s.items.set k (s.items.getLast hne)).take (s.items.length - 1), s.capacity⟩ := by
    have hlen : (s.items.set k (s.items.getLast hne)).length = s.items.length := List.length_set
    rw [← hlen, ← List.dropLast_eq_take, Plain.after]
    simp only [ArrayOp.apply, ArrayOp.capacity, hlast]
  have hend : rawOffset h L k + (L.encode (s.items.getLast hne)).length ≤ b.size := by
    have hle := hb.offset_le (hk.trans_le hb.count_le : k + 1 ≤ s.capacity)
    rw [L.length_encode]
    rwa [rawOffset, Nat.succ_mul, ← Nat.add_assoc] at hle
  obtain ⟨heap₁, hwrite, hu₁⟩ := memcpyTo_updated hcell hend
  have hb₁ := hb.set hk (s.items.getLast hne)
  obtain ⟨heap₂, hset, hu₂, hb₂⟩ := rawShorten_block hu₁.self hb₁
    (n := s.items.length - 1) (by rw [List.length_set]; omega)
  rw [hafter]
  refine ⟨heap₂, _, ?_, (Effect.refl hcell).updated (hu₁.trans hu₂), hb₂⟩
  rw [rawSwapRemove, Prog.bind_ok (rawCount_ok hcell hb), if_neg (not_not.mpr hk)]
  rw [hb.last_eq hne]
  refine (Prog.bind_ok (rawAt_ok hcell (hb.read_item hitem))).trans ?_
  rw [Prog.bind_ok hwrite]
  exact Prog.bind_ok hset

theorem rawClear_block :
    ∃ heap' b', rawClear h (.block i) heap = .ok (.block i, heap') ∧
      Effect heap i heap' i b' [] ∧ ArrayBlock h L b' (s.after .clear) := by
  obtain ⟨heap', hset, hu, hb'⟩ := rawShorten_block hcell hb (Nat.zero_le s.items.length)
  exact ⟨heap', _, Prog.bind_ok hset, (Effect.refl hcell).updated hu, hb'⟩

theorem rawCopy_block :
    ∃ heap' b', rawCopy h .always L (.block i) heap = .ok (.block heap.next, heap') ∧
      Effect heap i heap' heap.next b' [i] ∧ ArrayBlock h L b' (s.after .copy) := by
  have hlt := Heap.lt_next_of_cells hcell
  have hsz : h.headerSize + s.items.length * L.size < h.szMod := by
    have hle : s.items.length * L.size ≤ s.capacity * L.size :=
      Nat.mul_le_mul_right _ hb.count_le
    have hroom := hb.room
    have hsize := hb.size_lt
    omega
  have hbytes : daBytes h L.size s.items.length = h.headerSize + s.items.length * L.size :=
    daBytes_of_lt hsz
  have hnew : Effect heap i (heap.alloc (h.headerSize + s.items.length * L.size)) heap.next
      ⟨h.headerSize + s.items.length * L.size, Mem.empty⟩ [i] := by
    refine ⟨by rw [Heap.alloc, Heap.new_cells, if_pos rfl], .inr (Nat.le_refl _), Nat.le_succ _,
      fun j hj _ => ?_, fun j hj => ?_, fun heap₀ ids done ho => ⟨done, ho.new _ _⟩⟩
    · rw [Heap.alloc, Heap.new_cells, if_neg (Nat.ne_of_lt hj)]
    · cases List.mem_singleton.mp hj
      exact ⟨Nat.ne_of_lt hlt, by rw [Heap.alloc, Heap.new_cells, if_neg (Nat.ne_of_lt hlt)]⟩
  have hcount : 0 + (h.order.store h.word.bytes s.items.length).length ≤
      h.headerSize + s.items.length * L.size := by
    rw [length_store, Host.headerSize]
    omega
  have hcapacity : h.word.bytes + (h.order.store h.word.bytes s.items.length).length ≤
      h.headerSize + s.items.length * L.size := by
    rw [length_store, Host.headerSize]
    omega
  have hitems : h.headerSize + (L.all s.items).length ≤
      h.headerSize + s.items.length * L.size := by rw [L.length_all]
  obtain ⟨heap₁, h₁, hu₁⟩ := memcpyTo_updated hnew.self hcount
  obtain ⟨heap₂, h₂, hu₂⟩ := memcpyTo_updated hu₁.self hcapacity
  obtain ⟨heap₃, h₃, hu₃⟩ := memcpyTo_updated hu₂.self hitems
  change rawSetCount h (.block heap.next) s.items.length _ = _ at h₁
  change rawSetCapacity h (.block heap.next) s.items.length _ = _ at h₂
  -- The block that is copied is still the one of the beginning.
  have hold : heap₂.cells i = some b :=
    (((hnew.updated (hu₁.trans hu₂)).kept_eq i List.mem_cons_self).2).trans hcell
  have hread : (ptrView heap₂ (.block i)).read h.headerSize (s.items.length * L.size) =
      some (L.all s.items) := by
    rw [ptrView, Heap.view_eq hold]
    exact hb.items
  refine ⟨heap₃, _, ?_, hnew.updated ((hu₁.trans hu₂).trans hu₃), ArrayBlock.copied hsz⟩
  rw [rawCopy, Prog.bind_ok (rawCount_ok hcell hb), hbytes, Prog.bind_ok (malloc_always _ heap),
    Prog.bind_ok (existsPtr_block _ _), Prog.bind_ok h₁, Prog.bind_ok h₂,
    Prog.bind_ok (x := lend _) rfl, Prog.bind_ok (memcpyFrom_some hread heap₂)]
  exact Prog.bind_ok h₃

/-- An operation that the caller may use, and that is not stuck, does to the block what it
does to the list, and leaves the other blocks alone. -/
theorem ArrayOp.rawRun_block (ha : op.Allowed h L.size s) (hst : ¬ op.Stuck s) :
    ∃ i' heap' b', op.rawRun h .always L (.block i) heap = .ok (.block i', heap') ∧
      Effect heap i heap' i' b' (op.kept i) ∧ ArrayBlock h L b' (s.after op) := by
  cases op with
  | append x => exact rawAppend_block hcell hb x ha hst
  | extend xs => exact rawExtend_block hcell hb ha
  | reserve n => exact rawReserve_block hcell hb ha
  | pop =>
    obtain ⟨last, heap', b', -, hrun, he, hb'⟩ := rawPop_block hcell hb ha
    exact ⟨i, heap', b', Prog.bind_ok hrun, he, hb'⟩
  | swapRemove k =>
    obtain ⟨heap', b', hrun, he, hb'⟩ := rawSwapRemove_block hcell hb ha
    exact ⟨i, heap', b', hrun, he, hb'⟩
  | clear =>
    obtain ⟨heap', b', hrun, he, hb'⟩ := rawClear_block hcell hb
    exact ⟨i, heap', b', hrun, he, hb'⟩
  | copy =>
    obtain ⟨heap', b', hrun, he, hb'⟩ := rawCopy_block hcell hb
    exact ⟨heap.next, heap', b', hrun, he, hb'⟩

/-- A stuck operation stores behind the end of the block. -/
theorem ArrayOp.rawRun_stuck (hst : op.Stuck s) :
    ∃ heap', op.rawRun h .always L (.block i) heap = .error (.writePastEnd, heap') := by
  cases op with
  | append x =>
    obtain ⟨hcount, hcap⟩ := hst
    have hsz : h.headerSize + 1 * L.size < h.szMod := by
      have hroom := hb.room
      have hsize := hb.size_lt
      rw [hcap] at hroom
      omega
    have hgrown : grownCapacity h s.capacity = 1 := by
      have hbig := h.szMod_ge
      rw [hcap, grownCapacity, if_neg (by decide)]
      exact Host.sz_of_lt (by omega)
    obtain ⟨heap₁, b₁, hrealloc, he, hb₁, hsize⟩ :=
      rawRealloc_block hcell hb (Nat.le_of_eq hcount) hsz
    have hgrow : rawGrow h .always L (.block i) heap = .ok (.block heap.next, heap₁) := by
      rw [rawGrow, Prog.bind_ok (rawCount_ok hcell hb), Prog.bind_ok (rawCapacity_ok hcell hb),
        if_pos (hcount.trans hcap.symm), hgrown, hrealloc]
    -- The block that `realloc` gave ends where the second element would begin.
    have hout : memcpyTo (.block heap.next) (rawOffset h L 1) (L.encode x) heap₁ =
        .error (.writePastEnd, heap₁) := by
      refine memcpyTo_outside he.self ?_
      have hpos := L.size_pos
      rw [hsize, rawOffset, L.length_encode]
      omega
    refine ⟨heap₁, ?_⟩
    show rawAppend h .always L (.block i) x heap = _
    rw [rawAppend, Prog.bind_ok (existsPtr_block i heap), Prog.bind_ok hgrow,
      Prog.bind_ok (rawCount_ok he.self hb₁), hcount]
    exact Prog.bind_error hout
  | extend xs | reserve n | pop | swapRemove k | clear | copy => exact absurd hst not_false

end Operations

/-- A new array, in a block of its own. -/
theorem rawNew_block (h : Host) (L : Layout α) (heap : Heap) :
    ∃ heap' b', rawNew h .always heap = .ok (.block heap.next, heap') ∧
      Updated (heap.alloc h.headerSize) heap.next heap' b' ∧ ArrayBlock h L b' ⟨[], 0⟩ := by
  have hcell : (heap.alloc h.headerSize).cells heap.next = some ⟨h.headerSize, Mem.empty⟩ := by
    rw [Heap.alloc, Heap.new_cells, if_pos rfl]
  have hcount : 0 + (h.order.store h.word.bytes 0).length ≤ h.headerSize := by
    rw [length_store, Host.headerSize]
    omega
  have hcapacity : h.word.bytes + (h.order.store h.word.bytes 0).length ≤ h.headerSize := by
    rw [length_store, Host.headerSize]
    omega
  obtain ⟨heap₁, h₁, hu₁⟩ := memcpyTo_updated hcell hcount
  obtain ⟨heap₂, h₂, hu₂⟩ := memcpyTo_updated hu₁.self hcapacity
  refine ⟨heap₂, _, ?_, hu₁.trans hu₂, ArrayBlock.new h L⟩
  rw [rawNew, Prog.bind_ok (malloc_always _ heap), Prog.bind_ok (existsPtr_block _ _)]
  exact (Prog.bind_ok h₁).trans (Prog.bind_ok h₂)

end Tlv
