import Tlv.Frame
import Tlv.Runtime

/-!
# Serializers and `buf_append`

The five serializer macros of `tlv.c`, the functions made of them, and
`buf_append`. The four macros for scalars differ in the bytes they copy behind
the header only, so they are one definition, `emitFrame`, applied to those
bytes.

A `Call` names a serializer and its argument, and `sendStream` is the way the
library is used to build a stream: serialize, and join with `buf_append`.

Results: what a serializer leaves on the heap (`Call.run_always`), that this is
a frame with a big-endian length (`wire`), and that `sendStream` leaves the
frames joined in one block (`sendStream_always`).
-/

namespace Tlv
open Lib

/-- `UINT32_MAX`. -/
def uint32Max : Nat := 2 ^ 32 - 1

/-! ## The macros -/

/-- The common text of the macros for scalars: `target` is what they copy behind
the tag and the length. -/
def emitFrame (h : Host) (A : Allocator) (target : List Byte) (type : TypeTag) :
    CProg (Buffer Ptr) := do
  let b ← malloc A (1 + 4 + target.length)
  existsPtr b
  let len := htonl h.order (UInt32.ofNat target.length)
  memcpyTo b 0 [type.toByte]
  memcpyTo b 1 (h.order.store 4 len.toNat)
  memcpyTo b 5 target
  pure ⟨b, 5 + target.length⟩

/-- `simple_serialize`, which copies the value as it lies in memory. The library
uses it for the types of one byte. -/
def simpleSerialize (h : Host) (A : Allocator) (val : Byte) (type : TypeTag) :
    CProg (Buffer Ptr) :=
  emitFrame h A [val] type

def simpleSerialize16 (h : Host) (A : Allocator) (val : UInt16) (type : TypeTag) :
    CProg (Buffer Ptr) :=
  emitFrame h A (h.order.store 2 (htons h.order val).toNat) type

def simpleSerialize32 (h : Host) (A : Allocator) (val : UInt32) (type : TypeTag) :
    CProg (Buffer Ptr) :=
  emitFrame h A (h.order.store 4 (htonl h.order val).toNat) type

def simpleSerialize64 (h : Host) (A : Allocator) (val : UInt64) (type : TypeTag) :
    CProg (Buffer Ptr) :=
  emitFrame h A (h.order.store 8 (hton64 h.order val).toNat) type

/-- `complex_serialize`. The allocation comes before the length is checked. -/
def complexSerialize (h : Host) (A : Allocator) (val : Buffer Mem) (type : TypeTag) :
    CProg (Buffer Ptr) := do
  let bytes ← malloc A (h.sz (1 + 4 + val.len))
  existsPtr bytes
  if val.len > uint32Max then Prog.stop (.tooBig val.len)
  else do
    let len := htonl h.order (UInt32.ofNat val.len)
    memcpyTo bytes 0 [type.toByte]
    memcpyTo bytes 1 (h.order.store 4 len.toNat)
    let payload ← memcpyFrom val.bytes 0 val.len
    memcpyTo bytes 5 payload
    pure ⟨bytes, h.sz (5 + val.len)⟩

/-! ## The serializers -/

section Serializers
variable (h : Host) (A : Allocator)

def serializeU08 (n : UInt8) : CProg (Buffer Ptr) := simpleSerialize h A n .u08
def serializeU16 (n : UInt16) : CProg (Buffer Ptr) := simpleSerialize16 h A n .u16
def serializeU32 (n : UInt32) : CProg (Buffer Ptr) := simpleSerialize32 h A n .u32
def serializeChr (n : UInt32) : CProg (Buffer Ptr) := simpleSerialize32 h A n .chr
def serializeU64 (n : UInt64) : CProg (Buffer Ptr) := simpleSerialize64 h A n .u64
def serializeS08 (n : Int8) : CProg (Buffer Ptr) := simpleSerialize h A n.toUInt8 .s08
def serializeS16 (n : Int16) : CProg (Buffer Ptr) := simpleSerialize16 h A n.toUInt16 .s16
def serializeS32 (n : Int32) : CProg (Buffer Ptr) := simpleSerialize32 h A n.toUInt32 .s32
def serializeS64 (n : Int64) : CProg (Buffer Ptr) := simpleSerialize64 h A n.toUInt64 .s64
def serializeTim (n : Int64) : CProg (Buffer Ptr) := simpleSerialize64 h A n.toUInt64 .tim
/-- The argument is the bit pattern of the float. -/
def serializeF32 (bits : UInt32) : CProg (Buffer Ptr) := simpleSerialize32 h A bits .f32
/-- The argument is the bit pattern of the double. -/
def serializeF64 (bits : UInt64) : CProg (Buffer Ptr) := simpleSerialize64 h A bits .f64
def serializeBol (n : Bool) : CProg (Buffer Ptr) := simpleSerialize h A (if n then 1 else 0) .bol
def serializeBin (buf : Buffer Mem) : CProg (Buffer Ptr) := complexSerialize h A buf .bin
def serializeStr (string : Buffer Mem) : CProg (Buffer Ptr) := complexSerialize h A string .str
def serializeErr (error : Buffer Mem) : CProg (Buffer Ptr) := complexSerialize h A error .err

/-- `strlen` of a character array. -/
def strlen (s : List Byte) : Nat := (s.takeWhile (· ≠ 0)).length

def serializeCstr (s : List Byte) : CProg (Buffer Ptr) :=
  serializeStr h A ⟨Mem.ofList s, strlen s⟩

/-- `buf_append`. -/
def bufAppend (base after : Buffer Ptr) : CProg (Buffer Ptr) := do
  let newBytes ← realloc A base.bytes (h.sz (base.len + after.len))
  existsPtr newBytes
  let src ← lend after
  let bytes ← memcpyFrom src.bytes 0 after.len
  memcpyTo newBytes base.len bytes
  free after.bytes
  pure ⟨newBytes, h.sz (base.len + after.len)⟩

end Serializers

/-! ## Calls and streams -/

/-- A C string: characters other than NUL, and the NUL behind them. -/
structure CString where
  chars : List Byte
  nulFree : (0 : Byte) ∉ chars

/-- The array that holds the string. -/
def CString.array (s : CString) : List Byte := s.chars ++ [0]

theorem strlen_array (s : CString) : strlen s.array = s.chars.length := by
  have hall : ∀ b ∈ s.chars, (decide (b ≠ 0)) = true := by
    intro b hb
    simp only [ne_eq, decide_not, Bool.not_eq_true', decide_eq_false_iff_not]
    rintro rfl
    exact s.nulFree hb
  rw [strlen, CString.array, List.takeWhile_append_of_pos hall]
  simp

/-- A serializer and its argument. -/
inductive Call
  | u08 (n : UInt8)
  | u16 (n : UInt16)
  | u32 (n : UInt32)
  | u64 (n : UInt64)
  | s08 (n : Int8)
  | s16 (n : Int16)
  | s32 (n : Int32)
  | s64 (n : Int64)
  | f32 (bits : UInt32)
  | f64 (bits : UInt64)
  | str (bytes : List Byte)
  | bol (b : Bool)
  | bin (bytes : List Byte)
  | tim (n : Int64)
  | chr (n : UInt32)
  | err (bytes : List Byte)
  | cstr (s : CString)

namespace Call

def run (h : Host) (A : Allocator) : Call → CProg (Buffer Ptr)
  | .u08 n => serializeU08 h A n
  | .u16 n => serializeU16 h A n
  | .u32 n => serializeU32 h A n
  | .u64 n => serializeU64 h A n
  | .s08 n => serializeS08 h A n
  | .s16 n => serializeS16 h A n
  | .s32 n => serializeS32 h A n
  | .s64 n => serializeS64 h A n
  | .f32 bits => serializeF32 h A bits
  | .f64 bits => serializeF64 h A bits
  | .str bytes => serializeStr h A ⟨Mem.ofList bytes, bytes.length⟩
  | .bol b => serializeBol h A b
  | .bin bytes => serializeBin h A ⟨Mem.ofList bytes, bytes.length⟩
  | .tim n => serializeTim h A n
  | .chr n => serializeChr h A n
  | .err bytes => serializeErr h A ⟨Mem.ofList bytes, bytes.length⟩
  | .cstr s => serializeCstr h A s.array

/-- The message that the receiver should get. -/
def message : Call → Message (List Byte)
  | .u08 n => ⟨.u08, .u08 n⟩
  | .u16 n => ⟨.u16, .u16 n⟩
  | .u32 n => ⟨.u32, .u32 n⟩
  | .u64 n => ⟨.u64, .u64 n⟩
  | .s08 n => ⟨.s08, .s08 n⟩
  | .s16 n => ⟨.s16, .s16 n⟩
  | .s32 n => ⟨.s32, .s32 n⟩
  | .s64 n => ⟨.s64, .s64 n⟩
  | .f32 bits => ⟨.f32, .f32 bits⟩
  | .f64 bits => ⟨.f64, .f64 bits⟩
  | .str bytes => ⟨.str, .str bytes⟩
  | .bol b => ⟨.bol, .bol (if b then 1 else 0)⟩
  | .bin bytes => ⟨.bin, .bin bytes⟩
  | .tim n => ⟨.tim, .tim n⟩
  | .chr n => ⟨.chr, .chr n⟩
  | .err bytes => ⟨.err, .err bytes⟩
  | .cstr s => ⟨.str, .str s.chars⟩

/-- What the serializer copies behind the header, on a host of the given byte
order. -/
def target (o : ByteOrder) (c : Call) : List Byte := c.message.val.bytes o

/-- The payload is not longer than `UINT32_MAX`. -/
def Fits : Call → Prop
  | .str bytes | .bin bytes | .err bytes => bytes.length ≤ uint32Max
  | .cstr s => s.chars.length ≤ uint32Max
  | _ => True

end Call

/-- Append one frame after another to a stream. Each program makes a frame. -/
def joinAll (h : Host) (A : Allocator) (stream : Buffer Ptr) :
    List (CProg (Buffer Ptr)) → CProg (Buffer Ptr)
  | [] => pure stream
  | p :: ps => do
    let frame ← p
    let stream ← bufAppend h A stream frame
    joinAll h A stream ps

/-- Make the frames and join them, left to right. -/
def sendAll (h : Host) (A : Allocator) : List (CProg (Buffer Ptr)) → CProg (Buffer Ptr)
  | [] => pure ⟨.null, 0⟩
  | p :: ps => do
    let stream ← p
    joinAll h A stream ps

/-- Serialize the values and join the frames. -/
def sendStream (h : Host) (A : Allocator) (cs : List Call) : CProg (Buffer Ptr) :=
  sendAll h A (cs.map (Call.run h A))

/-! ## What they leave on the heap -/

/-- The bytes that a serializer writes. -/
def Call.wire (o : ByteOrder) (c : Call) : List Byte := frameBytes c.message.type (c.target o)

/-- The bytes that a list of serializers writes. -/
def wireStream (o : ByteOrder) (cs : List Call) : List Byte := cs.flatMap (Call.wire o)

variable {h : Host} {heap heap' : Heap}

/-- The length field holds the big-endian bytes of the length. -/
theorem store_htonl_length (o : ByteOrder) {n : Nat} (hn : n ≤ uint32Max) :
    o.store 4 (htonl o (UInt32.ofNat n)).toNat = beBytes 4 n := by
  have hlt : n < 2 ^ 32 := by
    unfold uint32Max at hn
    omega
  rw [toNat_htonl, store_toNet, UInt32.toNat_ofNat', Nat.mod_eq_of_lt hlt]

/-- The three copies of a frame into a fresh block, which end with the frame. -/
theorem write_frame {type : TypeTag} {body : List Byte} :
    ((Mem.empty.write 0 [type.toByte]).write 1 (beBytes 4 body.length)).write 5 body =
      Mem.ofList (frameBytes type body) := by
  have h1 := Mem.write_ofList [] [type.toByte]
  have h2 := Mem.write_ofList [type.toByte] (beBytes 4 body.length)
  have h3 := Mem.write_ofList (type.toByte :: beBytes 4 body.length) body
  simp only [List.length_cons, List.length_nil, length_beBytes, List.nil_append,
    List.singleton_append] at h1 h2 h3
  rw [← Mem.ofList_nil, h1, h2, h3, frameBytes, List.cons_append]

theorem emitFrame_always {type : TypeTag} {body : List Byte} (hn : body.length ≤ uint32Max) :
    emitFrame h .always body type heap =
      .ok (⟨.block heap.next, 5 + body.length⟩,
        heap.new (5 + body.length) (Mem.ofList (frameBytes type body))) := by
  have hlen := length_beBytes 4 body.length
  rw [emitFrame, Prog.bind_ok (malloc_always _ _), Prog.bind_ok (existsPtr_block _ _), Heap.alloc,
    Prog.bind_ok (memcpyTo_new (by simp; omega)), store_htonl_length _ hn,
    Prog.bind_ok (memcpyTo_new (by simp)), Prog.bind_ok (memcpyTo_new (by omega)), write_frame]
  rfl

/-- `complex_serialize` when the allocation succeeds and the length is in range. -/
theorem complexSerialize_granted {A : Allocator} {val : Buffer Mem} {type : TypeTag}
    {body : List Byte} (hread : val.bytes.read 0 val.len = some body) (hn : val.len ≤ uint32Max)
    (hsz : 5 + val.len < h.szMod) (hA : A heap.next (h.sz (5 + val.len)) = true) :
    complexSerialize h A val type heap =
      .ok (⟨.block heap.next, 5 + body.length⟩,
        heap.new (5 + body.length) (Mem.ofList (frameBytes type body))) := by
  have hbody : val.len = body.length := (Mem.length_of_read hread).symm
  rw [complexSerialize, Prog.bind_ok (malloc_granted hA), Prog.bind_ok (existsPtr_block _ _),
    if_neg (Nat.not_lt.mpr hn), Host.sz_of_lt hsz, Heap.alloc, hbody,
    Prog.bind_ok (memcpyTo_new (by simp; omega)), store_htonl_length _ (hbody ▸ hn),
    Prog.bind_ok (memcpyTo_new (by simp)),
    Prog.bind_ok (memcpyFrom_some (hbody ▸ hread) _),
    Prog.bind_ok (memcpyTo_new (by omega)), write_frame]
  rfl

theorem complexSerialize_refused {A : Allocator} {val : Buffer Mem} {type : TypeTag}
    (hA : ¬ A heap.next (h.sz (5 + val.len)) = true) :
    complexSerialize h A val type heap = .error (.nullPointer, heap) :=
  malloc_exists_refused hA

/-- A length out of range is found out after the allocation, before any byte is written. -/
theorem complexSerialize_tooBig {A : Allocator} {val : Buffer Mem} {type : TypeTag}
    (hn : val.len > uint32Max) (hA : A heap.next (h.sz (5 + val.len)) = true) :
    complexSerialize h A val type heap =
      .error (.tooBig val.len, heap.alloc (h.sz (5 + val.len))) := by
  rw [complexSerialize, Prog.bind_ok (malloc_granted hA), Prog.bind_ok (existsPtr_block _ _),
    if_pos hn]
  rfl

theorem complexSerialize_always {val : Buffer Mem} {type : TypeTag} {body : List Byte}
    (hread : val.bytes.read 0 val.len = some body) (hn : val.len ≤ uint32Max)
    (hsz : 5 + val.len < h.szMod) :
    complexSerialize h .always val type heap =
      .ok (⟨.block heap.next, 5 + body.length⟩,
        heap.new (5 + body.length) (Mem.ofList (frameBytes type body))) :=
  complexSerialize_granted hread hn hsz rfl

/-- The frame that a serializer of payloads returned. -/
theorem complexSerialize_frame {A : Allocator} {val : Buffer Mem} {type : TypeTag}
    {body : List Byte} {b : Buffer Ptr}
    (hr : complexSerialize h A val type heap = .ok (b, heap'))
    (hread : val.bytes.read 0 val.len = some body) (hn : val.len ≤ uint32Max)
    (hsz : 5 + val.len < h.szMod) : bufBytes heap' b = some (frameBytes type body) := by
  by_cases hA : A heap.next (h.sz (5 + val.len)) = true
  · rw [complexSerialize_granted hread hn hsz hA] at hr
    cases hr
    rw [← length_frameBytes type body]
    exact (HoldsBytes.new_self heap (frameBytes type body)).bufBytes
  · rw [complexSerialize_refused hA] at hr
    cases hr

theorem Call.run_always {c : Call} (hc : c.Fits) (hsz : (c.wire h.order).length < h.szMod) :
    c.run h .always heap =
      .ok (⟨.block heap.next, (c.wire h.order).length⟩,
        heap.new (c.wire h.order).length (Mem.ofList (c.wire h.order))) := by
  have hpay : ∀ (bs : List Byte), (Mem.ofList bs).read 0 bs.length = some bs := fun bs => by
    rw [Mem.read_ofList (by simp)]
    simp
  have hscalar : ∀ k, k ≤ 8 → k ≤ uint32Max := fun k hk => Nat.le_trans hk (by decide)
  rw [Call.wire, length_frameBytes] at hsz ⊢
  cases c with
  | str bytes | bin bytes | err bytes => exact complexSerialize_always (hpay bytes) hc hsz
  | cstr s =>
    have hc' : strlen s.array ≤ uint32Max := (strlen_array s).symm ▸ hc
    have hsz' : 5 + strlen s.array < h.szMod := (strlen_array s).symm ▸ hsz
    refine complexSerialize_always ?_ hc' hsz'
    show (Mem.ofList s.array).read 0 (strlen s.array) = some s.chars
    rw [strlen_array, Mem.read_ofList (by simp [CString.array])]
    simp [CString.array]
  | _ => exact emitFrame_always (hscalar _ (by simp))

/-- `buf_append` of two blocks that consist of the bytes of their buffers: one
new block holds both, and the two are released. -/
theorem bufAppend_always {i j : Nat} {xs ys : List Byte} (hi : HoldsBytes heap i xs)
    (hj : HoldsBytes heap j ys) (hij : i ≠ j) (hsz : (xs ++ ys).length < h.szMod) :
    bufAppend h .always ⟨.block i, xs.length⟩ ⟨.block j, ys.length⟩ heap =
      .ok (⟨.block heap.next, (xs ++ ys).length⟩,
        ((heap.drop i).new (xs ++ ys).length (Mem.ofList (xs ++ ys))).drop j) := by
  have hlen : xs.length + ys.length = (xs ++ ys).length := List.length_append.symm
  have hcut : (Mem.ofList xs).cut (xs ++ ys).length = Mem.ofList xs :=
    Mem.cut_ofList (by omega)
  have hread : (ptrView ((heap.drop i).new (xs ++ ys).length (Mem.ofList xs)) (.block j)).read 0
      ys.length = some ys :=
    (hj.drop hij.symm).new.bufBytes
  have hstore : memcpyTo (.block heap.next) xs.length ys
      ((heap.drop i).new (xs ++ ys).length (Mem.ofList xs)) =
      .ok ((), (heap.drop i).new (xs ++ ys).length (Mem.ofList (xs ++ ys))) := by
    rw [← Mem.write_ofList xs ys]
    exact memcpyTo_new (h := heap.drop i) (by omega)
  rw [bufAppend, hlen, Host.sz_of_lt hsz, Prog.bind_ok (realloc_always hi _), hcut,
    Prog.bind_ok (existsPtr_block _ _), Prog.bind_ok (x := lend _) rfl,
    Prog.bind_ok (memcpyFrom_some hread _), Prog.bind_ok hstore,
    Prog.bind_ok (free_block (hj.drop hij.symm).new)]
  rfl

/-! ## Frames that are joined -/

/-- The blocks of `base` are still there. -/
structure Keeps (base heap : Heap) : Prop where
  le : base.next ≤ heap.next
  cells : ∀ i < base.next, heap.cells i = base.cells i

namespace Keeps

variable {base : Heap}

theorem refl (base : Heap) : Keeps base base := ⟨Nat.le_refl _, fun _ _ => rfl⟩

theorem new (hk : Keeps base heap) (n : Nat) (m : Mem) : Keeps base (heap.new n m) where
  le := Nat.le_succ_of_le hk.le
  cells := fun i hi => by
    have hne : i ≠ heap.next := Nat.ne_of_lt (Nat.lt_of_lt_of_le hi hk.le)
    rw [Heap.new_cells, if_neg hne, hk.cells i hi]

theorem drop (hk : Keeps base heap) {j : Nat} (hj : base.next ≤ j) : Keeps base (heap.drop j) where
  le := hk.le
  cells := fun i hi => by
    have hne : i ≠ j := Nat.ne_of_lt (Nat.lt_of_lt_of_le hi hj)
    rw [Heap.drop_cells, if_neg hne, hk.cells i hi]

end Keeps

/-- Wherever the blocks of `base` are still there, the program makes one new
block that holds `bs`. -/
def Emits (base : Heap) (p : CProg (Buffer Ptr)) (bs : List Byte) : Prop :=
  ∀ heap, Keeps base heap →
    p heap = .ok (⟨.block heap.next, bs.length⟩, heap.new bs.length (Mem.ofList bs))

variable {base : Heap} {ps : List (CProg (Buffer Ptr))} {frames : List (List Byte)}

theorem joinAll_always (hps : List.Forall₂ (Emits base) ps frames) {i : Nat} {xs : List Byte}
    (hk : Keeps base heap) (hbi : base.next ≤ i) (hi : HoldsBytes heap i xs)
    (hsz : (xs ++ frames.flatten).length < h.szMod) :
    ∃ k heap', joinAll h .always ⟨.block i, xs.length⟩ ps heap =
        .ok (⟨.block k, (xs ++ frames.flatten).length⟩, heap') ∧
      HoldsBytes heap' k (xs ++ frames.flatten) := by
  induction hps generalizing heap i xs with
  | nil => exact ⟨i, heap, by simp [joinAll], by simpa using hi⟩
  | @cons p frame ps frames hp _ ih =>
    have hsplit : xs ++ (frame :: frames).flatten = (xs ++ frame) ++ frames.flatten := by simp
    rw [hsplit] at hsz ⊢
    have hlt := Heap.lt_next_of_cells hi
    have hle := hk.le
    have happ := bufAppend_always (h := h) hi.new (HoldsBytes.new_self heap frame)
      (Nat.ne_of_lt hlt) (by simp only [List.length_append] at hsz ⊢; omega)
    obtain ⟨k, heap', hjoin, hholds⟩ := ih
      ((((hk.new _ _).drop hbi).new _ _).drop hk.le) (Nat.le_succ_of_le hk.le)
      ((HoldsBytes.new_self _ _).drop (Nat.succ_ne_self _)) hsz
    refine ⟨k, heap', ?_, hholds⟩
    rw [joinAll, Prog.bind_ok (hp heap hk), Prog.bind_ok happ]
    exact hjoin

/-- Frames that are joined are one block with the frames in order. -/
theorem sendAll_always (hps : List.Forall₂ (Emits heap) ps frames) (hne : ps ≠ [])
    (hsz : frames.flatten.length < h.szMod) :
    ∃ k heap', sendAll h .always ps heap =
        .ok (⟨.block k, frames.flatten.length⟩, heap') ∧ HoldsBytes heap' k frames.flatten := by
  cases hps with
  | nil => exact absurd rfl hne
  | @cons p frame ps frames hp hps =>
    obtain ⟨k, heap', hjoin, hholds⟩ := joinAll_always hps ((Keeps.refl heap).new _ _)
      (Nat.le_refl _) (HoldsBytes.new_self heap frame) hsz
    exact ⟨k, heap', (Prog.bind_ok (hp heap (Keeps.refl heap))).trans hjoin, hholds⟩

/-- A stream that is sent is one block holding the frames in order. -/
theorem sendStream_always {cs : List Call} (hne : cs ≠ []) (hcs : ∀ c ∈ cs, c.Fits)
    (hsz : (wireStream h.order cs).length < h.szMod) (heap : Heap) :
    ∃ k heap', sendStream h .always cs heap =
        .ok (⟨.block k, (wireStream h.order cs).length⟩, heap') ∧
      HoldsBytes heap' k (wireStream h.order cs) := by
  have hlen : ∀ c ∈ cs, (c.wire h.order).length < h.szMod := fun c hc =>
    Nat.lt_of_le_of_lt (List.sublist_flatten_of_mem (List.mem_map_of_mem hc)).length_le hsz
  have hemits : List.Forall₂ (Emits heap) (cs.map (Call.run h .always))
      (cs.map (Call.wire h.order)) := by
    rw [List.forall₂_map_left_iff, List.forall₂_map_right_iff, List.forall₂_same]
    exact fun c hc _ _ => Call.run_always (hcs c hc) (hlen c hc)
  exact sendAll_always hemits (by simpa using hne) hsz

end Tlv
