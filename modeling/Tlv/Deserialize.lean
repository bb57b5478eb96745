import Tlv.Lib.WhileLoop
import Tlv.DynArr

/-!
# `deserialize`

The decoder of `tlv.c`, over a heap and over the memory that the caller lends.
The buffer's `bytes` are a partial memory: a run over the memory of exactly
`buf.len` bytes tells whether the decoder stays inside the buffer, and a run over
a larger memory is what happens when it does not.

The source's loop need not end, so `deserialize` takes a number of passes and
answers `none` when they do not suffice; `Deserializes` abstracts from it.
-/

namespace Tlv
open Lib

/-- `memcpy` of `n` bytes into a number of that size, on the host's byte order. -/
def loadFrom (h : Host) (m : Mem) (off n : Nat) : CProg Nat := do
  let bs ← memcpyFrom m off n
  pure (h.order.load bs)

/-- The cases `T_BIN`, `T_ERR` and `T_STR`. -/
def decodePayload (A : Allocator) (m : Mem) (current len : Nat) : CProg (Buffer Ptr) := do
  let bytes ← malloc A len
  existsPtr bytes
  let payload ← memcpyFrom m (current + 5) len
  memcpyTo bytes 0 payload
  pure ⟨bytes, len⟩

/-- The `switch` over the known tags. `len` is the declared length, which only
the payload cases use. -/
def decodeValue (h : Host) (A : Allocator) (m : Mem) (current len : Nat) :
    TypeTag → CProg (Union (Buffer Ptr))
  | .nul => pure .zero
  | .u08 => do
    let b ← loadFrom h m (current + 5) 1
    pure (.u08 (UInt8.ofNat b))
  | .u16 => do
    let tmp ← loadFrom h m (current + 5) 2
    pure (.u16 (ntohs h.order (UInt16.ofNat tmp)))
  | .u32 => do
    let tmp ← loadFrom h m (current + 5) 4
    pure (.u32 (ntohl h.order (UInt32.ofNat tmp)))
  | .u64 => do
    let tmp ← loadFrom h m (current + 5) 8
    pure (.u64 (ntoh64 h.order (UInt64.ofNat tmp)))
  | .s08 => do
    let b ← loadFrom h m (current + 5) 1
    pure (.s08 (UInt8.ofNat b).toInt8)
  | .s16 => do
    let tmp ← loadFrom h m (current + 5) 2
    pure (.s16 (ntohs h.order (UInt16.ofNat tmp)).toInt16)
  | .s32 => do
    let tmp ← loadFrom h m (current + 5) 4
    pure (.s32 (ntohl h.order (UInt32.ofNat tmp)).toInt32)
  | .s64 => do
    let tmp ← loadFrom h m (current + 5) 8
    let tmp := (UInt64.ofNat tmp).toInt64
    pure (.s64 (ntoh64 h.order tmp.toUInt64).toInt64)
  | .f32 => do
    let tmp1 ← loadFrom h m (current + 5) 4
    pure (.f32 (ntohl h.order (UInt32.ofNat tmp1)))
  | .f64 => do
    let tmp1 ← loadFrom h m (current + 5) 8
    pure (.f64 (ntoh64 h.order (UInt64.ofNat tmp1)))
  | .bol => do
    let b ← loadFrom h m (current + 5) 1
    pure (.bol (UInt8.ofNat b))
  | .tim => do
    let tmp ← loadFrom h m (current + 5) 8
    let tmp := (UInt64.ofNat tmp).toInt64
    pure (.tim (ntoh64 h.order tmp.toUInt64).toInt64)
  | .chr => do
    let tmp ← loadFrom h m (current + 5) 4
    pure (.chr (ntohl h.order (UInt32.ofNat tmp)))
  | .bin => do
    let b ← decodePayload A m current len
    pure (.bin b)
  | .err => do
    let b ← decodePayload A m current len
    pure (.err b)
  | .str => do
    let b ← decodePayload A m current len
    pure (.str b)

/-- The variables of the loop. -/
structure DecodeState where
  offset : Nat
  len : Nat
  messages : DynArr (Message (Buffer Ptr))

/-- One pass of the loop, with the step `offset += 5 + len` at its end. -/
def deserializePass (h : Host) (A : Allocator) (m : Mem) (s : DecodeState) :
    CProg DecodeState := do
  let current := s.offset
  let tag ← loadFrom h m current 1
  let rawLen ← loadFrom h m (current + 1) 4
  let len := (ntohl h.order (UInt32.ofNat rawLen)).toNat
  match TypeTag.ofByte (UInt8.ofNat tag) with
  | none => Prog.stop (.badType (UInt8.ofNat tag)) -- the `default` of the switch
  | some type =>
    let val ← decodeValue h A m current len type
    let messages ← daAppend h A h.messageSize s.messages ⟨type, val⟩
    pure ⟨h.sz (s.offset + h.sz (5 + len)), len, messages⟩

/-- The loop of `deserialize` over a buffer of `bufLen` bytes. -/
def deserializeLoop (h : Host) (A : Allocator) (m : Mem) (bufLen : Nat) :
    WhileLoop (DecodeState × Heap) (Fault × Heap) where
  guard s := s.1.offset < bufLen
  body s := deserializePass h A m s.1 s.2

/-- What a call of `deserialize` comes to: the array, or a fault; and the heap. -/
abbrev Decoded := Except (Fault × Heap) (DynArr (Message (Buffer Ptr)) × Heap)

/-- `deserialize`, with at most `passes` passes of its loop. -/
def deserialize (h : Host) (A : Allocator) (buf : Buffer (Option Mem)) (passes : Nat)
    (heap : Heap) : Option Decoded :=
  match buf.bytes with
  | none => some (.error (.nullPointer, heap))
  | some m =>
    match daNew h A heap with
    | .error e => some (.error e)
    | .ok (messages, heap) =>
      ((deserializeLoop h A m buf.len).run passes (⟨0, 0, messages⟩, heap)).map
        (Except.map fun s => (s.1.messages, s.2))

/-- A call of `deserialize` comes to `o`. -/
def Deserializes (h : Host) (A : Allocator) (buf : Buffer (Option Mem)) (heap : Heap)
    (o : Decoded) : Prop :=
  ∃ passes, deserialize h A buf passes heap = some o

/-- A call of `deserialize` gets to the end of its loop with the variables `s`. -/
def Finishes (h : Host) (A : Allocator) (buf : Buffer (Option Mem)) (heap : Heap)
    (s : DecodeState) (heap' : Heap) : Prop :=
  ∃ m messages heap₁, buf.bytes = some m ∧ daNew h A heap = .ok (messages, heap₁) ∧
    (deserializeLoop h A m buf.len).Ends (⟨0, 0, messages⟩, heap₁) (.ok (s, heap'))

/-- Then it returns the array. -/
theorem Finishes.deserializes {h : Host} {A : Allocator} {buf : Buffer (Option Mem)}
    {heap heap' : Heap} {s : DecodeState} (hf : Finishes h A buf heap s heap') :
    Deserializes h A buf heap (.ok (s.messages, heap')) := by
  obtain ⟨m, messages, heap₁, hm, hnew, n, hn⟩ := hf
  refine ⟨n, ?_⟩
  simp only [deserialize, hm, hnew, hn]
  rfl

/-- A buffer of which exactly its `len` bytes can be read. -/
def received (bs : List Byte) : Buffer (Option Mem) := ⟨some (Mem.ofList bs), bs.length⟩

end Tlv
