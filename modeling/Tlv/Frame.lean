import Tlv.Lib.Memory
import Tlv.Basic

/-!
# The wire format

The layout that `tlv.h` documents, on byte strings: a frame is one tag byte, the
length of the value as four bytes big-endian, and the value. A stream is a
concatenation of frames. Nothing here is about a host.

* `TypeTag.width`: how many bytes of value a tag goes with.
* `Frame`, `stream`: a frame of a known tag, with any body.
* `Frame.Legal`: the body is an encoding for the tag. `Frame.Padded`: it is at
  least as long as one.
* `unionOf`: the value that a host reads from the bytes, and `referenceUnion`,
  the value they stand for. The two agree on a little-endian host
  (`unionOf_little`).
-/

namespace Tlv
open Lib

/-! ## Widths -/

/-- The width of the value of a tag. The payload types have any width, the one
that the frame declares. -/
def TypeTag.width (t : TypeTag) (declared : Nat) : Nat :=
  match t with
  | .nul => 0
  | .u08 | .s08 | .bol => 1
  | .u16 | .s16 => 2
  | .u32 | .s32 | .f32 | .chr => 4
  | .u64 | .s64 | .f64 | .tim => 8
  | .str | .bin | .err => declared

/-- The tags whose value is a counted byte string. -/
def TypeTag.isPayload : TypeTag → Bool
  | .str | .bin | .err => true
  | _ => false

theorem TypeTag.width_of_isPayload {t : TypeTag} (h : t.isPayload = true) (n : Nat) :
    t.width n = n := by
  cases t with
  | str | bin | err => rfl
  | _ => cases h

/-! ## Frames -/

/-- The bytes of a frame: tag, big-endian length, value. -/
def frameBytes (type : TypeTag) (body : List Byte) : List Byte :=
  type.toByte :: (beBytes 4 body.length ++ body)

@[simp] theorem length_frameBytes (type : TypeTag) (body : List Byte) :
    (frameBytes type body).length = 5 + body.length := by
  simp [frameBytes]
  omega

/-- Frames of one tag differ in their values. -/
theorem frameBytes_inj {type : TypeTag} {as bs : List Byte}
    (heq : frameBytes type as = frameBytes type bs) : as = bs := by
  have htail := List.tail_eq_of_cons_eq heq
  have hlen : (beBytes 4 as.length).length = (beBytes 4 bs.length).length := by simp
  exact (List.append_inj htail hlen).2

/-- A frame of a known tag. Its length fits the length field. -/
structure Frame where
  type : TypeTag
  body : List Byte
  fits : body.length < 2 ^ 32

namespace Frame

def bytes (f : Frame) : List Byte := frameBytes f.type f.body

@[simp] theorem length_bytes (f : Frame) : f.bytes.length = 5 + f.body.length :=
  length_frameBytes f.type f.body

theorem bytes_eq (f : Frame) : f.bytes = f.type.toByte :: (beBytes 4 f.body.length ++ f.body) := rfl

/-- The body is a legal encoding for the tag: it has the width of the tag, and a
boolean is 0 or 1. -/
def Legal (f : Frame) : Prop :=
  f.body.length = f.type.width f.body.length ∧
    (f.type = .bol → f.body = [0] ∨ f.body = [1])

instance (f : Frame) : Decidable f.Legal :=
  inferInstanceAs (Decidable (_ ∧ (_ → _ ∨ _)))

/-- The body is at least as wide as the tag demands. -/
def Padded (f : Frame) : Prop := f.type.width f.body.length ≤ f.body.length

instance (f : Frame) : Decidable f.Padded := inferInstanceAs (Decidable (_ ≤ _))

theorem Legal.padded {f : Frame} (h : f.Legal) : f.Padded := Nat.le_of_eq h.1.symm

/-- Two frames are equal when tag and body are. -/
theorem ext' {f g : Frame} (ht : f.type = g.type) (hb : f.body = g.body) : f = g := by
  cases f
  cases g
  cases ht
  cases hb
  rfl

end Frame

/-- The bytes of a list of frames. -/
def stream (fs : List Frame) : List Byte := fs.flatMap Frame.bytes

@[simp] theorem stream_nil : stream [] = [] := rfl

@[simp] theorem stream_cons (f : Frame) (fs : List Frame) :
    stream (f :: fs) = f.bytes ++ stream fs := rfl

theorem stream_append (fs gs : List Frame) : stream (fs ++ gs) = stream fs ++ stream gs :=
  List.flatMap_append

theorem length_stream_split (gs gs' : List Frame) (f : Frame) :
    (stream (gs ++ f :: gs')).length =
      (stream gs).length + (5 + f.body.length) + (stream gs').length := by
  rw [stream_append, stream_cons, List.length_append, List.length_append, f.length_bytes]
  omega

theorem five_mul_length_le_stream (fs : List Frame) : 5 * fs.length ≤ (stream fs).length := by
  induction fs with
  | nil => simp
  | cons f fs ih =>
    rw [stream_cons, List.length_append, f.length_bytes, List.length_cons]
    omega

/-! ## What the bytes stand for -/

/-- The member of the union that a host of the given byte order makes of the
value bytes. A payload is kept in `payload`. -/
def unionOf {β : Type} (o : ByteOrder) (t : TypeTag) (bs : List Byte) (payload : β) : Union β :=
  match t with
  | .nul => .zero
  | .u08 => .u08 (UInt8.ofNat (o.load bs))
  | .u16 => .u16 (ntohs o (UInt16.ofNat (o.load bs)))
  | .u32 => .u32 (ntohl o (UInt32.ofNat (o.load bs)))
  | .u64 => .u64 (ntoh64 o (UInt64.ofNat (o.load bs)))
  | .s08 => .s08 (UInt8.ofNat (o.load bs)).toInt8
  | .s16 => .s16 (ntohs o (UInt16.ofNat (o.load bs))).toInt16
  | .s32 => .s32 (ntohl o (UInt32.ofNat (o.load bs))).toInt32
  | .s64 => .s64 (ntoh64 o (UInt64.ofNat (o.load bs))).toInt64
  | .f32 => .f32 (ntohl o (UInt32.ofNat (o.load bs)))
  | .f64 => .f64 (ntoh64 o (UInt64.ofNat (o.load bs)))
  | .str => .str payload
  | .bol => .bol (UInt8.ofNat (o.load bs))
  | .bin => .bin payload
  | .tim => .tim (ntoh64 o (UInt64.ofNat (o.load bs))).toInt64
  | .chr => .chr (ntohl o (UInt32.ofNat (o.load bs)))
  | .err => .err payload

/-- The value bytes that a host of the given byte order writes for a member of the
union. -/
def Union.bytes (o : ByteOrder) : Union (List Byte) → List Byte
  | .zero => []
  | .u08 n => [n]
  | .u16 n => o.store 2 (htons o n).toNat
  | .u32 n | .f32 n | .chr n => o.store 4 (htonl o n).toNat
  | .u64 n | .f64 n => o.store 8 (hton64 o n).toNat
  | .s08 n => [n.toUInt8]
  | .s16 n => o.store 2 (htons o n.toUInt16).toNat
  | .s32 n => o.store 4 (htonl o n.toUInt32).toNat
  | .s64 n | .tim n => o.store 8 (hton64 o n.toUInt64).toNat
  | .bol raw => [raw]
  | .str b | .bin b | .err b => b

/-- The value that a body stands for: the number whose big-endian bytes it is,
in two's complement for the signed types, as a bit pattern for the floats. -/
def referenceUnion (t : TypeTag) (body : List Byte) : Union (List Byte) :=
  match t with
  | .nul => .zero
  | .u08 => .u08 (UInt8.ofNat (beNat body))
  | .u16 => .u16 (UInt16.ofNat (beNat body))
  | .u32 => .u32 (UInt32.ofNat (beNat body))
  | .u64 => .u64 (UInt64.ofNat (beNat body))
  | .s08 => .s08 (Int8.ofNat (beNat body))
  | .s16 => .s16 (Int16.ofNat (beNat body))
  | .s32 => .s32 (Int32.ofNat (beNat body))
  | .s64 => .s64 (Int64.ofNat (beNat body))
  | .f32 => .f32 (UInt32.ofNat (beNat body))
  | .f64 => .f64 (UInt64.ofNat (beNat body))
  | .str => .str body
  | .bol => .bol (UInt8.ofNat (beNat body))
  | .bin => .bin body
  | .tim => .tim (Int64.ofNat (beNat body))
  | .chr => .chr (UInt32.ofNat (beNat body))
  | .err => .err body

/-- The message that a frame stands for. -/
def Frame.reference (f : Frame) : Message (List Byte) := ⟨f.type, referenceUnion f.type f.body⟩

section Loads
variable (o : ByteOrder) {bs : List Byte}

theorem load_single (b : Byte) : o.load [b] = b.toNat := by
  cases o <;> simp [ByteOrder.load, leNat, beNat]

theorem ntohs_load (h : bs.length = 2) :
    ntohs o (UInt16.ofNat (o.load bs)) = UInt16.ofNat (beNat bs) := by
  have hlt : o.load bs < 2 ^ 16 := by simpa [h] using load_lt o bs
  rw [ntohs, UInt16.toNat_ofNat', Nat.mod_eq_of_lt hlt, ← h, toNet_load]

theorem ntohl_load (h : bs.length = 4) :
    ntohl o (UInt32.ofNat (o.load bs)) = UInt32.ofNat (beNat bs) := by
  have hlt : o.load bs < 2 ^ 32 := by simpa [h] using load_lt o bs
  rw [ntohl, UInt32.toNat_ofNat', Nat.mod_eq_of_lt hlt, ← h, toNet_load]

/-- The declared length, as the decoder reads it from its four bytes. -/
theorem toNat_ntohl_load (h : bs.length = 4) :
    (ntohl o (UInt32.ofNat (o.load bs))).toNat = beNat bs := by
  have hlt : beNat bs < 2 ^ 32 := by simpa [h] using beNat_lt bs
  rw [ntohl_load o h, UInt32.toNat_ofNat', Nat.mod_eq_of_lt hlt]

/-- A host reads back the numbers that it wrote. -/
theorem ntohs_load_store (n : UInt16) :
    ntohs o (UInt16.ofNat (o.load (o.store 2 (htons o n).toNat))) = n := by
  have hlt : (htons o n).toNat < 256 ^ 2 := (htons o n).toNat_lt
  rw [load_store, Nat.mod_eq_of_lt hlt, UInt16.ofNat_toNat, ntohs_htons]

theorem ntohl_load_store (n : UInt32) :
    ntohl o (UInt32.ofNat (o.load (o.store 4 (htonl o n).toNat))) = n := by
  have hlt : (htonl o n).toNat < 256 ^ 4 := (htonl o n).toNat_lt
  rw [load_store, Nat.mod_eq_of_lt hlt, UInt32.ofNat_toNat, ntohl_htonl]

theorem ntoh64_load_store (n : UInt64) :
    ntoh64 o (UInt64.ofNat (o.load (o.store 8 (hton64 o n).toNat))) = n := by
  have hlt : (hton64 o n).toNat < 256 ^ 8 := (hton64 o n).toNat_lt
  rw [load_store, Nat.mod_eq_of_lt hlt, UInt64.ofNat_toNat, ntoh64_hton64]

/-- A host writes back the bytes that it read. -/
theorem store_ntohs_load (h : bs.length = 2) :
    o.store 2 (htons o (ntohs o (UInt16.ofNat (o.load bs)))).toNat = bs := by
  have hlt : o.load bs < 2 ^ 16 := by simpa [h] using load_lt o bs
  have hself : htons o (ntohs o (UInt16.ofNat (o.load bs))) = UInt16.ofNat (o.load bs) :=
    ntohs_htons o _
  rw [hself, UInt16.toNat_ofNat', Nat.mod_eq_of_lt hlt, store_load o h]

theorem store_ntohl_load (h : bs.length = 4) :
    o.store 4 (htonl o (ntohl o (UInt32.ofNat (o.load bs)))).toNat = bs := by
  have hlt : o.load bs < 2 ^ 32 := by simpa [h] using load_lt o bs
  have hself : htonl o (ntohl o (UInt32.ofNat (o.load bs))) = UInt32.ofNat (o.load bs) :=
    ntohl_htonl o _
  rw [hself, UInt32.toNat_ofNat', Nat.mod_eq_of_lt hlt, store_load o h]

theorem store_ntoh64_load (h : bs.length = 8) :
    o.store 8 (hton64 o (ntoh64 o (UInt64.ofNat (o.load bs)))).toNat = bs := by
  have hlt : o.load bs < 2 ^ 64 := by simpa [h] using load_lt o bs
  have hself : hton64 o (ntoh64 o (UInt64.ofNat (o.load bs))) = UInt64.ofNat (o.load bs) :=
    ntoh64_hton64 o _
  rw [hself, UInt64.toNat_ofNat', Nat.mod_eq_of_lt hlt, store_load o h]

end Loads

/-- A little-endian host reads the 64-bit number that the bytes stand for. -/
theorem ntoh64_load_little {bs : List Byte} (h : bs.length = 8) :
    ntoh64 .little (UInt64.ofNat (ByteOrder.little.load bs)) = UInt64.ofNat (beNat bs) := by
  have hlt : beNat bs < 2 ^ 64 := by simpa [h] using beNat_lt bs
  have hbs : ByteOrder.little.store 8 (hton64 .little (UInt64.ofNat (beNat bs))).toNat = bs := by
    rw [store_hton64_little, UInt64.toNat_ofNat', Nat.mod_eq_of_lt hlt, ← h, beBytes_beNat]
  have hload := ntoh64_load_store .little (UInt64.ofNat (beNat bs))
  rwa [hbs] at hload

/-- On a little-endian host the decoder reads what the bytes stand for. -/
theorem unionOf_little {t : TypeTag} {body : List Byte} (h : body.length = t.width body.length) :
    unionOf .little t body body = referenceUnion t body := by
  cases t with
  | u16 | s16 =>
    rw [unionOf, ntohs_load .little h]
    rfl
  | u32 | s32 | f32 | chr =>
    rw [unionOf, ntohl_load .little h]
    rfl
  | u64 | s64 | f64 | tim =>
    rw [unionOf, ntoh64_load_little h]
    rfl
  | u08 | s08 | bol =>
    obtain ⟨b, rfl⟩ := List.length_eq_one_iff.mp h
    rfl
  | nul | str | bin | err => rfl

/-- A host writes back what it read. -/
theorem bytes_unionOf (o : ByteOrder) {t : TypeTag} {body : List Byte}
    (h : body.length = t.width body.length) : (unionOf o t body body).bytes o = body := by
  cases t with
  | nul => exact (List.length_eq_zero_iff.mp h).symm
  | u16 | s16 => exact store_ntohs_load o h
  | u32 | s32 | f32 | chr => exact store_ntohl_load o h
  | u64 | s64 | f64 | tim => exact store_ntoh64_load o h
  | u08 | s08 | bol =>
    obtain ⟨b, rfl⟩ := List.length_eq_one_iff.mp h
    simp [unionOf, Union.bytes, load_single]
  | str | bin | err => rfl

end Tlv
