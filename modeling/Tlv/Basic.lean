import Tlv.Host

/-!
# Tags, messages and faults

The data types of `tlv.h` and `buffer.h`, and the ways in which a call of the
library does not return.

The union inside `Message` is kept as the member stored last. It is generic in
what a payload is: `Message (Buffer Ptr)` is the C struct, whose payload is a
pointer and a length, and `Message (List Byte)` is the value it stands for.
-/

namespace Tlv
open Lib

/-! ## Type tags -/

/-- The enumeration `Type`, in the source's order: `T_NUL = 0`, ..., `T_ERR = 16`. -/
inductive TypeTag
  | nul | u08 | u16 | u32 | u64 | s08 | s16 | s32 | s64 | f32 | f64
  | str | bol | bin | tim | chr | err
deriving DecidableEq, Repr

namespace TypeTag

def toByte : TypeTag → Byte
  | .nul => 0 | .u08 => 1 | .u16 => 2 | .u32 => 3 | .u64 => 4
  | .s08 => 5 | .s16 => 6 | .s32 => 7 | .s64 => 8
  | .f32 => 9 | .f64 => 10 | .str => 11 | .bol => 12
  | .bin => 13 | .tim => 14 | .chr => 15 | .err => 16

/-- The enumerator with the given value, if there is one. -/
def ofByte (b : Byte) : Option TypeTag :=
  [nul, u08, u16, u32, u64, s08, s16, s32, s64, f32, f64, str, bol, bin, tim, chr, err][b.toNat]?

@[simp] theorem ofByte_toByte (t : TypeTag) : ofByte t.toByte = some t := by
  cases t <;> rfl

theorem toByte_of_ofByte {b : Byte} {t : TypeTag} (h : ofByte b = some t) : t.toByte = b := by
  obtain ⟨hlt, ht⟩ := List.getElem?_eq_some_iff.mp h
  have hb : b = UInt8.ofNat b.toNat := (UInt8.ofNat_toNat).symm
  simp only [List.length_cons, List.length_nil] at hlt
  rw [hb]
  generalize b.toNat = n at hlt ht
  subst ht
  interval_cases n <;> rfl

/-- The macro `strtype`. -/
def strtype : TypeTag → String
  | .nul => "Null"
  | .u08 => "Unsigned 8-bit Int"
  | .u16 => "Unsigned 16-bit Int"
  | .u32 => "Unsigned 32-bit Int"
  | .u64 => "Unsigned 64-bit Int"
  | .s08 => "Signed 8-bit Int"
  | .s16 => "Signed 16-bit Int"
  | .s32 => "Signed 32-bit Int"
  | .s64 => "Signed 64-bit Int"
  | .f32 => "32-bit IEEE-754 Float"
  | .f64 => "64-bit IEEE-754 Float"
  | .str => "UTF-8 String"
  | .bol => "Boolean"
  | .bin => "Byte Buffer"
  | .tim => "UNIX Timestamp"
  | .chr => "Unicode Codepoint"
  | .err => "UTF-8 Error String"

/-- No two tags are described alike, so an accessor's error text says which two
types it met. -/
theorem strtype_injective {s t : TypeTag} (h : s.strtype = t.strtype) : s = t := by
  cases s <;> cases t <;> first | rfl | exact absurd h (by decide)

end TypeTag

/-! ## Faults -/

/-- Why a call does not return. The first five end the process by `exit` or
`assert`; the others stand for undefined behaviour, which the model stops at. -/
inductive Fault
  /-- `exists(a)` met a null pointer. -/
  | nullPointer
  /-- `deserialize` met a tag that is no enumerator of `Type`. -/
  | badType (tag : Byte)
  /-- A serializer got a payload of more than `UINT32_MAX` bytes. -/
  | tooBig (len : Nat)
  /-- An accessor for `wanted` got a message of type `got`. -/
  | wrongType (wanted got : TypeTag)
  /-- An `assert` of `dynarr.h` failed. -/
  | assertFailed
  /-- A read outside the object. -/
  | readPastEnd
  /-- A write outside the block, or at an index not below the capacity. -/
  | writePastEnd
  /-- `free` or `realloc` got something that is no live block. -/
  | badFree
  /-- A union member was read that does not hold a value. -/
  | badMember
deriving DecidableEq, Repr

/-- `%02X` of a byte. -/
def hexByte (b : Byte) : String :=
  let digit (n : Nat) : Char := "0123456789ABCDEF".toList.getD n '0'
  String.ofList [digit (b.toNat / 16), digit (b.toNat % 16)]

/-- What the library prints before it ends the process, without the source
location it puts in front and the `strerror` text it adds. -/
def Fault.text : Fault → String
  | .nullPointer => "Null pointer encountered"
  | .badType tag => s!"Received a bad type: {hexByte tag}"
  | .tooBig len => s!"sending a buffer that is too big: {len}"
  | .wrongType wanted got =>
    s!"Tried accessing a message of type {wanted.strtype} but got {got.strtype}"
  | _ => ""

/-! ## Buffers and messages -/

/-- A pointer: `NULL`, a block of the heap, or a number that was never a
pointer (the bits of a scalar read through a pointer member of the union). -/
inductive Ptr
  | null
  | block (i : Nat)
  | bits (n : Nat)
deriving DecidableEq, Repr

/-- The struct `Buffer`, generic in how its bytes are reached: through a `Ptr`
for a buffer on the heap, through a `Mem` for one that the caller lends. -/
structure Buffer (π : Type) where
  bytes : π
  len : Nat
deriving DecidableEq, Repr

/-- The union of `Message`, as the member stored last; `zero` is `{0}`. The two
floats are bit patterns, and `bol` is the byte stored, which need not be 0 or 1. -/
inductive Union (β : Type)
  | zero
  | u08 (n : UInt8)
  | u16 (n : UInt16)
  | u32 (n : UInt32)
  | u64 (n : UInt64)
  | s08 (n : Int8)
  | s16 (n : Int16)
  | s32 (n : Int32)
  | s64 (n : Int64)
  | f32 (bits : UInt32)
  | f64 (bits : UInt64)
  | str (b : β)
  | bol (raw : Byte)
  | bin (b : β)
  | tim (n : Int64)
  | chr (n : UInt32)
  | err (b : β)
deriving DecidableEq

structure Message (β : Type) where
  type : TypeTag
  val : Union β
deriving DecidableEq

/-- The member `bin`, whatever was stored last. The three payload members have
the same C type; a scalar shows its bits. -/
def Union.binMember : Union (Buffer Ptr) → Buffer Ptr
  | .str b | .bin b | .err b => b
  | .zero => ⟨.null, 0⟩
  | .u08 n => ⟨.bits n.toNat, 0⟩
  | .u16 n => ⟨.bits n.toNat, 0⟩
  | .u32 n => ⟨.bits n.toNat, 0⟩
  | .u64 n => ⟨.bits n.toNat, 0⟩
  | .s08 n => ⟨.bits n.toUInt8.toNat, 0⟩
  | .s16 n => ⟨.bits n.toUInt16.toNat, 0⟩
  | .s32 n => ⟨.bits n.toUInt32.toNat, 0⟩
  | .s64 n => ⟨.bits n.toUInt64.toNat, 0⟩
  | .f32 bits => ⟨.bits bits.toNat, 0⟩
  | .f64 bits => ⟨.bits bits.toNat, 0⟩
  | .bol raw => ⟨.bits raw.toNat, 0⟩
  | .tim n => ⟨.bits n.toUInt64.toNat, 0⟩
  | .chr n => ⟨.bits n.toNat, 0⟩

end Tlv
