import Tlv.Serialize
import Tlv.Deserialize

/-!
# Accessors and `message_free`

The functions of `tlv.c` that take a message apart. The sixteen accessors have
one text, `expectMember`, applied to a tag and a member.
-/

namespace Tlv
open Lib

/-- The text of an accessor: the tag must be `wanted`; `member` is the union
member it returns. -/
def expectMember {α : Type} (wanted : TypeTag) (member : Union (Buffer Ptr) → Option α)
    (m : Message (Buffer Ptr)) : CProg α :=
  if m.type = wanted then
    match member m.val with
    | some a => pure a
    | none => Prog.stop .badMember
  else Prog.stop (.wrongType wanted m.type)

def messageU08 : Message (Buffer Ptr) → CProg UInt8 :=
  expectMember .u08 fun | .u08 n => some n | _ => none
def messageU16 : Message (Buffer Ptr) → CProg UInt16 :=
  expectMember .u16 fun | .u16 n => some n | _ => none
def messageU32 : Message (Buffer Ptr) → CProg UInt32 :=
  expectMember .u32 fun | .u32 n => some n | _ => none
def messageU64 : Message (Buffer Ptr) → CProg UInt64 :=
  expectMember .u64 fun | .u64 n => some n | _ => none
def messageS08 : Message (Buffer Ptr) → CProg Int8 :=
  expectMember .s08 fun | .s08 n => some n | _ => none
def messageS16 : Message (Buffer Ptr) → CProg Int16 :=
  expectMember .s16 fun | .s16 n => some n | _ => none
def messageS32 : Message (Buffer Ptr) → CProg Int32 :=
  expectMember .s32 fun | .s32 n => some n | _ => none
def messageS64 : Message (Buffer Ptr) → CProg Int64 :=
  expectMember .s64 fun | .s64 n => some n | _ => none
def messageTim : Message (Buffer Ptr) → CProg Int64 :=
  expectMember .tim fun | .tim n => some n | _ => none
def messageChr : Message (Buffer Ptr) → CProg UInt32 :=
  expectMember .chr fun | .chr n => some n | _ => none
def messageF32 : Message (Buffer Ptr) → CProg UInt32 :=
  expectMember .f32 fun | .f32 bits => some bits | _ => none
def messageF64 : Message (Buffer Ptr) → CProg UInt64 :=
  expectMember .f64 fun | .f64 bits => some bits | _ => none
/-- A stored byte other than 0 and 1 is no value of type `bool`. -/
def messageBol : Message (Buffer Ptr) → CProg Bool :=
  expectMember .bol fun | .bol 0 => some false | .bol 1 => some true | _ => none
def messageBin : Message (Buffer Ptr) → CProg (Buffer Ptr) :=
  expectMember .bin fun | .bin b => some b | _ => none
def messageStr : Message (Buffer Ptr) → CProg (Buffer Ptr) :=
  expectMember .str fun | .str b => some b | _ => none
def messageErr : Message (Buffer Ptr) → CProg (Buffer Ptr) :=
  expectMember .err fun | .err b => some b | _ => none

def messageCstr (h : Host) (A : Allocator) (m : Message (Buffer Ptr)) : CProg Ptr := do
  let s ← messageStr m
  let out ← malloc A (h.sz (s.len + 1))
  existsPtr out
  let src ← lend s
  let bytes ← memcpyFrom src.bytes 0 s.len
  memcpyTo out 0 bytes
  memcpyTo out s.len [0]
  pure out

/-- `message_free`. The payload members share `bin`, which is released and
zeroed; the member stored last stays the one of the tag. -/
def messageFree (m : Message (Buffer Ptr)) : CProg (Message (Buffer Ptr)) :=
  match m.type with
  | .str => do
    free m.val.binMember.bytes
    pure { m with val := .str ⟨.null, 0⟩ }
  | .err => do
    free m.val.binMember.bytes
    pure { m with val := .err ⟨.null, 0⟩ }
  | .bin => do
    free m.val.binMember.bytes
    pure { m with val := .bin ⟨.null, 0⟩ }
  | _ => pure m

/-- The pointer that `message_free` passes to `free`, if it calls it. -/
def freeArgument (m : Message (Buffer Ptr)) : Option Ptr :=
  if m.type.isPayload then some m.val.binMember.bytes else none

/-- The message after `message_free`. -/
def Message.cleared (m : Message (Buffer Ptr)) : Message (Buffer Ptr) :=
  match m.type with
  | .str => { m with val := .str ⟨.null, 0⟩ }
  | .err => { m with val := .err ⟨.null, 0⟩ }
  | .bin => { m with val := .bin ⟨.null, 0⟩ }
  | _ => m

theorem messageFree_eq (m : Message (Buffer Ptr)) :
    messageFree m =
      match freeArgument m with
      | some p => do
        free p
        pure m.cleared
      | none => pure m := by
  obtain ⟨type, val⟩ := m
  cases type <;> rfl

/-- `message_free(&arr[i])`. -/
def messageFreeAt (arr : DynArr (Message (Buffer Ptr))) (i : Nat) :
    CProg (DynArr (Message (Buffer Ptr))) := do
  let m ← daRead arr i
  let m ← messageFree m
  daWrite arr i m

/-- `message_free` on the elements with the given indices, one after the other. -/
def messageFreeAll (arr : DynArr (Message (Buffer Ptr))) :
    List Nat → CProg (DynArr (Message (Buffer Ptr)))
  | [] => pure arr
  | i :: is => do
    let arr ← messageFreeAt arr i
    messageFreeAll arr is

/-- The bytes that a buffer on the heap holds. -/
def copyOut (b : Buffer Ptr) : CProg (List Byte) := do
  let src ← lend b
  memcpyFrom src.bytes 0 b.len

/-- The accessor of the given type, and what its result stands for: a payload
stands for its bytes. `T_NUL` has no accessor. -/
def access (m : Message (Buffer Ptr)) : TypeTag → CProg (Union (List Byte))
  | .nul => Prog.stop .badMember
  | .u08 => do let n ← messageU08 m; pure (.u08 n)
  | .u16 => do let n ← messageU16 m; pure (.u16 n)
  | .u32 => do let n ← messageU32 m; pure (.u32 n)
  | .u64 => do let n ← messageU64 m; pure (.u64 n)
  | .s08 => do let n ← messageS08 m; pure (.s08 n)
  | .s16 => do let n ← messageS16 m; pure (.s16 n)
  | .s32 => do let n ← messageS32 m; pure (.s32 n)
  | .s64 => do let n ← messageS64 m; pure (.s64 n)
  | .f32 => do let bits ← messageF32 m; pure (.f32 bits)
  | .f64 => do let bits ← messageF64 m; pure (.f64 bits)
  | .bol => do let b ← messageBol m; pure (.bol (if b then 1 else 0))
  | .tim => do let n ← messageTim m; pure (.tim n)
  | .chr => do let n ← messageChr m; pure (.chr n)
  | .str => do
    let b ← messageStr m
    let bytes ← copyOut b
    pure (.str bytes)
  | .bin => do
    let b ← messageBin m
    let bytes ← copyOut b
    pure (.bin bytes)
  | .err => do
    let b ← messageErr m
    let bytes ← copyOut b
    pure (.err bytes)

/-- Serialize a message again: its accessor, and the serializer of its tag. -/
def reserialize (h : Host) (A : Allocator) (m : Message (Buffer Ptr)) : CProg (Buffer Ptr) :=
  match m.type with
  | .nul => Prog.stop .badMember
  | .u08 => do let n ← messageU08 m; serializeU08 h A n
  | .u16 => do let n ← messageU16 m; serializeU16 h A n
  | .u32 => do let n ← messageU32 m; serializeU32 h A n
  | .u64 => do let n ← messageU64 m; serializeU64 h A n
  | .s08 => do let n ← messageS08 m; serializeS08 h A n
  | .s16 => do let n ← messageS16 m; serializeS16 h A n
  | .s32 => do let n ← messageS32 m; serializeS32 h A n
  | .s64 => do let n ← messageS64 m; serializeS64 h A n
  | .f32 => do let bits ← messageF32 m; serializeF32 h A bits
  | .f64 => do let bits ← messageF64 m; serializeF64 h A bits
  | .bol => do let b ← messageBol m; serializeBol h A b
  | .tim => do let n ← messageTim m; serializeTim h A n
  | .chr => do let n ← messageChr m; serializeChr h A n
  | .str => do
    let b ← messageStr m
    let src ← lend b
    serializeStr h A src
  | .bin => do
    let b ← messageBin m
    let src ← lend b
    serializeBin h A src
  | .err => do
    let b ← messageErr m
    let src ← lend b
    serializeErr h A src

end Tlv
