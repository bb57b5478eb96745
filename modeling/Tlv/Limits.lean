import Tlv.Serialize

/-!
# Payloads of any length

`complex_serialize` allocates before it looks at the length. With a length near
`SIZE_MAX` the size `5 + val.len` wraps to a few bytes, and from `2^32` on the cast
to `uint32_t` drops bits. The check for `UINT32_MAX` comes between the allocation
and the first copy.

Results: what a call comes to for each length and allocator (`complexSerialize_limits`),
and that the three serializers of payloads never send a length that was cut off
(`payload_limits`).
-/

namespace Tlv
open Lib

/-- No byte was written between the two heaps. At most a block was allocated. -/
def Unwritten (heap heap' : Heap) : Prop := heap' = heap ∨ ∃ n, heap' = heap.alloc n

/-- What a serializer of payloads may come to. A call that fails ends the process
before it has written a byte. A call that returns gives a block of the size that
was asked of `malloc`, filled to its last byte by the tag, a length field and the
payload, and neither the size nor the field has wrapped. -/
structure WithinLimits (h : Host) (A : Allocator) (val : Buffer Mem) (type : TypeTag) (heap : Heap)
    (r : Except (Fault × Heap) (Buffer Ptr × Heap)) : Prop where
  fails : ∀ f heap', r = .error (f, heap') →
    (f = .nullPointer ∨ f = .tooBig val.len) ∧ Unwritten heap heap'
  returns : ∀ b heap', r = .ok (b, heap') → b = ⟨.block heap.next, 5 + val.len⟩ ∧
    ∃ field body, field.length = 4 ∧ beNat field = val.len ∧
      val.bytes.read 0 val.len = some body ∧
      heap' = heap.new (h.sz (5 + val.len)) (Mem.ofList (type.toByte :: (field ++ body))) ∧
      h.sz (5 + val.len) = (type.toByte :: (field ++ body)).length
  refused : ¬ A heap.next (h.sz (5 + val.len)) = true → r = .error (.nullPointer, heap)
  granted : A heap.next (h.sz (5 + val.len)) = true →
    ((∃ e, r = .error e) ↔ val.len > uint32Max)

variable {h : Host} {A : Allocator} {val : Buffer Mem} {body : List Byte} {heap : Heap}

/-- The allocation fails. -/
theorem WithinLimits.of_refused {type : TypeTag}
    (hA : ¬ A heap.next (h.sz (5 + val.len)) = true) :
    WithinLimits h A val type heap (.error (.nullPointer, heap)) := by
  refine ⟨fun f heap' hr => ?_, fun b heap' hr => ?_, fun _ => rfl, fun hyes => absurd hyes hA⟩
  · cases hr
    exact ⟨.inl rfl, .inl rfl⟩
  · cases hr

/-- The allocation succeeds, and the length is out of range. -/
theorem WithinLimits.of_tooBig {type : TypeTag} (hA : A heap.next (h.sz (5 + val.len)) = true)
    (hbig : val.len > uint32Max) :
    WithinLimits h A val type heap (.error (.tooBig val.len, heap.alloc (h.sz (5 + val.len)))) := by
  refine ⟨fun f heap' hr => ?_, fun b heap' hr => ?_, fun hno => absurd hA hno,
    fun _ => ⟨fun _ => hbig, fun _ => ⟨_, rfl⟩⟩⟩
  · cases hr
    exact ⟨.inr rfl, .inr ⟨_, rfl⟩⟩
  · cases hr

/-- The allocation succeeds, and the length is in range. -/
theorem WithinLimits.of_sent {type : TypeTag} (hA : A heap.next (h.sz (5 + val.len)) = true)
    (hn : val.len ≤ uint32Max) (hsz : 5 + val.len < h.szMod)
    (hread : val.bytes.read 0 val.len = some body) :
    WithinLimits h A val type heap (.ok (⟨.block heap.next, 5 + body.length⟩,
      heap.new (5 + body.length) (Mem.ofList (frameBytes type body)))) := by
  have hfit : val.len < 256 ^ 4 := Nat.lt_of_le_of_lt hn (by decide)
  have hbody : body.length = val.len := Mem.length_of_read hread
  have hsize : h.sz (5 + val.len) = (frameBytes type body).length := by
    rw [Host.sz_of_lt hsz, length_frameBytes, hbody]
  refine ⟨fun f heap' hr => ?_, fun b heap' hr => ?_, fun hno => absurd hA hno,
    fun _ => ⟨fun he => ?_, fun hbig => absurd hbig (Nat.not_lt.mpr hn)⟩⟩
  · cases hr
  · cases hr
    refine ⟨by rw [hbody], beBytes 4 body.length, body, length_beBytes 4 _, ?_, hread, ?_, hsize⟩
    · rw [hbody, beNat_beBytes_of_lt hfit]
    · rw [hsize, length_frameBytes]
      rfl
  · obtain ⟨e, he⟩ := he
    cases he

theorem complexSerialize_limits (hw : h.word = .w64)
    (hread : val.bytes.read 0 val.len = some body) (A : Allocator) (type : TypeTag) (heap : Heap) :
    WithinLimits h A val type heap (complexSerialize h A val type heap) := by
  by_cases hA : A heap.next (h.sz (5 + val.len)) = true
  · rcases Nat.lt_or_ge uint32Max val.len with hbig | hn
    · rw [complexSerialize_tooBig hbig hA]
      exact .of_tooBig hA hbig
    · have hmax : 5 + uint32Max < h.szMod := by
        rw [Host.szMod_w64 hw]
        decide
      have hsz : 5 + val.len < h.szMod := Nat.lt_of_le_of_lt (Nat.add_le_add_left hn 5) hmax
      rw [complexSerialize_granted hread hn hsz hA]
      exact .of_sent hA hn hsz hread
  · rw [complexSerialize_refused hA]
    exact .of_refused hA

/-- With a 64-bit `size_t`, whatever the length and whatever the allocator does, a
payload is sent whole or not at all. -/
theorem payload_limits (hw : h.word = .w64) (hread : val.bytes.read 0 val.len = some body)
    (A : Allocator) (heap : Heap) :
    WithinLimits h A val .bin heap (serializeBin h A val heap) ∧
      WithinLimits h A val .str heap (serializeStr h A val heap) ∧
      WithinLimits h A val .err heap (serializeErr h A val heap) :=
  ⟨complexSerialize_limits hw hread A .bin heap, complexSerialize_limits hw hread A .str heap,
    complexSerialize_limits hw hread A .err heap⟩

/-- A payload so long that the size of its frame wraps to two bytes. -/
def longPayload : Buffer Mem := ⟨fun _ => some 0, 2 ^ 64 - 3⟩

theorem read_longPayload (off n : Nat) :
    longPayload.bytes.read off n = some (List.replicate n 0) := by
  induction n generalizing off with
  | zero => rfl
  | succ n ih =>
    rw [Mem.read_succ, ih, List.replicate_succ]
    rfl

/-- The call asks for two bytes, and ends with the length that it was given. -/
theorem payload_limits_sample :
    Host.sz ⟨.little, .w64⟩ (5 + longPayload.len) = 2 ∧
    WithinLimits ⟨.little, .w64⟩ .always longPayload .str Heap.empty
      (serializeStr ⟨.little, .w64⟩ .always longPayload Heap.empty) ∧
    ∃ e, serializeStr ⟨.little, .w64⟩ .always longPayload Heap.empty = .error e := by
  have hlimits := (payload_limits (h := ⟨.little, .w64⟩) rfl (read_longPayload 0 _) .always
    Heap.empty).2.1
  exact ⟨by decide, hlimits, (hlimits.granted rfl).mpr (by decide)⟩

end Tlv
