import Tlv.HostOrder
import Tlv.Joins
import Tlv.Truncation

/-!
# Streams that go to a host of another byte order

`hton64` of a big-endian host writes the lower half of a number first, and `ntoh64`
reads it first. So a stream of a host of one byte order is the stream that a host of
the other order would have written for the same values with the halves of the 64-bit
numbers exchanged (`Call.wire_arrive`).

Result: what a receiver makes of a stream of any values, between hosts of any two
byte orders, and which values arrive unchanged (`sendStream_arrives`).
-/

namespace Tlv
open Lib

/-! ## Halves -/

/-- The number with its halves exchanged. -/
def swapHalves (n : UInt64) : UInt64 := UInt64.ofNat (loHalf n.toNat * 2 ^ 32 + hiHalf n.toNat)

theorem toNat_swapHalves (n : UInt64) :
    (swapHalves n).toNat = loHalf n.toNat * 2 ^ 32 + hiHalf n.toNat := by
  have hhi := hiHalf_lt n.toNat_lt
  have hlo := loHalf_lt n.toNat
  rw [swapHalves, UInt64.toNat_ofNat', Nat.mod_eq_of_lt (by omega)]

theorem hiHalf_swapHalves (n : UInt64) : hiHalf (swapHalves n).toNat = loHalf n.toNat := by
  have hhi := hiHalf_lt n.toNat_lt
  rw [toNat_swapHalves, hiHalf]
  omega

theorem loHalf_swapHalves (n : UInt64) : loHalf (swapHalves n).toNat = hiHalf n.toNat := by
  have hhi := hiHalf_lt n.toNat_lt
  rw [toNat_swapHalves, loHalf]
  omega

theorem swapHalves_eq_self_iff (n : UInt64) :
    swapHalves n = n ↔ hiHalf n.toNat = loHalf n.toNat := by
  rw [← UInt64.toNat_inj, toNat_swapHalves]
  unfold hiHalf loHalf
  omega

/-- The bytes of one byte order are those of the other for the exchanged halves. -/
theorem store_hton64_swap {s r : ByteOrder} (hne : s ≠ r) (n : UInt64) :
    s.store 8 (hton64 s n).toNat = r.store 8 (hton64 r (swapHalves n)).toNat := by
  cases s with
  | little =>
    cases r with
    | little => exact absurd rfl hne
    | big =>
      rw [store_hton64_little, store_hton64_big, loHalf_swapHalves, hiHalf_swapHalves,
        Call.beBytes_halves]
  | big =>
    cases r with
    | little =>
      rw [store_hton64_big, store_hton64_little, Call.beBytes_halves, hiHalf_swapHalves,
        loHalf_swapHalves]
    | big => exact absurd rfl hne

/-! ## Values -/

namespace Call

/-- The call with the halves of its 64-bit number exchanged. -/
def swapped : Call → Call
  | .u64 n => .u64 (swapHalves n)
  | .s64 n => .s64 (swapHalves n.toUInt64).toInt64
  | .f64 bits => .f64 (swapHalves bits)
  | .tim n => .tim (swapHalves n.toUInt64).toInt64
  | c => c

/-- The value that a host of byte order `r` gets for a value that a host of byte order
`s` has sent. -/
def arrive (s r : ByteOrder) (c : Call) : Call := if s = r then c else c.swapped

variable {c : Call} {s r t : ByteOrder}

theorem swapped_of_narrow (hn : c.wide = none) : c.swapped = c := by
  cases c with
  | u64 | s64 | f64 | tim => cases hn
  | _ => rfl

theorem wide_swapped {n : UInt64} (hn : c.wide = some n) :
    c.swapped.wide = some (swapHalves n) := by
  cases c with
  | u64 | s64 | f64 | tim =>
    cases hn
    simp [swapped, wide]
  | _ => cases hn

@[simp] theorem type_swapped (c : Call) : c.swapped.message.type = c.message.type := by
  cases c <;> simp [swapped, message]

theorem fits_swapped (hc : c.Fits) : c.swapped.Fits := by
  cases c with
  | str | bin | err | cstr => exact hc
  | _ => trivial

/-- A value is its own exchange exactly when its halves are equal. -/
theorem message_swapped_iff (c : Call) : c.swapped.message = c.message ↔ c.Symmetric := by
  cases c with
  | u64 n | f64 n => simp [swapped, message, Symmetric, wide, swapHalves_eq_self_iff]
  | s64 n | tim n =>
    have hint : (swapHalves n.toUInt64).toInt64 = n ↔ swapHalves n.toUInt64 = n.toUInt64 :=
      ⟨fun heq => by simpa using congrArg Int64.toUInt64 heq, fun heq => by rw [heq]; simp⟩
    simp [swapped, message, Symmetric, wide, hint, swapHalves_eq_self_iff]
  | _ => simp [swapped, Symmetric, wide]

theorem target_swapped (hne : s ≠ r) (c : Call) : c.target s = c.swapped.target r := by
  cases hn : c.wide with
  | none => rw [swapped_of_narrow hn, target_of_narrow hn, target_of_narrow hn]
  | some n =>
    rw [(target_of_wide hn s).1, (target_of_wide (wide_swapped hn) r).1, store_hton64_swap hne]

/-- The frame of a value is the frame that the other host writes for what arrives. -/
theorem wire_arrive (s r : ByteOrder) (c : Call) : c.wire s = (c.arrive s r).wire r := by
  unfold arrive
  split
  · next heq => rw [heq]
  · next hne => rw [wire, wire, type_swapped, target_swapped hne]

theorem fits_arrive (s r : ByteOrder) (hc : c.Fits) : (c.arrive s r).Fits := by
  unfold arrive
  split
  · exact hc
  · exact fits_swapped hc

theorem message_arrive_iff (s r : ByteOrder) (c : Call) :
    (c.arrive s r).message = c.message ↔ s = r ∨ c.Symmetric := by
  unfold arrive
  split
  · next heq => exact ⟨fun _ => .inl heq, fun _ => rfl⟩
  · next hne => rw [message_swapped_iff, or_iff_right hne]

end Call

/-! ## Streams -/

variable {h h₁ h₂ : Host} {A : Allocator} {heap heap' heap₂ : Heap} {cs : List Call}
  {b : Buffer Ptr}

theorem wireStream_arrive (s r : ByteOrder) (cs : List Call) :
    wireStream s cs = wireStream r (cs.map (Call.arrive s r)) := by
  rw [wireStream, wireStream, List.flatMap_map]
  exact List.flatMap_congr fun c _ => c.wire_arrive s r

/-- A host decodes the stream that it would write itself to the values. -/
theorem decodes_wireStream (hcs : ∀ c ∈ cs, c.Fits) (hsz : (wireStream h.order cs).length < h.szMod)
    (heap : Heap) :
    Decodes h .always (received (wireStream h.order cs)) heap (cs.map Call.message) := by
  have hd := decodes_whole (h := h) (Call.frames_legal h.order hcs)
    (by rwa [Call.stream_frames]) heap
  rwa [Call.stream_frames, Call.map_message_frames] at hd

/-- Any host decodes it to the values that arrive. -/
theorem decodes_arrive (s : ByteOrder) (hcs : ∀ c ∈ cs, c.Fits)
    (hsz : (wireStream s cs).length < h.szMod) (heap : Heap) :
    Decodes h .always (received (wireStream s cs)) heap
      (cs.map fun c => (c.arrive s h.order).message) := by
  rw [wireStream_arrive s h.order] at hsz ⊢
  have hd := decodes_wireStream (fun c hc => ?_) hsz heap
  · rwa [List.map_map] at hd
  · obtain ⟨c, hmem, rfl⟩ := List.mem_map.mp hc
    exact c.fits_arrive s h.order (hcs c hmem)

/-- Values up to 32 bits, and payloads, arrive as they were sent. The 64-bit numbers
arrive with their halves exchanged when the two hosts differ in their byte order. So
everything arrives unchanged if and only if the byte orders agree, or each 64-bit
number has equal halves. -/
theorem sendStream_arrives (hne : cs ≠ []) (hsend : sendStream h₁ A cs heap = .ok (b, heap'))
    (hsz : b.len < h₂.szMod) (heap₂ : Heap) :
    ∃ vs, Decodes h₂ .always ⟨some (ptrView heap' b.bytes), b.len⟩ heap₂ vs ∧
      vs = cs.map (fun c => (c.arrive h₁.order h₂.order).message) ∧
      (vs = cs.map Call.message ↔ h₁.order = h₂.order ∨ ∀ c ∈ cs, c.Symmetric) := by
  obtain ⟨hfits, -, k, done, rfl, -, hk⟩ := sendStream_built hne hsend
  have hview : ptrView heap' (.block k) = Mem.ofList (wireStream h₁.order cs) := Heap.view_eq hk
  refine ⟨_, ?_, rfl, ?_⟩
  · rw [hview]
    exact decodes_arrive h₁.order hfits hsz heap₂
  · rw [List.map_inj_left]
    constructor
    · intro hall
      by_cases ho : h₁.order = h₂.order
      · exact .inl ho
      · exact .inr fun c hc => ((c.message_arrive_iff _ _).mp (hall c hc)).resolve_left ho
    · rintro (ho | hsym) c hc
      · exact (c.message_arrive_iff _ _).mpr (.inl ho)
      · exact (c.message_arrive_iff _ _).mpr (.inr (hsym c hc))

/-- The number 1 of a little-endian host arrives as 2 ^ 32, the string as it was. -/
theorem sendStream_arrives_sample :
    ∃ b heap', sendStream ⟨.little, .w64⟩ .always [.u64 1, .str [65]] Heap.empty = .ok (b, heap') ∧
      Decodes ⟨.big, .w64⟩ .always ⟨some (ptrView heap' b.bytes), b.len⟩ Heap.empty
        [⟨.u64, .u64 4294967296⟩, ⟨.str, .str [65]⟩] := by
  obtain ⟨k, heap', hsend, -⟩ := @sendStream_always ⟨.little, .w64⟩ [.u64 1, .str [65]]
    (by simp) (by simp [Call.Fits, uint32Max]) (by decide) Heap.empty
  have hsz : (wireStream .little [.u64 1, .str [65]]).length < (Host.mk .big .w64).szMod := by
    decide
  obtain ⟨vs, hd, hvs, -⟩ := sendStream_arrives (by simp) hsend hsz Heap.empty
  have harrive : vs = [⟨.u64, .u64 4294967296⟩, ⟨.str, .str [65]⟩] := by
    rw [hvs]
    decide
  rw [harrive] at hd
  exact ⟨_, heap', hsend, hd⟩

end Tlv
