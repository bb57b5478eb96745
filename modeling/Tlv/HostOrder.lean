import Tlv.RoundTrip

/-!
# The wire bytes on hosts of different byte order

The documented layout of a value (`Call.layout`) says nothing about a host.
`htons` and `htonl` give it on every host. `hton64` gives it on little-endian
hosts only: on a big-endian one its two `htonl` calls do nothing, and the swap of
the halves stays. So the layout is met exactly by the values that have no two
different halves (`hostIndependent_iff`).
-/

namespace Tlv
open Lib

variable {h : Host} {heap : Heap} {c : Call} {cs : List Call}

namespace Call

/-- The value in the documented order: big-endian, two's complement for the
signed types, the bits of a float, the bytes of a payload. -/
def valueBytes : Call → List Byte
  | .u08 n => beBytes 1 n.toNat
  | .u16 n => beBytes 2 n.toNat
  | .u32 n | .f32 n | .chr n => beBytes 4 n.toNat
  | .u64 n | .f64 n => beBytes 8 n.toNat
  | .s08 n => beBytes 1 n.toUInt8.toNat
  | .s16 n => beBytes 2 n.toUInt16.toNat
  | .s32 n => beBytes 4 n.toUInt32.toNat
  | .s64 n | .tim n => beBytes 8 n.toUInt64.toNat
  | .bol b => [if b then 1 else 0]
  | .str bytes | .bin bytes | .err bytes => bytes
  | .cstr s => s.chars

/-- The documented frame: tag, length as four bytes big-endian, value. -/
def layout (c : Call) : List Byte :=
  c.message.type.toByte :: (beBytes 4 c.valueBytes.length ++ c.valueBytes)

/-- The number that goes through `hton64`. -/
def wide : Call → Option UInt64
  | .u64 n | .f64 n => some n
  | .s64 n | .tim n => some n.toUInt64
  | _ => none

/-- The value has no two different halves that a swap could confuse. -/
def Symmetric (c : Call) : Prop := ∀ n, c.wide = some n → hiHalf n.toNat = loHalf n.toNat

theorem length_valueBytes (o : ByteOrder) (c : Call) :
    c.valueBytes.length = (c.target o).length := by
  cases c <;> simp [valueBytes, target, message, Union.bytes]

theorem wire_eq_layout_iff (o : ByteOrder) (c : Call) :
    c.wire o = c.layout ↔ c.target o = c.valueBytes := by
  rw [wire, layout, frameBytes, length_valueBytes o]
  simp

theorem fits_of_wide {n : UInt64} (hn : c.wide = some n) : c.Fits := by
  cases c with
  | str | bin | err | cstr => cases hn
  | _ => trivial

theorem target_of_wide {n : UInt64} (hn : c.wide = some n) (o : ByteOrder) :
    c.target o = o.store 8 (hton64 o n).toNat ∧ c.valueBytes = beBytes 8 n.toNat := by
  cases c with
  | u64 | s64 | f64 | tim =>
    cases hn
    exact ⟨rfl, rfl⟩
  | _ => cases hn

theorem single_eq_beBytes (b : Byte) : [b] = beBytes 1 b.toNat := by
  have h := beBytes_beNat [b]
  simpa [beNat, leNat] using h.symm

/-- Up to 32 bits the bytes are the documented ones on every host. -/
theorem target_of_narrow (hn : c.wide = none) (o : ByteOrder) : c.target o = c.valueBytes := by
  have h16 : ∀ n : UInt16, o.store 2 (htons o n).toNat = beBytes 2 n.toNat := fun n => by
    rw [toNat_htons, store_toNet]
  have h32 : ∀ n : UInt32, o.store 4 (htonl o n).toNat = beBytes 4 n.toNat := fun n => by
    rw [toNat_htonl, store_toNet]
  cases c with
  | u64 | s64 | f64 | tim => cases hn
  | u16 n | s16 n => exact h16 _
  | u32 n | s32 n | f32 n | chr n => exact h32 _
  | u08 n | s08 n => exact single_eq_beBytes _
  | bol | str | bin | err | cstr => rfl

/-- The documented order of a 64-bit number, by halves. -/
theorem beBytes_halves (n : Nat) : beBytes 8 n = beBytes 4 (hiHalf n) ++ beBytes 4 (loHalf n) := by
  rw [show 8 = 4 + 4 from rfl, beBytes_add, ← beBytes_mod 4 n]
  rfl

/-- A big-endian host writes the documented bytes of exactly the 64-bit numbers
with equal halves. -/
theorem store_hton64_big_iff (n : UInt64) :
    ByteOrder.big.store 8 (hton64 .big n).toNat = beBytes 8 n.toNat ↔
      hiHalf n.toNat = loHalf n.toNat := by
  have hhi : hiHalf n.toNat < 256 ^ 4 := hiHalf_lt n.toNat_lt
  have hlo : loHalf n.toNat < 256 ^ 4 := loHalf_lt n.toNat
  rw [store_hton64_big, beBytes_halves]
  constructor
  · intro heq
    -- The first four bytes are one half of the number on either side.
    have hfst := List.append_inj_left heq (by simp)
    rw [← beNat_beBytes_of_lt hhi, ← hfst, beNat_beBytes_of_lt hlo]
  · intro heq
    rw [heq]

theorem target_of_symmetric (hc : c.Symmetric) (o : ByteOrder) : c.target o = c.valueBytes := by
  cases hn : c.wide with
  | none => exact target_of_narrow hn o
  | some n =>
    obtain ⟨ht, hv⟩ := target_of_wide hn o
    rw [ht, hv]
    cases o with
    | little => exact store_hton64_little n
    | big => exact (store_hton64_big_iff n).mpr (hc n hn)

theorem wire_of_symmetric (hc : c.Symmetric) (o : ByteOrder) : c.wire o = c.layout :=
  (wire_eq_layout_iff o c).mpr (target_of_symmetric hc o)

end Call

/-- The values are written in the documented layout by hosts of either byte
order, and a stream of them that one host sends is decoded to the same values by
every other. -/
structure HostIndependent (cs : List Call) : Prop where
  bytes : ∀ c ∈ cs, c.Fits → ∀ (h : Host) (heap : Heap), c.layout.length < h.szMod →
    ∃ b heap', c.run h .always heap = .ok (b, heap') ∧ bufBytes heap' b = some c.layout
  decodes : cs ≠ [] → (∀ c ∈ cs, c.Fits) → ∀ (h₁ h₂ : Host) (heap₁ heap₂ : Heap),
    (cs.flatMap Call.layout).length < h₁.szMod → (cs.flatMap Call.layout).length < h₂.szMod →
    ∃ sent heap', sendStream h₁ .always cs heap₁ = .ok (sent, heap') ∧
      Decodes h₂ .always ⟨some (ptrView heap' sent.bytes), sent.len⟩ heap₂ (cs.map Call.message)

/-- A host that meets the layout on a big-endian machine has equal halves. -/
theorem HostIndependent.symmetric (hi : HostIndependent cs) : ∀ c ∈ cs, c.Symmetric := by
  intro c hc n hn
  have hfits := Call.fits_of_wide hn
  have hlen : ∀ o, (c.wire o).length = 13 := fun o => by
    rw [Call.wire, length_frameBytes, (Call.target_of_wide hn o).1, length_store]
  have hlayout : c.layout.length < (Host.mk .big .w64).szMod := by
    rw [Call.layout, (Call.target_of_wide hn .big).2]
    simp [Host.szMod, WordSize.bytes]
  obtain ⟨b, heap', hrun, hb⟩ := hi.bytes c hc hfits ⟨.big, .w64⟩ Heap.empty hlayout
  rw [Call.run_always hfits (by rw [hlen]; decide)] at hrun
  cases hrun
  rw [(HoldsBytes.new_self _ _).bufBytes, Option.some.injEq, Call.wire_eq_layout_iff,
    (Call.target_of_wide hn _).1, (Call.target_of_wide hn .big).2] at hb
  exact (Call.store_hton64_big_iff n).mp hb

/-- Layout and exchange between hosts hold of a list of values exactly when no
64-bit value in it has two different halves. -/
theorem hostIndependent_iff (cs : List Call) : HostIndependent cs ↔ ∀ c ∈ cs, c.Symmetric := by
  refine ⟨HostIndependent.symmetric, fun hsym => ⟨fun c hc hfits h heap hlen => ?_, ?_⟩⟩
  · have hwire := Call.wire_of_symmetric (hsym c hc) h.order
    refine ⟨_, _, Call.run_always hfits (hwire ▸ hlen), ?_⟩
    rw [(HoldsBytes.new_self _ _).bufBytes, hwire]
  · intro hne hcs h₁ h₂ heap₁ heap₂ hsz₁ hsz₂
    have hwire : ∀ o, wireStream o cs = cs.flatMap Call.layout := fun o =>
      List.flatMap_congr fun c hc => Call.wire_of_symmetric (hsym c hc) o
    obtain ⟨k, heap', hsend, hk⟩ := sendStream_always (h := h₁) hne hcs (hwire _ ▸ hsz₁) heap₁
    refine ⟨_, heap', hsend, ?_⟩
    -- The receiver gets the stream that it would have written itself.
    have hview : ptrView heap' (.block k) = Mem.ofList (stream (Call.frames h₂.order cs hcs)) := by
      rw [Call.stream_frames, hwire, ← hwire h₁.order]
      exact Heap.view_eq hk
    have hlegal := Call.frames_legal h₂.order hcs
    obtain ⟨s, heap₃, es, hdr, hfin, -, hes, hrec⟩ := finishes_stream (h := h₂)
      (Call.frames h₂.order cs hcs) (by rwa [Call.stream_frames, hwire])
      (valuesInside_of_padded (fun f hf => (hlegal f hf).padded) []) heap₂
    have hdec := hrec.decodes hfin.deserializes
    rw [hes, Call.viewsOf_frames, List.map_map] at hdec
    have hmsgs : cs.map (View.message h₂.order ∘ Call.view h₂.order) = cs.map Call.message :=
      List.map_congr_left fun c _ => c.view_message h₂.order
    rw [hmsgs, received, Call.stream_frames, hwire, ← hwire h₁.order] at hdec
    rw [hview, Call.stream_frames, hwire, ← hwire h₁.order]
    exact hdec

/-- `serialize_u64(1)` on a big-endian host: the halves come out swapped. -/
theorem serializeU64_one_big :
    (∃ b heap', serializeU64 ⟨.big, .w64⟩ .always 1 Heap.empty = .ok (b, heap') ∧
      bufBytes heap' b = some [4, 0, 0, 0, 8, 0, 0, 0, 1, 0, 0, 0, 0]) ∧
    (Call.u64 1).layout = [4, 0, 0, 0, 8, 0, 0, 0, 0, 0, 0, 0, 1] ∧
    ¬ HostIndependent [.u64 1] := by
  refine ⟨⟨_, _, Call.run_always (c := .u64 1) trivial (by decide), ?_⟩, by decide, ?_⟩
  · rw [(HoldsBytes.new_self _ _).bufBytes]
    decide
  · intro hi
    have := hi.symmetric (.u64 1) List.mem_cons_self 1 rfl
    revert this
    decide

end Tlv
