import Tlv.RoundTrip

/-!
# Streams of canonical frames

The grammar of `tlv.h` is about bytes, not about what the serializers write. On
a little-endian host `deserialize` reads every stream of that grammar as its
reference reading says, and serializing the messages again gives the stream
back (`decode_canonical`).
-/

namespace Tlv
open Lib

variable {h : Host} {heap base : Heap}

/-- A frame of the grammar: one of the tags 1 to 16, and a legal body. -/
def Frame.Canonical (f : Frame) : Prop := f.type ≠ .nul ∧ f.Legal

instance (f : Frame) : Decidable f.Canonical := inferInstanceAs (Decidable (_ ∧ f.Legal))

theorem Entry.Stored.keeps {e : Entry} (hs : e.Stored base) (hk : Keeps base heap) :
    e.Stored heap := by
  intro hp
  have hb := hs hp
  rw [HoldsBytes, hk.cells _ (Heap.lt_next_of_cells hb), hb]

/-- A message that is serialized again gives its frame. -/
theorem reserialize_emits {e : Entry} (hs : e.Stored base) {f : Frame} (hf : f.Canonical)
    (hv : e.view = f.view []) (hsz : f.bytes.length < h.szMod) :
    Emits base (reserialize h .always (e.message h.order)) f.bytes := by
  intro heap hk
  obtain ⟨⟨type, declared, value⟩, block⟩ := e
  obtain ⟨ftype, body, hfits⟩ := f
  obtain ⟨hnul, hlegal⟩ := hf
  have hval := hlegal.value []
  simp only [Frame.view, hval, View.mk.injEq] at hv
  obtain ⟨rfl, rfl, rfl⟩ := hv
  have hlen := hlegal.1
  have hmax : value.length ≤ uint32Max := Nat.le_sub_one_of_lt hfits
  have hemit : ∀ t, emitFrame h .always value t heap =
      .ok (⟨.block heap.next, 5 + value.length⟩,
        heap.new (5 + value.length) (Mem.ofList (frameBytes t value))) :=
    fun _ => emitFrame_always hmax
  rw [Frame.length_bytes] at hsz ⊢
  -- In each case the conversions to and from the host's order cancel.
  cases type with
  | nul => exact absurd rfl hnul
  | u16 | s16 =>
    show emitFrame h .always (h.order.store 2 (htons h.order (ntohs h.order _)).toNat) _ heap = _
    rw [store_ntohs_load h.order hlen]
    exact hemit _
  | u32 | s32 | f32 | chr =>
    show emitFrame h .always (h.order.store 4 (htonl h.order (ntohl h.order _)).toNat) _ heap = _
    rw [store_ntohl_load h.order hlen]
    exact hemit _
  | u64 | s64 | f64 | tim =>
    show emitFrame h .always (h.order.store 8 (hton64 h.order (ntoh64 h.order _)).toNat) _ heap = _
    rw [store_ntoh64_load h.order hlen]
    exact hemit _
  | u08 | s08 =>
    obtain ⟨b, rfl⟩ := List.length_eq_one_iff.mp hlen
    have hb : UInt8.ofNat (h.order.load [b]) = b := by rw [load_single, UInt8.ofNat_toNat]
    show emitFrame h .always [UInt8.ofNat (h.order.load [b])] _ heap = _
    rw [hb]
    exact hemit _
  | bol =>
    have hbool : value = [0] ∨ value = [1] := hlegal.2 rfl
    rcases hbool with rfl | rfl <;>
      simp only [Entry.message, unionOf, load_single, UInt8.ofNat_toNat] <;>
      exact hemit _
  | str | bin | err =>
    have hread : (ptrView heap (.block block)).read 0 value.length = some value :=
      (hs.keeps hk rfl).bufBytes
    exact complexSerialize_always hread hmax hsz

/-- On a little-endian host a stream of canonical frames is decoded to what
the frames stand for, up to its last byte and not beyond, and the messages that
come of it are serialized to the same stream. -/
theorem decode_canonical (ho : h.order = .little) {fs : List Frame} (hne : fs ≠ [])
    (hfs : ∀ f ∈ fs, f.Canonical) (hsz : (stream fs).length < h.szMod) (heap : Heap) :
    ∃ s heap₁ ms,
      Finishes h .always (received (stream fs)) heap s heap₁ ∧ s.messages.Holds ms ∧
      ms.map (Message.deref heap₁) = fs.map (fun f => some f.reference) ∧
      ∃ sent heap₂, sendAll h .always (ms.map (reserialize h .always)) heap₁ = .ok (sent, heap₂) ∧
        bufBytes heap₂ sent = some (stream fs) := by
  have hlegal : ∀ f ∈ fs, f.Legal := fun f hf => (hfs f hf).2
  have hpad : ∀ f ∈ fs, f.Padded := fun f hf => (hlegal f hf).padded
  obtain ⟨s, heap₁, es, hdr, hfin, hoff, hes, hrec⟩ :=
    finishes_stream fs hsz (valuesInside_of_padded hpad []) heap
  refine ⟨s, heap₁, _, hfin, hrec.holds, ?_, ?_⟩
  · rw [hrec.map_deref, hes, viewsOf_legal hlegal, List.map_map]
    refine List.map_congr_left fun f hf => ?_
    show some (f.message h.order) = some f.reference
    rw [Frame.message, ho, unionOf_little (hlegal f hf).1, Frame.reference]
  · have hviews : es.map Entry.view = fs.map fun f => f.view [] := by rw [hes, viewsOf_padded hpad]
    have hemits : List.Forall₂ (Emits heap₁)
        ((es.map (Entry.message h.order)).map (reserialize h .always)) (fs.map Frame.bytes) := by
      rw [List.map_map, List.forall₂_map_left_iff, List.forall₂_map_right_iff]
      refine forall₂_of_map_eq hviews fun e he f hf hv => ?_
      refine reserialize_emits (hrec.stored e he) (hfs f hf) hv ?_
      exact Nat.lt_of_le_of_lt
        (List.sublist_flatten_of_mem (List.mem_map_of_mem hf)).length_le hsz
    have hne' : es ≠ [] := by
      rintro rfl
      exact hne (List.map_eq_nil_iff.mp hviews.symm)
    obtain ⟨k, heap₂, hsend, hk⟩ := sendAll_always hemits (by simpa using hne') hsz
    exact ⟨_, heap₂, hsend, hk.bufBytes⟩

/-- A negative number, a string that starts with a NUL, and a boolean. -/
def sampleFrames : List Frame :=
  [⟨.s16, [255, 254], by decide⟩, ⟨.str, [0, 65], by decide⟩, ⟨.bol, [1], by decide⟩]

theorem decode_canonical_sample :
    ∃ s heap₁ ms,
      Finishes ⟨.little, .w64⟩ .always (received (stream sampleFrames)) Heap.empty s heap₁ ∧
      s.messages.Holds ms ∧
      ms.map (Message.deref heap₁) = sampleFrames.map (fun f => some f.reference) ∧
      ∃ sent heap₂,
        sendAll ⟨.little, .w64⟩ .always (ms.map (reserialize ⟨.little, .w64⟩ .always)) heap₁ =
          .ok (sent, heap₂) ∧
        bufBytes heap₂ sent = some (stream sampleFrames) :=
  decode_canonical rfl (by decide) (by decide) (by decide) Heap.empty

end Tlv
