import Tlv.Joins
import Tlv.Lib.PrefixCode
import Tlv.RoundTrip

/-!
# Buffers that end too early

A stream is one buffer for the library, but `read` may have got only its first
bytes. Frames are a prefix code (`prefixCode_frame`), so the bytes that are there
say which frames arrived whole.

Results:
* in a buffer of exactly those bytes, `deserialize` returns the messages of the
  frames that arrived when the cut is between two frames, and else runs past the
  end, whatever it had decoded (`truncated_received`);
* in a buffer with other bytes behind them, as when a receive buffer is used again,
  it may return one message more, and only that one can be wrong (`truncated_stale`);
* the streams that the serializers send are a prefix code too (`sendStream_prefix_iff`).
-/

namespace Tlv
open Lib

variable {h : Host} {A B : Allocator} {m m' : Mem} {heap heap' heap₁ heap₂ : Heap}
  {fs gs : List Frame} {f : Frame} {o k len n : Nat} {part : List Byte}

/-! ## Frames as words -/

theorem TypeTag.toByte_inj {s t : TypeTag} (heq : s.toByte = t.toByte) : s = t := by
  have hs := congrArg TypeTag.ofByte heq
  rw [TypeTag.ofByte_toByte, TypeTag.ofByte_toByte] at hs
  exact Option.some_injective _ hs

/-- The length field says where a frame ends. -/
theorem prefixCode_frame : PrefixCode Frame.bytes where
  ne_nil := fun f hnil => by
    rw [f.bytes_eq] at hnil
    cases hnil
  eq_of_prefix := by
    rintro f g ⟨rest, hrest⟩
    rw [f.bytes_eq, g.bytes_eq, List.cons_append, List.append_assoc] at hrest
    obtain ⟨htag, htail⟩ := List.cons.inj hrest
    obtain ⟨hlen, hbody⟩ := List.append_inj htail (by simp)
    have hlens : f.body.length = g.body.length := by
      rw [← beNat_beBytes_of_lt (k := 4) f.fits, hlen, beNat_beBytes_of_lt (k := 4) g.fits]
    have hbodies : f.body ++ rest = g.body ++ [] := by rw [hbody, List.append_nil]
    exact Frame.ext' (TypeTag.toByte_inj htag) (List.append_inj hbodies hlens).1

/-! ## The reader at a cut -/

/-- The tag is there as soon as anything is. -/
theorem tag_part (hne : part ≠ []) (hpre : part <+: f.bytes) :
    Mem.ofList part 0 = some f.type.toByte := by
  obtain ⟨rest, hrest⟩ := hpre
  have hpos : 0 < part.length := List.length_pos_of_ne_nil hne
  have htag : f.bytes[0]? = some f.type.toByte := by
    rw [f.bytes_eq]
    rfl
  rw [← htag, ← hrest]
  exact (List.getElem?_append_left hpos).symm

/-- With five bytes the header is there, and it is the one of the whole frame. -/
theorem header_part (hpre : part <+: f.bytes) (hlong : 5 ≤ part.length) :
    headerAt (Mem.ofList part) 0 = some (f.type.toByte, f.body.length) := by
  have hne : part ≠ [] := by
    rintro rfl
    exact absurd hlong (by decide)
  have hwhole := header_frame f []
  rw [List.append_nil] at hwhole
  obtain ⟨-, bs, hbs, hd⟩ := headerAt_eq_some_iff.mp hwhole
  refine headerAt_eq_some_iff.mpr ⟨tag_part hne hpre, bs, ?_, hd⟩
  obtain ⟨rest, hrest⟩ := hpre
  rw [Mem.read_ofList (by rw [← hrest, List.length_append]; omega), ← hrest,
    List.drop_append_of_le_length (by omega),
    List.take_append_of_le_length (by rw [List.length_drop]; omega)] at hbs
  rw [Mem.read_ofList (by omega), hbs]

/-- A frame of which only a part is there cannot be taken. -/
theorem peek_part (hf : f.Legal) (hne : part ≠ []) (hpre : part <+: f.bytes)
    (hlt : part.length < f.bytes.length) : peek (Mem.ofList part) 0 = .error .readPastEnd := by
  have hpos : 0 < part.length := List.length_pos_of_ne_nil hne
  rcases Nat.lt_or_ge part.length 5 with hshort | hlong
  · refine peek_of_header_none (Option.not_isSome_iff_eq_none.mp fun hsome => ?_)
    have hfive := (headerAt_ofList_isSome hpos).mp hsome
    omega
  · refine peek_of_value_none (header_part hpre hlong) (TypeTag.ofByte_toByte _) ?_
    rw [f.length_bytes] at hlt
    rw [← hf.1]
    exact Mem.read_ofList_none (by omega) (by omega)

theorem headerAt_mono (hx : m'.Extends m) {p : Byte × Nat} (hh : headerAt m o = some p) :
    headerAt m' o = some p := by
  obtain ⟨tag, declared⟩ := p
  obtain ⟨htag, bs, hbs, hd⟩ := headerAt_eq_some_iff.mp hh
  exact headerAt_eq_some_iff.mpr ⟨hx _ _ htag, bs, Mem.read_mono hx hbs, hd⟩

/-- A frame that can be taken is the same in every larger memory. -/
theorem peek_mono (hx : m'.Extends m) {v : View} (hp : peek m o = .ok v) : peek m' o = .ok v := by
  obtain ⟨hh, hv⟩ := peek_eq_ok hp
  exact peek_of_value (headerAt_mono hx hh) (TypeTag.ofByte_toByte _) (Mem.read_mono hx hv)

theorem reader_mono (hx : m'.Extends m) {s t : Nat × List View}
    (hr : (readerLoop h m len).Reaches s n t) : (readerLoop h m' len).Reaches s n t := by
  induction hr with
  | refl => exact .refl
  | pass _ hg hb ih =>
    obtain ⟨v, hp, rfl⟩ := readerLoop_body_cases hb
    exact .pass ih (readerLoop_guard.mpr (readerLoop_guard.mp hg))
      (readerLoop_body_ok (peek_mono hx hp))

/-- The reader gets through the frames that are there. -/
theorem reader_reaches_cut (hgs : ∀ g ∈ gs, g.Legal) (part : List Byte) (len : Nat)
    (hsz : (stream gs).length < h.szMod) (hlen : (stream gs).length ≤ len) :
    (readerLoop h (Mem.ofList (stream gs ++ part)) len).Reaches (0, []) gs.length
      ((stream gs).length, viewsOf gs []) := by
  have hpad : ∀ g ∈ gs, g.Padded := fun g hg => (hgs g hg).padded
  have hsz' : ([] : List Byte).length + (stream gs).length < h.szMod := by simpa using hsz
  have hlen' : ([] : List Byte).length + (stream gs).length ≤ len := by simpa using hlen
  have hr := reaches_stream [] part [] hsz' hlen' (valuesInside_of_padded hpad part)
  simp only [List.nil_append, List.length_nil, Nat.zero_add] at hr
  rwa [viewsOf_padded hpad, ← viewsOf_padded hpad []] at hr

/-- When all that is there are whole frames, the reader ends with them. -/
theorem reader_ends_whole (hgs : ∀ g ∈ gs, g.Legal) (hsz : (stream gs).length < h.szMod) :
    (readerLoop h (Mem.ofList (stream gs)) (stream gs).length).Ends (0, [])
      (.ok ((stream gs).length, viewsOf gs [])) := by
  have hr := reader_reaches_cut hgs [] _ hsz (Nat.le_refl _)
  rw [List.append_nil] at hr
  exact WhileLoop.ends_ok_iff.mpr ⟨_, hr, decide_eq_false (Nat.lt_irrefl _)⟩

/-- The first bytes of a stream: some frames, and the beginning of one more unless the
cut is between two frames. -/
theorem stream_cut (fs : List Frame) (hk : k ≤ (stream fs).length) :
    ∃ gs, gs <+: fs ∧ ((stream fs).take k = stream gs ∧ (stream gs).length = k ∨
      ∃ f part, gs ++ [f] <+: fs ∧ part ≠ [] ∧ part <+: f.bytes ∧
        part.length < f.bytes.length ∧ (stream fs).take k = stream gs ++ part) := by
  obtain ⟨gs, hpre, -, hcut⟩ := exists_cut Frame.bytes fs hk
  refine ⟨gs, hpre, hcut.imp_left fun hcut => ⟨hcut, ?_⟩⟩
  have hlen : ((stream fs).take k).length = (stream gs).length := congrArg List.length hcut
  rw [List.length_take, Nat.min_eq_left hk] at hlen
  exact hlen.symm

/-- The frames in front of a cut are legal when all frames are, and they are not longer. -/
theorem legal_of_part (hfs : ∀ f ∈ fs, f.Legal) (hpre : gs <+: fs) : ∀ g ∈ gs, g.Legal :=
  fun g hg => hfs g (hpre.subset hg)

theorem length_stream_le (hpre : gs <+: fs) : (stream gs).length ≤ (stream fs).length :=
  (prefixCode_frame.flatMap_prefix_iff.mpr hpre).length_le

section Cut
variable (hgs : ∀ g ∈ gs, g.Legal) (hf : f.Legal) (hne : part ≠ []) (hpre : part <+: f.bytes)
  (hlt : part.length < f.bytes.length) (hsz : (stream gs).length < h.szMod)
include hf hne hpre hlt

/-- Where a frame is cut, nothing can be taken. -/
theorem peek_cut (gs : List Frame) :
    peek (Mem.ofList (stream gs ++ part)) (stream gs).length = .error .readPastEnd := by
  have hshift := peek_shift (stream gs) part 0
  rw [Nat.add_zero] at hshift
  rw [hshift, peek_part hf hne hpre hlt]

include hgs hsz

theorem reader_stops_cut :
    (readerLoop h (Mem.ofList (stream gs ++ part)) (stream gs ++ part).length).Ends (0, [])
      (.error .readPastEnd) := by
  have hr := reader_reaches_cut hgs part (stream gs ++ part).length hsz (by simp)
  refine hr.ends_iff.mpr (WhileLoop.ends_error (readerLoop_guard.mpr ?_)
    (readerLoop_body_eq_error.mpr (peek_cut hf hne hpre hlt gs)))
  show (stream gs).length < _
  rw [List.length_append]
  exact Nat.lt_add_of_pos_right (List.length_pos_of_ne_nil hne)

theorem fails_cut (heap : Heap) :
    Fails h .always (received (stream gs ++ part)) heap .readPastEnd := by
  have hr := reader_reaches_cut hgs part (stream gs ++ part).length hsz (by simp)
  have hn := five_mul_length_le_stream gs
  refine fails_of_reaches hr (by omega) ?_ (peek_cut hf hne hpre hlt gs) heap
  rw [List.length_append]
  exact Nat.lt_add_of_pos_right (List.length_pos_of_ne_nil hne)

end Cut

theorem decodes_whole (hgs : ∀ g ∈ gs, g.Legal) (hsz : (stream gs).length < h.szMod)
    (heap : Heap) :
    Decodes h .always (received (stream gs)) heap (gs.map (Frame.message h.order)) := by
  have hr := reader_reaches_cut (h := h) hgs [] _ hsz (Nat.le_refl _)
  have hn := five_mul_length_le_stream gs
  rw [List.append_nil] at hr
  rw [← viewsOf_legal hgs h.order []]
  exact decodes_of_reaches hr (by omega) (Nat.le_refl _) heap

/-! ## A buffer of the bytes that arrived -/

/-- What a call makes of the first `k` bytes of a stream of legal frames: it returns
the messages of the frames before a cut between two frames, and it runs past the end
when the cut is inside of a frame. -/
structure Truncates (h : Host) (fs : List Frame) (k : Nat) : Prop where
  only : ∀ A heap vs, Decodes h A (received ((stream fs).take k)) heap vs →
    ∃ gs, gs <+: fs ∧ (stream gs).length = k ∧ vs = gs.map (Frame.message h.order)
  between : ∀ gs, gs <+: fs → (stream gs).length = k → ∀ heap,
    Decodes h .always (received ((stream fs).take k)) heap (gs.map (Frame.message h.order))
  inside : (∀ gs, gs <+: fs → (stream gs).length ≠ k) → ∀ heap,
    Fails h .always (received ((stream fs).take k)) heap .readPastEnd

theorem truncated_received (hfs : ∀ f ∈ fs, f.Legal) (hsz : (stream fs).length < h.szMod)
    (hk : k ≤ (stream fs).length) : Truncates h fs k := by
  have hlt := fun gs (hpre : gs <+: fs) => Nat.lt_of_le_of_lt (length_stream_le hpre) hsz
  obtain ⟨gs, hpre, hcut⟩ := stream_cut fs hk
  have hgs := legal_of_part hfs hpre
  refine ⟨fun A heap vs hd => ?_, fun gs' hpre' hlen heap => ?_, fun hno heap => ?_⟩
  · obtain ⟨o, views, he, rfl⟩ := hd.reader_ends
    rcases hcut with ⟨hcut, hlen⟩ | ⟨f, part, hpref, hne, hpart, hshort, hcut⟩
    · rw [hcut] at he
      cases he.unique (reader_ends_whole hgs (hlt gs hpre))
      exact ⟨gs, hpre, hlen, viewsOf_legal hgs h.order []⟩
    -- The reader stops at the frame that was cut, so it cannot have ended.
    · have hf := hfs f (hpref.subset (by simp))
      rw [hcut] at he
      cases he.unique (reader_stops_cut hgs hf hne hpart hshort (hlt gs hpre))
  · obtain ⟨rest, rfl⟩ := hpre'
    have htake : (stream (gs' ++ rest)).take k = stream gs' := by
      rw [stream_append, List.take_left' hlen]
    rw [htake]
    exact decodes_whole (legal_of_part hfs ⟨rest, rfl⟩) (hlt gs' ⟨rest, rfl⟩) heap
  · rcases hcut with ⟨-, hlen⟩ | ⟨f, part, hpref, hne, hpart, hshort, hcut⟩
    · exact absurd hlen (hno gs hpre)
    · have hf := hfs f (hpref.subset (by simp))
      rw [hcut]
      exact fails_cut hgs hf hne hpart hshort (hlt gs hpre) heap

/-- A number and a string, of which all but the last byte arrived. -/
theorem truncated_received_sample :
    Truncates ⟨.little, .w64⟩ [⟨.u16, [1, 2], by decide⟩, ⟨.str, [65, 66], by decide⟩] 13 :=
  truncated_received (by decide) (by decide) (by decide)

/-! ## A buffer with other bytes behind them -/

/-- The frame after a cut goes on at or behind the end of the buffer, whatever the
bytes there are. -/
theorem nextOffset_cut (hw : h.word = .w64) {v : View} (gs : List Frame) (hne : part ≠ [])
    (hpre : part <+: f.bytes) (hlt : part.length < f.bytes.length)
    (hmax : (stream gs ++ part).length ≤ h.ptrdiffMax)
    (hx : m.Extends (Mem.ofList (stream gs ++ part))) (hp : peek m (stream gs).length = .ok v) :
    v.type = f.type ∧ (stream gs ++ part).length ≤ nextOffset h (stream gs).length v.declared := by
  have hheader := (peek_eq_ok hp).1
  obtain ⟨htag, -⟩ := headerAt_eq_some_iff.mp hheader
  have hmod := Host.szMod_w64 hw
  have hdecl := peek_declared_lt hp
  unfold Host.ptrdiffMax at hmax
  rw [List.length_append] at hmax ⊢
  rw [nextOffset_of_lt (by omega)]
  constructor
  · have hsent : Mem.ofList (stream gs ++ part) (stream gs).length = some f.type.toByte := by
      have hshift := Mem.ofList_append_shift (stream gs) part 0
      rw [Nat.add_zero] at hshift
      rw [hshift, tag_part hne hpre]
    have htags := (hx _ _ hsent).symm.trans htag
    exact (TypeTag.toByte_inj (Option.some_injective _ htags)).symm
  · rcases Nat.lt_or_ge part.length 5 with hshort | hlong
    · omega
    -- The declared length arrived, and it is longer than what is left.
    · have hsent : headerAt (Mem.ofList (stream gs ++ part)) (stream gs).length =
          some (f.type.toByte, f.body.length) := by
        have hshift := headerAt_shift (stream gs) part 0
        rw [Nat.add_zero] at hshift
        rw [hshift, header_part hpre hlong]
      have hheaders := (headerAt_mono hx hsent).symm.trans hheader
      rw [Option.some.injEq, Prod.mk.injEq] at hheaders
      rw [f.length_bytes] at hlt
      omega

/-- On a 64-bit host: a memory that begins with the first `k` bytes of a stream of
legal frames, and goes on with anything. A call that returns has the messages of the
frames that arrived whole and, when the cut is inside of a frame, one more, which has
the tag of that frame. -/
theorem truncated_stale (hw : h.word = .w64) (hfs : ∀ f ∈ fs, f.Legal)
    (hk : k ≤ (stream fs).length) (hmax : k ≤ h.ptrdiffMax)
    (hm : ∀ i < k, m i = (stream fs)[i]?) {vs : List (Message (List Byte))}
    (hd : Decodes h A ⟨some m, k⟩ heap vs) :
    ∃ gs, gs <+: fs ∧
      ((stream gs).length = k ∧ vs = gs.map (Frame.message h.order) ∨
        ∃ f v, gs ++ [f] <+: fs ∧ (stream gs).length < k ∧ k < (stream (gs ++ [f])).length ∧
          v.type = f.type ∧ vs = gs.map (Frame.message h.order) ++ [v]) := by
  obtain ⟨gs, hpre, hcut⟩ := stream_cut fs hk
  have hgs := legal_of_part hfs hpre
  have hlen : ((stream fs).take k).length = k := by rw [List.length_take, Nat.min_eq_left hk]
  have hx : m.Extends (Mem.ofList ((stream fs).take k)) := by
    refine Mem.extends_ofList fun i hi => ?_
    rw [hlen] at hi
    rw [hm i hi, List.getElem?_take_of_lt hi]
  have hbound : k < h.szMod := by
    have hbig := h.szMod_ge
    unfold Host.ptrdiffMax at hmax
    omega
  obtain ⟨o, views, he, rfl⟩ := hd.reader_ends
  refine ⟨gs, hpre, ?_⟩
  rcases hcut with ⟨hcut, hk'⟩ | ⟨f, part, hpref, hne, hpart, hshort, hcut⟩
  · left
    rw [hcut, ← List.append_nil (stream gs)] at hx
    have hr := reader_mono hx (reader_reaches_cut (h := h) hgs [] k (by omega) (by omega))
    have hdone : (readerLoop h m k).guard ((stream gs).length, viewsOf gs []) = false :=
      decide_eq_false (by show ¬ (stream gs).length < k; omega)
    cases he.unique (WhileLoop.ends_ok_iff.mpr ⟨_, hr, hdone⟩)
    exact ⟨hk', viewsOf_legal hgs h.order []⟩
  · right
    have hpos : 0 < part.length := List.length_pos_of_ne_nil hne
    rw [hcut] at hx hlen
    have hsum : (stream gs).length + part.length = k := by rw [← hlen, List.length_append]
    have hr := reader_mono hx
      (reader_reaches_cut (h := h) hgs part k (by omega) (by omega))
    rw [hr.ends_iff] at he
    have hg : (readerLoop h m k).guard ((stream gs).length, viewsOf gs []) = true :=
      readerLoop_guard.mpr (by show (stream gs).length < k; omega)
    cases hp : peek m (stream gs).length with
    | error e =>
      cases he.unique (WhileLoop.ends_error hg (readerLoop_body_eq_error.mpr hp))
    | ok v =>
      obtain ⟨htype, hnext⟩ := nextOffset_cut hw gs hne hpart hshort (by omega) hx hp
      rw [WhileLoop.ends_pass hg (readerLoop_body_ok hp)] at he
      have hdone : (readerLoop h m k).guard
          (nextOffset h (stream gs).length v.declared, viewsOf gs [] ++ [v]) = false :=
        decide_eq_false (by show ¬ nextOffset h _ v.declared < k; omega)
      cases he.unique (WhileLoop.ends_done hdone)
      refine ⟨f, v.message h.order, hpref, by omega, ?_, htype, ?_⟩
      · rw [stream_append, List.length_append, stream_cons, stream_nil, List.append_nil]
        omega
      · rw [List.map_append, viewsOf_legal hgs]
        rfl

/-- A number, and a second one whose last byte did not arrive; a 9 lies in its place. -/
theorem truncated_stale_sample :
    ∃ vs, Decodes ⟨.little, .w64⟩ .always
        ⟨some (Mem.ofList (stream [⟨.u08, [7], by decide⟩, ⟨.u16, [1, 9], by decide⟩])), 12⟩
        Heap.empty vs ∧
      ∃ gs, gs <+: [⟨.u08, [7], by decide⟩, ⟨.u16, [1, 2], by decide⟩] ∧
        ((stream gs).length = 12 ∧ vs = gs.map (Frame.message .little) ∨
          ∃ f v, gs ++ [f] <+: [⟨.u08, [7], by decide⟩, ⟨.u16, [1, 2], by decide⟩] ∧
            (stream gs).length < 12 ∧ 12 < (stream (gs ++ [f])).length ∧
            v.type = f.type ∧ vs = gs.map (Frame.message .little) ++ [v]) := by
  have hr : (readerLoop ⟨.little, .w64⟩
      (Mem.ofList (stream [⟨.u08, [7], by decide⟩, ⟨.u16, [1, 9], by decide⟩])) 12).Reaches (0, [])
      2 (13, [⟨.u08, 1, [7]⟩, ⟨.u16, 2, [1, 9]⟩]) := .pass (.pass .refl rfl rfl) rfl rfl
  have hd := decodes_of_reaches hr (by decide) (by decide) Heap.empty
  exact ⟨_, hd, truncated_stale rfl (by decide) (by decide) (by decide) (by decide) hd⟩

/-! ## The streams that the serializers send -/

/-- The stream is a function of the messages that are to arrive. -/
theorem wireStream_eq (o : ByteOrder) (cs : List Call) :
    wireStream o cs = (cs.map Call.message).flatMap fun m => frameBytes m.type (m.val.bytes o) := by
  rw [List.flatMap_map]
  rfl

/-- The messages of the frames that the serializers write are the values. -/
theorem Call.map_message_frames (o : ByteOrder) {cs : List Call} (hcs : ∀ c ∈ cs, c.Fits) :
    (frames o cs hcs).map (Frame.message o) = cs.map message := by
  rw [← viewsOf_legal (frames_legal o hcs) o [], viewsOf_frames, List.map_map]
  exact List.map_congr_left fun c _ => c.view_message o

theorem wireStream_prefix_iff (o : ByteOrder) {cs ds : List Call} (hcs : ∀ c ∈ cs, c.Fits)
    (hds : ∀ d ∈ ds, d.Fits) :
    wireStream o cs <+: wireStream o ds ↔ cs.map Call.message <+: ds.map Call.message := by
  constructor
  · intro hpre
    rw [← Call.stream_frames o hcs, ← Call.stream_frames o hds] at hpre
    have hframes : Call.frames o cs hcs <+: Call.frames o ds hds :=
      prefixCode_frame.flatMap_prefix_iff.mp hpre
    rw [← Call.map_message_frames o hcs, ← Call.map_message_frames o hds]
    exact hframes.map _
  · rintro ⟨rest, hrest⟩
    rw [wireStream_eq, wireStream_eq, ← hrest, List.flatMap_append]
    exact List.prefix_append _ _

/-- Two streams that were sent on hosts of one byte order: one is the beginning of the
other if and only if the values of the one are the first values of the other. So no
two lists of values give one stream. -/
theorem sendStream_prefix_iff {h' : Host} {cs ds : List Call} {b b' : Buffer Ptr}
    (hr : sendStream h A cs heap = .ok (b, heap₁))
    (hr' : sendStream h' B ds heap' = .ok (b', heap₂)) (ho : h.order = h'.order) :
    ∃ xs ys, bufBytes heap₁ b = some xs ∧ bufBytes heap₂ b' = some ys ∧
      (xs <+: ys ↔ cs.map Call.message <+: ds.map Call.message) ∧
      (xs = ys ↔ cs.map Call.message = ds.map Call.message) := by
  obtain ⟨hcs, -, -, hbytes⟩ := sendStream_ok hr
  obtain ⟨hds, -, -, hbytes'⟩ := sendStream_ok hr'
  rw [← ho] at hbytes'
  have hxs := wireStream_prefix_iff h.order hcs hds
  have hys := wireStream_prefix_iff h.order hds hcs
  refine ⟨_, _, hbytes, hbytes', hxs, ?_⟩
  constructor
  · intro heq
    have hab := hxs.mp (heq ▸ List.prefix_rfl)
    have hba := hys.mp (heq ▸ List.prefix_rfl)
    exact hab.eq_of_length_le hba.length_le
  · intro heq
    have hab := hxs.mpr (heq ▸ List.prefix_rfl)
    have hba := hys.mpr (heq ▸ List.prefix_rfl)
    exact hab.eq_of_length_le hba.length_le

/-- A number, and the same number followed by a string, from hosts of two widths. -/
theorem sendStream_prefix_iff_sample :
    ∃ b heap₁ b' heap₂ xs ys,
      sendStream ⟨.big, .w32⟩ .always [.u08 7] Heap.empty = .ok (b, heap₁) ∧
      sendStream ⟨.big, .w64⟩ .always [.u08 7, .str [65]] Heap.empty = .ok (b', heap₂) ∧
      bufBytes heap₁ b = some xs ∧ bufBytes heap₂ b' = some ys ∧ xs <+: ys := by
  obtain ⟨k, heap₁, hsend, -⟩ := @sendStream_always ⟨.big, .w32⟩ [.u08 7]
    (by simp) (by simp [Call.Fits]) (by decide) Heap.empty
  obtain ⟨k', heap₂, hsend', -⟩ := @sendStream_always ⟨.big, .w64⟩ [.u08 7, .str [65]]
    (by simp) (by simp [Call.Fits, uint32Max]) (by decide) Heap.empty
  obtain ⟨xs, ys, hxs, hys, hpre, -⟩ := sendStream_prefix_iff hsend hsend' rfl
  exact ⟨_, heap₁, _, heap₂, xs, ys, hsend, hsend', hxs, hys, hpre.mpr ⟨[_], rfl⟩⟩

end Tlv
