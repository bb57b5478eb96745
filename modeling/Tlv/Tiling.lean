import Tlv.Decode

/-!
# What the decoder accepts

The loop ends as soon as `offset` is at or behind `buf.len`; it does not look at
how it got there. So two things that a reader of the format expects can fail.

* The frames decoded need not tile the buffer: the last one may declare more
  bytes than are left, when its tag does not read them (`acceptsTiled_iff`).
* In a buffer that frames do tile, a frame need not be a legal encoding: the
  value is read with the width of the tag, and the declared length only steers
  the loop, so a value may reach into the frames behind, or leave bytes of its
  own frame out (`faithful_iff`).
-/

namespace Tlv
open Lib

variable {h : Host} {A : Allocator} {heap heap' : Heap} {o n : Nat} {bs : List Byte}
  {fs gs : List Frame} {vs : List (Message (List Byte))}

/-! ## Truncated frames -/

/-- A call that returns has decoded frames that tile the buffer. -/
def AcceptsTiled (h : Host) (bs : List Byte) : Prop :=
  ∀ A heap arr heap', Deserializes h A (received bs) heap (.ok (arr, heap')) →
    ∃ fs ms, bs = stream fs ∧ arr.Holds ms ∧ ms.map Message.type = fs.map Frame.type

/-- No frame that the decoder can take declares more bytes than the buffer still
holds. -/
def NoOverhang (h : Host) (bs : List Byte) : Prop :=
  ∀ o, FrameStart h (Mem.ofList bs) bs.length o → o < bs.length → ∀ tag declared type,
    headerAt (Mem.ofList bs) o = some (tag, declared) → TypeTag.ofByte tag = some type →
    o + 5 + type.width declared ≤ bs.length → o + 5 + declared ≤ bs.length

/-- No frame leads to the end of the buffer. The decoder stops at one that it cannot take,
or goes in circles. -/
def NeverThrough (h : Host) (bs : List Byte) : Prop :=
  ∀ o, FrameStart h (Mem.ofList bs) bs.length o → o < bs.length

/-- A header whose declared bytes are there starts a frame. -/
theorem frame_of_header {t : TypeTag} {declared : Nat}
    (hh : headerAt (Mem.ofList bs) o = some (t.toByte, declared))
    (hlen : o + 5 + declared ≤ bs.length) :
    ∃ f : Frame, f.type = t ∧ f.body.length = declared ∧
      bs.drop o = f.bytes ++ bs.drop (o + (5 + declared)) := by
  obtain ⟨htag, ls, hread, hd⟩ := headerAt_eq_some_iff.mp hh
  obtain ⟨ho, htag⟩ := List.getElem?_eq_some_iff.mp htag
  obtain ⟨-, hls⟩ := (Mem.read_ofList_eq_some_iff (by omega)).mp hread
  have hfour : ls.length = 4 := Mem.length_of_read hread
  have hdrop : ∀ i k, bs.drop i = (bs.drop i).take k ++ bs.drop (i + k) := fun i k => by
    rw [← List.drop_drop, List.take_append_drop]
  obtain ⟨body, hbody⟩ : ∃ body, (bs.drop (o + 5)).take declared = body := ⟨_, rfl⟩
  have hblen : body.length = declared := by
    rw [← hbody, List.length_take, List.length_drop]
    omega
  have hlen4 : beBytes 4 declared = ls := by rw [← hd, ← hfour, beBytes_beNat]
  have hrest := hdrop (o + 1) 4
  have htail := hdrop (o + 5) declared
  rw [← hls] at hrest
  rw [hbody, Nat.add_assoc] at htail
  refine ⟨⟨t, body, hblen.symm ▸ declared_lt hh⟩, rfl, hblen, ?_⟩
  show bs.drop o = t.toByte :: (beBytes 4 body.length ++ body) ++ _
  rw [hblen, hlen4, List.drop_eq_getElem_cons ho, htag, hrest, Nat.add_assoc, htail]
  simp

/-- The frames taken so far tile the buffer up to the offset. -/
theorem NoOverhang.tiled (hno : NoOverhang h bs) (hsz : bs.length < h.szMod)
    {s : Nat × List View}
    (hr : (readerLoop h (Mem.ofList bs) bs.length).Reaches (0, []) n s) :
    s.1 ≤ bs.length ∧ ∃ fs, bs = stream fs ++ bs.drop s.1 ∧ (stream fs).length = s.1 ∧
      s.2.map View.type = fs.map Frame.type := by
  induction hr with
  | refl => exact ⟨Nat.zero_le _, [], by simp, rfl, rfl⟩
  | @pass k s t hr hg hb ih =>
    obtain ⟨-, fs, htile, hlen, htypes⟩ := ih
    obtain ⟨v, hp, rfl⟩ := readerLoop_body_cases hb
    obtain ⟨hh, hv⟩ := peek_eq_ok hp
    have ho := readerLoop_guard.mp hg
    have hfive := declared_lt hh
    have hwidth : s.1 + 5 + v.type.width v.declared ≤ bs.length :=
      ((Mem.read_ofList_eq_some_iff (by
        have hs := headerAt_ofList_isSome ho
        rw [hh] at hs
        exact hs.mp rfl)).mp hv).1
    have hend := hno s.1 (frameStart_of_reaches hr) ho _ _ _ hh (TypeTag.ofByte_toByte _) hwidth
    -- The frame taken ends inside, so it can be cut off from what is left.
    obtain ⟨f, hft, hfl, hdrop⟩ := frame_of_header hh hend
    have hnext : nextOffset h s.1 v.declared = s.1 + (5 + v.declared) :=
      nextOffset_of_lt (by omega)
    show nextOffset h s.1 v.declared ≤ _ ∧ ∃ fs', _
    rw [hnext]
    refine ⟨by omega, fs ++ [f], ?_, ?_, ?_⟩
    · rw [stream_append, stream_cons, stream_nil, List.append_nil, List.append_assoc, ← hdrop,
        ← htile]
    · rw [stream_append, List.length_append, hlen, stream_cons, stream_nil, List.append_nil,
        f.length_bytes, hfl]
    · show (s.2 ++ [v]).map View.type = _
      rw [List.map_append, List.map_append, htypes]
      simp [hft]

theorem NoOverhang.acceptsTiled (hno : NoOverhang h bs) (hsz : bs.length < h.szMod) :
    AcceptsTiled h bs := by
  intro A heap arr heap' hr
  obtain ⟨n, o, es, hdr, hreads, ho, hrec⟩ := deserialize_returns hr
  obtain ⟨hle, fs, htile, -, htypes⟩ := hno.tiled hsz hreads
  refine ⟨fs, _, ?_, hrec.holds, ?_⟩
  · have hnil : bs.drop o = [] := List.drop_eq_nil_of_le ho
    simp only [hnil, List.append_nil] at htile
    exact htile
  · rw [← htypes, List.map_map, List.map_map]
    rfl

theorem NeverThrough.acceptsTiled (hnever : NeverThrough h bs) : AcceptsTiled h bs := by
  intro A heap arr heap' hr
  obtain ⟨n, o, es, hdr, hreads, ho, -⟩ := deserialize_returns hr
  exact absurd (hnever o (frameStart_of_reaches hreads)) (Nat.not_lt.mpr ho)

/-- Frames that tile a buffer do not overhang. -/
theorem noOverhang_stream (hsz : (stream fs).length < h.szMod) : NoOverhang h (stream fs) := by
  intro o hs ho tag declared type hh _ _
  obtain ⟨gs, gs', rfl, rfl⟩ := frameStart_stream hsz hs
  cases gs' with
  | nil => exact absurd ho (by simp)
  | cons f gs' =>
    rw [header_stream] at hh
    cases hh
    have hsplit := length_stream_split gs gs' f
    omega

/-- A buffer through which the decoder gets is accepted, so it has to be tiled. -/
theorem AcceptsTiled.noOverhang (hacc : AcceptsTiled h bs) (hlen : bs.length ≤ h.ptrdiffMax)
    (hs : FrameStart h (Mem.ofList bs) bs.length o) (ho : bs.length ≤ o) : NoOverhang h bs := by
  have hbig := h.szMod_ge
  unfold Host.ptrdiffMax at hlen
  obtain ⟨n, hn, vs, hreach⟩ := frameStart_reaches hs
  obtain ⟨s, heap', es, hdr, hfin, -, -, -⟩ :=
    finishes_of_reaches hreach (by omega) ho Heap.empty
  obtain ⟨fs, ms, rfl, -, -⟩ := hacc .always Heap.empty _ _ hfin.deserializes
  exact noOverhang_stream (by omega)

/-- With a 64-bit `size_t`, a frame that overhangs leads behind the end. -/
theorem NeverThrough.noOverhang (hnever : NeverThrough h bs) (hw : h.word = .w64)
    (hlen : bs.length ≤ h.ptrdiffMax) : NoOverhang h bs := by
  intro o hs ho tag declared type hh ht hwidth
  have hmod := Host.szMod_w64 hw
  have hd := declared_lt hh
  unfold Host.ptrdiffMax at hlen
  have hpeek := peek_of_value hh ht (Mem.read_ofList hwidth)
  have hnext : nextOffset h o declared = o + (5 + declared) := nextOffset_of_lt (by omega)
  have hin := hnever _ (.next hs ho hpeek)
  have hin' : nextOffset h o declared < bs.length := hin
  omega

/-- What comes out of a call tiles the buffer when no frame overhangs, or when nothing
comes out, because the decoder does not get through; and in no other case. With a 64-bit
`size_t` no overhanging frame can keep it from getting through. -/
theorem acceptsTiled_iff (h : Host) (bs : List Byte) (hlen : bs.length ≤ h.ptrdiffMax) :
    (AcceptsTiled h bs ↔ NoOverhang h bs ∨ NeverThrough h bs) ∧
    (h.word = .w64 → (AcceptsTiled h bs ↔ NoOverhang h bs)) := by
  have hiff : AcceptsTiled h bs ↔ NoOverhang h bs ∨ NeverThrough h bs := by
    constructor
    · intro hacc
      by_cases hnever : NeverThrough h bs
      · exact .inr hnever
      · simp only [NeverThrough, not_forall, Nat.not_lt] at hnever
        obtain ⟨o, hs, ho⟩ := hnever
        exact .inl (hacc.noOverhang hlen hs ho)
    · rintro (hno | hnever)
      · have hbig := h.szMod_ge
        unfold Host.ptrdiffMax at hlen
        exact hno.acceptsTiled (by omega)
      · exact hnever.acceptsTiled
  refine ⟨hiff, fun hw => hiff.trans ⟨?_, .inl⟩⟩
  rintro (hno | hnever)
  · exact hno
  · exact hnever.noOverhang hw hlen

/-- A number and a `T_NUL` frame that carries a byte. -/
def tiledFrames : List Frame := [⟨.u16, [1, 2], by decide⟩, ⟨.nul, [9], by decide⟩]

theorem acceptsTiled_sample :
    AcceptsTiled ⟨.little, .w64⟩ (stream tiledFrames) ∧
      NoOverhang ⟨.little, .w64⟩ (stream tiledFrames) := by
  obtain ⟨hiff, hiff64⟩ := acceptsTiled_iff ⟨.little, .w64⟩ (stream tiledFrames) (by decide)
  have hacc := hiff.mpr (.inl (noOverhang_stream (by decide)))
  exact ⟨hacc, (hiff64 rfl).mp hacc⟩

/-- A `T_NUL` frame that declares ten bytes, of which none is there, is returned
as a message. -/
theorem not_acceptsTiled_nul : ¬ AcceptsTiled ⟨.little, .w64⟩ [0, 0, 0, 0, 10] := by
  intro hacc
  obtain ⟨fs, ms, hbs, -, -⟩ := hacc .always Heap.empty _ _ ⟨1, rfl⟩
  cases fs with
  | nil => cases hbs
  | cons f fs =>
    have hh := header_frame f (stream fs)
    rw [← stream_cons, ← hbs] at hh
    have hten : f.body.length = 10 := (Prod.mk.inj (Option.some.inj hh)).2.symm
    have hlen := congrArg List.length hbs
    rw [stream_cons, List.length_append, f.length_bytes] at hlen
    simp only [List.length_cons, List.length_nil] at hlen
    omega

/-! ## Illegal frames -/

/-- A call on these frames only returns when every frame is a legal encoding for
its tag; each message is then what the body of its own frame stands for, and no
other stream of legal frames gives the same messages. In `distinct` both streams are to
meet the condition: a stream whose frames are longer than their values may well give the
messages of a legal one. -/
structure Faithful (h : Host) (fs : List Frame) : Prop where
  legal : ∀ A heap vs, Decodes h A (received (stream fs)) heap vs → ∀ f ∈ fs, f.Legal
  own : ∀ A heap vs, Decodes h A (received (stream fs)) heap vs →
    vs = fs.map (Frame.message h.order)
  distinct : ∀ A heap vs, Decodes h A (received (stream fs)) heap vs →
    ∀ gs, (stream gs).length < h.szMod → (∀ g ∈ gs, g.Legal) →
    ∀ A' heap', Decodes h A' (received (stream gs)) heap' vs → gs = fs

/-- The decoder on legal frames. -/
theorem decodes_legal (hsz : (stream fs).length < h.szMod) (hfs : ∀ f ∈ fs, f.Legal)
    (hd : Decodes h A (received (stream fs)) heap vs) : vs = fs.map (Frame.message h.order) := by
  obtain ⟨o, views, he, rfl⟩ := hd.reader_ends
  have hr := reaches_stream (h := h) [] [] [] (by simpa using hsz)
    (Nat.le_of_eq (Nat.zero_add _))
    (valuesInside_of_padded (fun f hf => (hfs f hf).padded) [])
  simp only [List.nil_append, List.append_nil, List.length_nil, Nat.zero_add] at hr
  have hg : (readerLoop h (Mem.ofList (stream fs)) (stream fs).length).guard
      ((stream fs).length, viewsOf fs []) = false := decide_eq_false (Nat.lt_irrefl _)
  cases he.unique (WhileLoop.ends_ok_iff.mpr ⟨_, hr, hg⟩)
  exact viewsOf_legal hfs h.order []

/-- The body of a legal frame can be read off its message. -/
theorem Frame.Legal.message_inj {f g : Frame} {o : ByteOrder} (hf : f.Legal) (hg : g.Legal)
    (hm : f.message o = g.message o) : f = g := by
  obtain ⟨ft, fb, ffits⟩ := f
  obtain ⟨gt, gb, gfits⟩ := g
  have hfl := hf.1
  have hgl := hg.1
  simp only [Frame.message, Message.mk.injEq] at hm
  obtain ⟨rfl, hval⟩ := hm
  refine Frame.ext' rfl ?_
  rw [← bytes_unionOf o hfl, hval, bytes_unionOf o hgl]

theorem messages_inj {o : ByteOrder} (hfs : ∀ f ∈ fs, f.Legal) (hgs : ∀ g ∈ gs, g.Legal)
    (hm : fs.map (Frame.message o) = gs.map (Frame.message o)) : fs = gs := by
  induction fs generalizing gs with
  | nil => exact (List.map_eq_nil_iff.mp hm.symm).symm
  | cons f fs ih =>
    cases gs with
    | nil => cases hm
    | cons g gs =>
      obtain ⟨hhead, htail⟩ := List.cons.inj hm
      rw [(hfs f List.mem_cons_self).message_inj (hgs g List.mem_cons_self) hhead,
        ih (fun f' hf' => hfs f' (List.mem_cons_of_mem f hf'))
          (fun g' hg' => hgs g' (List.mem_cons_of_mem g hg')) htail]

/-- The decoder is faithful on a stream when all its frames are legal, or when it
cannot get through, because the value of some frame reaches past the end of the
buffer; and in no other case. -/
theorem faithful_iff (h : Host) {fs : List Frame} (hsz : (stream fs).length < h.szMod) :
    Faithful h fs ↔ (∀ f ∈ fs, f.Legal) ∨ ¬ ValuesInside fs [] := by
  constructor
  · intro hfaith
    by_cases hval : ValuesInside fs []
    · obtain ⟨s, heap', es, hdr, hfin, -, -, hrec⟩ := finishes_stream fs hsz hval Heap.empty
      exact .inl (hfaith.legal .always Heap.empty _ (hrec.decodes hfin.deserializes))
    · exact .inr hval
  · rintro (hfs | hval)
    · refine ⟨fun _ _ _ _ => hfs, fun _ _ _ hd => decodes_legal hsz hfs hd, ?_⟩
      intro A heap vs hd gs hsz' hgs A' heap' hd'
      exact messages_inj hgs hfs
        ((decodes_legal hsz' hgs hd').symm.trans (decodes_legal hsz hfs hd))
    -- Nothing is returned, so nothing is to be shown.
    · have hnever : ∀ A heap vs, ¬ Decodes h A (received (stream fs)) heap vs := by
        intro A heap vs hd
        obtain ⟨o, views, he, -⟩ := hd.reader_ends
        exact hval (valuesInside_of_ends [] hsz he)
      exact ⟨fun A heap vs hd => absurd hd (hnever A heap vs),
        fun A heap vs hd => absurd hd (hnever A heap vs),
        fun A heap vs hd => absurd hd (hnever A heap vs)⟩

theorem faithful_sample :
    Faithful ⟨.little, .w64⟩ [⟨.u16, [1, 2], by decide⟩, ⟨.bol, [1], by decide⟩] :=
  (faithful_iff _ (by decide)).mpr (.inl (by decide))

/-- A `u32` frame that declares one byte, and a number behind it. -/
def shortFrames : List Frame := [⟨.u32, [170], by decide⟩, ⟨.u08, [7], by decide⟩]

/-- Its value is its own byte and the first three of the next frame. -/
theorem not_faithful_short : ¬ Faithful ⟨.little, .w64⟩ shortFrames ∧
    ∃ heap', Decodes ⟨.little, .w64⟩ .always (received (stream shortFrames)) heap'
      [⟨.u32, .u32 0xAA010000⟩, ⟨.u08, .u08 7⟩] := by
  obtain ⟨s, heap', es, hdr, hfin, -, hes, hrec⟩ := finishes_stream (h := ⟨.little, .w64⟩)
    shortFrames (by decide) (by decide) Heap.empty
  have hd := hrec.decodes hfin.deserializes
  refine ⟨fun hf => absurd (hf.legal _ _ _ hd) (by decide), Heap.empty, ?_⟩
  rw [hes] at hd
  exact hd

end Tlv
