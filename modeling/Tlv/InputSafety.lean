import Tlv.Decode

/-!
# Reads outside the buffer

The decoder tests `offset < buf.len` before a frame and nothing else. So it
stays inside the buffer exactly when, at every frame start before the end, the
header and the value of the tag's width lie inside (`readsInside_iff`); then it
does not depend on what is behind the buffer either.
-/

namespace Tlv
open Lib

variable {h : Host} {A : Allocator} {m m' : Mem} {heap heap' : Heap} {len o : Nat}
  {bs : List Byte} {r : Decoded}

/-- Whatever the allocator does, `deserialize` reads no byte outside the buffer,
and its outcome is the same on every memory that begins with the buffer. -/
structure ReadsInside (h : Host) (bs : List Byte) : Prop where
  inside : ∀ A heap, ¬ Fails h A (received bs) heap .readPastEnd
  agree : ∀ m, (∀ i < bs.length, m i = bs[i]?) → ∀ A heap r,
    Deserializes h A ⟨some m, bs.length⟩ heap r ↔ Deserializes h A (received bs) heap r

/-- At every frame start before the end, the header lies inside the buffer, and
so does a value of the tag's width when the tag is known. -/
def FramesInside (h : Host) (bs : List Byte) : Prop :=
  ∀ o, FrameStart h (Mem.ofList bs) bs.length o → o < bs.length →
    o + 5 ≤ bs.length ∧
    ∀ tag declared type, headerAt (Mem.ofList bs) o = some (tag, declared) →
      TypeTag.ofByte tag = some type → o + 5 + type.width declared ≤ bs.length

/-! ## One frame -/

theorem peek_ofList_inside_iff (ho : o < bs.length) :
    peek (Mem.ofList bs) o ≠ .error .readPastEnd ↔
      o + 5 ≤ bs.length ∧
      ∀ tag declared type, headerAt (Mem.ofList bs) o = some (tag, declared) →
        TypeTag.ofByte tag = some type → o + 5 + type.width declared ≤ bs.length := by
  cases hh : headerAt (Mem.ofList bs) o with
  | none =>
    have hsmall : ¬ o + 5 ≤ bs.length := by
      rw [← headerAt_ofList_isSome ho, hh]
      simp
    exact ⟨fun hp => absurd (peek_of_header_none hh) hp, fun hc => absurd hc.1 hsmall⟩
  | some p =>
    obtain ⟨tag, declared⟩ := p
    have hfive : o + 5 ≤ bs.length := by
      rw [← headerAt_ofList_isSome ho, hh]
      rfl
    cases ht : TypeTag.ofByte tag with
    | none =>
      rw [peek_of_unknown hh ht]
      refine ⟨fun _ => ⟨hfive, fun _ _ _ he ht' => ?_⟩, fun _ => by simp⟩
      cases he
      rw [ht] at ht'
      cases ht'
    | some type =>
      rcases Nat.lt_or_ge bs.length (o + 5 + type.width declared) with hlt | hge
      · rw [peek_of_value_none hh ht (Mem.read_ofList_none (by omega) hlt)]
        exact ⟨fun hp => absurd rfl hp, fun hc => absurd (hc.2 _ _ _ rfl ht) (by omega)⟩
      · rw [peek_of_value hh ht (Mem.read_ofList hge)]
        refine ⟨fun _ => ⟨hfive, fun _ _ _ he ht' => ?_⟩, fun _ => by simp⟩
        cases he
        rw [ht] at ht'
        cases ht'
        exact hge

/-! ## Two memories -/

/-- A pass only sees the bytes of its frame. -/
theorem pass_congr {s : DecodeState} (hx : m'.Extends m)
    (hp : peek m s.offset ≠ .error .readPastEnd) :
    deserializePass h A m' s heap = deserializePass h A m s heap := by
  cases hh : headerAt m s.offset with
  | none => exact absurd (peek_of_header_none hh) hp
  | some p =>
    obtain ⟨tag, declared⟩ := p
    obtain ⟨htag, bs, hbs, hd⟩ := headerAt_eq_some_iff.mp hh
    have hh' : headerAt m' s.offset = some (tag, declared) :=
      headerAt_eq_some_iff.mpr ⟨hx _ _ htag, bs, Mem.read_mono hx hbs, hd⟩
    rw [pass_of_header hh, pass_of_header hh']
    cases ht : TypeTag.ofByte tag with
    | none => rfl
    | some type =>
      cases hv : m.read (s.offset + 5) (type.width declared) with
      | none => exact absurd (peek_of_value_none hh ht hv) hp
      | some bs =>
        have hread := Mem.read_mono hx hv
        cases hpay : type.isPayload with
        | false =>
          simp only [decodeValue_scalar hpay ⟨.null, 0⟩, memcpyFrom, hv, hread]
        | true =>
          rw [TypeTag.width_of_isPayload hpay] at hv hread
          simp only [decodeValue_payload hpay [], decodePayload, memcpyFrom, hv, hread]

/-! ## Calls -/

theorem FramesInside.peek_ne (hin : FramesInside h bs)
    (hs : FrameStart h (Mem.ofList bs) bs.length o) (ho : o < bs.length) :
    peek (Mem.ofList bs) o ≠ .error .readPastEnd :=
  (peek_ofList_inside_iff ho).mpr (hin o hs ho)

theorem FramesInside.not_fails (hin : FramesInside h bs) (A : Allocator) (heap : Heap) :
    ¬ Fails h A (received bs) heap .readPastEnd := by
  rintro ⟨heap', hr⟩
  cases hnew : daNew (α := Message (Buffer Ptr)) h A heap with
  | error e =>
    have hnull := daNew_error hnew
    rw [← Except.error.inj (deserializes_new_error hnew hr)] at hnull
    cases hnull
  | ok p =>
    obtain ⟨arr₀, heap₁⟩ := p
    obtain ⟨e, he, hres⟩ := (deserializes_iff hnew).mp hr
    cases e with
    | ok st => cases hres
    | error e =>
      cases hres
      obtain ⟨n, st, hreach, hg, hb⟩ := WhileLoop.ends_error_iff.mp he
      obtain ⟨es, hdr, hreads, hrec⟩ := run_cases (Received.start hnew).1 hreach
      exact hin.peek_ne (frameStart_of_reaches hreads) (of_decide_eq_true hg)
        (pass_readPastEnd hrec hb)

/-- A decoder that stays inside the buffer runs alike on every memory that begins
with the buffer. -/
theorem FramesInside.agree (hin : FramesInside h bs) (hm : ∀ i < bs.length, m i = bs[i]?)
    (A : Allocator) (heap : Heap) (n : Nat) :
    deserialize h A ⟨some m, bs.length⟩ n heap = deserialize h A (received bs) n heap := by
  cases hnew : daNew (α := Message (Buffer Ptr)) h A heap with
  | error e => simp only [deserialize, received, hnew]
  | ok p =>
    obtain ⟨arr₀, heap₁⟩ := p
    -- At a frame start both memories show the same frame, and a pass leads to the next.
    have hrun := WhileLoop.run_congr (n := n) (l := deserializeLoop h A m bs.length)
      (k := deserializeLoop h A (Mem.ofList bs) bs.length) (s := (⟨0, 0, arr₀⟩, heap₁))
      (I := fun st => FrameStart h (Mem.ofList bs) bs.length st.1.offset ∧
        ∃ hdr es, Received h heap hdr es st.1.messages st.2)
      (fun _ => rfl) ?_ ?_ ⟨.zero, _, _, (Received.start hnew).1⟩
    · simp only [deserialize, received, hnew, hrun]
    · intro st hI hg
      exact pass_congr (Mem.extends_ofList hm) (hin.peek_ne hI.1 (of_decide_eq_true hg))
    · rintro st st' ⟨hs, hdr, es, hrec⟩ hg hb
      obtain ⟨v, hdr', hp, hoff, -, hrec'⟩ := pass_cases hrec hb
      refine ⟨?_, hdr', _, hrec'⟩
      rw [hoff]
      exact .next hs (of_decide_eq_true hg) hp

/-- `deserialize` stays inside a buffer whose frames do, and in a buffer that can
be a C object it does so in no other case. -/
theorem readsInside_iff (h : Host) (bs : List Byte) :
    (FramesInside h bs → ReadsInside h bs) ∧
    (bs.length ≤ h.ptrdiffMax → ReadsInside h bs → FramesInside h bs) := by
  refine ⟨fun hin => ⟨hin.not_fails, fun m hm A heap r => ?_⟩, fun hlen hread o hs ho => ?_⟩
  · simp only [Deserializes, hin.agree hm]
  · rw [← peek_ofList_inside_iff ho]
    intro hp
    obtain ⟨n, hn, vs, hreach⟩ := frameStart_reaches hs
    have hcount : 2 * n ≤ h.szMod := by
      unfold Host.ptrdiffMax at hlen
      omega
    exact hread.inside .always Heap.empty (fails_of_reaches hreach hcount ho hp Heap.empty)

/-- In a concatenation of frames the decoder stays inside when the last values
do; it may still take a value out of the frames that follow. -/
theorem framesInside_stream {fs : List Frame} (hsz : (stream fs).length < h.szMod)
    (hval : ValuesInside fs []) : FramesInside h (stream fs) := by
  intro o hs ho
  obtain ⟨gs, gs', rfl, rfl⟩ := frameStart_stream hsz hs
  cases gs' with
  | nil => exact absurd ho (by simp)
  | cons f gs' =>
    have hw := hval.width_le
    have hlen := length_stream_split gs gs' f
    refine ⟨by omega, fun tag declared type hh ht => ?_⟩
    rw [header_stream] at hh
    cases hh
    rw [TypeTag.ofByte_toByte] at ht
    cases ht
    rw [List.append_nil] at hw
    omega

/-- A number and a string. -/
def insideFrames : List Frame := [⟨.u32, [0, 0, 0, 7], by decide⟩, ⟨.str, [65], by decide⟩]

theorem readsInside_sample :
    ReadsInside ⟨.little, .w64⟩ (stream insideFrames) ∧
      FramesInside ⟨.little, .w64⟩ (stream insideFrames) := by
  have hin : FramesInside ⟨.little, .w64⟩ (stream insideFrames) :=
    framesInside_stream (by decide) (valuesInside_of_padded (by decide) [])
  have hread := (readsInside_iff _ _).1 hin
  exact ⟨hread, (readsInside_iff _ _).2 (by decide) hread⟩

/-- A buffer of one byte passes the loop's test, and the header is read past its
end. -/
theorem not_readsInside_one_byte : ¬ ReadsInside ⟨.little, .w64⟩ [0] :=
  fun hread => hread.inside .always Heap.empty ⟨_, 1, rfl⟩

end Tlv
