import Tlv.Lib.Cycles
import Tlv.Refusal

/-!
# Buffers that are never done

`offset += 5 + len` is computed in a `size_t`. With 64 bits it never wraps, but with 32
bits a frame can send the decoder back to an offset where it has been, and then it takes
the same frames again and again.

Result: on a host of any width, a call on a buffer whose offsets do not come again comes
to the outcome that its frames have; on any other buffer there is always a next frame
that can be taken, and no call returns (`deserialize_circles`). On a 64-bit host no
offset comes again.
-/

namespace Tlv
open Lib

variable {h : Host} {A : Allocator} {m : Mem} {heap heap' : Heap} {len n o : Nat}
  {vs : List View} {f : Fault}

/-- The decoder comes to an offset where it has been. -/
def Circles (h : Host) (m : Mem) (len : Nat) : Prop := (offsetLoop h m len).Revisits 0

theorem offsetLoop_guard : (offsetLoop h m len).guard o = true ↔ o < len := by
  simp [offsetLoop]

/-- Offsets of the reader. -/
theorem offsetLoop_of_reaches {s t : Nat × List View} (hr : (readerLoop h m len).Reaches s n t) :
    (offsetLoop h m len).Reaches s.1 n t.1 := by
  induction hr with
  | refl => exact .refl
  | pass _ hg hb ih =>
    obtain ⟨v, hp, rfl⟩ := readerLoop_body_cases hb
    refine .pass ih (offsetLoop_guard.mpr (readerLoop_guard.mp hg)) ?_
    simp only [offsetLoop, hp]
    rfl

theorem reader_le_of_not_circles (hnot : ¬Circles h m len) {s : Nat × List View}
    (hr : (readerLoop h m len).Reaches (0, []) n s) : n ≤ len :=
  (offsetLoop_of_reaches hr).le_of_not_revisits (fun _ => offsetLoop_guard.mp) hnot

theorem reader_ends_of_not_circles (hnot : ¬Circles h m len) :
    ∃ e, (readerLoop h m len).Ends (0, []) e := by
  rcases (readerLoop h m len).ends_or_reaches (0, []) (len + 1) with he | ⟨s, hr⟩
  · exact he
  · exact absurd (reader_le_of_not_circles hnot hr) (Nat.not_succ_le_self len)

/-- A reader that gets to the end of the buffer does not come to an offset again. -/
theorem not_circles_of_reaches (hr : (readerLoop h m len).Reaches (0, []) n (o, vs))
    (ho : len ≤ o) : ¬Circles h m len := by
  intro hc
  have hdone : (offsetLoop h m len).guard o = false := decide_eq_false (Nat.not_lt.mpr ho)
  exact WhileLoop.not_ends_of_revisits hc
    (WhileLoop.ends_ok_iff.mpr ⟨n, offsetLoop_of_reaches hr, hdone⟩)

/-- In circles there is always a next frame. -/
theorem Circles.peek_ok (hc : Circles h m len) (ho : FrameStart h m len o) :
    o < len ∧ ∃ v, peek m o = .ok v := by
  obtain ⟨n, -, vs, hr⟩ := frameStart_reaches ho
  have hlt : o < len := Nat.lt_of_not_le fun hle => not_circles_of_reaches hr hle hc
  refine ⟨hlt, ?_⟩
  cases hp : peek m o with
  | ok v => exact ⟨v, rfl⟩
  | error f =>
    have hstop : (offsetLoop h m len).body o = .error f := by
      simp only [offsetLoop, hp]
      rfl
    exact absurd (WhileLoop.ends_error_iff.mpr
        ⟨n, o, offsetLoop_of_reaches hr, offsetLoop_guard.mpr hlt, hstop⟩)
      (WhileLoop.not_ends_of_revisits hc)

/-- With 64 bits every pass goes on. -/
theorem not_circles_w64 (hw : h.word = .w64) (hlen : len ≤ h.ptrdiffMax) : ¬Circles h m len := by
  rintro ⟨n, k, o, hr, hc⟩
  obtain ⟨vs, hreads⟩ := reaches_of_offsetLoop (hr.trans hc)
  obtain ⟨s, hs, -, hrest⟩ := hreads.split (Nat.lt_add_of_pos_right (Nat.succ_pos k))
  have hback : s.1 = o := (offsetLoop_of_reaches hs).unique hr
  obtain ⟨-, hle⟩ := hrest.progress (I := fun _ => True) (f := Prod.fst) (d := 5)
    (fun _ _ _ hg hb => ⟨trivial, (reader_step hw hlen hg hb).2⟩) trivial
  rw [hback, Nat.add_sub_cancel_left] at hle
  omega

/-- What a call on a buffer can come to that has an end: the messages of the frames, which
the reader has read to the end of the buffer, or the fault of a frame, or the end of the
process at an allocation that was refused. -/
inductive Settles (h : Host) (A : Allocator) (m : Mem) (len : Nat) (heap : Heap) : Prop
  | messages {o : Nat} {vs : List View} :
      (readerLoop h m len).Ends (0, []) (.ok (o, vs)) →
      Decodes h A ⟨some m, len⟩ heap (vs.map (View.message h.order)) → Settles h A m len heap
  | fault {o : Nat} {f : Fault} :
      FrameStart h m len o → o < len → peek m o = .error f →
      Fails h A ⟨some m, len⟩ heap f → Settles h A m len heap
  | refused {e : Fault × Heap} :
      (Refused A e fun A' => Deserializes h A' ⟨some m, len⟩ heap (.error e)) →
      Settles h A m len heap

theorem settles_always (hlen : len ≤ h.ptrdiffMax) (hnot : ¬Circles h m len) (heap : Heap) :
    Settles h .always m len heap := by
  have hcount : ∀ {n s}, (readerLoop h m len).Reaches (0, []) n s → 2 * n ≤ h.szMod := by
    intro n s hr
    have hle := reader_le_of_not_circles hnot hr
    unfold Host.ptrdiffMax at hlen
    omega
  obtain ⟨e, he⟩ := reader_ends_of_not_circles hnot
  cases e with
  | ok s =>
    obtain ⟨n, hr, hg⟩ := WhileLoop.ends_ok_iff.mp he
    exact .messages he (decodes_of_reaches hr (hcount hr)
      (Nat.le_of_not_lt (of_decide_eq_false hg)) heap)
  | error f =>
    obtain ⟨n, s, hr, hg, hb⟩ := WhileLoop.ends_error_iff.mp he
    have hp := readerLoop_body_eq_error.mp hb
    exact .fault (frameStart_of_reaches hr) (readerLoop_guard.mp hg) hp
      (fails_of_reaches hr (hcount hr) (readerLoop_guard.mp hg) hp heap)

/-- An allocator can only end the process. -/
theorem Deserializes.of_always {buf : Buffer (Option Mem)} {r : Decoded}
    (hr : Deserializes h .always buf heap r) (A : Allocator) :
    Deserializes h A buf heap r ∨
      ∃ e, Refused A e fun A' => Deserializes h A' buf heap (.error e) := by
  obtain ⟨passes, hr⟩ := hr
  rcases deserialize_failStop buf passes A heap with heq | ⟨e, hrefused⟩
  · exact .inl ⟨passes, heq.trans hr⟩
  · exact .inr ⟨e, hrefused.mono fun A' hstop => ⟨passes, hstop⟩⟩

theorem Settles.of_always (hs : Settles h .always m len heap) (A : Allocator) :
    Settles h A m len heap := by
  cases hs with
  | messages hends hd =>
    obtain ⟨arr, heap', ms, hr, hholds, hms⟩ := hd
    rcases hr.of_always A with hr | ⟨e, hrefused⟩
    · exact .messages hends ⟨arr, heap', ms, hr, hholds, hms⟩
    · exact .refused hrefused
  | fault ho hlt hp hf =>
    obtain ⟨heap', hr⟩ := hf
    rcases hr.of_always A with hr | ⟨e, hrefused⟩
    · exact .fault ho hlt hp ⟨heap', hr⟩
    · exact .refused hrefused
  | refused hrefused => exact absurd hrefused not_refused_always

/-- A call has an outcome of its own exactly on the buffers that do not send it back to
an offset. -/
theorem deserialize_circles (h : Host) (m : Mem) (hlen : len ≤ h.ptrdiffMax) :
    (¬Circles h m len → ∀ A heap, Settles h A m len heap) ∧
      (Circles h m len → (∀ o, FrameStart h m len o → o < len ∧ ∃ v, peek m o = .ok v) ∧
        ∀ A heap r, ¬Deserializes h A ⟨some m, len⟩ heap (.ok r)) ∧
      (h.word = .w64 → ¬Circles h m len) := by
  refine ⟨fun hnot A heap => (settles_always hlen hnot heap).of_always A, fun hc => ?_,
    fun hw => not_circles_w64 hw hlen⟩
  refine ⟨fun o => hc.peek_ok, ?_⟩
  rintro A heap ⟨arr, heap'⟩ hr
  obtain ⟨n, o, es, hdr, hreads, ho, -⟩ := deserialize_returns hr
  exact not_circles_of_reaches hreads ho hc

/-- With a 32-bit `size_t`, a number and a frame whose length leads back to it. -/
theorem deserialize_circles_sample :
    Circles ⟨.little, .w32⟩ (Mem.ofList [1, 0, 0, 0, 1, 7, 0, 255, 255, 255, 245]) 11 ∧
      ∀ A heap r, ¬Deserializes ⟨.little, .w32⟩ A
        (received [1, 0, 0, 0, 1, 7, 0, 255, 255, 255, 245]) heap (.ok r) := by
  have hc : Circles ⟨.little, .w32⟩ (Mem.ofList [1, 0, 0, 0, 1, 7, 0, 255, 255, 255, 245]) 11 :=
    ⟨0, 1, 0, .refl, .pass (.pass .refl rfl rfl) rfl rfl⟩
  exact ⟨hc, ((deserialize_circles _ _ (by decide)).2.1 hc).2⟩

end Tlv
