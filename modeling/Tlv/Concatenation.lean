import Tlv.Decode

/-!
# Decoding a concatenation

A receiver may put buffers together or cut them apart between frames: the
decoder behaves on `a ++ b`, where `a` is a concatenation of frames that are
long enough for their tags, as on `a` and then on `b`, whatever `b` is
(`deserialize_append`). The loop at offset `|a|` of the whole simulates a fresh
loop on `b` (`reader_simulates`).
-/

namespace Tlv
open Lib

variable {h : Host} {heap : Heap} {a b : List Byte}

/-- Behind `a` the reader does what it does on `b` alone. -/
theorem reader_simulates (hw : h.word = .w64) (hlen : (a ++ b).length ≤ h.ptrdiffMax)
    (va : List View) :
    (readerLoop h (Mem.ofList (a ++ b)) (a ++ b).length).Simulates
      (readerLoop h (Mem.ofList b) b.length)
      (fun s t => s.1 = a.length + t.1 ∧ s.2 = va ++ t.2) (· = ·) where
  guard := by
    rintro ⟨_, _⟩ t ⟨rfl, rfl⟩
    rw [Bool.eq_iff_iff, readerLoop_guard, readerLoop_guard, List.length_append]
    exact Nat.add_lt_add_iff_left
  body := by
    rintro ⟨_, _⟩ t ⟨rfl, rfl⟩ hg
    have hmod := Host.szMod_w64 hw
    unfold Host.ptrdiffMax at hlen
    rw [List.length_append] at hlen
    have ht := readerLoop_guard.mp hg
    have hpeek := peek_shift a b t.1
    cases hp : peek (Mem.ofList b) t.1 with
    | error e =>
      rw [readerLoop_body_eq_error.mpr hp, readerLoop_body_eq_error.mpr (hpeek.trans hp)]
      rfl
    | ok v =>
      have hd := peek_declared_lt hp
      rw [readerLoop_body_ok hp, readerLoop_body_ok (s := (a.length + t.1, va ++ t.2))
        (hpeek.trans hp), nextOffset_of_lt (by omega), nextOffset_of_lt (by omega)]
      exact ⟨Nat.add_assoc _ _ _, List.append_assoc _ _ _⟩

/-- The reader on padded frames and `b` behind them gets through the frames. -/
theorem reader_passes (hw : h.word = .w64) {fs : List Frame} (hfs : ∀ f ∈ fs, f.Padded)
    (hlen : (stream fs ++ b).length ≤ h.ptrdiffMax) :
    (readerLoop h (Mem.ofList (stream fs ++ b)) (stream fs ++ b).length).Reaches
      (0, []) fs.length ((stream fs).length, viewsOf fs []) := by
  have hmod := Host.szMod_w64 hw
  unfold Host.ptrdiffMax at hlen
  rw [List.length_append] at hlen
  have hpass : (readerLoop h (Mem.ofList ([] ++ (stream fs ++ b))) (stream fs ++ b).length).Reaches
      (0, []) fs.length (0 + (stream fs).length, [] ++ viewsOf fs b) :=
    reaches_stream [] b [] (by simp only [List.length_nil]; omega)
      (by rw [List.length_append, List.length_nil]; omega) (valuesInside_of_padded hfs b)
  simp only [List.nil_append, Nat.zero_add] at hpass
  rw [viewsOf_padded hfs, ← viewsOf_padded hfs []] at hpass
  exact hpass

/-- From there on its outcome is the one on `b`. -/
theorem reader_append (hw : h.word = .w64) {fs : List Frame} (hfs : ∀ f ∈ fs, f.Padded)
    (hlen : (stream fs ++ b).length ≤ h.ptrdiffMax) :
    (∀ o vs, (readerLoop h (Mem.ofList (stream fs ++ b)) (stream fs ++ b).length).Ends
        (0, []) (.ok (o, vs)) ↔
      ∃ o' vb, (readerLoop h (Mem.ofList b) b.length).Ends (0, []) (.ok (o', vb)) ∧
        o = (stream fs).length + o' ∧ vs = viewsOf fs [] ++ vb) ∧
    ∀ f, (readerLoop h (Mem.ofList (stream fs ++ b)) (stream fs ++ b).length).Ends
        (0, []) (.error f) ↔
      (readerLoop h (Mem.ofList b) b.length).Ends (0, []) (.error f) := by
  have hsim := reader_simulates hw hlen (viewsOf fs [])
  have hpass := reader_passes hw hfs hlen
  -- Both loops stand at the start of `b`, the one with nothing read of it.
  let s : Nat × List View := ((stream fs).length, viewsOf fs [])
  let t : Nat × List View := (0, [])
  have hstart : s.1 = (stream fs).length + t.1 ∧ s.2 = viewsOf fs [] ++ t.2 :=
    ⟨rfl, (List.append_nil _).symm⟩
  refine ⟨fun o vs => ?_, fun f => ?_⟩
  · rw [hpass.ends_iff, hsim.ends_ok_iff ?_ hstart, Prod.exists]
    rintro ⟨_, _⟩ ⟨_, _⟩ _ ⟨rfl, rfl⟩ ⟨rfl, rfl⟩
    rfl
  · rw [hpass.ends_iff, hsim.ends_error_iff ?_ hstart, exists_eq_right']
    rintro _ _ _ rfl rfl
    rfl

/-- On a 64-bit host, decoding padded frames followed by any bytes `b`: the frames
are decoded to messages `va`; the whole is decoded exactly when `b` is, and then
to `va` followed by the messages of `b`; and it fails exactly when `b` fails, with
the same fault. -/
theorem deserialize_append (hw : h.word = .w64) {fs : List Frame} (hfs : ∀ f ∈ fs, f.Padded)
    (b : List Byte) (hlen : (stream fs ++ b).length ≤ h.ptrdiffMax) :
    ∃ va, (∀ heap, Decodes h .always (received (stream fs)) heap va) ∧
      (∀ heap heap' vs, Decodes h .always (received (stream fs ++ b)) heap vs ↔
        ∃ vb, Decodes h .always (received b) heap' vb ∧ vs = va ++ vb) ∧
      (∀ heap heap' f, Fails h .always (received (stream fs ++ b)) heap f ↔
        Fails h .always (received b) heap' f) := by
  obtain ⟨hok, herr⟩ := reader_append (b := b) hw hfs hlen
  have hb : b.length ≤ h.ptrdiffMax := by
    rw [List.length_append] at hlen
    omega
  refine ⟨(viewsOf fs []).map (View.message h.order), fun heap => ?_, fun heap heap' vs => ?_,
    fun heap heap' f => ?_⟩
  · have hsz : (stream fs).length < h.szMod := by
      have hbig := h.szMod_ge
      unfold Host.ptrdiffMax at hlen
      rw [List.length_append] at hlen
      omega
    obtain ⟨s, heap', es, hdr, hfin, -, hes, hrec⟩ :=
      finishes_stream fs hsz (valuesInside_of_padded hfs []) heap
    rw [← hes]
    exact hrec.decodes hfin.deserializes
  · rw [received, decodes_iff hw hlen]
    constructor
    · rintro ⟨o, vs, he, rfl⟩
      obtain ⟨o', vb, he', rfl, rfl⟩ := (hok o vs).mp he
      exact ⟨_, (decodes_iff hw hb).mpr ⟨o', vb, he', rfl⟩, List.map_append⟩
    · rintro ⟨vb, hd, rfl⟩
      obtain ⟨o', views, he, rfl⟩ := (decodes_iff hw hb).mp hd
      exact ⟨_, _, (hok _ _).mpr ⟨o', views, he, rfl, rfl⟩, List.map_append.symm⟩
  · rw [received, fails_iff hw hlen, received, fails_iff hw hb]
    exact herr f

/-- A `T_NUL` frame with a byte and a padded number, then an unknown tag. -/
theorem deserialize_append_sample :
    ∃ va, (∀ heap, Decodes ⟨.big, .w64⟩ .always
        (received (stream [⟨.nul, [9], by decide⟩, ⟨.u08, [1, 2], by decide⟩])) heap va) ∧
      (∀ heap heap' vs, Decodes ⟨.big, .w64⟩ .always
        (received (stream [⟨.nul, [9], by decide⟩, ⟨.u08, [1, 2], by decide⟩] ++ [99])) heap vs ↔
        ∃ vb, Decodes ⟨.big, .w64⟩ .always (received [99]) heap' vb ∧ vs = va ++ vb) ∧
      (∀ heap heap' f, Fails ⟨.big, .w64⟩ .always
        (received (stream [⟨.nul, [9], by decide⟩, ⟨.u08, [1, 2], by decide⟩] ++ [99])) heap f ↔
        Fails ⟨.big, .w64⟩ .always (received [99]) heap' f) :=
  deserialize_append rfl (by decide) [99] (by decide)

end Tlv
