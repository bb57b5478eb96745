import Tlv.Pass

/-!
# `deserialize` refines the reader

Results, with and without allocations that fail:
* a call that returns took the frames that the reader takes, and owns exactly
  the array's block and one for each payload (`deserialize_returns`);
* with allocations that succeed, the reader decides the outcome
  (`decodes_of_reaches`, `fails_of_reaches`; on a 64-bit host `decodes_iff` and
  `fails_iff`).
-/

namespace Tlv
open Lib

/-- A call of `deserialize` returns an array of messages that stand for `vs`. -/
def Decodes (h : Host) (A : Allocator) (buf : Buffer (Option Mem)) (heap : Heap)
    (vs : List (Message (List Byte))) : Prop :=
  ∃ arr heap' ms, Deserializes h A buf heap (.ok (arr, heap')) ∧ arr.Holds ms ∧
    ms.map (Message.deref heap') = vs.map some

/-- A call of `deserialize` stops with a fault. -/
def Fails (h : Host) (A : Allocator) (buf : Buffer (Option Mem)) (heap : Heap) (f : Fault) :
    Prop :=
  ∃ heap', Deserializes h A buf heap (.error (f, heap'))

variable {h : Host} {A : Allocator} {m : Mem} {heap heap' heap₀ : Heap} {len n hdr : Nat}
  {f : Fault} {es : List Entry} {arr : DynArr (Message (Buffer Ptr))}

/-! ## Runs of the loop -/

variable {arr₀ : DynArr (Message (Buffer Ptr))} {o : Nat} {vs : List View}
  {ms ms' : List (Message (List Byte))} {r r' : Decoded}

/-- Passes of the decoder are passes of the reader. -/
theorem run_cases {st : DecodeState × Heap} (hstart : Received h heap₀ hdr [] arr₀ heap)
    (hr : (deserializeLoop h A m len).Reaches (⟨0, 0, arr₀⟩, heap) n st) :
    ∃ es hdr', (readerLoop h m len).Reaches (0, []) n (st.1.offset, es.map Entry.view) ∧
      Received h heap₀ hdr' es st.1.messages st.2 := by
  induction hr with
  | refl => exact ⟨[], hdr, .refl, hstart⟩
  | pass _ hg hb ih =>
    obtain ⟨es, hdr', hreads, hrec⟩ := ih
    obtain ⟨v, hdr'', hp, hoff, -, hrec'⟩ := pass_cases hrec hb
    refine ⟨_, hdr'', ?_, hrec'⟩
    rw [List.map_append, hoff]
    exact .pass hreads hg (readerLoop_body_ok hp)

/-- When allocations succeed, passes of the reader are passes of the decoder. The
bound on their number keeps the count of the array in a `size_t`. -/
theorem run_always {s : Nat × List View} (hstart : Received h heap₀ hdr [] arr₀ heap)
    (hby : ByAppends arr₀) (hr : (readerLoop h m len).Reaches (0, []) n s)
    (hn : 2 * n ≤ h.szMod) :
    ∃ st es hdr', (deserializeLoop h .always m len).Reaches (⟨0, 0, arr₀⟩, heap) n st ∧
      st.1.offset = s.1 ∧ es.map Entry.view = s.2 ∧
      Received h heap₀ hdr' es st.1.messages st.2 ∧ ByAppends st.1.messages := by
  induction hr with
  | refl => exact ⟨_, [], hdr, .refl, rfl, rfl, hstart, hby⟩
  | @pass k t u hreach hg hb ih =>
    obtain ⟨st, es, hdr', hreads, hoff, hes, hrec, hby'⟩ := ih (by omega)
    obtain ⟨v, hp, rfl⟩ := readerLoop_body_cases hb
    -- The number of passes is the count, which the bound keeps from wrapping.
    have hlen : es.length = k := by
      have := reader_length hreach
      rw [← List.length_map (f := Entry.view), hes, this, List.length_nil, Nat.zero_add]
    obtain ⟨s', heap', hdr'', hpass, hoff', hrec', hby''⟩ :=
      pass_always hrec hby' (by omega) (hoff ▸ hp)
    refine ⟨(s', heap'), _, hdr'', .pass hreads ?_ hpass, ?_, ?_, hrec', hby''⟩
    · show decide (st.1.offset < len) = true
      rw [hoff]
      exact hg
    · rw [hoff', hoff]
    · rw [List.map_append, hes]
      rfl

/-! ## Calls -/

theorem daNew_always (heap : Heap) :
    daNew h .always heap =
      .ok ((⟨.block heap.next, 0, 0, fun _ => none⟩ : DynArr (Message (Buffer Ptr))),
        heap.alloc h.headerSize) := rfl

/-- Behind the two checks a call is its loop. -/
theorem deserializes_iff (hnew : daNew h A heap = .ok (arr₀, heap')) :
    Deserializes h A ⟨some m, len⟩ heap r ↔
      ∃ e, (deserializeLoop h A m len).Ends (⟨0, 0, arr₀⟩, heap') e ∧
        r = e.map fun s => (s.1.messages, s.2) := by
  simp only [Deserializes, deserialize, hnew, Option.map_eq_some_iff, WhileLoop.Ends]
  constructor
  · rintro ⟨n, e, he, rfl⟩
    exact ⟨e, ⟨n, he⟩, rfl⟩
  · rintro ⟨e, ⟨n, he⟩, rfl⟩
    exact ⟨n, e, he, rfl⟩

theorem deserializes_new_error {e : Fault × Heap}
    (hnew : daNew (α := Message (Buffer Ptr)) h A heap = .error e)
    (hr : Deserializes h A ⟨some m, len⟩ heap r) : r = .error e := by
  obtain ⟨n, hn⟩ := hr
  simp only [deserialize, hnew] at hn
  cases hn
  rfl

/-- `da_new` fails for want of memory only. -/
theorem daNew_error {α : Type} {e : Fault × Heap}
    (hr : daNew (α := α) h A heap = .error e) : e.1 = .nullPointer := by
  rcases malloc_exists_error hr with heq | hgo
  · rw [heq]
  · cases hgo

/-- A call comes to one outcome. -/
theorem Deserializes.unique {buf : Buffer (Option Mem)} (hr : Deserializes h A buf heap r)
    (hr' : Deserializes h A buf heap r') : r = r' := by
  obtain ⟨bytes, len⟩ := buf
  cases bytes with
  | none =>
    obtain ⟨n, hn⟩ := hr
    obtain ⟨n', hn'⟩ := hr'
    cases hn
    cases hn'
    rfl
  | some m =>
    cases hnew : daNew (α := Message (Buffer Ptr)) h A heap with
    | error e => rw [deserializes_new_error hnew hr, deserializes_new_error hnew hr']
    | ok p =>
      obtain ⟨arr₀, heap'⟩ := p
      obtain ⟨e, he, rfl⟩ := (deserializes_iff hnew).mp hr
      obtain ⟨e', he', rfl⟩ := (deserializes_iff hnew).mp hr'
      rw [he.unique he']

/-- A call that returns took the frames that the reader takes up to the end of
the buffer, and owns the array's block and one for each payload. -/
theorem deserialize_returns (hr : Deserializes h A ⟨some m, len⟩ heap (.ok (arr, heap'))) :
    ∃ n o es hdr, (readerLoop h m len).Reaches (0, []) n (o, es.map Entry.view) ∧ len ≤ o ∧
      Received h heap hdr es arr heap' := by
  cases hnew : daNew (α := Message (Buffer Ptr)) h A heap with
  | error e => cases deserializes_new_error hnew hr
  | ok p =>
    obtain ⟨arr₀, heap₁⟩ := p
    obtain ⟨e, he, hres⟩ := (deserializes_iff hnew).mp hr
    cases e with
    | error e => cases hres
    | ok st =>
      cases hres
      obtain ⟨n, hreach, hg⟩ := WhileLoop.ends_ok_iff.mp he
      obtain ⟨es, hdr, hreads, hrec⟩ := run_cases (Received.start hnew).1 hreach
      exact ⟨n, _, es, hdr, hreads, Nat.le_of_not_lt (of_decide_eq_false hg), hrec⟩

/-- So does a call on any buffer, which is not null then. -/
theorem received_of_returns {buf : Buffer (Option Mem)}
    (hr : Deserializes h A buf heap (.ok (arr, heap'))) :
    ∃ es hdr, Received h heap hdr es arr heap' := by
  obtain ⟨bytes, len⟩ := buf
  cases bytes with
  | none =>
    obtain ⟨n, hn⟩ := hr
    cases hn
  | some m =>
    obtain ⟨n, o, es, hdr, -, -, hrec⟩ := deserialize_returns hr
    exact ⟨es, hdr, hrec⟩

theorem Received.map_deref (hr : Received h heap₀ hdr es arr heap) :
    (es.map (Entry.message h.order)).map (Message.deref heap) =
      ((es.map Entry.view).map (View.message h.order)).map some := by
  simp only [List.map_map]
  exact List.map_congr_left fun e he => (hr.stored e he).deref h.order

theorem Received.decodes (hr : Received h heap hdr es arr heap')
    {buf : Buffer (Option Mem)} (hd : Deserializes h A buf heap (.ok (arr, heap'))) :
    Decodes h A buf heap ((es.map Entry.view).map (View.message h.order)) :=
  ⟨arr, heap', _, hd, hr.holds, hr.map_deref⟩

/-- A reader that gets to the end of the buffer gives the messages. -/
theorem finishes_of_reaches (hr : (readerLoop h m len).Reaches (0, []) n (o, vs))
    (hn : 2 * n ≤ h.szMod) (ho : len ≤ o) (heap : Heap) :
    ∃ s heap' es hdr, Finishes h .always ⟨some m, len⟩ heap s heap' ∧ s.offset = o ∧
      es.map Entry.view = vs ∧ Received h heap hdr es s.messages heap' := by
  obtain ⟨hstart, hby⟩ := Received.start (daNew_always (h := h) heap)
  obtain ⟨st, es, hdr, hreach, hoff, hes, hrec, -⟩ := run_always hstart hby hr hn
  have hg : (deserializeLoop h .always m len).guard st = false :=
    decide_eq_false (by rw [hoff]; exact Nat.not_lt.mpr ho)
  exact ⟨st.1, st.2, es, hdr, ⟨m, _, _, rfl, daNew_always heap,
    WhileLoop.ends_ok_iff.mpr ⟨n, hreach, hg⟩⟩, hoff, hes, hrec⟩

theorem decodes_of_reaches (hr : (readerLoop h m len).Reaches (0, []) n (o, vs))
    (hn : 2 * n ≤ h.szMod) (ho : len ≤ o) (heap : Heap) :
    Decodes h .always ⟨some m, len⟩ heap (vs.map (View.message h.order)) := by
  obtain ⟨s, heap', es, hdr, hfin, -, rfl, hrec⟩ := finishes_of_reaches hr hn ho heap
  exact hrec.decodes hfin.deserializes

/-- A reader that meets a frame it cannot take gives the fault. -/
theorem fails_of_reaches (hr : (readerLoop h m len).Reaches (0, []) n (o, vs))
    (hn : 2 * n ≤ h.szMod) (ho : o < len) (hp : peek m o = .error f) (heap : Heap) :
    Fails h .always ⟨some m, len⟩ heap f := by
  obtain ⟨hstart, hby⟩ := Received.start (daNew_always (h := h) heap)
  obtain ⟨st, es, hdr, hreach, hoff, -, -, -⟩ := run_always hstart hby hr hn
  have hg : (deserializeLoop h .always m len).guard st = true :=
    decide_eq_true (by rw [hoff]; exact ho)
  obtain ⟨heap', hpass⟩ := pass_fails (h := h) (s := st.1)
    (by rw [hoff]; exact hp) st.2
  exact ⟨heap', (deserializes_iff (daNew_always heap)).mpr
    ⟨.error (f, heap'), WhileLoop.ends_error_iff.mpr ⟨n, st, hreach, hg, hpass⟩, rfl⟩⟩

theorem Decodes.unique {buf : Buffer (Option Mem)} (hd : Decodes h A buf heap ms)
    (hd' : Decodes h A buf heap ms') : ms = ms' := by
  obtain ⟨arr, heap₁, l, hr, hl, hm⟩ := hd
  obtain ⟨arr', heap₁', l', hr', hl', hm'⟩ := hd'
  cases hr.unique hr'
  rw [hl.unique hl', hm'] at hm
  exact ((List.map_injective_iff.mpr (Option.some_injective _)) hm).symm

theorem Decodes.not_fails {buf : Buffer (Option Mem)} (hd : Decodes h A buf heap ms) :
    ¬ Fails h A buf heap f := by
  rintro ⟨heap₁, hf⟩
  obtain ⟨arr, heap₂, l, hr, -, -⟩ := hd
  cases hr.unique hf

theorem Fails.unique {buf : Buffer (Option Mem)} {f' : Fault} (hf : Fails h A buf heap f)
    (hf' : Fails h A buf heap f') : f = f' := by
  obtain ⟨heap₁, hr⟩ := hf
  obtain ⟨heap₂, hr'⟩ := hf'
  cases hr.unique hr'
  rfl

/-- Whatever the allocator does, a call that returns has read what the reader
reads. -/
theorem Decodes.reader_ends (hd : Decodes h A ⟨some m, len⟩ heap ms) :
    ∃ o vs, (readerLoop h m len).Ends (0, []) (.ok (o, vs)) ∧
      ms = vs.map (View.message h.order) := by
  have hd' := hd
  obtain ⟨arr, heap', l, hr, -, -⟩ := hd'
  obtain ⟨n, o, es, hdr, hreads, ho, hrec⟩ := deserialize_returns hr
  have hg : (readerLoop h m len).guard (o, es.map Entry.view) = false :=
    decide_eq_false (Nat.not_lt.mpr ho)
  exact ⟨o, _, WhileLoop.ends_ok_iff.mpr ⟨n, hreads, hg⟩, hd.unique (hrec.decodes hr)⟩

/-! ## Streams -/

/-- A stream of frames is decoded up to its end, frame by frame. -/
theorem finishes_stream (fs : List Frame) (hsz : (stream fs).length < h.szMod)
    (hval : ValuesInside fs []) (heap : Heap) :
    ∃ s heap' es hdr, Finishes h .always (received (stream fs)) heap s heap' ∧
      s.offset = (stream fs).length ∧ es.map Entry.view = viewsOf fs [] ∧
      Received h heap hdr es s.messages heap' := by
  have hr := reaches_stream (h := h) [] [] [] (by simpa using hsz)
    (Nat.le_of_eq (Nat.zero_add _)) hval
  simp only [List.nil_append, List.append_nil, List.length_nil, Nat.zero_add] at hr
  have hn := five_mul_length_le_stream fs
  exact finishes_of_reaches hr (by omega) (Nat.le_refl _) heap

/-! ## On a 64-bit host -/

section Word64
variable (hw : h.word = .w64) (hlen : len ≤ h.ptrdiffMax)
include hw hlen

theorem decodes_iff :
    Decodes h .always ⟨some m, len⟩ heap ms ↔
      ∃ o vs, (readerLoop h m len).Ends (0, []) (.ok (o, vs)) ∧
        ms = vs.map (View.message h.order) := by
  have hok : ∀ o vs, (readerLoop h m len).Ends (0, []) (.ok (o, vs)) →
      Decodes h .always ⟨some m, len⟩ heap (vs.map (View.message h.order)) := by
    intro o vs he
    obtain ⟨n, hr, hg⟩ := WhileLoop.ends_ok_iff.mp he
    exact decodes_of_reaches hr (reader_count hw hlen hr)
      (Nat.le_of_not_lt (of_decide_eq_false hg)) heap
  constructor
  · intro hd
    obtain ⟨e, he⟩ := reader_ends (m := m) hw hlen
    cases e with
    | ok s => exact ⟨s.1, s.2, he, hd.unique (hok s.1 s.2 he)⟩
    | error f =>
      obtain ⟨n, t, hr, hg, hb⟩ := WhileLoop.ends_error_iff.mp he
      exact absurd (fails_of_reaches hr (reader_count hw hlen hr) (readerLoop_guard.mp hg)
        (readerLoop_body_eq_error.mp hb) heap) hd.not_fails
  · rintro ⟨o, vs, he, rfl⟩
    exact hok o vs he

theorem fails_iff :
    Fails h .always ⟨some m, len⟩ heap f ↔ (readerLoop h m len).Ends (0, []) (.error f) := by
  have herr : ∀ f, (readerLoop h m len).Ends (0, []) (.error f) →
      Fails h .always ⟨some m, len⟩ heap f := by
    intro f he
    obtain ⟨n, t, hr, hg, hb⟩ := WhileLoop.ends_error_iff.mp he
    exact fails_of_reaches hr (reader_count hw hlen hr) (readerLoop_guard.mp hg)
      (readerLoop_body_eq_error.mp hb) heap
  constructor
  · intro hf
    obtain ⟨e, he⟩ := reader_ends (m := m) hw hlen
    cases e with
    | ok s => exact absurd hf ((decodes_iff hw hlen).mpr ⟨s.1, s.2, he, rfl⟩).not_fails
    | error f' =>
      rw [hf.unique (herr f' he)]
      exact he
  · exact herr f

end Word64

end Tlv
