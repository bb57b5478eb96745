import Tlv.Decode

/-!
# Progress of the decoder

The step `offset += 5 + len` is arithmetic modulo `SIZE_MAX + 1`. With a 64-bit
`size_t` no length that fits its four bytes makes it wrap, so every pass goes on
by five bytes at least. With a 32-bit `size_t` a frame that declares nearly
`UINT32_MAX` bytes sends the offset back, and this is the only way in which
progress is lost (`progresses_iff`).
-/

namespace Tlv
open Lib

variable {h : Host} {m : Mem} {heap : Heap} {len : Nat}

/-- When allocations succeed: every pass that goes on adds `5 + len` to the
offset without wrapping, the loop is done after a fifth of `len` passes, rounded
up, and that is also a bound for the messages. -/
structure Progresses (h : Host) (m : Mem) (len : Nat) : Prop where
  pass : ∀ heap arr₀ heap₁, daNew h .always heap = .ok (arr₀, heap₁) → ∀ n s t,
    (deserializeLoop h .always m len).Reaches (⟨0, 0, arr₀⟩, heap₁) n s →
    (deserializeLoop h .always m len).guard s = true →
    (deserializeLoop h .always m len).body s = .ok t →
    s.1.offset < t.1.offset ∧ t.1.offset = s.1.offset + (5 + t.1.len)
  ends : ∀ heap, ∃ r, deserialize h .always ⟨some m, len⟩ ((len + 4) / 5) heap = some r ∧
    ∀ arr heap', r = .ok (arr, heap') → arr.count ≤ (len + 4) / 5

/-- No frame with a known tag ends at or behind `SIZE_MAX + 1`. -/
def NoWrap (h : Host) (m : Mem) (len : Nat) : Prop :=
  ∀ o, FrameStart h m len o → o < len → ∀ tag declared type,
    headerAt m o = some (tag, declared) → TypeTag.ofByte tag = some type →
    o + (5 + declared) < h.szMod

/-- A 64-bit `size_t` leaves room for every length. -/
theorem noWrap_w64 (hw : h.word = .w64) (hlen : len ≤ h.ptrdiffMax) : NoWrap h m len := by
  intro o _ ho tag declared type hh _
  have hmod := Host.szMod_w64 hw
  have hd := declared_lt hh
  unfold Host.ptrdiffMax at hlen
  omega

/-- A pass of a decoder whose frames do not wrap. -/
theorem NoWrap.pass (hn : NoWrap h m len) {arr₀ : DynArr (Message (Buffer Ptr))} {heap₁ : Heap}
    (hnew : daNew h .always heap = .ok (arr₀, heap₁)) {n : Nat} {s t : DecodeState × Heap}
    (hr : (deserializeLoop h .always m len).Reaches (⟨0, 0, arr₀⟩, heap₁) n s)
    (hg : (deserializeLoop h .always m len).guard s = true)
    (hb : (deserializeLoop h .always m len).body s = .ok t) :
    t.1.offset = s.1.offset + (5 + t.1.len) := by
  obtain ⟨es, hdr, hreads, hrec⟩ := run_cases (Received.start hnew).1 hr
  obtain ⟨v, hdr', hp, hoff, hl, -⟩ := pass_cases hrec hb
  have hlt := hn _ (frameStart_of_reaches hreads) (of_decide_eq_true hg) _ _ _
    (peek_eq_ok hp).1 (TypeTag.ofByte_toByte _)
  rw [hoff, hl, nextOffset_of_lt hlt]

theorem NoWrap.ends (hn : NoWrap h m len) (heap : Heap) :
    ∃ r, deserialize h .always ⟨some m, len⟩ ((len + 4) / 5) heap = some r ∧
      ∀ arr heap', r = .ok (arr, heap') → arr.count ≤ (len + 4) / 5 := by
  have hnew := daNew_always (h := h) heap
  obtain ⟨e, he⟩ : ∃ e, (deserializeLoop h .always m len).run ((len + 4) / 5)
      (⟨0, 0, ⟨.block heap.next, 0, 0, fun _ => none⟩⟩, heap.alloc h.headerSize) = some e := by
    refine WhileLoop.run_isSome_of_progress (f := fun s => s.1.offset) (L := len) (d := 5)
      (I := fun s => ∃ n, (deserializeLoop h .always m len).Reaches
        (⟨0, 0, ⟨.block heap.next, 0, 0, fun _ => none⟩⟩, heap.alloc h.headerSize) n s)
      (fun _ hg => of_decide_eq_true hg) ?_ ⟨0, .refl⟩ (by omega)
    rintro s t ⟨n, hr⟩ hg hb
    have hstep := hn.pass hnew hr hg hb
    exact ⟨⟨n + 1, .pass hr hg hb⟩, by omega⟩
  refine ⟨_, by simp only [deserialize, hnew, he]; rfl, ?_⟩
  intro arr heap' hr
  cases e with
  | error e => cases hr
  | ok st =>
    cases hr
    obtain ⟨k, hk, hreach, -⟩ := WhileLoop.reaches_of_run he
    obtain ⟨es, hdr, hreads, hrec⟩ := run_cases (Received.start hnew).1 hreach
    have hlen := reader_length hreads
    rw [hrec.count_eq, ← List.length_map (f := Entry.view), hlen]
    simpa using hk

theorem NoWrap.progresses (hn : NoWrap h m len) : Progresses h m len := by
  refine ⟨fun heap arr₀ heap₁ hnew n s t hr hg hb => ?_, fun heap => hn.ends heap⟩
  have hstep := hn.pass hnew hr hg hb
  exact ⟨by omega, hstep⟩

/-- A frame that wraps is taken when every byte can be read, and the pass over it
does not add to the offset what it should. -/
theorem Progresses.noWrap (hp : Progresses h m len) (hm : ∀ i, (m i).isSome)
    (hlen : len ≤ h.ptrdiffMax) : NoWrap h m len := by
  intro o hs ho tag declared type hh ht
  unfold Host.ptrdiffMax at hlen
  obtain ⟨n, hn, vs, hreach⟩ := frameStart_reaches hs
  obtain ⟨hstart, hby⟩ := Received.start (daNew_always (h := h) Heap.empty)
  obtain ⟨st, es, hdr, hruns, hoff, hes, hrec, hby'⟩ := run_always hstart hby hreach (by omega)
  have hcount : es.length = n := by
    have hl := reader_length hreach
    rw [← List.length_map (f := Entry.view), hes, hl]
    simp
  obtain ⟨bs, hbs⟩ := Mem.read_isSome hm (o + 5) (type.width declared)
  have hpeek : peek m st.1.offset = .ok ⟨type, declared, bs⟩ := by
    rw [hoff]
    exact peek_of_value hh ht hbs
  obtain ⟨s', heap', hdr', hpass, hoff', hrec', -⟩ := pass_always hrec hby' (by omega) hpeek
  have hg : (deserializeLoop h .always m len).guard st = true :=
    decide_eq_true (by rw [hoff]; exact ho)
  have hstep := (hp.pass Heap.empty _ _ (daNew_always Heap.empty) n st (s', heap') hruns hg hpass).2
  obtain ⟨v, -, hpeek', -, hl, -⟩ := pass_cases hrec hpass
  cases hpeek.symm.trans hpeek'
  have hsmall : s'.offset < h.szMod := by
    rw [hoff']
    exact Nat.mod_lt _ (by omega)
  simp only at hstep hl
  omega

/-- The decoder makes progress on every memory exactly when no frame wraps, and
so always with a 64-bit `size_t`. The bytes behind the buffer may be any. -/
theorem progresses_iff (h : Host) {m : Mem} (hm : ∀ i, (m i).isSome) {len : Nat}
    (hlen : len ≤ h.ptrdiffMax) :
    (Progresses h m len ↔ NoWrap h m len) ∧ (h.word = .w64 → Progresses h m len) :=
  ⟨⟨fun hp => hp.noWrap hm hlen, fun hn => hn.progresses⟩,
    fun hw => (noWrap_w64 hw hlen).progresses⟩

/-- A number on either word size, with arbitrary bytes behind the buffer. -/
theorem progresses_sample :
    (Progresses ⟨.little, .w32⟩ (fun i => some ([1, 0, 0, 0, 1, 7].getD i 0)) 6 ↔
      NoWrap ⟨.little, .w32⟩ (fun i => some ([1, 0, 0, 0, 1, 7].getD i 0)) 6) ∧
    Progresses ⟨.little, .w64⟩ (fun i => some ([1, 0, 0, 0, 1, 7].getD i 0)) 6 :=
  ⟨(progresses_iff _ (fun _ => rfl) (by decide)).1,
    (progresses_iff _ (fun _ => rfl) (by decide)).2 rfl⟩

/-- With a 32-bit `size_t` a `T_NUL` frame that declares `0xFFFFFFFB` bytes leaves
the offset where it was. -/
theorem not_progresses_w32 :
    ¬ Progresses ⟨.little, .w32⟩ (fun i => some ([0, 255, 255, 255, 251].getD i 0)) 5 := by
  intro hp
  have hstep := (hp.pass Heap.empty _ _ rfl 0 _ _ .refl rfl rfl).1
  exact absurd hstep (by decide)

end Tlv
