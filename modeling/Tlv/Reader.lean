import Tlv.Lib.WhileLoop
import Tlv.Frame

/-!
# Reading frames out of a memory

What `deserialize` reads, without the heap and the array: `peek` is one frame at
an offset, and `readerLoop` goes from frame to frame as the decoder does, by the
declared length and with the host's `size_t`. The offsets it comes to are the
frame starts of the buffer.

Results: the reader on a concatenation of frames (`reaches_stream`), behind the
first bytes of a buffer (`peek_shift`), and the number of its passes on a 64-bit
host (`reader_progress`).
-/

namespace Tlv
open Lib

/-- The tag and the declared length at an offset, if all five bytes can be read. -/
def headerAt (m : Mem) (o : Nat) : Option (Byte × Nat) :=
  match m o, m.read (o + 1) 4 with
  | some tag, some bs => some (tag, beNat bs)
  | _, _ => none

/-- What the decoder takes from one frame. -/
structure View where
  type : TypeTag
  declared : Nat
  value : List Byte

/-- The message that the decoder makes of it. -/
def View.message (o : ByteOrder) (v : View) : Message (List Byte) :=
  ⟨v.type, unionOf o v.type v.value v.value⟩

/-- What the decoder takes from the frame at an offset, or why it stops there. -/
def peek (m : Mem) (o : Nat) : Except Fault View :=
  match headerAt m o with
  | none => .error .readPastEnd
  | some (tag, declared) =>
    match TypeTag.ofByte tag with
    | none => .error (.badType tag)
    | some type =>
      match m.read (o + 5) (type.width declared) with
      | none => .error .readPastEnd
      | some value => .ok ⟨type, declared, value⟩

/-- `offset += 5 + len`. -/
def nextOffset (h : Host) (o declared : Nat) : Nat := h.sz (o + h.sz (5 + declared))

/-- The loop of the decoder over offset and frames taken. -/
def readerLoop (h : Host) (m : Mem) (len : Nat) : WhileLoop (Nat × List View) Fault where
  guard s := s.1 < len
  body s := (peek m s.1).map fun v => (nextOffset h s.1 v.declared, s.2 ++ [v])

/-- The offsets at which the decoder looks for a frame in a buffer of `len`
bytes. -/
inductive FrameStart (h : Host) (m : Mem) (len : Nat) : Nat → Prop
  | zero : FrameStart h m len 0
  | next {o : Nat} {v : View} :
      FrameStart h m len o → o < len → peek m o = .ok v →
      FrameStart h m len (nextOffset h o v.declared)

variable {h : Host} {m m' : Mem} {o o' len n declared : Nat} {tag : Byte} {v : View}
  {vs vs' : List View} {e : Fault}

/-! ## One frame -/

theorem headerAt_eq_some_iff :
    headerAt m o = some (tag, declared) ↔
      m o = some tag ∧ ∃ bs, m.read (o + 1) 4 = some bs ∧ beNat bs = declared := by
  unfold headerAt
  cases m o <;> cases m.read (o + 1) 4 <;> simp

theorem declared_lt (hh : headerAt m o = some (tag, declared)) : declared < 2 ^ 32 := by
  obtain ⟨_, bs, hbs, rfl⟩ := headerAt_eq_some_iff.mp hh
  have hlen : bs.length = 4 := Mem.length_of_read hbs
  simpa [hlen] using beNat_lt bs

/-- Before the end of a buffer, a header can be read when all of it is there. -/
theorem headerAt_ofList_isSome {bs : List Byte} (ho : o < bs.length) :
    (headerAt (Mem.ofList bs) o).isSome ↔ o + 5 ≤ bs.length := by
  have htag : Mem.ofList bs o = some bs[o] := List.getElem?_eq_getElem ho
  unfold headerAt
  rw [htag]
  rcases Nat.lt_or_ge bs.length (o + 5) with hlt | hge
  · rw [Mem.read_ofList_none (by omega) (by omega)]
    simp [hlt]
  · rw [Mem.read_ofList (by omega)]
    simp [hge]

theorem peek_of_header_none (hh : headerAt m o = none) : peek m o = .error .readPastEnd := by
  rw [peek, hh]

theorem peek_of_unknown (hh : headerAt m o = some (tag, declared))
    (ht : TypeTag.ofByte tag = none) : peek m o = .error (.badType tag) := by
  simp only [peek, hh, ht]

theorem peek_of_value_none {t : TypeTag} (hh : headerAt m o = some (tag, declared))
    (ht : TypeTag.ofByte tag = some t) (hv : m.read (o + 5) (t.width declared) = none) :
    peek m o = .error .readPastEnd := by
  simp only [peek, hh, ht, hv]

theorem peek_of_value {t : TypeTag} {bs : List Byte} (hh : headerAt m o = some (tag, declared))
    (ht : TypeTag.ofByte tag = some t) (hv : m.read (o + 5) (t.width declared) = some bs) :
    peek m o = .ok ⟨t, declared, bs⟩ := by
  simp only [peek, hh, ht, hv]

/-- A frame that is taken: its header and its value can be read. -/
theorem peek_eq_ok (hp : peek m o = .ok v) :
    headerAt m o = some (v.type.toByte, v.declared) ∧
      m.read (o + 5) (v.type.width v.declared) = some v.value := by
  cases hh : headerAt m o with
  | none => rw [peek_of_header_none hh] at hp; cases hp
  | some p =>
    obtain ⟨tag, declared⟩ := p
    cases ht : TypeTag.ofByte tag with
    | none => rw [peek_of_unknown hh ht] at hp; cases hp
    | some t =>
      cases hv : m.read (o + 5) (t.width declared) with
      | none => rw [peek_of_value_none hh ht hv] at hp; cases hp
      | some bs =>
        rw [peek_of_value hh ht hv] at hp
        cases hp
        exact ⟨by rw [TypeTag.toByte_of_ofByte ht], hv⟩

theorem peek_declared_lt (hp : peek m o = .ok v) : v.declared < 2 ^ 32 :=
  declared_lt (peek_eq_ok hp).1

theorem headerAt_shift (as bs : List Byte) (o : Nat) :
    headerAt (Mem.ofList (as ++ bs)) (as.length + o) = headerAt (Mem.ofList bs) o := by
  unfold headerAt
  rw [Nat.add_assoc, Mem.read_shift (Mem.ofList_append_shift as bs), Mem.ofList_append_shift]

/-- Looking behind a prefix is looking at the rest. -/
theorem peek_shift (as bs : List Byte) (o : Nat) :
    peek (Mem.ofList (as ++ bs)) (as.length + o) = peek (Mem.ofList bs) o := by
  unfold peek
  rw [headerAt_shift]
  simp only [Nat.add_assoc, Mem.read_shift (Mem.ofList_append_shift as bs)]

/-! ## Frames of a stream -/

/-- The value bytes that the decoder takes from a frame with `rest` behind it:
as many as the tag is wide, whatever the frame declares. -/
def Frame.value (f : Frame) (rest : List Byte) : List Byte :=
  (f.body ++ rest).take (f.type.width f.body.length)

/-- What the decoder takes from a frame with `rest` behind it. -/
def Frame.view (f : Frame) (rest : List Byte) : View := ⟨f.type, f.body.length, f.value rest⟩

/-- What the decoder takes from the frames of a stream with `rest` behind it. -/
def viewsOf : List Frame → List Byte → List View
  | [], _ => []
  | f :: fs, rest => f.view (stream fs ++ rest) :: viewsOf fs rest

/-- The value of a padded frame comes from its own body. -/
theorem Frame.Padded.value {f : Frame} (hf : f.Padded) (rest : List Byte) :
    f.value rest = f.body.take (f.type.width f.body.length) :=
  List.take_append_of_le_length hf

/-- The value of a legal frame is its body. -/
theorem Frame.Legal.value {f : Frame} (hf : f.Legal) (rest : List Byte) :
    f.value rest = f.body := by
  rw [hf.padded.value, ← hf.1, List.take_length]

/-- The message that the decoder makes of a legal frame. -/
def Frame.message (o : ByteOrder) (f : Frame) : Message (List Byte) :=
  ⟨f.type, unionOf o f.type f.body f.body⟩

theorem Frame.Legal.message {f : Frame} (hf : f.Legal) (o : ByteOrder) (rest : List Byte) :
    (f.view rest).message o = f.message o := by
  simp only [View.message, Frame.view, Frame.message, hf.value]

/-- What the decoder takes from padded frames does not depend on what follows. -/
theorem viewsOf_padded {fs : List Frame} (hfs : ∀ f ∈ fs, f.Padded) (rest : List Byte) :
    viewsOf fs rest = fs.map fun f => f.view [] := by
  induction fs with
  | nil => rfl
  | cons f fs ih =>
    have hf := hfs f List.mem_cons_self
    rw [viewsOf, ih fun g hg => hfs g (List.mem_cons_of_mem f hg), List.map_cons]
    simp only [Frame.view, hf.value]

theorem viewsOf_legal {fs : List Frame} (hfs : ∀ f ∈ fs, f.Legal) (o : ByteOrder)
    (rest : List Byte) :
    (viewsOf fs rest).map (View.message o) = fs.map (Frame.message o) := by
  rw [viewsOf_padded (fun f hf => (hfs f hf).padded), List.map_map]
  exact List.map_congr_left fun f hf => (hfs f hf).message o []

theorem header_frame (f : Frame) (rest : List Byte) :
    headerAt (Mem.ofList (f.bytes ++ rest)) 0 = some (f.type.toByte, f.body.length) := by
  have hlen := length_beBytes 4 f.body.length
  refine headerAt_eq_some_iff.mpr ⟨rfl, beBytes 4 f.body.length, ?_,
    beNat_beBytes_of_lt f.fits⟩
  rw [Mem.read_ofList (by simp; omega), f.bytes_eq, List.cons_append, List.append_assoc]
  show some (List.take 4 (beBytes 4 f.body.length ++ _)) = _
  rw [List.take_append_of_le_length (by omega), List.take_of_length_le (by omega)]

theorem drop_frame (f : Frame) (rest : List Byte) :
    (f.bytes ++ rest).drop (0 + 5) = f.body ++ rest := by
  rw [f.bytes_eq, List.cons_append, List.append_assoc]
  show List.drop 4 (beBytes 4 f.body.length ++ _) = _
  rw [List.drop_left' (length_beBytes 4 f.body.length)]

theorem peek_frame {f : Frame} {rest : List Byte}
    (hw : f.type.width f.body.length ≤ f.body.length + rest.length) :
    peek (Mem.ofList (f.bytes ++ rest)) 0 = .ok (f.view rest) := by
  refine peek_of_value (header_frame f rest) (TypeTag.ofByte_toByte _) ?_
  rw [Mem.read_ofList (by simp; omega), drop_frame]
  rfl

theorem peek_frame_error {f : Frame} {rest : List Byte}
    (hw : f.body.length + rest.length < f.type.width f.body.length) :
    peek (Mem.ofList (f.bytes ++ rest)) 0 = .error .readPastEnd := by
  refine peek_of_value_none (header_frame f rest) (TypeTag.ofByte_toByte _) ?_
  exact Mem.read_ofList_none (by omega) (by simp; omega)

/-! ## Several frames -/

theorem nextOffset_of_lt (hlt : o + (5 + declared) < h.szMod) :
    nextOffset h o declared = o + (5 + declared) := by
  have hstep : 5 + declared < h.szMod := by omega
  rw [nextOffset, Host.sz_of_lt hstep, Host.sz_of_lt hlt]

theorem readerLoop_guard {s : Nat × List View} :
    (readerLoop h m len).guard s = true ↔ s.1 < len := by
  simp [readerLoop]

theorem readerLoop_body_ok {s : Nat × List View} (hp : peek m s.1 = .ok v) :
    (readerLoop h m len).body s = .ok (nextOffset h s.1 v.declared, s.2 ++ [v]) := by
  simp only [readerLoop, hp]
  rfl

theorem readerLoop_body_eq_error {s : Nat × List View} :
    (readerLoop h m len).body s = .error e ↔ peek m s.1 = .error e := by
  cases hp : peek m s.1 with
  | error e' => simp [readerLoop, hp, Except.map]
  | ok v => rw [readerLoop_body_ok hp]; simp

/-- A pass that goes on took a frame. -/
theorem readerLoop_body_cases {s t : Nat × List View}
    (hb : (readerLoop h m len).body s = .ok t) :
    ∃ v, peek m s.1 = .ok v ∧ t = (nextOffset h s.1 v.declared, s.2 ++ [v]) := by
  cases hp : peek m s.1 with
  | error e =>
    rw [readerLoop_body_eq_error.mpr hp] at hb
    cases hb
  | ok v =>
    rw [readerLoop_body_ok hp] at hb
    cases hb
    exact ⟨v, rfl, rfl⟩

/-- An offset that the reader comes to is a frame start. -/
theorem frameStart_of_reaches {s : Nat × List View}
    (hr : (readerLoop h m len).Reaches (0, []) n s) : FrameStart h m len s.1 := by
  refine hr.invariant (I := fun s => FrameStart h m len s.1) .zero ?_
  intro s t hs hg hb
  obtain ⟨v, hp, rfl⟩ := readerLoop_body_cases hb
  exact .next hs (readerLoop_guard.mp hg) hp

/-- Each frame that was taken was seen at some offset. -/
theorem peek_of_reaches {s : Nat × List View} (hr : (readerLoop h m len).Reaches (0, []) n s) :
    ∀ v ∈ s.2, ∃ o, peek m o = .ok v := by
  refine hr.invariant (I := fun s => ∀ v ∈ s.2, ∃ o, peek m o = .ok v) (by simp) ?_
  intro s t hs _ hb
  obtain ⟨v, hp, rfl⟩ := readerLoop_body_cases hb
  intro w hw
  rcases List.mem_append.mp hw with hw | hw
  · exact hs w hw
  · rw [List.mem_singleton.mp hw]
    exact ⟨_, hp⟩

/-- The reader without the frames it takes. -/
def offsetLoop (h : Host) (m : Mem) (len : Nat) : WhileLoop Nat Fault where
  guard o := o < len
  body o := (peek m o).map fun v => nextOffset h o v.declared

theorem reaches_of_offsetLoop (hr : (offsetLoop h m len).Reaches 0 n o) :
    ∃ vs, (readerLoop h m len).Reaches (0, []) n (o, vs) := by
  induction hr with
  | refl => exact ⟨[], .refl⟩
  | @pass n o u _ hg hb ih =>
    obtain ⟨vs, hvs⟩ := ih
    cases hp : peek m o with
    | error e =>
      simp only [offsetLoop, hp] at hb
      cases hb
    | ok v =>
      simp only [offsetLoop, hp] at hb
      cases hb
      exact ⟨vs ++ [v], .pass hvs hg (readerLoop_body_ok hp)⟩

/-- The reader comes to every frame start, and within as many passes as the
buffer has bytes, also where offsets wrap. -/
theorem frameStart_reaches (hs : FrameStart h m len o) :
    ∃ n ≤ len, ∃ vs, (readerLoop h m len).Reaches (0, []) n (o, vs) := by
  have hr : ∃ n, (offsetLoop h m len).Reaches 0 n o := by
    induction hs with
    | zero => exact ⟨0, .refl⟩
    | next _ hlt hp ih =>
      obtain ⟨n, hn⟩ := ih
      exact ⟨n + 1, .pass hn (decide_eq_true hlt) (by simp only [offsetLoop, hp]; rfl)⟩
  obtain ⟨n, hn⟩ := hr
  -- Without the frames taken, a way that visits an offset twice can be cut short.
  obtain ⟨k, hk, hkr⟩ := hn.shorten fun t ht => of_decide_eq_true ht
  exact ⟨k, hk, reaches_of_offsetLoop hkr⟩

/-- Every pass took one frame. -/
theorem reader_length {s t : Nat × List View} (hr : (readerLoop h m len).Reaches s n t) :
    t.2.length = s.2.length + n := by
  induction hr with
  | refl => rfl
  | pass _ _ hb ih =>
    obtain ⟨v, -, rfl⟩ := readerLoop_body_cases hb
    simp only [List.length_append, List.length_singleton, ih]
    omega

/-- The value of every frame lies before the end of the stream with `rest` behind
it, though not necessarily inside its own frame. -/
def ValuesInside : List Frame → List Byte → Prop
  | [], _ => True
  | f :: fs, rest =>
    f.type.width f.body.length ≤ f.body.length + (stream fs ++ rest).length ∧
      ValuesInside fs rest

instance decidableValuesInside : (fs : List Frame) → (rest : List Byte) →
    Decidable (ValuesInside fs rest)
  | [], _ => .isTrue trivial
  | _ :: fs, rest => @instDecidableAnd _ _ _ (decidableValuesInside fs rest)

theorem valuesInside_of_padded {fs : List Frame} (hfs : ∀ f ∈ fs, f.Padded) (rest : List Byte) :
    ValuesInside fs rest := by
  induction fs with
  | nil => trivial
  | cons f fs ih =>
    exact ⟨Nat.le_add_right_of_le (hfs f List.mem_cons_self),
      ih fun g hg => hfs g (List.mem_cons_of_mem f hg)⟩

theorem ValuesInside.width_le {gs gs' : List Frame} {f : Frame} {rest : List Byte}
    (hval : ValuesInside (gs ++ f :: gs') rest) :
    f.type.width f.body.length ≤ f.body.length + (stream gs' ++ rest).length := by
  induction gs with
  | nil => exact hval.1
  | cons g gs ih => exact ih hval.2

/-- The reader goes through the frames of a stream, whatever stands before and
behind it, as long as every value lies inside the memory. -/
theorem reaches_stream (pre rest : List Byte) (vs : List View) {fs : List Frame}
    (hsz : pre.length + (stream fs).length < h.szMod)
    (hlen : pre.length + (stream fs).length ≤ len)
    (hval : ValuesInside fs rest) :
    (readerLoop h (Mem.ofList (pre ++ (stream fs ++ rest))) len).Reaches (pre.length, vs)
      fs.length (pre.length + (stream fs).length, vs ++ viewsOf fs rest) := by
  induction fs generalizing pre vs with
  | nil => simpa [viewsOf] using WhileLoop.Reaches.refl
  | cons f fs ih =>
    have hsplit : pre ++ (stream (f :: fs) ++ rest) =
        (pre ++ f.bytes) ++ (stream fs ++ rest) := by simp
    have hlenf : (pre ++ f.bytes).length = pre.length + (5 + f.body.length) := by simp
    have hstep : (stream (f :: fs)).length = 5 + f.body.length + (stream fs).length := by simp
    have hpeek : peek (Mem.ofList (pre ++ (stream (f :: fs) ++ rest))) pre.length =
        .ok (f.view (stream fs ++ rest)) := by
      have hp := peek_shift pre (stream (f :: fs) ++ rest) 0
      rw [Nat.add_zero] at hp
      rw [hp, stream_cons, List.append_assoc, peek_frame hval.1]
    have hnext : nextOffset h pre.length f.body.length = (pre ++ f.bytes).length := by
      rw [hlenf, nextOffset_of_lt (by omega)]
    -- For the frames behind it, this frame is part of what stands before.
    have hrec := ih (pre ++ f.bytes) (vs ++ [f.view (stream fs ++ rest)])
      (by omega) (by omega) hval.2
    rw [← hsplit, ← hnext] at hrec
    have hend : nextOffset h pre.length f.body.length + (stream fs).length =
        pre.length + (stream (f :: fs)).length := by omega
    rw [hend, List.append_assoc, List.singleton_append] at hrec
    exact hrec.head (readerLoop_guard.mpr (by show pre.length < len; omega))
      (readerLoop_body_ok hpeek)

/-! ## Frame starts of a stream -/

theorem header_stream (gs gs' : List Frame) (f : Frame) :
    headerAt (Mem.ofList (stream (gs ++ f :: gs'))) (stream gs).length =
      some (f.type.toByte, f.body.length) := by
  have hs := headerAt_shift (stream gs) (f.bytes ++ stream gs') 0
  rw [Nat.add_zero] at hs
  rw [stream_append, stream_cons, hs, header_frame]

/-- The frame starts of a stream are where its frames start, and its end. -/
theorem frameStart_stream {fs : List Frame} (hsz : (stream fs).length < h.szMod)
    (hs : FrameStart h (Mem.ofList (stream fs)) (stream fs).length o) :
    ∃ gs gs', fs = gs ++ gs' ∧ o = (stream gs).length := by
  induction hs with
  | zero => exact ⟨[], fs, rfl, rfl⟩
  | @next o v _ hlt hp ih =>
    obtain ⟨gs, gs', rfl, rfl⟩ := ih
    cases gs' with
    | nil => exact absurd hlt (by simp)
    | cons f gs' =>
      have hh := (peek_eq_ok hp).1
      rw [header_stream, Option.some.injEq, Prod.mk.injEq] at hh
      refine ⟨gs ++ [f], gs', by simp, ?_⟩
      rw [length_stream_split] at hsz
      rw [← hh.2, nextOffset_of_lt (by omega), stream_append, List.length_append]
      simp

/-- A reader that gets through a stream found every value inside. -/
theorem valuesInside_of_ends (pre : List Byte) {fs : List Frame} {t : Nat × List View}
    (hsz : (pre ++ stream fs).length < h.szMod)
    (he : (readerLoop h (Mem.ofList (pre ++ stream fs)) (pre ++ stream fs).length).Ends
      (pre.length, vs) (.ok t)) : ValuesInside fs [] := by
  induction fs generalizing pre vs with
  | nil => trivial
  | cons f fs ih =>
    have hsplit : pre ++ stream (f :: fs) = (pre ++ f.bytes) ++ stream fs := by simp
    have hlen : (pre ++ stream (f :: fs)).length =
        pre.length + (5 + f.body.length) + (stream fs).length := by simp; omega
    have hg : (readerLoop h (Mem.ofList (pre ++ stream (f :: fs)))
        (pre ++ stream (f :: fs)).length).guard (pre.length, vs) = true :=
      readerLoop_guard.mpr (by rw [hlen]; show pre.length < _; omega)
    have hpeek : peek (Mem.ofList (pre ++ stream (f :: fs))) pre.length =
        peek (Mem.ofList (f.bytes ++ stream fs)) 0 := peek_shift pre (stream (f :: fs)) 0
    rcases Nat.lt_or_ge (f.body.length + (stream fs).length) (f.type.width f.body.length)
      with hw | hw
    -- A value that reaches past the end stops the reader here, but it got through.
    · rw [peek_frame_error hw] at hpeek
      cases he.unique (WhileLoop.ends_error hg (readerLoop_body_eq_error.mpr hpeek))
    · rw [peek_frame hw] at hpeek
      rw [WhileLoop.ends_pass hg (readerLoop_body_ok hpeek)] at he
      have hnext : nextOffset h pre.length f.body.length = (pre ++ f.bytes).length := by
        rw [nextOffset_of_lt (by omega), List.length_append, f.length_bytes]
      have he' := he
      simp only [Frame.view] at he'
      rw [hnext, hsplit] at he'
      exact ⟨by simpa using hw, ih (pre ++ f.bytes) (hsplit ▸ hsz) he'⟩

/-! ## On a 64-bit host -/

section Word64
variable (hw : h.word = .w64) (hlen : len ≤ h.ptrdiffMax)
include hw hlen

/-- No offset wraps, and every pass goes on by five bytes at least. -/
theorem reader_step {s t : Nat × List View} (hg : (readerLoop h m len).guard s = true)
    (hb : (readerLoop h m len).body s = .ok t) : t.1 < h.szMod ∧ s.1 + 5 ≤ t.1 := by
  have hmod := Host.szMod_w64 hw
  unfold Host.ptrdiffMax at hlen
  obtain ⟨v, hpk, rfl⟩ := readerLoop_body_cases hb
  have hs := readerLoop_guard.mp hg
  have hd := peek_declared_lt hpk
  have hnext : nextOffset h s.1 v.declared = s.1 + (5 + v.declared) :=
    nextOffset_of_lt (by omega)
  show nextOffset h s.1 v.declared < h.szMod ∧ s.1 + 5 ≤ nextOffset h s.1 v.declared
  omega

theorem reader_progress {s : Nat × List View}
    (hr : (readerLoop h m len).Reaches (0, []) n s) : s.1 < h.szMod ∧ 5 * n ≤ s.1 := by
  have hp := hr.progress (I := fun s => s.1 < h.szMod) (f := Prod.fst) (d := 5)
    (fun _ _ _ hg hb => reader_step hw hlen hg hb) (by have := h.szMod_ge; show 0 < h.szMod; omega)
  exact ⟨hp.1, by omega⟩

/-- The number of passes keeps the count of the array in a `size_t`. -/
theorem reader_count {s : Nat × List View}
    (hr : (readerLoop h m len).Reaches (0, []) n s) : 2 * n ≤ h.szMod := by
  have := reader_progress hw hlen hr
  omega

/-- The reader comes to an end. -/
theorem reader_ends : ∃ e, (readerLoop h m len).Ends (0, []) e := by
  have hz : 0 < h.szMod := by
    have := h.szMod_ge
    omega
  obtain ⟨e, he⟩ := WhileLoop.run_isSome_of_progress (l := readerLoop h m len) (n := len)
    (I := fun s => s.1 < h.szMod) (f := Prod.fst) (L := len) (d := 5) (s := (0, []))
    (fun _ hg => readerLoop_guard.mp hg) (fun _ _ _ hg hb => reader_step hw hlen hg hb) hz
    (by omega)
  exact ⟨e, len, he⟩

end Word64

end Tlv
