import Tlv.Canonical
import Tlv.Exchange

/-!
# Streams that are decoded and sent on

A host decodes a buffer and serializes the messages again, each with the serializer
of its type (`Forwards`). Serializing a message is the call for its value
(`reserialize_eq_resend`), so a host that forwards a buffer sends a stream of its own
values (`forwards_cases`).

Results:
* whatever the buffer was, padded frames and values from the following frame
  included, what is sent on is a stream of canonical frames with the same messages,
  and no host changes it any more (`forwards_normal`);
* so exactly the streams of canonical frames are forwarded as they are
  (`forwards_self_iff`);
* along a chain of hosts of any byte orders, what arrives at the end depends on the
  first and on the last host only (`relay_arrives`).
-/

namespace Tlv
open Lib

variable {h h₁ h₂ : Host} {A B : Allocator} {base heap heap' heap₁ heap₂ : Heap} {i : Nat}
  {done : List Nat} {es : List Entry} {e : Entry} {c : Call} {cs : List Call}
  {bs bs' : List Byte} {b : Buffer Ptr}

/-! ## A message as a call -/

/-- The call that serializes a value. A value of `T_NUL` has no serializer, and a
byte other than 0 and 1 is no boolean. -/
def Union.call : Union (List Byte) → Option Call
  | .zero => none
  | .u08 n => some (.u08 n)
  | .u16 n => some (.u16 n)
  | .u32 n => some (.u32 n)
  | .u64 n => some (.u64 n)
  | .s08 n => some (.s08 n)
  | .s16 n => some (.s16 n)
  | .s32 n => some (.s32 n)
  | .s64 n => some (.s64 n)
  | .f32 bits => some (.f32 bits)
  | .f64 bits => some (.f64 bits)
  | .str bytes => some (.str bytes)
  | .bol raw => if raw = 0 then some (.bol false) else if raw = 1 then some (.bol true) else none
  | .bin bytes => some (.bin bytes)
  | .tim n => some (.tim n)
  | .chr n => some (.chr n)
  | .err bytes => some (.err bytes)

/-- The call for what was decoded. -/
def Entry.call (o : ByteOrder) (e : Entry) : Option Call := (e.view.message o).val.call

theorem Entry.message_of_call {o : ByteOrder} (hc : e.call o = some c) :
    c.message = e.view.message o := by
  obtain ⟨⟨type, declared, value⟩, block⟩ := e
  cases type with
  | nul => cases hc
  | bol =>
    simp only [call, View.message, unionOf, Union.call] at hc
    split at hc
    · next heq =>
      cases hc
      simp [Call.message, View.message, unionOf, heq]
    · split at hc
      · next heq =>
        cases hc
        simp [Call.message, View.message, unionOf, heq]
      · cases hc
  | _ =>
    cases hc
    rfl

/-- The serializer of the message's type, or the end of the process. -/
def resend (h : Host) (A : Allocator) (e : Entry) : CProg (Buffer Ptr) :=
  match e.call h.order with
  | some c => c.run h A
  | none => Prog.stop .badMember

theorem reserialize_eq_resend (hs : e.Stored heap) :
    reserialize h A (e.message h.order) heap = resend h A e heap := by
  obtain ⟨⟨type, declared, value⟩, block⟩ := e
  cases type with
  | str | bin | err =>
    have hview : ptrView heap (.block block) = Mem.ofList value := Heap.view_eq (hs rfl)
    show complexSerialize h A ⟨ptrView heap (.block block), value.length⟩ _ heap = _
    rw [hview]
    rfl
  | bol =>
    simp only [reserialize, resend, Entry.message, Entry.call, View.message, unionOf, Union.call]
    generalize UInt8.ofNat (h.order.load value) = raw
    by_cases h0 : raw = 0
    · subst h0
      rfl
    · by_cases h1 : raw = 1
      · subst h1
        rfl
      · have hstop : messageBol ⟨.bol, .bol raw⟩ = Prog.stop .badMember := by
          unfold messageBol expectMember
          rw [if_pos rfl]
          split
          · next hm => simp [h0, h1] at hm
          · rfl
        rw [hstop, if_neg h0, if_neg h1]
        rfl
  | _ => rfl

theorem resend_makes (e : Entry) : Makes (resend h A e) := by
  unfold resend
  cases e.call h.order with
  | some c => exact c.run_makes
  | none => exact fun _ _ _ hr => by cases hr

/-! ## Many messages -/

/-- The blocks from before are as they were. -/
theorem Keeps.of_owns {ids : List Nat} (ho : base.Owns heap ids done) : Keeps base heap where
  le := ho.le
  cells := fun j hj => ho.frame j fun hm =>
    absurd (ho.mem_range (List.mem_append_left done hm)).1 (Nat.not_le.mpr hj)

theorem joinAll_resend (hs : ∀ e ∈ es, e.Stored base) (hb : b.bytes = .block i)
    (ho : base.Owns heap [i] done) :
    joinAll h A b ((es.map (Entry.message h.order)).map (reserialize h A)) heap =
      joinAll h A b (es.map (resend h A)) heap := by
  induction es generalizing heap b i done with
  | nil => rfl
  | cons e es ih =>
    have hstored := (hs e List.mem_cons_self).keeps (.of_owns ho)
    refine Prog.bind_congr (reserialize_eq_resend hstored) fun frame heap₁ hframe => ?_
    refine Prog.bind_congr rfl fun stream heap₂ happ => ?_
    obtain ⟨j, done₁, hj, ho₁⟩ := resend_makes e _ _ _ hframe
    obtain ⟨k, hk, ho₂⟩ := bufAppend_owns hb hj (ho.trans ho₁) happ
    exact ih (fun e' he' => hs e' (List.mem_cons_of_mem e he')) hk ho₂

theorem sendAll_resend (hs : ∀ e ∈ es, e.Stored heap) :
    sendAll h A ((es.map (Entry.message h.order)).map (reserialize h A)) heap =
      sendAll h A (es.map (resend h A)) heap := by
  cases es with
  | nil => rfl
  | cons e es =>
    refine Prog.bind_congr (reserialize_eq_resend (hs e List.mem_cons_self)) ?_
    intro frame heap₁ hr
    obtain ⟨i, done, hi, ho⟩ := resend_makes e _ _ _ hr
    exact joinAll_resend (fun e' he' => hs e' (List.mem_cons_of_mem e he')) hi ho

/-- What was sent again: each message has its call. -/
theorem joinAll_calls {r : Buffer Ptr × Heap}
    (hr : joinAll h A b (es.map (resend h A)) heap = .ok r) :
    ∃ cs : List Call, (es.map Entry.view).map (View.message h.order) = cs.map Call.message ∧
      joinAll h A b (cs.map (Call.run h A)) heap = .ok r := by
  induction es generalizing heap b with
  | nil => exact ⟨[], rfl, hr⟩
  | cons e es ih =>
    obtain ⟨frame, heap₁, hframe, hr⟩ := Prog.bind_eq_ok.mp hr
    obtain ⟨stream, heap₂, happ, hr⟩ := Prog.bind_eq_ok.mp hr
    obtain ⟨cs, hcs, hrun⟩ := ih hr
    unfold resend at hframe
    cases hc : e.call h.order with
    | none =>
      rw [hc] at hframe
      cases hframe
    | some c =>
      rw [hc] at hframe
      refine ⟨c :: cs, ?_, ?_⟩
      · rw [List.map_cons, List.map_cons, List.map_cons, hcs, Entry.message_of_call hc]
      · exact (Prog.bind_ok hframe).trans ((Prog.bind_ok happ).trans hrun)

theorem sendAll_calls {r : Buffer Ptr × Heap}
    (hr : sendAll h A (es.map (resend h A)) heap = .ok r) :
    ∃ cs : List Call, (es.map Entry.view).map (View.message h.order) = cs.map Call.message ∧
      sendStream h A cs heap = .ok r := by
  cases es with
  | nil => exact ⟨[], rfl, hr⟩
  | cons e es =>
    obtain ⟨frame, heap₁, hframe, hr⟩ := Prog.bind_eq_ok.mp hr
    obtain ⟨cs, hcs, hrun⟩ := joinAll_calls hr
    unfold resend at hframe
    cases hc : e.call h.order with
    | none =>
      rw [hc] at hframe
      cases hframe
    | some c =>
      rw [hc] at hframe
      refine ⟨c :: cs, ?_, (Prog.bind_ok hframe).trans hrun⟩
      rw [List.map_cons, List.map_cons, List.map_cons, hcs, Entry.message_of_call hc]

theorem map_resend (hcs : es.map (Entry.call h.order) = cs.map some) :
    es.map (resend h A) = cs.map (Call.run h A) := by
  have hmap := congrArg (List.map fun c : Option Call =>
    match c with
    | some c => c.run h A
    | none => Prog.stop .badMember) hcs
  rwa [List.map_map, List.map_map] at hmap

/-! ## Forwarding -/

/-- The host decodes a buffer of the bytes `bs`, serializes the messages again and
joins the frames, which gives the bytes `bs'`. -/
def Forwards (h : Host) (bs bs' : List Byte) : Prop :=
  bs.length < h.szMod ∧ ∃ A heap arr heap₁ ms B sent heap₂,
    Deserializes h A (received bs) heap (.ok (arr, heap₁)) ∧ arr.Holds ms ∧
    sendAll h B (ms.map (reserialize h B)) heap₁ = .ok (sent, heap₂) ∧
    bufBytes heap₂ sent = some bs'

/-- A host that forwards a buffer sends the values that it decodes from it. -/
theorem forwards_cases (hf : Forwards h bs bs') :
    ∃ cs A heap, (∀ c ∈ cs, c.Fits) ∧ (wireStream h.order cs).length < h.szMod ∧
      Decodes h A (received bs) heap (cs.map Call.message) ∧ bs' = wireStream h.order cs := by
  obtain ⟨-, A, heap, arr, heap₁, ms, B, sent, heap₂, hd, hms, hsend, hbs⟩ := hf
  obtain ⟨es, hdr, hrec⟩ := received_of_returns hd
  cases hrec.holds.unique hms
  rw [sendAll_resend hrec.stored] at hsend
  obtain ⟨cs, hcs, hrun⟩ := sendAll_calls hsend
  obtain ⟨hfits, hsz, -, hbytes⟩ := sendStream_ok hrun
  refine ⟨cs, A, heap, hfits, hsz, ?_, Option.some_injective _ (hbs.symm.trans hbytes)⟩
  rw [← hcs]
  exact hrec.decodes hd

/-- If each message that it decodes has a call, and the frames fit, it can forward the
buffer. -/
theorem forwards_of_decodes {vs : List (Message (List Byte))} (hlen : bs.length < h.szMod)
    (hd : Decodes h A (received bs) heap vs) (hvs : vs.map (fun m => m.val.call) = cs.map some)
    (hcs : ∀ c ∈ cs, c.Fits) (hsz : (wireStream h.order cs).length < h.szMod) :
    Forwards h bs (wireStream h.order cs) := by
  obtain ⟨arr, heap₁, ms, hr, hms, hval⟩ := hd
  obtain ⟨es, hdr, hrec⟩ := received_of_returns hr
  have hd : Decodes h A (received bs) heap vs := ⟨arr, heap₁, ms, hr, hms, hval⟩
  rw [hd.unique (hrec.decodes hr), List.map_map, List.map_map] at hvs
  have hsend : ∃ sent heap₂, sendStream h .always cs heap₁ = .ok (sent, heap₂) := by
    by_cases hne : cs = []
    · subst hne
      exact ⟨_, _, rfl⟩
    · obtain ⟨k, heap₂, hsend, -⟩ := sendStream_always hne hcs hsz heap₁
      exact ⟨_, heap₂, hsend⟩
  obtain ⟨sent, heap₂, hsend⟩ := hsend
  refine ⟨hlen, A, heap, arr, heap₁, _, .always, sent, heap₂, hr, hrec.holds, ?_,
    (sendStream_ok hsend).2.2.2⟩
  rw [sendAll_resend hrec.stored, map_resend hvs]
  exact hsend

/-- What a call decodes depends on the bytes alone. -/
theorem Decodes.eq_of_received {vs vs' : List (Message (List Byte))}
    (hd : Decodes h A (received bs) heap vs) (hd' : Decodes h B (received bs) heap' vs') :
    vs = vs' := by
  obtain ⟨o, views, he, rfl⟩ := hd.reader_ends
  obtain ⟨o', views', he', rfl⟩ := hd'.reader_ends
  cases he.unique he'
  rfl

/-! ## Canonical streams -/

variable {f : Frame} {fs : List Frame}

theorem Call.frames_canonical (o : ByteOrder) (hcs : ∀ c ∈ cs, c.Fits) :
    ∀ f ∈ frames o cs hcs, f.Canonical := by
  intro f hf
  obtain ⟨c, hc, rfl⟩ := List.mem_pmap.mp hf
  exact ⟨c.message_type_ne_nul, frame_legal o (hcs c hc)⟩

/-- A canonical frame is what a serializer writes, on a host of either byte order. -/
theorem Frame.Canonical.exists_call (hf : f.Canonical) (o : ByteOrder) :
    ∃ c : Call, c.Fits ∧ (f.message o).val.call = some c ∧ c.wire o = f.bytes := by
  have hbody := bytes_unionOf o hf.2.1
  have hmax : f.body.length ≤ uint32Max := Nat.le_sub_one_of_lt f.fits
  suffices hc : ∃ c : Call, c.Fits ∧ (f.message o).val.call = some c by
    obtain ⟨c, hfits, hcall⟩ := hc
    have hmsg : c.message = f.message o :=
      Entry.message_of_call (e := ⟨⟨f.type, f.body.length, f.body⟩, 0⟩) hcall
    refine ⟨c, hfits, hcall, ?_⟩
    rw [Call.wire, Call.target, hmsg, Frame.message, hbody, Frame.bytes]
  obtain ⟨type, body, fits⟩ := f
  cases type with
  | nul => exact absurd rfl hf.1
  | str => exact ⟨.str body, hmax, rfl⟩
  | bin => exact ⟨.bin body, hmax, rfl⟩
  | err => exact ⟨.err body, hmax, rfl⟩
  | bol =>
    have hbool : body = [0] ∨ body = [1] := hf.2.2 rfl
    rcases hbool with rfl | rfl
    · exact ⟨.bol false, trivial, by simp [message, unionOf, Union.call, load_single]⟩
    · exact ⟨.bol true, trivial, by simp [message, unionOf, Union.call, load_single]⟩
  | u08 => exact ⟨.u08 _, trivial, rfl⟩
  | u16 => exact ⟨.u16 _, trivial, rfl⟩
  | u32 => exact ⟨.u32 _, trivial, rfl⟩
  | u64 => exact ⟨.u64 _, trivial, rfl⟩
  | s08 => exact ⟨.s08 _, trivial, rfl⟩
  | s16 => exact ⟨.s16 _, trivial, rfl⟩
  | s32 => exact ⟨.s32 _, trivial, rfl⟩
  | s64 => exact ⟨.s64 _, trivial, rfl⟩
  | f32 => exact ⟨.f32 _, trivial, rfl⟩
  | f64 => exact ⟨.f64 _, trivial, rfl⟩
  | tim => exact ⟨.tim _, trivial, rfl⟩
  | chr => exact ⟨.chr _, trivial, rfl⟩

theorem exists_calls (hfs : ∀ f ∈ fs, f.Canonical) (o : ByteOrder) :
    ∃ cs : List Call, (∀ c ∈ cs, c.Fits) ∧
      (fs.map (Frame.message o)).map (fun m => m.val.call) = cs.map some ∧
      wireStream o cs = stream fs := by
  induction fs with
  | nil => exact ⟨[], by simp, rfl, rfl⟩
  | cons f fs ih =>
    obtain ⟨c, hc, hcall, hwire⟩ := (hfs f List.mem_cons_self).exists_call o
    obtain ⟨cs, hcs, hcalls, hstream⟩ := ih fun g hg => hfs g (List.mem_cons_of_mem f hg)
    refine ⟨c :: cs, List.forall_mem_cons.mpr ⟨hc, hcs⟩, ?_, ?_⟩
    · rw [List.map_cons, List.map_cons, List.map_cons, hcalls, hcall]
    · rw [stream_cons, ← hwire, ← hstream]
      rfl

/-- A canonical stream that is forwarded stays as it is. -/
theorem Forwards.eq_of_canonical (hfs : ∀ f ∈ fs, f.Canonical)
    (hf : Forwards h (stream fs) bs') : bs' = stream fs := by
  obtain ⟨cs, hcs, -, hstream⟩ := exists_calls hfs h.order
  obtain ⟨ds, A, heap, -, -, hd, rfl⟩ := forwards_cases hf
  have hlen := hf.1
  rw [← hstream] at hd hlen ⊢
  have hmsgs := hd.eq_of_received (decodes_wireStream hcs hlen Heap.empty)
  rw [wireStream_eq, hmsgs, ← wireStream_eq]

/-- It can be forwarded. -/
theorem forwards_stream (hfs : ∀ f ∈ fs, f.Canonical) (hsz : (stream fs).length < h.szMod) :
    Forwards h (stream fs) (stream fs) := by
  obtain ⟨cs, hcs, hcalls, hstream⟩ := exists_calls hfs h.order
  have hd := decodes_whole (fun f hf => (hfs f hf).2) hsz Heap.empty
  have hf := forwards_of_decodes hsz hd hcalls hcs (by rwa [hstream])
  rwa [hstream] at hf

/-- What a host sends on when it has decoded any buffer, legal or not, and serialized
the messages again: a stream of canonical frames, which it decodes to the same
messages, and which no host that forwards it changes. A `T_BOL` message whose byte is
neither 0 nor 1 cannot be serialized: to read it as a `bool` is undefined behaviour. -/
theorem forwards_normal (hf : Forwards h bs bs') :
    ∃ fs, (∀ f ∈ fs, f.Canonical) ∧ bs' = stream fs ∧
      (∀ A heap vs, Decodes h A (received bs) heap vs → vs = fs.map (Frame.message h.order)) ∧
      (∀ heap, Decodes h .always (received bs') heap (fs.map (Frame.message h.order))) ∧
      ∀ h' bs'', Forwards h' bs' bs'' → bs'' = bs' := by
  obtain ⟨cs, A, heap, hcs, hsz, hd, rfl⟩ := forwards_cases hf
  have hcanon := Call.frames_canonical h.order hcs
  have hstream := Call.stream_frames h.order hcs
  refine ⟨Call.frames h.order cs hcs, hcanon, hstream.symm, ?_⟩
  rw [Call.map_message_frames]
  refine ⟨fun B heap' vs hd' => hd'.eq_of_received hd, decodes_wireStream hcs hsz,
    fun h' bs'' hf' => ?_⟩
  rw [← hstream] at hf' ⊢
  exact hf'.eq_of_canonical hcanon

/-- A frame of `T_U08` that is two bytes too long, and what becomes of it. -/
theorem forwards_normal_sample :
    ∃ bs', Forwards ⟨.big, .w64⟩ [1, 0, 0, 0, 3, 7, 8, 9] bs' ∧
      ∀ bs'', Forwards ⟨.little, .w64⟩ bs' bs'' → bs'' = bs' := by
  have hval : ValuesInside [⟨.u08, [7, 8, 9], by decide⟩] [] := by decide
  obtain ⟨s, heap₁, es, hdr, hfin, -, hes, hrec⟩ := finishes_stream (h := ⟨.big, .w64⟩)
    [⟨.u08, [7, 8, 9], by decide⟩] (by decide) hval Heap.empty
  have hd := hrec.decodes hfin.deserializes
  rw [hes] at hd
  have hf := forwards_of_decodes (by decide) hd (rfl : _ = [Call.u08 7].map some)
    (by simp [Call.Fits]) (by decide)
  obtain ⟨fs, -, -, -, -, hkeep⟩ := forwards_normal hf
  exact ⟨_, hf, hkeep _⟩

/-- A buffer is forwarded as it is if and only if it is a stream of canonical frames. One
with a boolean that is neither 0 nor 1 is not forwarded at all. -/
theorem forwards_self_iff (hsz : bs.length < h.szMod) :
    Forwards h bs bs ↔ ∃ fs, (∀ f ∈ fs, f.Canonical) ∧ bs = stream fs := by
  constructor
  · intro hf
    obtain ⟨cs, A, heap, hcs, -, -, heq⟩ := forwards_cases hf
    exact ⟨_, Call.frames_canonical h.order hcs, heq.trans (Call.stream_frames h.order hcs).symm⟩
  · rintro ⟨fs, hfs, rfl⟩
    exact forwards_stream hfs hsz

/-- A frame of `T_U08`, and one of `T_ERR`. -/
theorem forwards_self_iff_sample :
    Forwards ⟨.big, .w64⟩ [1, 0, 0, 0, 1, 7, 16, 0, 0, 0, 1, 33]
      [1, 0, 0, 0, 1, 7, 16, 0, 0, 0, 1, 33] :=
  (forwards_self_iff (by decide)).mpr
    ⟨[⟨.u08, [7], by decide⟩, ⟨.err, [33], by decide⟩], by decide, rfl⟩

/-! ## A chain of hosts -/

/-- The hosts forward a buffer, one after the other. -/
def Relayed : List Host → List Byte → List Byte → Prop
  | [], bs, bs' => bs' = bs
  | h :: hosts, bs, bs' => ∃ mid, Forwards h bs mid ∧ Relayed hosts mid bs'

variable {hosts : List Host}

theorem Relayed.eq_of_canonical (hfs : ∀ f ∈ fs, f.Canonical)
    (hr : Relayed hosts (stream fs) bs') : bs' = stream fs := by
  induction hosts with
  | nil => exact hr
  | cons h hosts ih =>
    obtain ⟨mid, hf, hr⟩ := hr
    rw [hf.eq_of_canonical hfs] at hr
    exact ih hr

theorem relayed_stream (hfs : ∀ f ∈ fs, f.Canonical)
    (hsz : ∀ h ∈ hosts, (stream fs).length < h.szMod) : Relayed hosts (stream fs) (stream fs) := by
  induction hosts with
  | nil => rfl
  | cons h hosts ih =>
    obtain ⟨hh, hhosts⟩ := List.forall_mem_cons.mp hsz
    exact ⟨_, forwards_stream hfs hh, ih hhosts⟩

/-- A stream goes from the host `h₁` over any number of hosts to the host `h₂`, of any
byte orders and widths. The hosts between can forward it, they do not change a byte of
it, and `h₂` gets what it would have got from `h₁` itself. -/
theorem relay_arrives (hsend : sendStream h₁ A cs heap = .ok (b, heap'))
    (hsz : ∀ h ∈ h₂ :: hosts, b.len < h.szMod) :
    ∃ bs, bufBytes heap' b = some bs ∧ Relayed hosts bs bs ∧
      ∀ bs', Relayed hosts bs bs' → bs' = bs ∧ ∀ heap₂,
        Decodes h₂ .always (received bs') heap₂
          (cs.map fun c => (c.arrive h₁.order h₂.order).message) := by
  obtain ⟨hcs, -, hlen, hbytes⟩ := sendStream_ok hsend
  have hcanon := Call.frames_canonical h₁.order hcs
  have hstream := Call.stream_frames h₁.order hcs
  rw [hlen] at hsz
  obtain ⟨hlast, hbetween⟩ := List.forall_mem_cons.mp hsz
  refine ⟨_, hbytes, ?_, fun bs' hr => ?_⟩
  · rw [← hstream] at hbetween ⊢
    exact relayed_stream hcanon hbetween
  · have heq : bs' = wireStream h₁.order cs := by
      rw [← hstream] at hr ⊢
      exact hr.eq_of_canonical hcanon
    rw [heq]
    exact ⟨rfl, decodes_arrive h₁.order hcs hlast⟩

/-- From a big-endian host over a little-endian one to a big-endian one. -/
theorem relay_arrives_sample :
    ∃ b heap' bs, sendStream ⟨.big, .w64⟩ .always [.u64 1] Heap.empty = .ok (b, heap') ∧
      bufBytes heap' b = some bs ∧ Relayed [⟨.little, .w32⟩] bs bs ∧
      ∀ heap₂, Decodes ⟨.big, .w64⟩ .always (received bs) heap₂ [⟨.u64, .u64 1⟩] := by
  obtain ⟨k, heap', hsend, -⟩ := @sendStream_always ⟨.big, .w64⟩ [.u64 1] (by simp)
    (by simp [Call.Fits]) (by decide) Heap.empty
  have hsz : ∀ h ∈ [Host.mk .big .w64, ⟨.little, .w32⟩],
      (wireStream .big [.u64 1]).length < h.szMod := by decide
  obtain ⟨bs, hbytes, hrel, hall⟩ := relay_arrives hsend hsz
  exact ⟨_, heap', bs, hsend, hbytes, hrel, (hall bs hrel).2⟩

end Tlv
