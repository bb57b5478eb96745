import Tlv.Accessors
import Tlv.Decode

/-!
# Streams that are sent and received

What the accessors give for a message that was decoded (`access_own`,
`access_other`, `messageCstr_stored`), the frames that the serializers write
(`Call.frames`), and the round trip of a stream between two processes on hosts
of the same byte order (`sendStream_roundTrip`).
-/

namespace Tlv
open Lib

variable {h : Host} {A : Allocator} {heap heap' : Heap} {i : Nat} {bs : List Byte}

/-! ## Accessors -/

theorem expectMember_other {α : Type} {wanted : TypeTag} {member : Union (Buffer Ptr) → Option α}
    {m : Message (Buffer Ptr)} (ht : m.type ≠ wanted) :
    expectMember wanted member m = Prog.stop (.wrongType wanted m.type) := by
  rw [expectMember, if_neg ht]

/-- An accessor of another type ends the process, and names the two types. -/
theorem access_other {t : TypeTag} {m : Message (Buffer Ptr)} (ht : m.type ≠ t) (hn : t ≠ .nul) :
    access m t heap = .error (.wrongType t m.type, heap) := by
  cases t with
  | nul => exact absurd rfl hn
  | _ => exact Prog.bind_error (congrFun (expectMember_other ht) heap)

theorem copyOut_stored (hb : HoldsBytes heap i bs) :
    copyOut ⟨.block i, bs.length⟩ heap = .ok (bs, heap) := by
  have hread : (ptrView heap (.block i)).read 0 bs.length = some bs := hb.bufBytes
  rw [copyOut, Prog.bind_ok (x := lend _) rfl]
  exact memcpyFrom_some hread heap

/-- The accessor of a message's own type gives the value that was decoded. A
boolean must be one of the two bytes that are values of type `bool`. -/
theorem access_own {e : Entry} (hs : e.Stored heap) (hnul : e.view.type ≠ .nul)
    (hbol : e.view.type = .bol → e.view.value = [0] ∨ e.view.value = [1]) (o : ByteOrder) :
    access (e.message o) e.view.type heap = .ok ((e.view.message o).val, heap) := by
  obtain ⟨⟨type, declared, value⟩, block⟩ := e
  cases type with
  | nul => exact absurd rfl hnul
  | str =>
    show (copyOut ⟨.block block, value.length⟩ >>= fun bytes => pure (Union.str bytes)) heap = _
    rw [Prog.bind_ok (copyOut_stored (hs rfl))]
    rfl
  | bin =>
    show (copyOut ⟨.block block, value.length⟩ >>= fun bytes => pure (Union.bin bytes)) heap = _
    rw [Prog.bind_ok (copyOut_stored (hs rfl))]
    rfl
  | err =>
    show (copyOut ⟨.block block, value.length⟩ >>= fun bytes => pure (Union.err bytes)) heap = _
    rw [Prog.bind_ok (copyOut_stored (hs rfl))]
    rfl
  | bol =>
    have hval : value = [0] ∨ value = [1] := hbol rfl
    rcases hval with rfl | rfl <;>
      simp only [access, Entry.message, View.message, unionOf, load_single, UInt8.ofNat_toNat] <;>
      rfl
  | _ => rfl

/-- `message_cstr`, when the allocation succeeds: a new block with the payload and a
NUL behind it. -/
theorem messageCstr_granted (hb : HoldsBytes heap i bs) (hsz : bs.length + 1 < h.szMod)
    (hA : A heap.next (bs.length + 1) = true) :
    messageCstr h A ⟨.str, .str ⟨.block i, bs.length⟩⟩ heap =
      .ok (.block heap.next, heap.new (bs ++ [0]).length (Mem.ofList (bs ++ [0]))) := by
  have hread : (ptrView (heap.new (bs.length + 1) Mem.empty) (.block i)).read 0 bs.length =
      some bs := hb.new.bufBytes
  have hlen : (bs ++ [0]).length = bs.length + 1 := by simp
  have h1 : Mem.empty.write 0 bs = Mem.ofList bs := Mem.write_ofList [] bs
  have h2 := Mem.write_ofList bs [0]
  rw [messageCstr, Prog.bind_ok (x := messageStr _) rfl, Host.sz_of_lt hsz,
    Prog.bind_ok (malloc_granted hA), Prog.bind_ok (existsPtr_block _ _),
    Prog.bind_ok (x := lend _) rfl, Heap.alloc,
    Prog.bind_ok (memcpyFrom_some hread _),
    Prog.bind_ok (memcpyTo_new (by simp)), h1,
    Prog.bind_ok (memcpyTo_new (by simp)), h2, hlen]
  rfl

/-- When allocations succeed, `message_cstr` gives the payload with a NUL behind it. -/
theorem messageCstr_stored (hb : HoldsBytes heap i bs) (hsz : bs.length + 1 < h.szMod) :
    ∃ p heap', messageCstr h .always ⟨.str, .str ⟨.block i, bs.length⟩⟩ heap = .ok (p, heap') ∧
      bufBytes heap' ⟨p, bs.length + 1⟩ = some (bs ++ [0]) := by
  have hlen : (bs ++ [0]).length = bs.length + 1 := by simp
  have hself := (HoldsBytes.new_self heap (bs ++ [0])).bufBytes
  rw [hlen] at hself
  exact ⟨_, _, messageCstr_granted hb hsz rfl, hlen ▸ hself⟩

theorem messageCstr_other {m : Message (Buffer Ptr)} (ht : m.type ≠ .str) :
    messageCstr h A m heap = .error (.wrongType .str m.type, heap) :=
  Prog.bind_error (congrFun (expectMember_other ht) heap)

/-! ## The frames that the serializers write -/

namespace Call

variable (o : ByteOrder) {c : Call} {cs : List Call}

theorem length_target (c : Call) :
    (c.target o).length = c.message.type.width (c.target o).length := by
  cases c <;> simp [target, message, Union.bytes, TypeTag.width]

theorem target_bol (hc : c.message.type = .bol) : c.target o = [0] ∨ c.target o = [1] := by
  cases c with
  | bol b => cases b <;> simp [target, message, Union.bytes]
  | _ => cases hc

theorem message_type_ne_nul (c : Call) : c.message.type ≠ .nul := by
  cases c <;> simp [message]

theorem length_target_lt (hc : c.Fits) : (c.target o).length < 2 ^ 32 := by
  have hmax : uint32Max < 2 ^ 32 := by decide
  cases c with
  | str bytes | bin bytes | err bytes | cstr s => exact Nat.lt_of_le_of_lt hc hmax
  | _ => simp [target, message, Union.bytes]

/-- A host reads back what it wrote. -/
theorem unionOf_target (c : Call) :
    unionOf o c.message.type (c.target o) (c.target o) = c.message.val := by
  cases c with
  | u16 n | s16 n => simp [message, unionOf, target, Union.bytes, ntohs_load_store]
  | u32 n | s32 n | f32 n | chr n => simp [message, unionOf, target, Union.bytes, ntohl_load_store]
  | u64 n | s64 n | f64 n | tim n => simp [message, unionOf, target, Union.bytes, ntoh64_load_store]
  | u08 n | s08 n | bol b => simp [message, unionOf, target, Union.bytes, load_single]
  | str bytes | bin bytes | err bytes | cstr s => rfl

/-- The frame that a serializer writes on a host of the given byte order. -/
def frame (c : Call) (hc : c.Fits) : Frame := ⟨c.message.type, c.target o, c.length_target_lt o hc⟩

theorem frame_legal (hc : c.Fits) : (c.frame o hc).Legal := ⟨c.length_target o, c.target_bol o⟩

/-- The frames of a stream that is sent. -/
def frames (cs : List Call) (hcs : ∀ c ∈ cs, c.Fits) : List Frame := cs.pmap (frame o) hcs

theorem frames_legal (hcs : ∀ c ∈ cs, c.Fits) : ∀ f ∈ frames o cs hcs, f.Legal := by
  intro f hf
  obtain ⟨c, hc, rfl⟩ := List.mem_pmap.mp hf
  exact frame_legal o (hcs c hc)

theorem stream_frames (hcs : ∀ c ∈ cs, c.Fits) :
    stream (frames o cs hcs) = wireStream o cs := by
  induction cs with
  | nil => rfl
  | cons c cs ih =>
    have hrec := ih fun d hd => hcs d (List.mem_cons_of_mem c hd)
    rw [frames] at hrec ⊢
    rw [List.pmap_cons, stream_cons, hrec]
    rfl

/-- What the decoder takes from the frame. -/
def view (c : Call) : View := ⟨c.message.type, (c.target o).length, c.target o⟩

theorem view_message (c : Call) : (c.view o).message o = c.message := by
  rw [View.message, view, unionOf_target]

theorem viewsOf_frames (hcs : ∀ c ∈ cs, c.Fits) (rest : List Byte) :
    viewsOf (frames o cs hcs) rest = cs.map (view o) := by
  rw [viewsOf_padded fun f hf => (frames_legal o hcs f hf).padded, frames, List.map_pmap,
    ← List.pmap_eq_map (f := view o) hcs]
  refine List.pmap_congr_left cs fun c _ hc _ => ?_
  simp only [Frame.view, (frame_legal o hc).value]
  rfl

end Call

/-! ## The round trip -/

/-- Two lists that are mapped to one are related element by element. -/
theorem forall₂_of_map_eq {α β γ : Type} {f : α → γ} {g : β → γ} {as : List α} {bs : List β}
    {R : α → β → Prop} (hmap : as.map f = bs.map g)
    (hR : ∀ a ∈ as, ∀ b ∈ bs, f a = g b → R a b) : List.Forall₂ R as bs := by
  have heq : List.Forall₂ (· = ·) (as.map f) (bs.map g) := by
    rw [List.forall₂_eq_eq_eq]
    exact hmap
  rw [List.forall₂_map_left_iff, List.forall₂_map_right_iff] at heq
  obtain ⟨hlen, hzip⟩ := List.forall₂_iff_zip.mp heq
  refine List.forall₂_iff_zip.mpr ⟨hlen, fun hmem => ?_⟩
  obtain ⟨ha, hb⟩ := List.of_mem_zip hmem
  exact hR _ ha _ hb (hzip hmem)

/-- What the accessors make of the message `m` that was received for the value
`c`: its own accessor gives the value, every other one ends the process, and
`message_cstr` gives a string and ends the process for any other type. -/
structure Delivers (h : Host) (heap : Heap) (c : Call) (m : Message (Buffer Ptr)) : Prop where
  own : access m c.message.type heap = .ok (c.message.val, heap)
  other : ∀ t, t ≠ .nul → t ≠ c.message.type →
    access m t heap = .error (.wrongType t c.message.type, heap)
  cstr : ∀ bs, c.message.val = .str bs → ∃ p heap', messageCstr h .always m heap = .ok (p, heap') ∧
    bufBytes heap' ⟨p, bs.length + 1⟩ = some (bs ++ [0])
  notCstr : c.message.type ≠ .str →
    messageCstr h .always m heap = .error (.wrongType .str c.message.type, heap)

theorem Delivers.of_entry {c : Call} {e : Entry} (hc : c.Fits)
    (hs : e.Stored heap) (hv : e.view = c.view h.order) (hbig : 2 ^ 32 < h.szMod) :
    Delivers h heap c (e.message h.order) := by
  have hmsg : e.view.message h.order = c.message := by rw [hv, Call.view_message]
  have htype : e.view.type = c.message.type := by rw [hv, Call.view]
  have hval : e.view.value = c.target h.order := by rw [hv, Call.view]
  refine ⟨?_, fun t hn ht => ?_, fun bs hbs => ?_, fun ht => ?_⟩
  · rw [← htype, ← hmsg]
    refine access_own hs (htype ▸ c.message_type_ne_nul) (fun hb => ?_) h.order
    rw [hval]
    exact c.target_bol h.order (htype ▸ hb)
  · rw [← htype] at ht ⊢
    exact access_other (Ne.symm ht) hn
  · have hstr : c.message.type = .str ∧ c.target h.order = bs := by
      cases c with
      | str bytes | cstr s =>
        cases hbs
        exact ⟨rfl, rfl⟩
      | _ => cases hbs
    have hblock := hs (by rw [htype, hstr.1]; rfl)
    rw [hval, hstr.2] at hblock
    have hlt := c.length_target_lt h.order hc
    rw [hstr.2] at hlt
    have hm : e.message h.order = ⟨.str, .str ⟨.block e.block, bs.length⟩⟩ := by
      rw [Entry.message, htype, hstr.1, hval, hstr.2]
      rfl
    rw [hm]
    exact messageCstr_stored hblock (by omega)
  · rw [← htype] at ht ⊢
    exact messageCstr_other ht

/-- Values that are serialized and joined on one host, and decoded on a host of
the same kind, arrive. The memory of the stream is exactly its bytes, so a
decoder that read elsewhere would stop. -/
theorem sendStream_roundTrip (hw : h.word = .w64) {cs : List Call} (hne : cs ≠ [])
    (hcs : ∀ c ∈ cs, c.Fits) (hsz : (wireStream h.order cs).length < h.szMod)
    (heap heap₂ : Heap) :
    ∃ sent heap₁ s heap₃ ms,
      sendStream h .always cs heap = .ok (sent, heap₁) ∧
      (∀ i, (ptrView heap₁ sent.bytes i).isSome ↔ i < sent.len) ∧
      Finishes h .always ⟨some (ptrView heap₁ sent.bytes), sent.len⟩ heap₂ s heap₃ ∧
      s.offset = sent.len ∧ s.messages.Holds ms ∧ List.Forall₂ (Delivers h heap₃) cs ms := by
  obtain ⟨k, heap₁, hsend, hk⟩ := sendStream_always hne hcs hsz heap
  have hstream := Call.stream_frames h.order hcs
  have hlegal := Call.frames_legal h.order hcs
  obtain ⟨s, heap₃, es, hdr, hfin, hoff, hes, hrec⟩ := finishes_stream (h := h)
    (Call.frames h.order cs hcs) (by rwa [hstream])
    (valuesInside_of_padded (fun f hf => (hlegal f hf).padded) []) heap₂
  have hview : ptrView heap₁ (.block k) = Mem.ofList (wireStream h.order cs) := Heap.view_eq hk
  rw [hstream] at hfin hoff
  rw [Call.viewsOf_frames] at hes
  refine ⟨_, heap₁, s, heap₃, _, hsend, fun i => ?_, ?_, hoff, hrec.holds, ?_⟩
  · rw [hview]
    simp [Mem.ofList]
  · rw [hview]
    exact hfin
  · rw [List.forall₂_map_right_iff]
    refine forall₂_of_map_eq hes.symm fun c hc e he hv => ?_
    exact .of_entry (hcs c hc) (hrec.stored e he) hv.symm
      (by rw [Host.szMod_w64 hw]; decide)

/-- Two values of different widths, a string and a payload that looks like a
header. -/
theorem sendStream_roundTrip_sample :
    ∃ sent heap₁ s heap₃ ms,
      sendStream ⟨.big, .w64⟩ .always [.u16 258, .s64 (-2), .str [104, 105], .bin [1, 0, 0, 0, 9]]
        Heap.empty = .ok (sent, heap₁) ∧
      (∀ i, (ptrView heap₁ sent.bytes i).isSome ↔ i < sent.len) ∧
      Finishes ⟨.big, .w64⟩ .always ⟨some (ptrView heap₁ sent.bytes), sent.len⟩ Heap.empty s heap₃ ∧
      s.offset = sent.len ∧ s.messages.Holds ms ∧
      List.Forall₂ (Delivers ⟨.big, .w64⟩ heap₃)
        [.u16 258, .s64 (-2), .str [104, 105], .bin [1, 0, 0, 0, 9]] ms :=
  sendStream_roundTrip rfl (by decide) (by simp [Call.Fits, uint32Max])
    (by decide) Heap.empty Heap.empty

end Tlv
