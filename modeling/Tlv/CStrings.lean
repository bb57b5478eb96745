import Mathlib.Data.List.TakeWhile
import Tlv.RoundTrip

/-!
# Payloads as C strings

A payload of `T_STR` is counted and may have any bytes. `message_cstr` copies it and
puts a NUL behind it, and whoever reads the copy as a C string stops at the first NUL,
which may be one of the payload.

Results: the C string of a message is its payload up to the first NUL, whatever stream
it was received in, so it is the payload, and `serialize_cstr` gives the frame that
`serialize_str` gives, if and only if the payload has no NUL (`messageCstr_view`).
-/

namespace Tlv
open Lib

/-! ## C strings -/

/-- The bytes of the block behind a pointer. -/
def charsAt (heap : Heap) (p : Ptr) : Option (List Byte) :=
  match p with
  | .block i => (heap.cells i).bind fun b => b.mem.read 0 b.size
  | _ => none

/-- The characters before the first NUL. `strlen` counts them. -/
def untilNul (s : List Byte) : List Byte := s.takeWhile (· ≠ 0)

/-- The C string behind a pointer. A block without a NUL holds none. -/
def cstringAt (heap : Heap) (p : Ptr) : Option (List Byte) :=
  (charsAt heap p).bind fun s => if 0 ∈ s then some (untilNul s) else none

/-- `serialize_cstr` of the string behind a pointer. -/
def serializeCstrAt (h : Host) (A : Allocator) (p : Ptr) : CProg (Buffer Ptr) := fun heap =>
  match charsAt heap p with
  | some s => serializeCstr h A s heap
  | none => .error (.readPastEnd, heap)

/-- `serialize_str(message_str(m))`. -/
def serializeMessageStr (h : Host) (A : Allocator) (m : Message (Buffer Ptr)) :
    CProg (Buffer Ptr) := do
  let s ← messageStr m
  let src ← lend s
  serializeStr h A src

/-- Whenever `message_cstr` returns, the C string is the payload. -/
def KeepsPayload (h : Host) (heap : Heap) (m : Message (Buffer Ptr)) (payload : List Byte) : Prop :=
  ∀ A p heap', messageCstr h A m heap = .ok (p, heap') → cstringAt heap' p = some payload

/-- Whenever `message_cstr` returns, serializing the C string gives the frame that
serializing the payload gives. -/
def SameFrame (h : Host) (heap : Heap) (m : Message (Buffer Ptr)) : Prop :=
  ∀ A p heap', messageCstr h A m heap = .ok (p, heap') → ∀ B b₁ heap₁ b₂ heap₂,
    serializeCstrAt h B p heap' = .ok (b₁, heap₁) →
    serializeMessageStr h B m heap' = .ok (b₂, heap₂) → bufBytes heap₁ b₁ = bufBytes heap₂ b₂

/-- What `message_cstr` makes of a message with the given payload: it aborts for want
of memory, or it gives a C string that is the payload up to its first NUL. -/
structure CstrView (h : Host) (heap : Heap) (m : Message (Buffer Ptr)) (payload : List Byte) :
    Prop where
  aborts : ∀ A f heap', messageCstr h A m heap = .error (f, heap') → f = .nullPointer
  cuts : ∀ A p heap', messageCstr h A m heap = .ok (p, heap') →
    cstringAt heap' p = some (untilNul payload)
  keeps_iff : KeepsPayload h heap m payload ↔ 0 ∉ payload
  sameFrame_iff : SameFrame h heap m ↔ 0 ∉ payload

variable {h : Host} {A B : Allocator} {heap heap' : Heap} {i : Nat} {bs : List Byte} {m : Mem}

theorem untilNul_eq_self_iff : untilNul bs = bs ↔ 0 ∉ bs := by
  rw [untilNul, List.takeWhile_eq_self_iff]
  simp only [ne_eq, decide_not, Bool.not_eq_true', decide_eq_false_iff_not]
  constructor
  · intro hall hmem
    exact hall 0 hmem rfl
  · rintro hnot b hb rfl
    exact hnot hb

/-- The NUL that is put behind does not come before the first one. -/
theorem untilNul_concat (bs : List Byte) : untilNul (bs ++ [0]) = untilNul bs := by
  induction bs with
  | nil => rfl
  | cons b bs ih =>
    unfold untilNul at ih ⊢
    rw [List.cons_append, List.takeWhile_cons, List.takeWhile_cons, ih]

theorem charsAt_eq (hb : HoldsBytes heap i bs) : charsAt heap (.block i) = some bs := by
  show (heap.cells i).bind _ = _
  rw [hb, Option.bind_some, Mem.read_ofList (by simp)]
  simp

theorem cstringAt_concat (hb : HoldsBytes heap i (bs ++ [0])) :
    cstringAt heap (.block i) = some (untilNul bs) := by
  have hnul : (0 : Byte) ∈ bs ++ [0] := by simp
  rw [cstringAt, charsAt_eq hb, Option.bind_some, if_pos hnul, untilNul_concat]

/-! ## A stored payload -/

theorem messageCstr_cases (hb : HoldsBytes heap i bs) (hsz : bs.length + 1 < h.szMod)
    (A : Allocator) :
    messageCstr h A ⟨.str, .str ⟨.block i, bs.length⟩⟩ heap = .error (.nullPointer, heap) ∨
      messageCstr h A ⟨.str, .str ⟨.block i, bs.length⟩⟩ heap =
        .ok (.block heap.next, heap.new (bs ++ [0]).length (Mem.ofList (bs ++ [0]))) := by
  by_cases hA : A heap.next (bs.length + 1) = true
  · exact .inr (messageCstr_granted hb hsz hA)
  · rw [← Host.sz_of_lt hsz] at hA
    refine .inl ?_
    rw [messageCstr, Prog.bind_ok (x := messageStr _) rfl]
    exact malloc_exists_refused hA

theorem length_untilNul_le (bs : List Byte) : (untilNul bs).length ≤ bs.length :=
  (List.takeWhile_prefix _).length_le

theorem read_untilNul (bs : List Byte) :
    (Mem.ofList (bs ++ [0])).read 0 (untilNul bs).length = some (untilNul bs) := by
  have hpre : untilNul bs <+: bs ++ [0] := (List.takeWhile_prefix _).trans (List.prefix_append _ _)
  rw [Mem.read_ofList (by rw [Nat.zero_add]; exact hpre.length_le)]
  exact congrArg some (List.prefix_iff_eq_take.mp hpre).symm

/-- `serialize_cstr` sends the characters before the first NUL. -/
theorem serializeCstrAt_eq {k : Nat} (hb : HoldsBytes heap k (bs ++ [0])) :
    serializeCstrAt h B (.block k) heap =
      complexSerialize h B ⟨Mem.ofList (bs ++ [0]), (untilNul bs).length⟩ .str heap := by
  have hlen : strlen (bs ++ [0]) = (untilNul bs).length := congrArg List.length (untilNul_concat bs)
  unfold serializeCstrAt
  rw [charsAt_eq hb, ← hlen]
  rfl

/-- The frame that it gives. -/
theorem serializeCstrAt_frame {k : Nat} {b : Buffer Ptr} (hb : HoldsBytes heap k (bs ++ [0]))
    (hmax : bs.length ≤ uint32Max) (hsz : 5 + bs.length < h.szMod)
    (hr : serializeCstrAt h B (.block k) heap = .ok (b, heap')) :
    bufBytes heap' b = some (frameBytes .str (untilNul bs)) := by
  have hle := length_untilNul_le bs
  rw [serializeCstrAt_eq hb] at hr
  exact complexSerialize_frame hr (read_untilNul bs) (hle.trans hmax)
    (Nat.lt_of_le_of_lt (Nat.add_le_add_left hle 5) hsz)

theorem serializeCstrAt_always {k : Nat} (hb : HoldsBytes heap k (bs ++ [0]))
    (hmax : bs.length ≤ uint32Max) (hsz : 5 + bs.length < h.szMod) :
    ∃ b heap', serializeCstrAt h .always (.block k) heap = .ok (b, heap') := by
  have hle := length_untilNul_le bs
  rw [serializeCstrAt_eq hb]
  exact ⟨_, _, complexSerialize_always (read_untilNul bs) (hle.trans hmax)
    (Nat.lt_of_le_of_lt (Nat.add_le_add_left hle 5) hsz)⟩

section Stored
variable (hb : HoldsBytes heap i bs) (hmax : bs.length ≤ uint32Max)
  (hsz : 5 + bs.length < h.szMod)
include hb hsz

theorem messageCstr_cuts {p : Ptr}
    (hr : messageCstr h A ⟨.str, .str ⟨.block i, bs.length⟩⟩ heap = .ok (p, heap')) :
    p = .block heap.next ∧ heap' = heap.new (bs ++ [0]).length (Mem.ofList (bs ++ [0])) := by
  rcases messageCstr_cases hb (h := h) (by omega) A with hcstr | hcstr
  · rw [hcstr] at hr
    cases hr
  · rw [hcstr] at hr
    cases hr
    exact ⟨rfl, rfl⟩

include hmax

theorem serializeMessageStr_frame {b : Buffer Ptr}
    (hr : serializeMessageStr h B ⟨.str, .str ⟨.block i, bs.length⟩⟩ heap = .ok (b, heap')) :
    bufBytes heap' b = some (frameBytes .str bs) := by
  have hr' : complexSerialize h B ⟨ptrView heap (.block i), bs.length⟩ .str heap =
      .ok (b, heap') := hr
  exact complexSerialize_frame hr' hb.bufBytes hmax hsz

theorem serializeMessageStr_always :
    ∃ b heap', serializeMessageStr h .always ⟨.str, .str ⟨.block i, bs.length⟩⟩ heap =
      .ok (b, heap') := by
  show ∃ b heap', complexSerialize h .always ⟨ptrView heap (.block i), bs.length⟩ .str heap =
    .ok (b, heap')
  exact ⟨_, _, complexSerialize_always hb.bufBytes hmax hsz⟩

theorem sameFrame_stored_iff :
    SameFrame h heap ⟨.str, .str ⟨.block i, bs.length⟩⟩ ↔ 0 ∉ bs := by
  have hself := HoldsBytes.new_self heap (bs ++ [0])
  rw [← untilNul_eq_self_iff]
  constructor
  · intro hsame
    have hcstr := messageCstr_granted (h := h) (A := .always) hb (by omega) rfl
    obtain ⟨b₁, heap₁, hcut⟩ := serializeCstrAt_always (h := h) hself hmax hsz
    obtain ⟨b₂, heap₂, hall⟩ := serializeMessageStr_always (h := h) hb.new hmax hsz
    have heq := hsame .always _ _ hcstr .always b₁ heap₁ b₂ heap₂ hcut hall
    rw [serializeCstrAt_frame hself hmax hsz hcut, serializeMessageStr_frame hb.new hmax hsz hall,
      Option.some.injEq] at heq
    exact frameBytes_inj heq
  · rintro heq A p heap' hcstr B b₁ heap₁ b₂ heap₂ hcut hall
    obtain ⟨rfl, rfl⟩ := messageCstr_cuts hb hsz hcstr
    rw [serializeCstrAt_frame hself hmax hsz hcut, serializeMessageStr_frame hb.new hmax hsz hall,
      heq]

theorem cstrView_stored : CstrView h heap ⟨.str, .str ⟨.block i, bs.length⟩⟩ bs := by
  have hcuts : ∀ A p heap', messageCstr h A ⟨.str, .str ⟨.block i, bs.length⟩⟩ heap =
      .ok (p, heap') → cstringAt heap' p = some (untilNul bs) := by
    intro A p heap' hr
    obtain ⟨rfl, rfl⟩ := messageCstr_cuts hb hsz hr
    exact cstringAt_concat (HoldsBytes.new_self heap (bs ++ [0]))
  refine ⟨fun A f heap' hr => ?_, hcuts, ⟨fun hkeeps => ?_, fun hnot A p heap' hr => ?_⟩,
    sameFrame_stored_iff hb hmax hsz⟩
  · rcases messageCstr_cases hb (h := h) (by omega) A with hcstr | hcstr
    · rw [hcstr] at hr
      cases hr
      rfl
    · rw [hcstr] at hr
      cases hr
  · have hcstr := messageCstr_granted (h := h) (A := .always) hb (by omega) rfl
    have heq := (hcuts _ _ _ hcstr).symm.trans (hkeeps _ _ _ hcstr)
    exact untilNul_eq_self_iff.mp (Option.some_injective _ heq)
  · rw [hcuts A p heap' hr, untilNul_eq_self_iff.mpr hnot]

end Stored

/-! ## Received messages -/

/-- The copy of a payload that was received, with five or with one byte more, is no
larger than a `size_t` can count. -/
theorem peek_payload_fits {o : Nat} {v : View}
    (hm : h.word = .w32 → ∀ i, (m i).isSome → i < h.ptrdiffMax) (hp : peek m o = .ok v)
    (ht : v.type.isPayload = true) :
    v.value.length ≤ uint32Max ∧ 5 + v.value.length < h.szMod := by
  have hread := (peek_eq_ok hp).2
  have hdeclared := peek_declared_lt hp
  rw [TypeTag.width_of_isPayload ht] at hread
  rw [Mem.length_of_read hread]
  refine ⟨Nat.le_sub_one_of_lt hdeclared, ?_⟩
  cases hw : h.word with
  | w64 =>
    rw [Host.szMod_w64 hw]
    omega
  | w32 =>
    -- The last byte of the payload lies inside the object that holds the stream.
    unfold Host.ptrdiffMax at hm
    rw [Host.szMod_w32 hw] at hm ⊢
    rcases Nat.eq_zero_or_pos v.declared with h0 | hpos
    · omega
    · have hlast := hm hw _ (Mem.isSome_of_read hread (Nat.sub_one_lt_of_lt hpos))
      omega

/-- A string that was received is stored, and has the C string of its payload. -/
theorem Entry.Stored.cstrView {e : Entry} (hs : e.Stored heap) (ht : e.view.type = .str)
    (hmax : e.view.value.length ≤ uint32Max) (hsz : 5 + e.view.value.length < h.szMod) :
    (e.message h.order).deref heap = some ⟨.str, .str e.view.value⟩ ∧
      CstrView h heap (e.message h.order) e.view.value := by
  have hpay : e.view.type.isPayload = true := by rw [ht]; rfl
  have hview := cstrView_stored (hs hpay) hmax hsz
  refine ⟨?_, ?_⟩
  · rw [hs.deref h.order, View.message, ht]
    rfl
  · rw [Entry.message, ht]
    exact hview

/-- For every stream on which `deserialize` returns, and every message of type `T_STR`
in the result: `message_cstr` aborts or gives the payload up to its first NUL. It loses
nothing, and can be serialized in place of the payload, if and only if the payload has
no NUL. With a 32-bit `size_t` the bytes that can be read are those of one C object. -/
theorem messageCstr_view {len : Nat} {arr : DynArr (Message (Buffer Ptr))}
    (hm : h.word = .w32 → ∀ i, (m i).isSome → i < h.ptrdiffMax)
    (hr : Deserializes h A ⟨some m, len⟩ heap (.ok (arr, heap'))) :
    ∀ i < arr.count, ∀ msg, arr.slots i = some msg → msg.type = .str →
      ∃ payload, msg.deref heap' = some ⟨.str, .str payload⟩ ∧ CstrView h heap' msg payload := by
  intro i hi msg hslot ht
  obtain ⟨n, o, es, hdr, hreads, -, hrec⟩ := deserialize_returns hr
  rw [hrec.count_eq] at hi
  obtain ⟨e, he⟩ : ∃ e, es[i]? = some e := ⟨_, List.getElem?_eq_getElem hi⟩
  have hmem : e ∈ es := List.mem_of_getElem? he
  obtain rfl : msg = e.message h.order :=
    Option.some_injective _ (hslot.symm.trans (hrec.holds.slot_map he))
  have htype : e.view.type = .str := ht
  obtain ⟨o', hp⟩ := peek_of_reaches hreads e.view (List.mem_map_of_mem hmem)
  obtain ⟨hmax, hsz⟩ := peek_payload_fits hm hp (by rw [htype]; rfl)
  exact ⟨e.view.value, (hrec.stored e hmem).cstrView htype hmax hsz⟩

/-- The string "A", NUL, "B". -/
def nulFrames : List Frame := [⟨.str, [65, 0, 66], by decide⟩]

theorem messageCstr_view_sample :
    ∃ arr heap, Deserializes ⟨.little, .w64⟩ .always (received (stream nulFrames)) Heap.empty
        (.ok (arr, heap)) ∧
      ∀ i < arr.count, ∀ msg, arr.slots i = some msg → msg.type = .str →
        ∃ payload, msg.deref heap = some ⟨.str, .str payload⟩ ∧
          CstrView ⟨.little, .w64⟩ heap msg payload := by
  obtain ⟨s, heap, -, -, hfin, -⟩ := finishes_stream (h := ⟨.little, .w64⟩) nulFrames (by decide)
    (by decide) Heap.empty
  exact ⟨s.messages, heap, hfin.deserializes,
    messageCstr_view (fun hw => by cases hw) hfin.deserializes⟩

/-- The message that is received has three bytes, and its C string one. -/
theorem not_keepsPayload_nul :
    stream nulFrames = [11, 0, 0, 0, 3, 65, 0, 66] ∧
    ∃ arr heap msg, Deserializes ⟨.little, .w64⟩ .always (received (stream nulFrames)) Heap.empty
        (.ok (arr, heap)) ∧
      arr.slots 0 = some msg ∧ msg.deref heap = some ⟨.str, .str [65, 0, 66]⟩ ∧
      ¬ KeepsPayload ⟨.little, .w64⟩ heap msg [65, 0, 66] ∧
      ¬ SameFrame ⟨.little, .w64⟩ heap msg := by
  refine ⟨by decide, ?_⟩
  obtain ⟨s, heap, es, hdr, hfin, -, hes, hrec⟩ := finishes_stream (h := ⟨.little, .w64⟩) nulFrames
    (by decide) (by decide) Heap.empty
  obtain ⟨e, rfl, hview⟩ := List.map_eq_singleton_iff.mp hes
  have htype : e.view.type = .str := congrArg View.type hview
  have hval : e.view.value = [65, 0, 66] := congrArg View.value hview
  have hcstr := (hrec.stored e List.mem_cons_self).cstrView (h := ⟨.little, .w64⟩) htype
    (by rw [hval]; decide) (by rw [hval]; decide)
  rw [hval] at hcstr
  obtain ⟨hderef, hcstr⟩ := hcstr
  refine ⟨s.messages, heap, _, hfin.deserializes, hrec.holds.slot_map (i := 0) rfl, hderef, ?_, ?_⟩
  · rw [hcstr.keeps_iff]
    decide
  · rw [hcstr.sameFrame_iff]
    decide

end Tlv
