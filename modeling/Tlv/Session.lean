import Tlv.CStrings
import Tlv.Lib.Blocks
import Tlv.Relay

/-!
# A receiver at work

Between `deserialize` and `da_free` a receiver reads messages, makes C strings of them,
serializes some of them again, releases messages and frees what it was given, in
whatever order. A `Session` is what it has in hand, and a `Ledger` what it should have:
the messages it has released, the bytes of what it was given, and the values it has seen.

`Serving` connects the two: the blocks owned are the array's, those of the payloads that
are left, and those given. Results: a step that the receiver may take keeps it
(`SessionOp.run_serving`), so that after any number of steps every value read is the one
decoded, every string and frame has its bytes, and a receiver that has released and freed
everything gives back the heap as it was before `deserialize` (`session_serves`).
-/

namespace Tlv
open Lib

/-! ## Sessions -/

/-- A step of a receiver. Messages are numbered as in the array. -/
inductive SessionOp
  /-- Read the message `i` with the accessor of the type `t`. -/
  | read (i : Nat) (t : TypeTag)
  /-- `message_cstr`. -/
  | cstr (i : Nat)
  /-- Serialize the message `i` again. -/
  | send (i : Nat)
  /-- `message_free`. -/
  | release (i : Nat)
  /-- `free` on the string or frame `k` of those in hand. -/
  | drop (k : Nat)

/-- The array, the strings and frames that the receiver was given and has not freed, and
the values that it has read. -/
structure Session where
  arr : DynArr (Message (Buffer Ptr))
  given : List Ptr
  seen : List (Union (List Byte))

def SessionOp.run (h : Host) (A : Allocator) (s : Session) : SessionOp → CProg Session
  | .read i t => do
    let m ← daRead s.arr i
    let v ← access m t
    pure { s with seen := s.seen ++ [v] }
  | .cstr i => do
    let m ← daRead s.arr i
    let p ← messageCstr h A m
    pure { s with given := s.given ++ [p] }
  | .send i => do
    let m ← daRead s.arr i
    let b ← reserialize h A m
    pure { s with given := s.given ++ [b.bytes] }
  | .release i => do
    let arr ← messageFreeAt s.arr i
    pure { s with arr := arr }
  | .drop k => do
    free (s.given.getD k .null)
    pure { s with given := s.given.eraseIdx k }

def runSession (h : Host) (A : Allocator) : Session → List SessionOp → CProg Session
  | s, [] => pure s
  | s, op :: ops => do
    let s ← op.run h A s
    runSession h A s ops

/-! ## Ledgers -/

/-- The messages released, the bytes of the strings and frames in hand, and the values
read. -/
structure Ledger where
  gone : List Nat
  texts : List (List Byte)
  seen : List (Union (List Byte))

/-- What is left of a value when its message is released. -/
def Union.emptied : Union (List Byte) → Union (List Byte)
  | .str _ => .str []
  | .bin _ => .bin []
  | .err _ => .err []
  | val => val

namespace SessionOp

/-- The receiver may take the step. It reads a message with the accessor of its type, and
copies from no message that it has released. A message without a call has no value to
read or to send: `T_NUL` has no accessor, and a byte other than 0 and 1 is no boolean. -/
def Allowed (ms : List (Message (List Byte))) (g : Ledger) : SessionOp → Prop
  | .read i t => ∃ m ∈ ms[i]?, m.type = t ∧ m.val.call.isSome
  | .cstr i => i ∉ g.gone ∧ ∃ m ∈ ms[i]?, m.type = .str
  | .send i => i ∉ g.gone ∧ ∃ m ∈ ms[i]?, m.val.call.isSome
  | .release i => i < ms.length
  | .drop k => k < g.texts.length

/-- The step on the ledger. -/
def apply (o : ByteOrder) (ms : List (Message (List Byte))) (g : Ledger) : SessionOp → Ledger
  | .read i _ =>
    match ms[i]? with
    | some m => { g with seen := g.seen ++ [if i ∈ g.gone then m.val.emptied else m.val] }
    | none => g
  | .cstr i =>
    match ms[i]? with
    | some ⟨_, .str bytes⟩ => { g with texts := g.texts ++ [bytes ++ [0]] }
    | _ => g
  | .send i =>
    match ms[i]?.bind (·.val.call) with
    | some c => { g with texts := g.texts ++ [c.wire o] }
    | none => g
  | .release i => { g with gone := g.gone ++ [i] }
  | .drop k => { g with texts := g.texts.eraseIdx k }

end SessionOp

/-- The receiver may take each of the steps in its turn. -/
def AllowedSession (o : ByteOrder) (ms : List (Message (List Byte))) :
    Ledger → List SessionOp → Prop
  | _, [] => True
  | g, op :: ops => op.Allowed ms g ∧ AllowedSession o ms (op.apply o ms g) ops

instance decidableSessionOpAllowed (ms : List (Message (List Byte))) (g : Ledger) :
    (op : SessionOp) → Decidable (op.Allowed ms g)
  | .read i t => inferInstanceAs (Decidable (∃ m ∈ ms[i]?, m.type = t ∧ m.val.call.isSome))
  | .cstr i => inferInstanceAs (Decidable (i ∉ g.gone ∧ ∃ m ∈ ms[i]?, m.type = .str))
  | .send i => inferInstanceAs (Decidable (i ∉ g.gone ∧ ∃ m ∈ ms[i]?, m.val.call.isSome))
  | .release i => inferInstanceAs (Decidable (i < ms.length))
  | .drop k => inferInstanceAs (Decidable (k < g.texts.length))

instance decidableAllowedSession (o : ByteOrder) (ms : List (Message (List Byte))) :
    (g : Ledger) → (ops : List SessionOp) → Decidable (AllowedSession o ms g ops)
  | _, [] => inferInstanceAs (Decidable True)
  | g, op :: ops => @instDecidableAnd _ _ _ (decidableAllowedSession o ms (op.apply o ms g) ops)

variable {h : Host} {A B : Allocator} {heap heap' heap₀ : Heap} {hdr i k : Nat}
  {es : List Entry} {e : Entry} {c : Item} {o : ByteOrder} {bs : List Byte}
  {arr : DynArr (Message (Buffer Ptr))} {msg : Message (Buffer Ptr)}

/-! ## Reading a message -/

theorem Union.emptied_scalar {v : View} (hp : v.type.isPayload = false) :
    (v.message o).val.emptied = (v.message o).val := by
  obtain ⟨type, declared, value⟩ := v
  cases type with
  | str | bin | err => cases hp
  | _ => rfl

/-- A message with a call has an accessor, which gives the value. -/
theorem access_call (hs : e.Stored heap) (hc : (e.call o).isSome) :
    access (e.message o) e.view.type heap = .ok ((e.view.message o).val, heap) := by
  by_cases hbol : e.view.type = .bol
  · obtain ⟨⟨type, declared, value⟩, block⟩ := e
    cases hbol
    simp only [access, Entry.call, Entry.message, View.message, unionOf, Union.call] at hc ⊢
    generalize UInt8.ofNat (o.load value) = raw at hc
    by_cases h0 : raw = 0
    · subst h0
      rfl
    · by_cases h1 : raw = 1
      · subst h1
        rfl
      · rw [if_neg h0, if_neg h1] at hc
        cases hc
  · refine access_own hs (fun hnul => ?_) (fun hb => absurd hb hbol) o
    obtain ⟨⟨type, declared, value⟩, block⟩ := e
    cases hnul
    cases hc

/-- A released message reads as empty, if it had a payload. -/
theorem Item.access_ok (hs : c.freed = false → c.entry.Stored heap)
    (hc : (c.entry.call o).isSome) :
    access (c.message o) c.entry.view.type heap =
      .ok (if c.freed then (c.entry.view.message o).val.emptied else (c.entry.view.message o).val,
        heap) := by
  cases hf : c.freed with
  | false =>
    rw [Item.message, hf, if_neg Bool.false_ne_true, if_neg Bool.false_ne_true]
    exact access_call (hs hf) hc
  | true =>
    rw [if_pos rfl]
    cases hp : c.entry.view.type.isPayload with
    | false =>
      rw [Item.message_scalar hp, Union.emptied_scalar hp]
      exact access_call (fun hp' => by rw [hp] at hp'; cases hp') hc
    | true =>
      obtain ⟨⟨⟨type, declared, value⟩, block⟩, freed⟩ := c
      cases hf
      cases type with
      | str | bin | err => rfl
      | _ => cases hp

/-! ## What a session keeps -/

/-- The block consists of the bytes. -/
def IsText (b : Block) (bs : List Byte) : Prop := b = ⟨bs.length, Mem.ofList bs⟩

/-- What holds of a session that has come to the ledger `g`, with the array that a call on
`heap₀` returned. -/
structure Serving (h : Host) (heap₀ : Heap) (hdr : Nat) (es : List Entry) (g : Ledger)
    (s : Session) (heap : Heap) : Prop where
  header : s.arr.header = .block hdr
  count_le : s.arr.count ≤ s.arr.capacity
  holds : s.arr.Holds ((items es g.gone).map (Item.message h.order))
  stored : ∀ c ∈ items es g.gone, c.freed = false → c.entry.Stored heap
  given : ∃ ks done, s.given = ks.map .block ∧ heap.HoldsAll IsText ks g.texts ∧
    heap₀.Owns heap (hdr :: ((items es g.gone).flatMap Item.owned ++ ks)) done
  seen : s.seen = g.seen

/-- The messages that were decoded. -/
def decoded (o : ByteOrder) (es : List Entry) : List (Message (List Byte)) :=
  (es.map Entry.view).map (View.message o)

theorem getElem?_decoded {m : Message (List Byte)} (hm : (decoded o es)[i]? = some m) :
    ∃ e, es[i]? = some e ∧ m = e.view.message o := by
  rw [decoded, List.getElem?_map, List.getElem?_map, Option.map_map] at hm
  obtain ⟨e, he, rfl⟩ := Option.map_eq_some_iff.mp hm
  exact ⟨e, he, rfl⟩

/-- A payload outlives the release of another block. -/
theorem Entry.Stored.drop (hs : e.Stored heap) (hk : k ∉ e.owned) : e.Stored (heap.drop k) := by
  intro hp
  refine (hs hp).drop fun heq => hk ?_
  simp [Entry.owned, hp, heq]

theorem Item.owned_live (hf : c.freed = false) : c.owned = c.entry.owned := by
  rw [Item.owned, hf, if_neg Bool.false_ne_true]

theorem Item.freeArgument_idle {p : Ptr} (hi : c.Idle)
    (hp : freeArgument (c.message o) = some p) : p = .null := by
  cases ht : c.entry.view.type.isPayload with
  | false =>
    rw [Item.freeArgument_scalar ht] at hp
    cases hp
  | true =>
    rw [Item.freeArgument_freed ht (hi.resolve_left (by simp [ht]))] at hp
    cases hp
    rfl

/-- `message_free` on an element: what it does to the heap is what `free` does. -/
theorem messageFreeAt_ok (hslot : arr.slots i = some msg) (hcap : i < arr.capacity)
    (hfree : ∀ p, freeArgument msg = some p → free p heap = .ok ((), heap'))
    (hnone : freeArgument msg = none → heap' = heap) :
    messageFreeAt arr i heap =
      .ok ({ arr with slots := fun j => if j = i then some msg.cleared else arr.slots j },
        heap') := by
  have hread : daRead arr i heap = .ok (msg, heap) := by
    rw [daRead, hslot]
    rfl
  have hmsg : messageFree msg heap = .ok (msg.cleared, heap') := by
    rw [messageFree_eq]
    cases harg : freeArgument msg with
    | some p => exact Prog.bind_ok (hfree p harg)
    | none =>
      rw [hnone harg]
      obtain ⟨type, val⟩ := msg
      cases type with
      | str | bin | err => cases harg
      | _ => rfl
  rw [messageFreeAt, Prog.bind_ok hread, Prog.bind_ok hmsg, daWrite_ok hcap]

variable {g : Ledger} {s : Session} {done : List Nat}

theorem Received.serving (hr : Received h heap₀ hdr es arr heap) :
    Serving h heap₀ hdr es ⟨[], [], []⟩ ⟨arr, [], []⟩ heap := by
  obtain ⟨done, ho⟩ := hr.owns
  have hrel := hr.releasing
  refine ⟨hr.header, hr.count_le, hrel.holds, fun c hc _ => ?_, ⟨[], done, rfl, .nil _ heap, ?_⟩,
    rfl⟩
  · rw [items_nil] at hc
    obtain ⟨e, he, rfl⟩ := List.mem_map.mp hc
    exact hr.stored e he
  · rw [items_nil, List.flatMap_map, List.append_nil]
    exact ho

namespace Serving

variable (hs : Serving h heap₀ hdr es g s heap)
include hs

theorem slot (hc : (items es g.gone)[i]? = some c) :
    s.arr.slots i = some (c.message h.order) := hs.holds.slot_map hc

theorem daRead_ok (hc : (items es g.gone)[i]? = some c) :
    daRead s.arr i heap = .ok (c.message h.order, heap) := by
  rw [daRead, hs.slot hc]
  rfl

/-- A string or a frame is made. -/
theorem give (ho : heap.Owns heap' [k] done) (hb : HoldsBytes heap' k bs) :
    Serving h heap₀ hdr es { g with texts := g.texts ++ [bs] }
      { s with given := s.given ++ [.block k] } heap' := by
  obtain ⟨ks, done₀, hks, htexts, ho₀⟩ := hs.given
  have hkeep := Keeps.of_owns ho
  refine ⟨hs.header, hs.count_le, hs.holds, fun c hc hf => (hs.stored c hc hf).keeps hkeep,
    ⟨ks ++ [k], done₀ ++ done, by rw [hks, List.map_append]; rfl, ?_, ?_⟩, hs.seen⟩
  · refine htexts.push hb rfl fun j hj => ?_
    obtain ⟨b, hcell⟩ := ho₀.exists_block
      (List.mem_cons_of_mem hdr (List.mem_append_right _ hj))
    exact hkeep.cells j (Heap.lt_next_of_cells hcell)
  · have hall := ho₀.trans ho
    rwa [List.cons_append, List.append_assoc] at hall

/-- A string or frame in hand is freed. -/
theorem drop (hk : k < g.texts.length) : ∃ j, s.given.getD k .null = .block j ∧
    (heap.cells j).isSome ∧ Serving h heap₀ hdr es { g with texts := g.texts.eraseIdx k }
      { s with given := s.given.eraseIdx k } (heap.drop j) := by
  obtain ⟨ks, done, hks, htexts, ho⟩ := hs.given
  obtain ⟨j, b, hj, hcell, -⟩ := htexts.exists_index (List.getElem?_eq_getElem hk)
  have hnd := (List.nodup_append.mp ho.nodup).1
  obtain ⟨hndown, hndks, hdisj⟩ := List.nodup_append.mp (List.nodup_cons.mp hnd).2
  -- The block that is freed comes to the front of those owned.
  have hperm : (hdr :: ((items es g.gone).flatMap Item.owned ++ ks)).Perm
      (j :: hdr :: ((items es g.gone).flatMap Item.owned ++ ks.eraseIdx k)) := by
    refine List.Perm.trans (List.Perm.cons hdr ?_) (List.Perm.swap j hdr _)
    exact ((eraseIdx_perm hj).symm.append_left _).trans List.perm_middle
  refine ⟨j, ?_, by rw [hcell]; rfl, hs.header, hs.count_le, hs.holds, fun c hc hf => ?_,
    ⟨ks.eraseIdx k, _, by rw [hks, List.eraseIdx_map], ?_, (ho.perm hperm).drop⟩, hs.seen⟩
  · rw [hks, List.getD_eq_getElem?_getD, List.getElem?_map, hj]
    rfl
  · refine (hs.stored c hc hf).drop fun hmem => ?_
    rw [← Item.owned_live hf] at hmem
    exact hdisj j (List.mem_flatMap.mpr ⟨c, hc, hmem⟩) j (List.mem_of_getElem? hj) rfl
  · refine htexts.erase hndks hj fun j' _ hne => ?_
    rw [Heap.drop_cells, if_neg hne]

/-- A message is released. -/
theorem release (hi : i < es.length) :
    ∃ arr' heap', messageFreeAt s.arr i heap = .ok (arr', heap') ∧
      Serving h heap₀ hdr es { g with gone := g.gone ++ [i] } { s with arr := arr' } heap' := by
  obtain ⟨c, hc⟩ : ∃ c, (items es g.gone)[i]? = some c :=
    ⟨_, List.getElem?_eq_getElem (by rwa [length_items])⟩
  have hcap : i < s.arr.capacity := by
    have hcount := hs.holds.1
    rw [List.length_map, length_items] at hcount
    exact (hcount ▸ hi).trans_le hs.count_le
  obtain ⟨ks, done, hks, htexts, ho⟩ := hs.given
  have hperm := ((owned_items_concat hc).append_right ks).cons hdr
  rw [List.append_assoc] at hperm
  have hitems : ∀ c' ∈ items es (g.gone ++ [i]), c'.freed = false → c' ∈ items es g.gone := by
    intro c' hc' hf
    rw [items_concat hc] at hc'
    rcases List.mem_or_eq_of_mem_set hc' with hmem | rfl
    · exact hmem
    · cases hf
  have hholds : DynArr.Holds { s.arr with
      slots := fun j => if j = i then some (c.message h.order).cleared else s.arr.slots j }
      ((items es (g.gone ++ [i])).map (Item.message h.order)) := by
    rw [items_concat hc, List.map_set, Item.cleared_message]
    refine hs.holds.set i _ ?_
    rwa [List.length_map, length_items]
  by_cases hidle : c.Idle
  · rw [Item.owned_release hidle, List.nil_append] at hperm
    refine ⟨_, heap, messageFreeAt_ok (hs.slot hc) hcap (fun p hp => ?_) (fun _ => rfl), hs.header,
      hs.count_le, hholds, fun c' hc' hf => hs.stored c' (hitems c' hc' hf) hf,
      ⟨ks, done, hks, htexts, ho.perm hperm⟩, hs.seen⟩
    rw [Item.freeArgument_idle hidle hp]
    exact free_null heap
  · obtain ⟨hp, hf⟩ : c.entry.view.type.isPayload = true ∧ c.freed = false := by
      simpa [Item.Idle] using hidle
    have howned : c.owned = [c.entry.block] := by
      simp only [Item.owned, Entry.owned, hf, hp, Bool.false_eq_true, if_false, if_true]
    rw [howned, List.singleton_append] at hperm
    -- The payload's block comes to the front of those owned.
    have ho' := ho.perm (hperm.trans (List.Perm.swap _ _ _))
    obtain ⟨b, hb⟩ := ho'.exists_block List.mem_cons_self
    have hnd := (List.nodup_cons.mp (List.nodup_append.mp ho'.nodup).1).1
    refine ⟨_, heap.drop c.entry.block, messageFreeAt_ok (hs.slot hc) hcap (fun p hp' => ?_)
      (fun hnone => ?_), hs.header, hs.count_le, hholds, fun c' hc' hf' => ?_,
      ⟨ks, _, hks, htexts.congr fun j hj => ?_, ho'.drop⟩, hs.seen⟩
    · rw [Item.freeArgument_live hp hf] at hp'
      cases hp'
      exact free_block hb
    · rw [Item.freeArgument_live hp hf] at hnone
      cases hnone
    · refine (hs.stored c' (hitems c' hc' hf') hf').drop fun hmem => hnd ?_
      rw [← Item.owned_live hf'] at hmem
      exact List.mem_cons_of_mem hdr
        (List.mem_append_left ks (List.mem_flatMap.mpr ⟨c', hc', hmem⟩))
    · rw [Heap.drop_cells, if_neg]
      rintro rfl
      exact hnd (List.mem_cons_of_mem hdr (List.mem_append_right _ hj))

end Serving

/-! ## Steps -/

/-- Every payload fits a length field, and its frame a `size_t`. -/
def PayloadsFit (h : Host) (es : List Entry) : Prop :=
  ∀ e ∈ es, e.view.type.isPayload = true →
    e.view.value.length ≤ uint32Max ∧ 5 + e.view.value.length < h.szMod

theorem Entry.call_fits {call : Call} (hfit : e.view.type.isPayload = true →
      e.view.value.length ≤ uint32Max ∧ 5 + e.view.value.length < h.szMod)
    (hc : e.call h.order = some call) : call.Fits ∧ (call.wire h.order).length < h.szMod := by
  have hmsg := Entry.message_of_call hc
  have hbig := h.szMod_ge
  rw [Call.wire, length_frameBytes]
  cases call with
  | str bytes | bin bytes | err bytes =>
    obtain ⟨⟨type, declared, value⟩, block⟩ := e
    cases type <;> cases hmsg
    exact hfit rfl
  | cstr s =>
    obtain ⟨⟨type, declared, value⟩, block⟩ := e
    cases type <;> cases hmsg
    exact hfit rfl
  | _ =>
    refine ⟨trivial, ?_⟩
    simp only [Call.target, Call.message, Union.bytes, List.length_singleton, length_store]
    omega

/-- A step that the receiver may take, with memory in plenty. -/
theorem SessionOp.run_serving {op : SessionOp} (hs : Serving h heap₀ hdr es g s heap)
    (hfit : PayloadsFit h es) (ha : op.Allowed (decoded h.order es) g) :
    ∃ s' heap', op.run h .always s heap = .ok (s', heap') ∧
      Serving h heap₀ hdr es (op.apply h.order (decoded h.order es) g) s' heap' := by
  cases op with
  | read i t =>
    obtain ⟨m, hm, rfl, hcall⟩ := ha
    obtain ⟨e, he, rfl⟩ := getElem?_decoded hm
    have hc : (items es g.gone)[i]? = some ⟨e, decide (i ∈ g.gone)⟩ := by
      rw [getElem?_items, he, Option.map_some]
    have hacc := Item.access_ok (c := ⟨e, decide (i ∈ g.gone)⟩) (o := h.order)
      (fun hf => hs.stored _ (List.mem_of_getElem? hc) hf) hcall
    refine ⟨_, heap, (Prog.bind_ok (hs.daRead_ok hc)).trans (Prog.bind_ok hacc), ?_⟩
    rw [SessionOp.apply, hm]
    refine ⟨hs.header, hs.count_le, hs.holds, hs.stored, hs.given, ?_⟩
    simp only [decide_eq_true_eq, hs.seen]
  | cstr i =>
    obtain ⟨hgone, m, hm, htype⟩ := ha
    obtain ⟨e, he, rfl⟩ := getElem?_decoded hm
    have hc : (items es g.gone)[i]? = some ⟨e, false⟩ := by
      rw [getElem?_items, he, Option.map_some, decide_eq_false hgone]
    have hstored := hs.stored _ (List.mem_of_getElem? hc) rfl
    have hsize := hfit e (List.mem_of_getElem? he)
    obtain ⟨⟨type, declared, value⟩, block⟩ := e
    cases (htype : type = .str)
    have hsz : value.length + 1 < h.szMod := by
      have hframe : 5 + value.length < h.szMod := (hsize rfl).2
      omega
    have hcstr := messageCstr_granted (A := .always) (hstored rfl) hsz rfl
    have hserve := hs.give ((Heap.Owns.refl heap).new _ _)
      (HoldsBytes.new_self heap (value ++ [0]))
    refine ⟨_, _, (Prog.bind_ok (hs.daRead_ok hc)).trans (Prog.bind_ok hcstr), ?_⟩
    rw [SessionOp.apply, hm]
    exact hserve
  | send i =>
    obtain ⟨hgone, m, hm, hcall⟩ := ha
    obtain ⟨e, he, rfl⟩ := getElem?_decoded hm
    have hc : (items es g.gone)[i]? = some ⟨e, false⟩ := by
      rw [getElem?_items, he, Option.map_some, decide_eq_false hgone]
    obtain ⟨call, hcall⟩ := Option.isSome_iff_exists.mp hcall
    have hcall' : e.call h.order = some call := hcall
    obtain ⟨hfits, hsz⟩ := Entry.call_fits (hfit e (List.mem_of_getElem? he)) hcall'
    have hresend : resend h .always e = call.run h .always := by rw [resend, hcall']
    have hsend := (reserialize_eq_resend (h := h) (A := .always)
      (hs.stored _ (List.mem_of_getElem? hc) rfl)).trans
        ((congrFun hresend heap).trans (Call.run_always hfits hsz))
    have hserve := hs.give ((Heap.Owns.refl heap).new _ _)
      (HoldsBytes.new_self heap (call.wire h.order))
    refine ⟨_, _, (Prog.bind_ok (hs.daRead_ok hc)).trans (Prog.bind_ok hsend), ?_⟩
    rw [SessionOp.apply, hm, Option.bind_some, hcall]
    exact hserve
  | release i =>
    have hi : i < es.length := by
      have hlt : i < (decoded h.order es).length := ha
      rwa [decoded, List.length_map, List.length_map] at hlt
    obtain ⟨arr', heap', hrun, hserve⟩ := hs.release hi
    exact ⟨_, heap', Prog.bind_ok hrun, hserve⟩
  | drop k =>
    obtain ⟨j, hj, hlive, hserve⟩ := hs.drop ha
    obtain ⟨b, hb⟩ := Option.isSome_iff_exists.mp hlive
    refine ⟨_, _, ?_, hserve⟩
    rw [SessionOp.run, hj]
    exact Prog.bind_ok (free_block hb)

theorem SessionOp.run_tame (s : Session) (op : SessionOp) :
    Tame (fun _ => True) (fun A => op.run h A s) fun _ => True := by
  cases op with
  | read i t =>
    exact .after (daRead_within i) fun m _ =>
      .after (access_within m t) fun _ _ => .const (.pure trivial)
  | cstr i =>
    exact .after (daRead_within i) fun m _ => (messageCstr_tame m).bind fun _ _ =>
      .const (.pure trivial)
  | send i =>
    exact .after (daRead_within i) fun m _ => (reserialize_tame m).bind fun _ _ =>
      .const (.pure trivial)
  | release i =>
    have hfree : Prog.Within (fun _ => True) (messageFreeAt s.arr i) (·.header.In fun _ => True) :=
      (daRead_within i).bind fun m _ => (messageFree_within fun _ _ _ _ => trivial).bind
        fun _ _ => daWrite_within (fun _ _ => trivial) i _
    exact .after hfree fun _ _ => .const (.pure trivial)
  | drop k => exact .const <| (free_within fun _ _ => trivial).bind fun _ _ => .pure trivial

theorem runSession_tame (s : Session) (ops : List SessionOp) :
    Tame (fun _ => True) (fun A => runSession h A s ops) fun _ => True := by
  induction ops generalizing s with
  | nil => exact .const (.pure trivial)
  | cons op ops ih => exact (op.run_tame s).bind fun s _ => ih s

variable {ops : List SessionOp}

theorem runSession_serving (hs : Serving h heap₀ hdr es g s heap) (hfit : PayloadsFit h es)
    (ha : AllowedSession h.order (decoded h.order es) g ops) :
    ∃ s' heap', runSession h .always s ops heap = .ok (s', heap') ∧
      Serving h heap₀ hdr es (ops.foldl (SessionOp.apply h.order (decoded h.order es)) g)
        s' heap' := by
  induction ops generalizing g s heap with
  | nil => exact ⟨s, heap, rfl, hs⟩
  | cons op ops ih =>
    obtain ⟨s₁, heap₁, hrun, hs₁⟩ := op.run_serving hs hfit ha.1
    obtain ⟨s', heap', hruns, hs'⟩ := ih hs₁ ha.2
    exact ⟨s', heap', (Prog.bind_ok hrun).trans hruns, hs'⟩

/-! ## Whole sessions -/

/-- What a session on `n` messages shows when it has come to the ledger `g`. -/
structure Settled (heap₀ : Heap) (n : Nat) (g : Ledger) (s : Session) (heap : Heap) : Prop where
  seen : s.seen = g.seen
  texts : s.given.map (charsAt heap) = g.texts.map some
  before : ∀ k, (heap₀.cells k).isSome → heap.cells k = heap₀.cells k
  all : (∀ i < n, i ∈ g.gone) → g.texts = [] →
    ∃ heap', daFree s.arr heap = .ok ((), heap') ∧ heap'.cells = heap₀.cells

theorem map_charsAt {ks : List Nat} {texts : List (List Byte)}
    (hks : heap.HoldsAll IsText ks texts) :
    (ks.map Ptr.block).map (charsAt heap) = texts.map some := by
  refine List.ext_getElem? fun k => ?_
  rw [List.getElem?_map, List.getElem?_map, List.getElem?_map]
  cases htext : texts[k]? with
  | none =>
    have hlen := List.getElem?_eq_none_iff.mp htext
    rw [← hks.length_eq] at hlen
    rw [List.getElem?_eq_none hlen]
    rfl
  | some bs =>
    obtain ⟨i, b, hi, hcell, hb⟩ := hks.exists_index htext
    cases (hb : b = _)
    rw [hi, Option.map_some, Option.map_some, Option.map_some, charsAt_eq hcell]

theorem Serving.settled (hs : Serving h heap₀ hdr es g s heap) :
    Settled heap₀ es.length g s heap := by
  obtain ⟨ks, done, hks, htexts, ho⟩ := hs.given
  refine ⟨hs.seen, by rw [hks, map_charsAt htexts], fun k hk => ho.frame k fun hmem => ?_,
    fun hall hnone => ?_⟩
  · rw [ho.not_live_before hmem] at hk
    cases hk
  · rw [hnone] at htexts
    rw [owned_items_all hall, List.eq_nil_of_length_eq_zero htexts.length_eq] at ho
    obtain ⟨b, hb⟩ := ho.exists_block List.mem_cons_self
    refine ⟨heap.drop hdr, ?_, ho.drop.cells_eq⟩
    rw [daFree, hs.header, free_block hb]

/-- Whatever was received, and whatever the receiver then does with it, in any order: if
each step is one that it may take, the session is ended only by the allocation that is
refused. Until then it has read the values that were decoded, its strings are the payloads
with a NUL behind and its frames those of the values, and no block from before
`deserialize` has changed; when it has released every message and freed what it was
given, `da_free` gives back the heap of before. -/
theorem session_serves {m : Mem} {len : Nat}
    (hm : h.word = .w32 → ∀ i, (m i).isSome → i < h.ptrdiffMax)
    (hr : Deserializes h A ⟨some m, len⟩ heap₀ (.ok (arr, heap))) :
    ∃ ms, Decodes h A ⟨some m, len⟩ heap₀ ms ∧
      ∀ B ops, AllowedSession h.order ms ⟨[], [], []⟩ ops →
        (∀ e, runSession h B ⟨arr, [], []⟩ ops heap = .error e →
          Refused B e fun B' => runSession h B' ⟨arr, [], []⟩ ops heap = .error e) ∧
        ∀ s heap', runSession h B ⟨arr, [], []⟩ ops heap = .ok (s, heap') →
          Settled heap₀ ms.length (ops.foldl (SessionOp.apply h.order ms) ⟨[], [], []⟩) s
            heap' := by
  obtain ⟨n, o, es, hdr, hreads, -, hrec⟩ := deserialize_returns hr
  have hfit : PayloadsFit h es := by
    intro e he hp
    obtain ⟨o', hpeek⟩ := peek_of_reaches hreads e.view (List.mem_map_of_mem he)
    exact peek_payload_fits hm hpeek hp
  have hlen : (decoded h.order es).length = es.length := by
    rw [decoded, List.length_map, List.length_map]
  refine ⟨decoded h.order es, hrec.decodes hr, fun B ops ha => ?_⟩
  obtain ⟨s', heap', hrun, hserve⟩ := runSession_serving hrec.serving hfit ha
  have hstop : FailStop fun B => runSession h B ⟨arr, [], []⟩ ops :=
    (runSession_tame ⟨arr, [], []⟩ ops).failStop
  constructor
  · intro e he
    rcases hstop.error he with href | hover
    · exact href
    · cases hover.symm.trans hrun
  · intro s heap₁ hs
    cases (hstop.ok hs).symm.trans hrun
    rw [hlen]
    exact hserve.settled

/-- A number and a string: the string is read, made a C string, released and read again. -/
theorem session_serves_sample :
    ∃ arr heap s heap', Deserializes ⟨.big, .w64⟩ .always
        (received (stream [⟨.u08, [7], by decide⟩, ⟨.str, [65], by decide⟩])) .empty
        (.ok (arr, heap)) ∧
      runSession ⟨.big, .w64⟩ .always ⟨arr, [], []⟩
        [.read 1 .str, .cstr 1, .release 1, .read 1 .str, .read 0 .u08, .release 0, .drop 0]
        heap = .ok (s, heap') ∧
      s.seen = [.str [65], .str [], .u08 7] ∧
      ∃ heap'', daFree s.arr heap' = .ok ((), heap'') ∧ heap''.cells = Heap.empty.cells := by
  obtain ⟨s₁, heap, es, hdr, hfin, -, hes, hrec⟩ :=
    finishes_stream (h := ⟨.big, .w64⟩) [⟨.u08, [7], by decide⟩, ⟨.str, [65], by decide⟩]
      (by decide) (by decide) .empty
  obtain ⟨ms, hd, hall⟩ := session_serves (fun hw => by cases hw) hfin.deserializes
  have hms := hd.unique (hrec.decodes hfin.deserializes)
  rw [hes] at hms
  subst hms
  obtain ⟨herr, hok⟩ := hall .always
    [.read 1 .str, .cstr 1, .release 1, .read 1 .str, .read 0 .u08, .release 0, .drop 0]
    (by decide)
  cases hrun : runSession ⟨.big, .w64⟩ .always ⟨s₁.messages, [], []⟩
      [.read 1 .str, .cstr 1, .release 1, .read 1 .str, .read 0 .u08, .release 0, .drop 0] heap with
  | error e => exact absurd (herr e hrun) not_refused_always
  | ok r =>
    have hset := hok r.1 r.2 hrun
    exact ⟨s₁.messages, heap, r.1, r.2, hfin.deserializes, hrun, hset.seen,
      hset.all (by decide) rfl⟩

end Tlv
