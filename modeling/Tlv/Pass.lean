import Tlv.Reader
import Tlv.Deserialize

/-!
# One pass of `deserialize`

A pass takes the frame that `peek` describes, puts a payload into a new block,
and appends one message. `Received` is what holds of the array and the heap
between passes: the messages are those of the frames taken so far, and the
blocks allocated since the call are the array's and one for each payload.

Results: a pass that goes on keeps `Received`, for every allocator
(`pass_cases`); when allocations succeed, `peek` decides what a pass comes to
(`pass_always`, `pass_fails`).
-/


namespace Tlv
open Lib

/-! ## Messages on the heap -/

/-- The message that a C message stands for: payload pointers are followed. -/
def Message.deref (heap : Heap) (m : Message (Buffer Ptr)) : Option (Message (List Byte)) :=
  match m.val with
  | .str b => (bufBytes heap b).map fun bs => ⟨m.type, .str bs⟩
  | .bin b => (bufBytes heap b).map fun bs => ⟨m.type, .bin bs⟩
  | .err b => (bufBytes heap b).map fun bs => ⟨m.type, .err bs⟩
  | .zero => some ⟨m.type, .zero⟩
  | .u08 n => some ⟨m.type, .u08 n⟩
  | .u16 n => some ⟨m.type, .u16 n⟩
  | .u32 n => some ⟨m.type, .u32 n⟩
  | .u64 n => some ⟨m.type, .u64 n⟩
  | .s08 n => some ⟨m.type, .s08 n⟩
  | .s16 n => some ⟨m.type, .s16 n⟩
  | .s32 n => some ⟨m.type, .s32 n⟩
  | .s64 n => some ⟨m.type, .s64 n⟩
  | .f32 bits => some ⟨m.type, .f32 bits⟩
  | .f64 bits => some ⟨m.type, .f64 bits⟩
  | .bol raw => some ⟨m.type, .bol raw⟩
  | .tim n => some ⟨m.type, .tim n⟩
  | .chr n => some ⟨m.type, .chr n⟩

/-- A frame that was taken, and the block that its payload went into. The block
means nothing for the other tags. -/
structure Entry where
  view : View
  block : Nat

namespace Entry

def message (o : ByteOrder) (e : Entry) : Message (Buffer Ptr) :=
  ⟨e.view.type, unionOf o e.view.type e.view.value ⟨.block e.block, e.view.value.length⟩⟩

/-- The blocks that belong to the message. -/
def owned (e : Entry) : List Nat := if e.view.type.isPayload then [e.block] else []

def Stored (heap : Heap) (e : Entry) : Prop :=
  e.view.type.isPayload = true → HoldsBytes heap e.block e.view.value

theorem Stored.deref {heap : Heap} {e : Entry} (hs : e.Stored heap) (o : ByteOrder) :
    (e.message o).deref heap = some (e.view.message o) := by
  obtain ⟨⟨type, declared, value⟩, block⟩ := e
  cases type with
  | str | bin | err =>
    have hb := (hs rfl).bufBytes
    simp only at hb
    simp only [message, View.message, unionOf, Message.deref, hb, Option.map_some]
  | _ => rfl

end Entry

/-- The heap after the value of a frame has been taken. -/
def stow (heap : Heap) (t : TypeTag) (bs : List Byte) : Heap :=
  if t.isPayload then heap.new bs.length (Mem.ofList bs) else heap

/-! ## One value -/

variable {h : Host} {A : Allocator} {m : Mem} {heap heap' heap₀ : Heap} {c len n : Nat}
  {t : TypeTag} {bs : List Byte} {u : Union (Buffer Ptr)} {f : Fault} {v : View}

theorem decodeValue_scalar (ht : t.isPayload = false) (b : Buffer Ptr) :
    decodeValue h A m c len t =
      (do let bs ← memcpyFrom m (c + 5) (t.width len); pure (unionOf h.order t bs b)) := by
  cases t with
  | str | bin | err => cases ht
  | nul => rfl
  | _ =>
    simp only [decodeValue, loadFrom, bind_assoc, pure_bind]
    rfl

theorem decodeValue_payload (ht : t.isPayload = true) (bs : List Byte) :
    decodeValue h A m c len t =
      (do let b ← decodePayload A m c len; pure (unionOf h.order t bs b)) := by
  cases t with
  | str | bin | err => rfl
  | _ => cases ht

theorem decodePayload_always (hv : m.read (c + 5) len = some bs) (heap : Heap) :
    decodePayload .always m c len heap =
      .ok (⟨.block heap.next, bs.length⟩, heap.new bs.length (Mem.ofList bs)) := by
  have hlen : bs.length = len := Mem.length_of_read hv
  have hwrite : Mem.empty.write 0 bs = Mem.ofList bs := Mem.write_ofList [] bs
  rw [decodePayload, Prog.bind_ok (malloc_always _ _), Prog.bind_ok (existsPtr_block _ _),
    Prog.bind_ok (memcpyFrom_some hv _), Heap.alloc,
    Prog.bind_ok (memcpyTo_new (by omega)), hwrite, hlen]
  rfl

theorem decodePayload_cases {b : Buffer Ptr} (hr : decodePayload A m c len heap = .ok (b, heap')) :
    ∃ bs, m.read (c + 5) len = some bs ∧ b = ⟨.block heap.next, bs.length⟩ ∧
      heap' = heap.new bs.length (Mem.ofList bs) := by
  have hgo := malloc_exists_ok hr
  cases hv : m.read (c + 5) len with
  | none =>
    rw [Prog.bind_error (memcpyFrom_none hv _)] at hgo
    cases hgo
  | some bs =>
    -- From here on the run is the one in which the allocation succeeds.
    have halways := decodePayload_always hv heap
    rw [decodePayload, Prog.bind_ok (malloc_always _ _), Prog.bind_ok (existsPtr_block _ _),
      hgo] at halways
    cases halways
    exact ⟨bs, rfl, rfl, rfl⟩

theorem decodePayload_error (hr : decodePayload A m c len heap = .error (f, heap'))
    (hv : m.read (c + 5) len = some bs) : f = .nullPointer := by
  rcases malloc_exists_error hr with heq | hgo
  · cases heq
    rfl
  · have halways := decodePayload_always hv heap
    rw [decodePayload, Prog.bind_ok (malloc_always _ _), Prog.bind_ok (existsPtr_block _ _),
      hgo] at halways
    cases halways

/-- The value of a frame when allocations succeed. -/
theorem decodeValue_always (hv : m.read (c + 5) (t.width len) = some bs) (heap : Heap) :
    decodeValue h .always m c len t heap =
      .ok (unionOf h.order t bs ⟨.block heap.next, bs.length⟩, stow heap t bs) := by
  unfold stow
  cases ht : t.isPayload with
  | false =>
    rw [decodeValue_scalar ht ⟨.block heap.next, bs.length⟩,
      Prog.bind_ok (memcpyFrom_some hv heap)]
    rfl
  | true =>
    rw [TypeTag.width_of_isPayload ht] at hv
    rw [decodeValue_payload ht bs, Prog.bind_ok (decodePayload_always hv heap)]
    rfl

/-- A value that was taken is that one, for every allocator. -/
theorem decodeValue_cases (hr : decodeValue h A m c len t heap = .ok (u, heap')) :
    ∃ bs, m.read (c + 5) (t.width len) = some bs ∧
      u = unionOf h.order t bs ⟨.block heap.next, bs.length⟩ ∧ heap' = stow heap t bs := by
  unfold stow
  cases ht : t.isPayload with
  | false =>
    cases hv : m.read (c + 5) (t.width len) with
    | none =>
      rw [decodeValue_scalar ht ⟨.null, 0⟩, Prog.bind_error (memcpyFrom_none hv heap)] at hr
      cases hr
    | some bs =>
      rw [decodeValue_scalar ht ⟨.block heap.next, bs.length⟩,
        Prog.bind_ok (memcpyFrom_some hv heap)] at hr
      cases hr
      exact ⟨bs, rfl, rfl, rfl⟩
  | true =>
    rw [TypeTag.width_of_isPayload ht]
    rw [decodeValue_payload ht [], Prog.bind_eq_ok] at hr
    obtain ⟨b, heap1, hb, hp⟩ := hr
    obtain ⟨bs, hv, rfl, rfl⟩ := decodePayload_cases hb
    cases hp
    refine ⟨bs, hv, ?_, rfl⟩
    cases t with
    | str | bin | err => rfl
    | _ => cases ht

/-- A value whose bytes can be read only fails for want of memory. -/
theorem decodeValue_error (hr : decodeValue h A m c len t heap = .error (f, heap'))
    (hv : m.read (c + 5) (t.width len) = some bs) : f = .nullPointer := by
  cases ht : t.isPayload with
  | false =>
    rw [decodeValue_scalar ht ⟨.null, 0⟩, Prog.bind_ok (memcpyFrom_some hv heap)] at hr
    cases hr
  | true =>
    rw [TypeTag.width_of_isPayload ht] at hv
    rw [decodeValue_payload ht bs] at hr
    rcases Prog.bind_eq_error.mp hr with hp | ⟨b, heap1, -, hp⟩
    · exact decodePayload_error hp hv
    · cases hp

/-- A value that does not lie inside the memory cannot be taken. -/
theorem decodeValue_none (hv : m.read (c + 5) (t.width len) = none) (heap : Heap) :
    ∃ heap', decodeValue h .always m c len t heap = .error (.readPastEnd, heap') := by
  cases ht : t.isPayload with
  | false =>
    rw [decodeValue_scalar ht ⟨.null, 0⟩, Prog.bind_error (memcpyFrom_none hv heap)]
    exact ⟨heap, rfl⟩
  | true =>
    rw [TypeTag.width_of_isPayload ht] at hv
    refine ⟨heap.alloc len, ?_⟩
    rw [decodeValue_payload ht [], Prog.bind_error]
    rw [decodePayload, Prog.bind_ok (malloc_always _ _), Prog.bind_ok (existsPtr_block _ _),
      Prog.bind_error (memcpyFrom_none hv _)]

/-! ## One pass -/

/-- What holds between passes of a call that started on `heap₀`: the array in the
block `hdr` has the messages of the frames `es`, and the blocks allocated since
are that block and those of the payloads. -/
structure Received (h : Host) (heap₀ : Heap) (hdr : Nat) (es : List Entry)
    (arr : DynArr (Message (Buffer Ptr))) (heap : Heap) : Prop where
  header : arr.header = .block hdr
  owns : ∃ done, heap₀.Owns heap (hdr :: es.flatMap Entry.owned) done
  holds : arr.Holds (es.map (Entry.message h.order))
  stored : ∀ e ∈ es, e.Stored heap
  count_le : arr.count ≤ arr.capacity
  capacity_lt : arr.capacity < h.szMod

variable {s s' : DecodeState} {es : List Entry} {hdr : Nat}
  {arr : DynArr (Message (Buffer Ptr))}

theorem Received.count_eq (hr : Received h heap₀ hdr es arr heap) : arr.count = es.length := by
  rw [hr.holds.1, List.length_map]

theorem Received.live (hr : Received h heap₀ hdr es arr heap) : ∃ b, heap.cells hdr = some b := by
  obtain ⟨done, ho⟩ := hr.owns
  exact ho.exists_block List.mem_cons_self

/-- The array of a call that starts. -/
theorem Received.start (hr : daNew h A heap = .ok (arr, heap')) :
    Received h heap heap.next [] arr heap' ∧ ByAppends arr := by
  have hgo := malloc_exists_ok hr
  cases hgo
  refine ⟨⟨rfl, ⟨[], (Heap.Owns.refl heap).new _ _⟩, ⟨rfl, ?_⟩, ?_, ?_, ?_⟩, ?_⟩
  · simp
  · simp
  · exact Nat.le_refl _
  · exact Nat.pow_pos (by decide)
  · exact ⟨Nat.le_refl _, .inl rfl, .inl (Nat.zero_le 8)⟩

/-- A stored payload survives the growth of the array. -/
theorem Entry.Stored.resized {e : Entry} {hdr' : Nat} (hs : e.Stored heap)
    (hne : e.view.type.isPayload = true → e.block ≠ hdr) (hres : Resized heap hdr heap' hdr') :
    e.Stored heap' := by
  intro hp
  have hb := hs hp
  rw [HoldsBytes, hres.cells_eq (hne hp) (Heap.lt_next_of_cells hb), hb]

/-- The value of the next frame is stowed: it is stored, and its block is owned. -/
theorem Received.stow (hr : Received h heap₀ hdr es arr heap) (v : View) :
    (∃ done, heap₀.Owns (stow heap v.type v.value)
      (hdr :: (es ++ [Entry.mk v heap.next]).flatMap Entry.owned) done) ∧
    ∀ e ∈ es ++ [Entry.mk v heap.next], e.Stored (stow heap v.type v.value) := by
  obtain ⟨done, ho⟩ := hr.owns
  rw [List.flatMap_append, List.flatMap_singleton, Tlv.stow, Entry.owned]
  cases hp : v.type.isPayload with
  | false =>
    refine ⟨⟨done, by simpa using ho⟩, fun e he => ?_⟩
    rcases List.mem_append.mp he with he | he
    · exact hr.stored e he
    · rw [List.mem_singleton.mp he]
      intro hp'
      rw [hp] at hp'
      cases hp'
  | true =>
    refine ⟨⟨done, (ho.new v.value.length (Mem.ofList v.value)).perm ?_⟩, fun e he => ?_⟩
    · exact (List.perm_append_singleton heap.next (hdr :: es.flatMap Entry.owned)).symm
    · rcases List.mem_append.mp he with he | he
      · exact fun hp' => (hr.stored e he hp').new
      · rw [List.mem_singleton.mp he]
        exact fun _ => HoldsBytes.new_self heap v.value

/-- The next message is appended. -/
theorem Received.push {v : View} {hdr' : Nat} (hr : Received h heap₀ hdr es arr heap)
    (hres : Resized (Tlv.stow heap v.type v.value) hdr heap' hdr')
    (hcap : arr.count < arr.nextCapacity h) :
    Received h heap₀ hdr' (es ++ [⟨v, heap.next⟩])
      (arr.pushed h (Entry.message h.order ⟨v, heap.next⟩) (.block hdr')) heap' := by
  obtain ⟨⟨done, ho⟩, hst⟩ := hr.stow v
  have hnext : arr.nextCapacity h < h.szMod := by
    have hbig := h.szMod_ge
    unfold DynArr.nextCapacity grownCapacity
    split
    · split
      · omega
      · exact Nat.mod_lt _ (by omega)
    · exact hr.capacity_lt
  have hle : h.sz (arr.count + 1) ≤ arr.nextCapacity h := by
    rw [Host.sz_of_lt (by omega)]
    exact hcap
  refine ⟨rfl, hres.owns ho, ?_, fun e he => ?_, hle, hnext⟩
  · rw [List.map_append]
    exact hr.holds.pushed (by omega) _ _
  -- A payload is not in the array's block, so it survives when the array moves.
  · refine (hst e he).resized (fun hp heq => ?_) hres
    have hmem : e.block ∈ (es ++ [Entry.mk v heap.next]).flatMap Entry.owned :=
      List.mem_flatMap.mpr ⟨e, he, by simp [Entry.owned, hp]⟩
    exact (List.nodup_cons.mp ho.nodup).1 (List.mem_append_left done (heq ▸ hmem))

/-- A pass over a header that can be read. -/
theorem pass_of_header {tag : Byte} {declared : Nat}
    (hh : headerAt m s.offset = some (tag, declared)) :
    deserializePass h A m s heap =
      (match TypeTag.ofByte tag with
        | none => Prog.stop (.badType tag)
        | some type => do
          let val ← decodeValue h A m s.offset declared type
          let messages ← daAppend h A h.messageSize s.messages ⟨type, val⟩
          pure ⟨nextOffset h s.offset declared, declared, messages⟩ : CProg DecodeState) heap := by
  obtain ⟨htag, bs, hbs, hd⟩ := headerAt_eq_some_iff.mp hh
  have hread : m.read s.offset 1 = some [tag] := by
    rw [Mem.read_succ, htag]
    rfl
  have hlen : bs.length = 4 := Mem.length_of_read hbs
  have htag' : UInt8.ofNat (h.order.load [tag]) = tag := by
    rw [load_single, UInt8.ofNat_toNat]
  simp only [deserializePass, loadFrom, bind_assoc, pure_bind]
  rw [Prog.bind_ok (memcpyFrom_some hread heap), Prog.bind_ok (memcpyFrom_some hbs heap), htag',
    toNat_ntohl_load h.order hlen, hd]
  rfl

theorem pass_of_header_none (hh : headerAt m s.offset = none) :
    deserializePass h A m s heap = .error (.readPastEnd, heap) := by
  have hread : ∀ b, m s.offset = some b → m.read s.offset 1 = some [b] := by
    intro b hb
    rw [Mem.read_succ, hb]
    rfl
  simp only [deserializePass, loadFrom, bind_assoc, pure_bind]
  cases htag : m s.offset with
  | none =>
    have hnone : m.read s.offset 1 = none := by rw [Mem.read_succ, htag]; rfl
    exact Prog.bind_error (memcpyFrom_none hnone heap)
  | some tag =>
    have hbs : m.read (s.offset + 1) 4 = none := by
      cases hbs : m.read (s.offset + 1) 4 with
      | none => rfl
      | some bs =>
        rw [headerAt_eq_some_iff.mpr ⟨htag, bs, hbs, rfl⟩] at hh
        cases hh
    rw [Prog.bind_ok (memcpyFrom_some (hread tag htag) heap)]
    exact Prog.bind_error (memcpyFrom_none hbs heap)

/-- A pass that goes on took a frame, stowed its value and appended its message. -/
theorem pass_ok (hp : deserializePass h A m s heap = .ok (s', heap')) :
    ∃ v, peek m s.offset = .ok v ∧ s'.offset = nextOffset h s.offset v.declared ∧
      s'.len = v.declared ∧
      daAppend h A h.messageSize s.messages (Entry.message h.order ⟨v, heap.next⟩)
        (Tlv.stow heap v.type v.value) = .ok (s'.messages, heap') := by
  cases hh : headerAt m s.offset with
  | none =>
    rw [pass_of_header_none hh] at hp
    cases hp
  | some p =>
    obtain ⟨tag, declared⟩ := p
    rw [pass_of_header hh] at hp
    cases ht : TypeTag.ofByte tag with
    | none =>
      rw [ht] at hp
      cases hp
    | some t =>
      simp only [ht] at hp
      obtain ⟨val, heap1, hval, hp⟩ := Prog.bind_eq_ok.mp hp
      obtain ⟨arr, heap2, happ, hp⟩ := Prog.bind_eq_ok.mp hp
      cases hp
      obtain ⟨bs, hv, rfl, rfl⟩ := decodeValue_cases hval
      exact ⟨⟨t, declared, bs⟩, peek_of_value hh ht hv, rfl, rfl, happ⟩

/-- So what holds between passes holds behind it. -/
theorem pass_cases (hr : Received h heap₀ hdr es s.messages heap)
    (hp : deserializePass h A m s heap = .ok (s', heap')) :
    ∃ v hdr', peek m s.offset = .ok v ∧ s'.offset = nextOffset h s.offset v.declared ∧
      s'.len = v.declared ∧
      Received h heap₀ hdr' (es ++ [⟨v, heap.next⟩]) s'.messages heap' := by
  obtain ⟨v, hpeek, hoff, hlen, happ⟩ := pass_ok hp
  obtain ⟨hcap, hdr', harr, hres⟩ := daAppend_cases hr.header happ
  refine ⟨v, hdr', hpeek, hoff, hlen, ?_⟩
  rw [harr]
  exact hr.push hres hcap

/-- A pass that reads outside the memory is one whose frame does not lie inside. -/
theorem pass_readPastEnd (hr : Received h heap₀ hdr es s.messages heap)
    (hp : deserializePass h A m s heap = .error (.readPastEnd, heap')) :
    peek m s.offset = .error .readPastEnd := by
  cases hh : headerAt m s.offset with
  | none => exact peek_of_header_none hh
  | some p =>
    obtain ⟨tag, declared⟩ := p
    rw [pass_of_header hh] at hp
    cases ht : TypeTag.ofByte tag with
    | none =>
      rw [ht] at hp
      cases hp
    | some t =>
      cases hv : m.read (s.offset + 5) (t.width declared) with
      | none => exact peek_of_value_none hh ht hv
      | some bs =>
        simp only [ht] at hp
        rcases Prog.bind_eq_error.mp hp with hval | ⟨val, heap1, hval, hp⟩
        · cases decodeValue_error hval hv
        · obtain ⟨bs', hv', -, rfl⟩ := decodeValue_cases hval
          obtain ⟨⟨done, ho⟩, -⟩ := hr.stow ⟨t, declared, bs'⟩
          obtain ⟨b, hb⟩ := ho.exists_block List.mem_cons_self
          rcases Prog.bind_eq_error.mp hp with happ | ⟨arr, heap2, -, hp⟩
          · rcases daAppend_error hr.header hb happ with hf | hf <;> cases hf
          · cases hp

/-- A pass over a frame that can be taken, when allocations succeed. -/
theorem pass_always (hr : Received h heap₀ hdr es s.messages heap) (hby : ByAppends s.messages)
    (hcount : 2 * es.length < h.szMod) (hp : peek m s.offset = .ok v) :
    ∃ s' heap' hdr', deserializePass h .always m s heap = .ok (s', heap') ∧
      s'.offset = nextOffset h s.offset v.declared ∧
      Received h heap₀ hdr' (es ++ [⟨v, heap.next⟩]) s'.messages heap' ∧ ByAppends s'.messages := by
  obtain ⟨hh, hv⟩ := peek_eq_ok hp
  have hval := decodeValue_always (h := h) hv heap
  have hc : 2 * s.messages.count < h.szMod := hr.count_eq ▸ hcount
  obtain ⟨hcap, -, -⟩ := hby.lt_nextCapacity hc
  obtain ⟨⟨done, ho⟩, -⟩ := hr.stow v
  obtain ⟨b, hb⟩ := ho.exists_block List.mem_cons_self
  obtain ⟨hdr', heap', happ, hres⟩ := daAppend_always h.messageSize
    (Entry.message h.order ⟨v, heap.next⟩) hr.header hb hcap
  refine ⟨⟨nextOffset h s.offset v.declared, v.declared, _⟩, heap', hdr', ?_, rfl,
    hr.push hres hcap, hby.pushed hc _ _⟩
  rw [pass_of_header hh]
  simp only [TypeTag.ofByte_toByte]
  rw [Prog.bind_ok hval]
  exact Prog.bind_ok happ

/-- A pass over a frame that cannot be taken, when allocations succeed. -/
theorem pass_fails (hp : peek m s.offset = .error f) (heap : Heap) :
    ∃ heap', deserializePass h .always m s heap = .error (f, heap') := by
  cases hh : headerAt m s.offset with
  | none =>
    rw [peek_of_header_none hh] at hp
    cases hp
    exact ⟨heap, pass_of_header_none hh⟩
  | some p =>
    obtain ⟨tag, declared⟩ := p
    rw [pass_of_header hh]
    cases ht : TypeTag.ofByte tag with
    | none =>
      rw [peek_of_unknown hh ht] at hp
      cases hp
      exact ⟨heap, rfl⟩
    | some t =>
      cases hv : m.read (s.offset + 5) (t.width declared) with
      | some bs =>
        rw [peek_of_value hh ht hv] at hp
        cases hp
      | none =>
        rw [peek_of_value_none hh ht hv] at hp
        cases hp
        obtain ⟨heap', hval⟩ := decodeValue_none (h := h) hv heap
        exact ⟨heap', Prog.bind_error hval⟩

end Tlv
