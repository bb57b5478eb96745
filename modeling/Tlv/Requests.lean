import Tlv.Costs
import Tlv.Joins
import Tlv.Lib.Cycles

/-!
# What the library asks the allocator for

The frames of a buffer say which allocations a call of `deserialize` makes, of how many
bytes each and in which order: the header of the array, and then for each frame its
payload, also when that is empty, and a larger array when the one there is full. An
expression over serializer calls and `buf_append` asks for a block for each frame, and
for each `buf_append` for one that holds what it joins.

`Asks A p q heap sizes`: from `heap`, the program `p` with the allocator `A` does what
`q` does with memory in plenty if `A` grants the allocations of `sizes`, and it returns
only if `A` does.

Results:
* a call of the decoder on a buffer that parses returns exactly when each of the requests
  of its frames is granted (`deserialize_requests`). So an allocator that returns null for
  no bytes, as it may, ends the call at the first empty payload;
* an expression returns exactly when its frames fit and each of its requests is granted,
  and these ask for the bytes of a frame once and once more for each `buf_append` over
  it (`join_requests`).
-/

namespace Tlv
open Lib

variable {α β : Type} {h : Host} {A : Allocator} {heap heap' heap₀ : Heap} {b : Block}
  {sizes sizes' : List Nat} {i n base : Nat} {m : Mem} {v : View} {vs : List View}

/-! ## Requests of a program -/

/-- The allocator grants the allocations of these sizes, which are numbered from `base`. -/
def Granted (A : Allocator) (base : Nat) (sizes : List Nat) : Prop :=
  ∀ k n, sizes[k]? = some n → A (base + k) n = true

theorem Granted.nil (A : Allocator) (base : Nat) : Granted A base [] := fun k n hk => by
  rw [List.getElem?_nil] at hk
  cases hk

theorem granted_cons :
    Granted A base (n :: sizes) ↔ A base n = true ∧ Granted A (base + 1) sizes := by
  constructor
  · refine fun hg => ⟨hg 0 n rfl, fun k n' hk => ?_⟩
    rw [Nat.add_assoc, Nat.add_comm 1 k]
    exact hg (k + 1) n' hk
  · rintro ⟨hn, hg⟩ k n' hk
    cases k with
    | zero =>
      cases hk
      exact hn
    | succ k =>
      have hk' := hg k n' hk
      rwa [Nat.add_assoc, Nat.add_comm 1 k] at hk'

theorem granted_append : Granted A base (sizes ++ sizes') ↔
    Granted A base sizes ∧ Granted A (base + sizes.length) sizes' := by
  induction sizes generalizing base with
  | nil => exact ⟨fun hg => ⟨.nil A base, hg⟩, And.right⟩
  | cons n sizes ih =>
    rw [List.cons_append, granted_cons, granted_cons, ih, and_assoc, List.length_cons,
      Nat.add_assoc, Nat.add_comm 1]

structure Asks (A : Allocator) (p q : CProg α) (heap : Heap) (sizes : List Nat) : Prop where
  plenty : Granted A heap.next sizes → p heap = q heap
  granted : ∀ r, p heap = .ok r → Granted A heap.next sizes

namespace Asks

variable {p q : CProg α} {f g : α → CProg β}

theorem refl (A : Allocator) (p : CProg α) (heap : Heap) : Asks A p p heap [] :=
  ⟨fun _ => rfl, fun _ _ => .nil A heap.next⟩

/-- What comes first asks first, for blocks that are numbered first. -/
theorem bind (hp : Asks A p q heap sizes) (hf : ∀ a heap', q heap = .ok (a, heap') →
      heap'.next = heap.next + sizes.length ∧ Asks A (f a) (g a) heap' sizes') :
    Asks A (p >>= f) (q >>= g) heap (sizes ++ sizes') where
  plenty := fun hg => by
    obtain ⟨hg, hg'⟩ := granted_append.mp hg
    refine Prog.bind_congr (hp.plenty hg) fun a heap' hq => ?_
    obtain ⟨hnext, hasks⟩ := hf a heap' hq
    exact hasks.plenty (hnext ▸ hg')
  granted := fun r hr => by
    obtain ⟨a, heap', hp', hr⟩ := Prog.bind_eq_ok.mp hr
    have hg := hp.granted _ hp'
    obtain ⟨hnext, hasks⟩ := hf a heap' ((hp.plenty hg).symm.trans hp')
    exact granted_append.mpr ⟨hg, hnext ▸ hasks.granted r hr⟩

theorem malloc_exists {f g : Ptr → CProg β}
    (hf : Asks A (f (.block heap.next)) (g (.block heap.next)) (heap.alloc n) sizes) :
    Asks A (do let p ← malloc A n; existsPtr p; f p)
      (do let p ← malloc .always n; existsPtr p; g p) heap (n :: sizes) where
  plenty := fun hg => by
    obtain ⟨hn, hg⟩ := granted_cons.mp hg
    rw [Prog.bind_ok (malloc_granted hn), Prog.bind_ok (malloc_always n heap),
      Prog.bind_ok (existsPtr_block _ _), Prog.bind_ok (existsPtr_block _ _)]
    exact hf.plenty hg
  granted := fun r hr => by
    by_cases hn : A heap.next n = true
    · exact granted_cons.mpr ⟨hn, hf.granted r (malloc_exists_ok hr)⟩
    · rw [malloc_exists_refused hn] at hr
      cases hr

theorem realloc_exists {f g : Ptr → CProg β} (hb : heap.cells i = some b)
    (hf : Asks A (f (.block heap.next)) (g (.block heap.next))
      ((heap.drop i).new n (b.mem.cut n)) sizes) :
    Asks A (do let p ← realloc A (.block i) n; existsPtr p; f p)
      (do let p ← realloc .always (.block i) n; existsPtr p; g p) heap (n :: sizes) where
  plenty := fun hg => by
    obtain ⟨hn, hg⟩ := granted_cons.mp hg
    rw [Prog.bind_ok (realloc_granted hb hn), Prog.bind_ok (realloc_always hb n),
      Prog.bind_ok (existsPtr_block _ _), Prog.bind_ok (existsPtr_block _ _)]
    exact hf.plenty hg
  granted := fun r hr => by
    by_cases hn : A heap.next n = true
    · rw [Prog.bind_ok (realloc_granted hb hn), Prog.bind_ok (existsPtr_block _ _)] at hr
      exact granted_cons.mpr ⟨hn, hf.granted r hr⟩
    · rw [Prog.bind_ok (realloc_refused hb hn)] at hr
      cases hr

/-- What comes behind asks for nothing. -/
theorem bind_right (hp : Asks A p q heap sizes) (f : α → CProg β) :
    Asks A (p >>= f) (q >>= f) heap sizes where
  plenty := fun hg => Prog.bind_congr (hp.plenty hg) fun _ _ _ => rfl
  granted := fun r hr => by
    obtain ⟨a, heap', hp', -⟩ := Prog.bind_eq_ok.mp hr
    exact hp.granted _ hp'

/-- What comes in front asks for nothing and does nothing to the heap. -/
theorem bind_left {a : α} (hp : p heap = .ok (a, heap)) (hf : Asks A (f a) (g a) heap sizes) :
    Asks A (p >>= f) (p >>= g) heap sizes where
  plenty := fun hg => by
    rw [Prog.bind_ok hp, Prog.bind_ok hp]
    exact hf.plenty hg
  granted := fun r hr => by
    rw [Prog.bind_ok hp] at hr
    exact hf.granted r hr

theorem congr {p' q' : CProg α} (hp : p' heap = p heap) (hq : q' heap = q heap)
    (h : Asks A p q heap sizes) : Asks A p' q' heap sizes where
  plenty := fun hg => hp.trans ((h.plenty hg).trans hq.symm)
  granted := fun r hr => h.granted r (hp.symm.trans hr)

end Asks

/-! ## Requests of a frame -/

/-- A payload is allocated with its length. -/
theorem decodeValue_asks (m : Mem) (c len : Nat) (t : TypeTag) (heap : Heap) :
    Asks A (decodeValue h A m c len t) (decodeValue h .always m c len t) heap
      (if t.isPayload then [len] else []) := by
  cases ht : t.isPayload with
  | false =>
    rw [decodeValue_scalar ht ⟨.null, 0⟩, decodeValue_scalar ht ⟨.null, 0⟩]
    exact .refl A _ heap
  | true =>
    rw [decodeValue_payload ht [], decodeValue_payload ht []]
    exact (Asks.malloc_exists (.refl A _ _)).bind_right _

/-- A full array is moved to a block for its next capacity. -/
theorem daAppend_asks {arr : DynArr α} (hh : arr.header = .block i) (hb : heap.cells i = some b)
    (size : Nat) (x : α) :
    Asks A (daAppend h A size arr x) (daAppend h .always size arr x) heap
      (if arr.count = arr.capacity then [daBytes h size (grownCapacity h arr.capacity)]
        else []) := by
  unfold daAppend
  rw [hh]
  refine .bind_left (existsPtr_block i heap) (Asks.bind_right ?_ _)
  unfold daGrow
  split
  · unfold daRealloc
    rw [hh]
    exact .realloc_exists hb (.refl A _ _)
  · exact .refl A _ heap

/-- What the decoder asks for when it takes a frame behind `k` others. -/
def frameRequests (h : Host) (k : Nat) (v : View) : List Nat :=
  (if v.type.isPayload then [v.value.length] else []) ++
    if daGrowth.capacity k = k then [daBytes h h.messageSize (daGrowth.grow k)] else []

section Pass
variable {s : DecodeState} {es : List Entry} {hdr : Nat}
  (hr : Received h heap₀ hdr es s.messages heap)
include hr

theorem pass_asks (hs : Spent h heap₀ es s.messages heap) (hn : 2 * es.length < h.szMod)
    (hp : peek m s.offset = .ok v) :
    Asks A (deserializePass h A m s) (deserializePass h .always m s) heap
      (frameRequests h es.length v) := by
  obtain ⟨hh, hv⟩ := peek_eq_ok hp
  refine .congr (pass_of_header hh) (pass_of_header hh) ?_
  simp only [TypeTag.ofByte_toByte]
  have hvalue : (if v.type.isPayload then [v.declared] else []) =
      if v.type.isPayload then [v.value.length] else [] := by
    cases hpay : v.type.isPayload with
    | false => rfl
    | true =>
      rw [Mem.length_of_read hv, TypeTag.width_of_isPayload hpay]
  have hval := decodeValue_asks (h := h) (A := A) m s.offset v.declared v.type heap
  rw [hvalue] at hval
  refine hval.bind fun val heap' hdone => ?_
  obtain ⟨bs, hv', rfl, rfl⟩ := decodeValue_cases hdone
  cases hv.symm.trans hv'
  obtain ⟨⟨done, ho⟩, -⟩ := hr.stow v
  obtain ⟨b, hb⟩ := ho.exists_block List.mem_cons_self
  have happ := daAppend_asks (h := h) (A := A) hr.header hb h.messageSize
    (Entry.message h.order ⟨v, heap.next⟩)
  rw [hr.count_eq, hs.capacity] at happ
  constructor
  · rw [stow_next heap v heap.next, Entry.owned]
    split <;> rfl
  · by_cases hfull : daGrowth.capacity es.length = es.length
    · rw [if_pos hfull.symm, hfull, grownCapacity_eq hn] at happ
      rw [if_pos hfull]
      exact happ.bind_right _
    · rw [if_neg (Ne.symm hfull)] at happ
      rw [if_neg hfull]
      exact happ.bind_right _

end Pass

/-! ## Requests of a call -/

/-- What the decoder asks for when it takes these frames. -/
def framesRequests (h : Host) (vs : List View) : List Nat :=
  vs.zipIdx.flatMap fun p => frameRequests h p.2 p.1

/-- What a call asks for: the header of the array, and then what the frames take. -/
def requests (h : Host) (vs : List View) : List Nat := h.headerSize :: framesRequests h vs

theorem framesRequests_append (h : Host) (vs : List View) (v : View) :
    framesRequests h (vs ++ [v]) = framesRequests h vs ++ frameRequests h vs.length v := by
  unfold framesRequests
  rw [List.zipIdx_append, List.flatMap_append, Nat.zero_add]
  simp

theorem length_frameRequests (h : Host) (k : Nat) (e : Entry) :
    (frameRequests h k e.view).length + daGrowth.moves k =
      e.owned.length + daGrowth.moves (k + 1) := by
  have hpayload : (if e.view.type.isPayload then [e.view.value.length] else []).length =
      e.owned.length := by
    unfold Entry.owned
    split <;> rfl
  rw [frameRequests, List.length_append, hpayload]
  by_cases hfull : daGrowth.capacity k = k
  · rw [if_pos hfull, Growth.moves_full hfull, List.length_singleton]
    omega
  · rw [if_neg hfull, Growth.moves_room hfull, List.length_nil, Nat.add_zero]

/-- There are as many of them as blocks that a call has allocated. -/
theorem length_framesRequests (h : Host) (es : List Entry) :
    (framesRequests h (es.map Entry.view)).length =
      (es.flatMap Entry.owned).length + daGrowth.moves es.length := by
  induction es using List.reverseRecOn with
  | nil => rfl
  | append_singleton es e ih =>
    have hframe := length_frameRequests h es.length e
    rw [List.map_append, List.map_singleton, framesRequests_append, List.length_append,
      List.length_map, ih, List.flatMap_append, List.length_append, List.flatMap_singleton,
      List.length_append, List.length_singleton]
    omega

/-- Passes of a call with memory in plenty are passes of a call that is granted what it
asks for, and of no other. -/
theorem run_asks {len : Nat} {ms : DynArr (Message (Buffer Ptr))} {s : Nat × List View}
    (hnew : daNew h .always heap = .ok (ms, heap'))
    (hr : (readerLoop h m len).Reaches (0, []) n s) (hn : 2 * n ≤ h.szMod) :
    ∃ st es hdr, st.1.offset = s.1 ∧ es.map Entry.view = s.2 ∧
      Received h heap hdr es st.1.messages st.2 ∧ ByAppends st.1.messages ∧
      Spent h heap es st.1.messages st.2 ∧
      ∀ A, (Granted A heap'.next (framesRequests h s.2) →
          (deserializeLoop h A m len).Reaches (⟨0, 0, ms⟩, heap') n st) ∧
        ∀ st', (deserializeLoop h A m len).Reaches (⟨0, 0, ms⟩, heap') n st' →
          Granted A heap'.next (framesRequests h s.2) := by
  have hnext : heap'.next = heap.next + 1 := by
    cases hnew
    rfl
  induction hr with
  | refl =>
    obtain ⟨hstart, hby⟩ := Received.start hnew
    exact ⟨_, [], heap.next, rfl, rfl, hstart, hby, .start hnew,
      fun A => ⟨fun _ => .refl, fun _ _ => .nil A _⟩⟩
  | @pass k t u hreach hg hb ih =>
    obtain ⟨st, es, hdr, hoff, hes, hrec, hby, hs, hall⟩ := ih (by omega)
    obtain ⟨v, hp, rfl⟩ := readerLoop_body_cases hb
    have hlen : es.length = k := by
      have hcount := reader_length hreach
      rw [← hes, List.length_map, List.length_nil, Nat.zero_add] at hcount
      exact hcount
    have hpeek : peek m st.1.offset = .ok v := hoff.symm ▸ hp
    obtain ⟨s', heap'', hdr', hpass, hoff', hrec', hby'⟩ :=
      pass_always hrec hby (by omega) hpeek
    obtain ⟨v', hpeek', -, -, happ⟩ := pass_ok hpass
    cases hpeek.symm.trans hpeek'
    have hguard : ∀ A, (deserializeLoop h A m len).guard st = true := by
      intro A
      show decide (st.1.offset < len) = true
      rw [hoff]
      exact hg
    have hbase : st.2.next = heap'.next + (framesRequests h t.2).length := by
      rw [← hes, length_framesRequests, hs.next, hnext]
      omega
    refine ⟨(s', heap''), _, hdr', by rw [hoff', hoff], by rw [List.map_append, hes]; rfl, hrec',
      hby', hs.pass hrec.count_eq (by omega) _ happ, fun A => ?_⟩
    have hasks := pass_asks (A := A) hrec hs (by omega) hpeek
    rw [framesRequests_append, granted_append, ← hbase, ← hes, List.length_map, hes]
    constructor
    · rintro ⟨hfront, hback⟩
      exact .pass ((hall A).1 hfront) (hguard A) ((hasks.plenty hback).trans hpass)
    · intro st' hreach'
      cases hreach' with
      | pass hr' _ hb' =>
        have hfront := (hall A).2 _ hr'
        obtain rfl := hr'.unique ((hall A).1 hfront)
        exact ⟨hfront, hasks.granted _ hb'⟩

theorem daNew_asks (A : Allocator) (heap : Heap) :
    Asks A (daNew (α := α) h A) (daNew h .always) heap [h.headerSize] :=
  .malloc_exists (.refl A _ _)

/-- On a 64-bit host, a call on a buffer that parses returns exactly when each allocation
that its frames ask for is granted. -/
theorem deserialize_requests {bs : List Byte} (hw : h.word = .w64)
    (hlen : bs.length ≤ h.ptrdiffMax) (hp : Parses bs (.ok vs)) (A : Allocator) (heap : Heap) :
    (∃ r, Deserializes h A (received bs) heap (.ok r)) ↔
      Granted A heap.next (requests h vs) := by
  obtain ⟨e, he, hvs⟩ := hp.ends hw hlen
  obtain ⟨o, rfl⟩ : ∃ o, e = .ok (o, vs) := by
    cases e with
    | error f => cases hvs
    | ok s =>
      cases hvs
      exact ⟨s.1, rfl⟩
  obtain ⟨n, hreads, hg⟩ := WhileLoop.ends_ok_iff.mp he
  have hnew := daNew_always (h := h) heap
  obtain ⟨st, es, hdr, hoff, -, -, -, -, hall⟩ := run_asks hnew hreads (reader_count hw hlen hreads)
  have hguard : (deserializeLoop h A (Mem.ofList bs) bs.length).guard st = false := by
    show decide (st.1.offset < bs.length) = false
    rw [hoff]
    exact hg
  have hheader := daNew_asks (α := Message (Buffer Ptr)) (h := h) A heap
  rw [requests, granted_cons]
  constructor
  · rintro ⟨r, hr⟩
    cases hnew' : daNew (α := Message (Buffer Ptr)) h A heap with
    | error e => cases deserializes_new_error hnew' hr
    | ok p =>
      have hgranted := hheader.granted _ hnew'
      cases (hheader.plenty hgranted).symm.trans hnew'
      obtain ⟨e, he', hres⟩ := (deserializes_iff hnew').mp hr
      cases e with
      | error e => cases hres
      | ok st' =>
        obtain ⟨n', hreach, hg'⟩ := WhileLoop.ends_ok_iff.mp he'
        obtain ⟨es', hdr', hreads', -⟩ := run_cases (Received.start hnew').1 hreach
        -- Both went through all the frames, so they made as many passes.
        cases (WhileLoop.ends_ok_iff.mpr ⟨n', hreads', hg'⟩).unique he
        have hn := reader_length hreads
        have hn' := reader_length hreads'
        obtain rfl : n' = n := by omega
        exact ⟨(granted_cons.mp hgranted).1, (hall A).2 st' hreach⟩
  · rintro ⟨hfirst, hframes⟩
    have hgranted : Granted A heap.next [h.headerSize] :=
      granted_cons.mpr ⟨hfirst, .nil A _⟩
    have hends := WhileLoop.ends_ok_iff.mpr ⟨n, (hall A).1 hframes, hguard⟩
    exact ⟨_, (deserializes_iff ((hheader.plenty hgranted).trans hnew)).mpr ⟨_, hends, rfl⟩⟩

/-- Where `malloc` returns null for no bytes, a number can be received and an empty string
cannot. -/
theorem deserialize_requests_empty :
    (∃ r, Deserializes ⟨.little, .w64⟩ (fun _ n => 0 < n) (received [1, 0, 0, 0, 1, 7]) .empty
      (.ok r)) ∧
    ¬∃ r, Deserializes ⟨.little, .w64⟩ (fun _ n => 0 < n) (received [11, 0, 0, 0, 0]) .empty
      (.ok r) := by
  have hnum := Parses.frame (f := ⟨.u08, [7], by decide⟩) (by decide) .done
  have hstr := Parses.frame (f := ⟨.str, [], by decide⟩) (by decide) .done
  constructor
  · refine (deserialize_requests rfl (by decide) hnum _ .empty).mpr ?_
    exact granted_cons.mpr ⟨rfl, granted_cons.mpr ⟨rfl, .nil _ _⟩⟩
  · intro hr
    have hnull := (deserialize_requests rfl (by decide) hstr _ .empty).mp hr 1 0 rfl
    cases hnull

/-! ## Requests of an expression -/

theorem emitFrame_asks (target : List Byte) (type : TypeTag) :
    Asks A (emitFrame h A target type) (emitFrame h .always target type) heap
      [(frameBytes type target).length] := by
  rw [length_frameBytes]
  exact .malloc_exists (.refl A _ _)

theorem complexSerialize_asks {val : Buffer Mem} (hsz : 5 + val.len < h.szMod) (type : TypeTag) :
    Asks A (complexSerialize h A val type) (complexSerialize h .always val type) heap
      [5 + val.len] := by
  rw [← Host.sz_of_lt hsz]
  exact .malloc_exists (.refl A _ _)

theorem Call.run_asks {c : Call} (hsz : (c.wire h.order).length < h.szMod) :
    Asks A (c.run h A) (c.run h .always) heap [(c.wire h.order).length] := by
  cases c with
  | str bytes | bin bytes | err bytes =>
    rw [Call.wire, length_frameBytes] at hsz ⊢
    exact complexSerialize_asks hsz _
  | cstr s =>
    have hlen : strlen s.array = (target h.order (.cstr s)).length := strlen_array s
    rw [Call.wire, length_frameBytes, ← hlen] at hsz ⊢
    exact complexSerialize_asks hsz .str
  | _ => exact emitFrame_asks _ _

theorem bufAppend_asks {xs : List Byte} {len : Nat} (hi : HoldsBytes heap i xs)
    (after : Buffer Ptr) (hsz : len + after.len < h.szMod) :
    Asks A (bufAppend h A ⟨.block i, len⟩ after) (bufAppend h .always ⟨.block i, len⟩ after) heap
      [len + after.len] := by
  rw [← Host.sz_of_lt hsz]
  exact .realloc_exists hi (.refl A _ _)

theorem bufAppend_next {j : Nat} {done : List Nat} {xs ys : List Byte} {c : Buffer Ptr}
    (ho : heap₀.Owns heap [i, j] done) (hi : HoldsBytes heap i xs) (hj : HoldsBytes heap j ys)
    (hr : bufAppend h A ⟨.block i, xs.length⟩ ⟨.block j, ys.length⟩ heap = .ok (c, heap')) :
    heap'.next = heap.next + 1 := by
  have hnd := (List.nodup_append.mp ho.nodup).1
  have happ := bufAppend_always hi hj (by simpa using hnd) (bufAppend_built ho hi hj hr).1
  cases happ.symm.trans ((bufAppend_failStop _ _).ok hr)
  rfl

namespace Join

/-- What an expression asks for: as its arguments are evaluated, and then for the block
that `buf_append` moves the first one to. -/
def requests (o : ByteOrder) : Join → List Nat
  | .call c => [(c.wire o).length]
  | .append false base after => base.requests o ++ (after.requests o ++
      [(wireStream o base.calls).length + (wireStream o after.calls).length])
  | .append true base after => after.requests o ++ (base.requests o ++
      [(wireStream o base.calls).length + (wireStream o after.calls).length])

/-- The bytes of the frames, each taken `k` times, and once more for each `buf_append`
over it. -/
def weight (o : ByteOrder) (k : Nat) : Join → Nat
  | .call c => k * (c.wire o).length
  | .append _ base after => base.weight o (k + 1) + after.weight o (k + 1)

theorem length_wireStream_append (o : ByteOrder) (cs cs' : List Call) :
    (wireStream o (cs ++ cs')).length = (wireStream o cs).length + (wireStream o cs').length := by
  rw [wireStream, List.flatMap_append, List.length_append]
  rfl

/-- An expression that returned has made as many allocations. -/
theorem run_next {t : Join} {b : Buffer Ptr} (hr : t.run h A heap = .ok (b, heap')) :
    heap'.next = heap.next + (t.requests h.order).length := by
  induction t generalizing heap b heap' with
  | call c =>
    obtain ⟨hfits, hsz⟩ := Call.run_fits hr
    cases (Call.run_always hfits hsz).symm.trans (c.run_failStop.ok hr)
    rfl
  | append afterFirst base after ihb iha =>
    cases afterFirst with
    | false =>
      obtain ⟨b', heap₁, hb, hr⟩ := Prog.bind_eq_ok.mp hr
      obtain ⟨a', heap₂, ha, happ⟩ := Prog.bind_eq_ok.mp hr
      have hnext₁ := ihb hb
      have hnext₂ := iha ha
      obtain ⟨-, -, i, done₁, rfl, ho₁, hi⟩ := run_built hb
      obtain ⟨-, -, j, done₂, rfl, ho₂, hj⟩ := run_built ha
      rw [bufAppend_next (ho₁.trans ho₂) (hi.keep ho₂) hj happ, hnext₂, hnext₁]
      simp only [requests, List.length_append, List.length_singleton, Nat.add_assoc]
    | true =>
      obtain ⟨a', heap₁, ha, hr⟩ := Prog.bind_eq_ok.mp hr
      obtain ⟨b', heap₂, hb, happ⟩ := Prog.bind_eq_ok.mp hr
      have hnext₁ := iha ha
      have hnext₂ := ihb hb
      obtain ⟨-, -, j, done₁, rfl, ho₁, hj⟩ := run_built ha
      obtain ⟨-, -, i, done₂, rfl, ho₂, hi⟩ := run_built hb
      rw [bufAppend_next ((ho₁.trans ho₂).perm (.swap i j [])) hi (hj.keep ho₂) happ, hnext₂,
        hnext₁]
      simp only [requests, List.length_append, List.length_singleton, Nat.add_assoc]

theorem run_asks {t : Join} (hsz : (wireStream h.order t.calls).length < h.szMod) (A : Allocator)
    (heap : Heap) : Asks A (t.run h A) (t.run h .always) heap (t.requests h.order) := by
  induction t generalizing heap with
  | call c =>
    have hlen : (c.wire h.order).length < h.szMod := by simpa [wireStream, calls] using hsz
    exact Call.run_asks hlen
  | append afterFirst base after ihb iha =>
    rw [calls, length_wireStream_append] at hsz
    have hasks := ihb (Nat.lt_of_le_of_lt (Nat.le_add_right _ _) hsz)
    have hasks' := iha (Nat.lt_of_le_of_lt (Nat.le_add_left _ _) hsz)
    cases afterFirst with
    | false =>
      refine (hasks heap).bind fun b heap₁ hb => ⟨run_next hb, ?_⟩
      refine (hasks' heap₁).bind fun a heap₂ ha => ⟨run_next ha, ?_⟩
      obtain ⟨-, -, i, done₁, rfl, ho₁, hi⟩ := run_built hb
      obtain ⟨-, -, j, done₂, rfl, ho₂, hj⟩ := run_built ha
      exact bufAppend_asks (hi.keep ho₂) _ hsz
    | true =>
      refine (hasks' heap).bind fun a heap₁ ha => ⟨run_next ha, ?_⟩
      refine (hasks heap₁).bind fun b heap₂ hb => ⟨run_next hb, ?_⟩
      obtain ⟨-, -, i, done₂, rfl, ho₂, hi⟩ := run_built hb
      obtain ⟨-, -, j, done₁, rfl, ho₁, hj⟩ := run_built ha
      exact bufAppend_asks hi _ hsz

theorem weight_succ (o : ByteOrder) (k : Nat) (t : Join) :
    t.weight o (k + 1) = t.weight o k + (wireStream o t.calls).length := by
  induction t generalizing k with
  | call c =>
    rw [calls, wireStream, List.flatMap_singleton]
    exact Nat.succ_mul _ _
  | append afterFirst base after ihb iha =>
    rw [calls, length_wireStream_append, weight, weight, ihb, iha]
    omega

theorem sum_requests (o : ByteOrder) (t : Join) : (t.requests o).sum = t.weight o 1 := by
  induction t with
  | call c => simp [requests, weight]
  | append afterFirst base after ihb iha =>
    rw [weight, weight_succ o 1 base, weight_succ o 1 after, ← ihb, ← iha]
    cases afterFirst with
    | false | true =>
      simp only [requests, List.sum_append, List.sum_singleton]
      omega

theorem length_requests (o : ByteOrder) (t : Join) :
    (t.requests o).length + 1 = 2 * t.calls.length := by
  induction t with
  | call c => rfl
  | append afterFirst base after ihb iha =>
    rw [calls, List.length_append]
    cases afterFirst with
    | false | true =>
      simp only [requests, List.length_append, List.length_singleton]
      omega

end Join

/-- Whatever the nesting of the `buf_append` calls and the order in which arguments are
evaluated: an expression over `n` calls makes `2 n - 1` allocations, which ask for the
bytes of each frame once and once more for each `buf_append` over it. It returns exactly
when its payloads fit their length fields, the stream a `size_t`, and each of these
allocations is granted. -/
theorem join_requests (h : Host) (t : Join) :
    (t.requests h.order).length + 1 = 2 * t.calls.length ∧
    (t.requests h.order).sum = t.weight h.order 1 ∧
    ∀ A heap, (∃ r, t.run h A heap = .ok r) ↔
      (∀ c ∈ t.calls, c.Fits) ∧ (wireStream h.order t.calls).length < h.szMod ∧
        Granted A heap.next (t.requests h.order) := by
  refine ⟨t.length_requests h.order, t.sum_requests h.order, fun A heap => ⟨?_, ?_⟩⟩
  · rintro ⟨⟨b, heap'⟩, hr⟩
    obtain ⟨hfits, hsz, -⟩ := Join.run_built hr
    exact ⟨hfits, hsz, (Join.run_asks hsz A heap).granted _ hr⟩
  · rintro ⟨hfits, hsz, hg⟩
    obtain ⟨b, heap', hr⟩ := Join.run_always hfits hsz heap
    exact ⟨_, ((Join.run_asks hsz A heap).plenty hg).trans hr⟩

end Tlv
