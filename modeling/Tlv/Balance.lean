import Tlv.Release

/-!
# Every block is released once

The sender: a serializer allocates one block, `buf_append` turns two blocks into
one, and so a stream, however many frames are joined, is one block at the end
(`sendStream_owns`). The receiver: a returned array and its messages can be
released in any order (`Received.frees`). `heap_balanced` puts the two together.
-/

namespace Tlv
open Lib

/-! ## The sender -/

/-- When the program returns, its buffer is the one block it has allocated and
not released. -/
def Makes (p : CProg (Buffer Ptr)) : Prop :=
  ∀ heap b heap', p heap = .ok (b, heap') →
    ∃ k done, b.bytes = .block k ∧ heap.Owns heap' [k] done

variable {h : Host} {A : Allocator} {heap heap' heap₀ : Heap} {i j : Nat} {done : List Nat}

theorem emitFrame_makes (target : List Byte) (type : TypeTag) :
    Makes (emitFrame h A target type) := by
  intro heap b heap' hr
  have hgo := malloc_exists_ok hr
  obtain ⟨⟨⟩, heap₁, h₁, hgo⟩ := Prog.bind_eq_ok.mp hgo
  obtain ⟨⟨⟩, heap₂, h₂, hgo⟩ := Prog.bind_eq_ok.mp hgo
  obtain ⟨⟨⟩, heap₃, h₃, hgo⟩ := Prog.bind_eq_ok.mp hgo
  cases hgo
  have ho := (Heap.Owns.refl heap).new (1 + 4 + target.length) Mem.empty
  have hk : heap.next ∈ [heap.next] := List.mem_cons_self
  exact ⟨heap.next, [], rfl,
    ((ho.store hk (memcpyTo_ok h₁)).store hk (memcpyTo_ok h₂)).store hk (memcpyTo_ok h₃)⟩

theorem complexSerialize_makes (val : Buffer Mem) (type : TypeTag) :
    Makes (complexSerialize h A val type) := by
  intro heap b heap' hr
  have hgo := malloc_exists_ok hr
  split at hgo
  · cases hgo
  · obtain ⟨⟨⟩, heap₁, h₁, hgo⟩ := Prog.bind_eq_ok.mp hgo
    obtain ⟨⟨⟩, heap₂, h₂, hgo⟩ := Prog.bind_eq_ok.mp hgo
    obtain ⟨payload, heap₃, h₃, hgo⟩ := Prog.bind_eq_ok.mp hgo
    obtain ⟨⟨⟩, heap₄, h₄, hgo⟩ := Prog.bind_eq_ok.mp hgo
    rw [(memcpyFrom_ok h₃).2] at h₄
    cases hgo
    have ho := (Heap.Owns.refl heap).new (h.sz (1 + 4 + val.len)) Mem.empty
    have hk : heap.next ∈ [heap.next] := List.mem_cons_self
    exact ⟨heap.next, [], rfl,
      ((ho.store hk (memcpyTo_ok h₁)).store hk (memcpyTo_ok h₂)).store hk (memcpyTo_ok h₄)⟩

theorem Call.run_makes (c : Call) : Makes (c.run h A) := by
  cases c with
  | str | bin | err | cstr => exact complexSerialize_makes _ _
  | _ => exact emitFrame_makes _ _

/-- `buf_append` releases the two blocks that it is given, and allocates one. -/
theorem bufAppend_owns {b a c : Buffer Ptr} (hb : b.bytes = .block i) (ha : a.bytes = .block j)
    (ho : heap₀.Owns heap [i, j] done) (hr : bufAppend h A b a heap = .ok (c, heap')) :
    ∃ k, c.bytes = .block k ∧ heap₀.Owns heap' [k] (done ++ [i] ++ [j]) := by
  rw [bufAppend, hb] at hr
  obtain ⟨old, -, hgo⟩ := realloc_exists_ok hr
  rw [Prog.bind_ok (x := lend a) rfl] at hgo
  obtain ⟨bytes, heap₁, h₁, hgo⟩ := Prog.bind_eq_ok.mp hgo
  obtain ⟨-, rfl⟩ := memcpyFrom_ok h₁
  obtain ⟨⟨⟩, heap₂, h₂, hgo⟩ := Prog.bind_eq_ok.mp hgo
  obtain ⟨⟨⟩, heap₃, h₃, hgo⟩ := Prog.bind_eq_ok.mp hgo
  cases hgo
  -- `realloc` released `i` for the new block, and `free` releases `j`.
  have hmoved := (ho.drop.new (h.sz (b.len + a.len))
    (old.mem.cut (h.sz (b.len + a.len)))).store List.mem_cons_self (memcpyTo_ok h₂)
  have hswap := hmoved.perm (List.Perm.swap j _ [])
  obtain ⟨after, hafter⟩ := hswap.exists_block List.mem_cons_self
  rw [ha, free_block hafter] at h₃
  cases h₃
  exact ⟨_, rfl, hswap.drop⟩

theorem joinAll_owns {ps : List (CProg (Buffer Ptr))} (hps : ∀ p ∈ ps, Makes p)
    {b c : Buffer Ptr} (hb : b.bytes = .block i) (ho : heap₀.Owns heap [i] done)
    (hr : joinAll h A b ps heap = .ok (c, heap')) :
    ∃ k done', c.bytes = .block k ∧ heap₀.Owns heap' [k] done' := by
  induction ps generalizing heap b i done with
  | nil =>
    cases hr
    exact ⟨i, done, hb, ho⟩
  | cons p ps ih =>
    obtain ⟨frame, heap₁, hp, hr⟩ := Prog.bind_eq_ok.mp hr
    obtain ⟨stream, heap₂, happ, hr⟩ := Prog.bind_eq_ok.mp hr
    obtain ⟨j, done₁, hframe, ho₁⟩ := hps p List.mem_cons_self heap frame heap₁ hp
    obtain ⟨k, hk, ho₂⟩ := bufAppend_owns hb hframe (ho.trans ho₁) happ
    exact ih (fun q hq => hps q (List.mem_cons_of_mem p hq)) hk ho₂ hr

/-- A stream of at least one frame that was sent is one block. -/
theorem sendStream_owns {cs : List Call} (hne : cs ≠ []) : Makes (sendStream h A cs) := by
  intro heap b heap' hr
  cases cs with
  | nil => exact absurd rfl hne
  | cons c cs =>
    obtain ⟨stream, heap₁, hc, hr⟩ := Prog.bind_eq_ok.mp hr
    obtain ⟨i, done, hi, ho⟩ := c.run_makes heap stream heap₁ hc
    refine joinAll_owns (fun p hp => ?_) hi ho hr
    obtain ⟨c', -, rfl⟩ := List.mem_map.mp hp
    exact c'.run_makes

/-! ## The receiver -/

variable {arr arr' : DynArr (Message (Buffer Ptr))} {is : List Nat}

/-- A call from `heap₀` returned `arr` on `heap`, and then `message_free` was
called on the elements `is`, which gave `arr'` and `heap'`:

* the next call on any element would release nothing, pass a null pointer to
  `free`, or pass it a live block that was allocated for that very message;
* scalars are as they were, and a call on one does nothing;
* a call on one of the elements `is` does nothing any more;
* when these are all elements, `da_free` gives back the heap before the call. -/
structure Frees (heap₀ heap : Heap) (arr : DynArr (Message (Buffer Ptr))) (is : List Nat)
    (arr' : DynArr (Message (Buffer Ptr))) (heap' : Heap) : Prop where
  argument : ∀ i < arr.count, ∃ m, arr'.slots i = some m ∧ ∀ p, freeArgument m = some p →
    p = .null ∨ ∃ k, p = .block k ∧ (heap'.cells k).isSome ∧ AllocatedFor heap₀ heap arr i k
  scalar : ∀ i < arr.count, ∀ m, arr.slots i = some m → m.type.isPayload = false →
    arr'.slots i = some m ∧ messageFreeAt arr' i heap' = .ok (arr', heap')
  again : ∀ i ∈ is, messageFreeAt arr' i heap' = .ok (arr', heap')
  all : (∀ i < arr.count, i ∈ is) →
    ∃ heap'', daFree arr' heap' = .ok ((), heap'') ∧ heap''.cells = heap₀.cells

/-- A returned array can be released in any order. -/
theorem Received.frees {hdr : Nat} {es : List Entry} (hr : Received h heap₀ hdr es arr heap)
    (his : ∀ i ∈ is, i < arr.count) (hr' : Releasing h heap₀ hdr es is arr' heap') :
    Frees heap₀ heap arr is arr' heap' := by
  have hcount := hr.count_eq
  have hitem : ∀ i (hi : i < es.length), (items es is)[i]? = some ⟨es[i], decide (i ∈ is)⟩ :=
    fun i hi => by rw [getElem?_items, List.getElem?_eq_getElem hi, Option.map_some]
  refine ⟨fun i hi => ?_, fun i hi m hm hs => ?_, fun i hi => ?_, fun hall => ?_⟩
  · rw [hcount] at hi
    refine ⟨_, hr'.slot (hitem i hi), fun p hp => ?_⟩
    rcases hr'.freeArgument_cases (hitem i hi) hp with hnull | ⟨ht, rfl, hlive⟩
    · exact .inl hnull
    · exact .inr ⟨_, rfl, hlive, hr.allocatedFor (List.getElem?_eq_getElem hi) ht⟩
  · rw [hcount] at hi
    have hslot := (hr.holds.slot_map (List.getElem?_eq_getElem hi)).symm.trans hm
    cases hslot
    refine ⟨?_, hr'.messageFreeAt_idle (hitem i hi) (.inl hs)⟩
    rw [hr'.slot (hitem i hi), Item.message_scalar hs]
  · have hlt := hcount ▸ his i hi
    exact hr'.messageFreeAt_idle (hitem i hlt) (.inr (decide_eq_true hi))
  · obtain ⟨done, ho⟩ := hr'.owns
    rw [owned_items_all (hcount ▸ hall)] at ho
    obtain ⟨b, hb⟩ := ho.exists_block List.mem_cons_self
    refine ⟨heap'.drop hdr, ?_, ho.drop.cells_eq⟩
    rw [daFree, hr'.header, free_block hb]

/-! ## Both -/

/-- Whatever the host and the heap. A non-empty list of serializer calls joined by
`buf_append`, for every allocator with which it returns: of the blocks allocated
on the way one is live at the end, the stream's, and each of the others was
released once. When allocations succeed it does return. An array returned by
`deserialize`, for every allocator and input: `message_free` can be called on its
elements in any order, with any repetitions, and after every such sequence
`Frees` holds. -/
theorem heap_balanced (h : Host) (heap : Heap) :
    (∀ A cs b heap', cs ≠ [] → sendStream h A cs heap = .ok (b, heap') →
      ∃ k done, b.bytes = .block k ∧ heap.Owns heap' [k] done) ∧
    (∀ cs, cs ≠ [] → (∀ c ∈ cs, c.Fits) → (wireStream h.order cs).length < h.szMod →
      ∃ b heap', sendStream h .always cs heap = .ok (b, heap')) ∧
    ∀ A buf arr heap' is, Deserializes h A buf heap (.ok (arr, heap')) →
      (∀ i ∈ is, i < arr.count) →
      ∃ arr' heap'', messageFreeAll arr is heap' = .ok (arr', heap'') ∧
        Frees heap heap' arr is arr' heap'' := by
  refine ⟨fun A cs b heap' hne hr => sendStream_owns hne heap b heap' hr,
    fun cs hne hcs hsz => ?_, fun A buf arr heap' is hr his => ?_⟩
  · obtain ⟨k, heap', hr, -⟩ := sendStream_always hne hcs hsz heap
    exact ⟨_, heap', hr⟩
  · obtain ⟨es, hdr, hrec⟩ := received_of_returns hr
    obtain ⟨arr', heap'', hrun, hrel⟩ := hrec.releasing.messageFreeAll_run his
    exact ⟨arr', heap'', hrun, hrec.frees his hrel⟩

/-- Two calls that are joined; and a stream of a number and a string, of which
`message_free` is called on the string, the number, and the string again. -/
theorem heap_balanced_sample :
    (∃ b heap' k done,
      sendStream ⟨.big, .w64⟩ .always [.u08 7, .str [65]] Heap.empty = .ok (b, heap') ∧
        b.bytes = .block k ∧ Heap.empty.Owns heap' [k] done) ∧
    ∃ arr heap' arr' heap'' heap₃,
      Deserializes ⟨.big, .w64⟩ .always
        (received (stream [⟨.u08, [7], by decide⟩, ⟨.str, [65], by decide⟩])) Heap.empty
        (.ok (arr, heap')) ∧
      messageFreeAll arr [1, 0, 1] heap' = .ok (arr', heap'') ∧
      daFree arr' heap'' = .ok ((), heap₃) ∧ heap₃.cells = Heap.empty.cells := by
  obtain ⟨hone, hret, hfree⟩ := heap_balanced ⟨.big, .w64⟩ Heap.empty
  constructor
  · obtain ⟨b, heap', hr⟩ := hret [.u08 7, .str [65]] (by simp) (by simp [Call.Fits, uint32Max])
      (by decide)
    obtain ⟨k, done, hk, ho⟩ := hone _ _ b heap' (by simp) hr
    exact ⟨b, heap', k, done, hr, hk, ho⟩
  · obtain ⟨s, heap', es, hdr, hfin, -, hes, hrec⟩ :=
      finishes_stream (h := ⟨.big, .w64⟩) [⟨.u08, [7], by decide⟩, ⟨.str, [65], by decide⟩]
        (by decide) (by decide) Heap.empty
    have hcount : s.messages.count = 2 := by
      rw [hrec.count_eq, ← List.length_map (f := Entry.view), hes]
      rfl
    obtain ⟨arr', heap'', hrun, hf⟩ := hfree _ _ _ _ [1, 0, 1] hfin.deserializes
      (by simp [hcount])
    obtain ⟨heap₃, hda, hcells⟩ := hf.all (by rw [hcount]; decide)
    exact ⟨_, heap', arr', heap'', heap₃, hfin.deserializes, hrun, hda, hcells⟩

end Tlv
