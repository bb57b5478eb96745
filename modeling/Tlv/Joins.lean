import Tlv.Balance
import Tlv.Refusal

/-!
# Streams that are joined in any nesting

`buf_append` takes two buffers and gives one, so its calls can be nested in any way,
and C leaves open which argument of a call is evaluated first. A `Join` is such an
expression over serializer calls.

Results: whatever the nesting, the order of evaluation and the allocator, an
expression that returns has built one block with the frames of its calls from left
to right (`join_built`), and with memory in plenty it returns exactly when every
payload fits its length field and the stream a `size_t`. `sendStream` is the
expression nested to the left (`sendStream_built`).
-/

namespace Tlv
open Lib

/-- Serializer calls joined by `buf_append`. The flag of `append` says that the
second argument is evaluated first. -/
inductive Join
  | call (c : Call)
  | append (afterFirst : Bool) (base after : Join)

namespace Join

def run (h : Host) (A : Allocator) : Join → CProg (Buffer Ptr)
  | .call c => c.run h A
  | .append false base after => do
    let b ← base.run h A
    let a ← after.run h A
    bufAppend h A b a
  | .append true base after => do
    let a ← after.run h A
    let b ← base.run h A
    bufAppend h A b a

/-- The calls from left to right. -/
def calls : Join → List Call
  | .call c => [c]
  | .append _ base after => base.calls ++ after.calls

end Join

/-- What is built is one block: the buffer `b` shows it, it consists of `bs`, and
every other block allocated since `heap` was released. -/
def Built (heap heap' : Heap) (b : Buffer Ptr) (bs : List Byte) : Prop :=
  ∃ k done, b = ⟨.block k, bs.length⟩ ∧ heap.Owns heap' [k] done ∧ HoldsBytes heap' k bs

variable {h : Host} {A : Allocator} {heap heap' heap₀ heap₁ heap₂ : Heap} {i j : Nat}
  {done : List Nat} {xs ys : List Byte}

/-! ## One call -/

/-- A block that is not the new one keeps its bytes. -/
theorem HoldsBytes.keep (hi : HoldsBytes heap₁ i xs) (ho : heap₁.Owns heap₂ [j] done) :
    HoldsBytes heap₂ i xs := by
  have hlt := Heap.lt_next_of_cells hi
  have hj := (ho.mem_range (List.mem_append_left done List.mem_cons_self)).1
  have hne : i ∉ [j] := by
    rw [List.mem_singleton]
    omega
  rw [HoldsBytes, ho.frame i hne, hi]

theorem memcpyTo_inside {off : Nat} {b : Block} (hb : heap.cells i = some b)
    (hr : memcpyTo (.block i) off xs heap = .ok ((), heap')) :
    off + xs.length ≤ b.size ∧ heap'.cells i = some ⟨b.size, b.mem.write off xs⟩ := by
  have hs := memcpyTo_ok hr
  rw [Heap.store, hb, Option.bind_some] at hs
  split at hs
  · next hle =>
    cases hs
    refine ⟨hle, ?_⟩
    show (if i = i ∧ i < heap.next then _ else _) = _
    rw [if_pos ⟨rfl, Heap.lt_next_of_cells hb⟩]
  · cases hs

/-- A serializer of payloads that returns has checked the length, and the size of its
block has not wrapped: else the block would be too small for the header. -/
theorem complexSerialize_fits {val : Buffer Mem} {type : TypeTag} {r : Buffer Ptr × Heap}
    (hr : complexSerialize h A val type heap = .ok r) :
    val.len ≤ uint32Max ∧ 5 + val.len < h.szMod := by
  have hgo := malloc_exists_ok hr
  split at hgo
  · cases hgo
  · next hn =>
    have hmax : val.len ≤ uint32Max := Nat.le_of_not_lt hn
    refine ⟨hmax, ?_⟩
    obtain ⟨⟨⟩, heap₁, h₁, hgo⟩ := Prog.bind_eq_ok.mp hgo
    obtain ⟨⟨⟩, heap₂, h₂, -⟩ := Prog.bind_eq_ok.mp hgo
    have hcell : (heap.alloc (h.sz (1 + 4 + val.len))).cells heap.next =
        some ⟨h.sz (1 + 4 + val.len), Mem.empty⟩ := by
      rw [Heap.alloc, Heap.new_cells, if_pos rfl]
    obtain ⟨-, hcell₁⟩ := memcpyTo_inside hcell h₁
    obtain ⟨hle, -⟩ := memcpyTo_inside hcell₁ h₂
    rw [length_store] at hle
    by_contra hwrap
    have hbig := h.szMod_ge
    unfold uint32Max at hmax
    have hsz : h.sz (1 + 4 + val.len) = 5 + val.len - h.szMod := by
      rw [Host.sz, Nat.mod_eq_sub_mod (by omega), Nat.mod_eq_of_lt (by omega)]
    simp only at hle
    omega

theorem Call.run_fits {c : Call} {r : Buffer Ptr × Heap} (hr : c.run h A heap = .ok r) :
    c.Fits ∧ (c.wire h.order).length < h.szMod := by
  have hbig := h.szMod_ge
  rw [Call.wire, length_frameBytes]
  cases c with
  | str bytes | bin bytes | err bytes => exact complexSerialize_fits hr
  | cstr s =>
    have hfits := complexSerialize_fits hr
    rw [strlen_array] at hfits
    exact hfits
  | _ =>
    refine ⟨trivial, ?_⟩
    simp only [Call.target, Call.message, Union.bytes, List.length_singleton, length_store]
    omega

theorem Call.run_built {c : Call} {b : Buffer Ptr} (hr : c.run h A heap = .ok (b, heap')) :
    Built heap heap' b (c.wire h.order) := by
  obtain ⟨hfits, hsz⟩ := Call.run_fits hr
  cases (Call.run_always hfits hsz).symm.trans (c.run_failStop.ok hr)
  exact ⟨heap.next, [], rfl, (Heap.Owns.refl heap).new _ _, HoldsBytes.new_self heap _⟩

/-- Two blocks that are joined. The sum of the lengths has not wrapped, else the block
would be too small for the bytes. -/
theorem bufAppend_built {c : Buffer Ptr} (ho : heap₀.Owns heap [i, j] done)
    (hi : HoldsBytes heap i xs) (hj : HoldsBytes heap j ys)
    (hr : bufAppend h A ⟨.block i, xs.length⟩ ⟨.block j, ys.length⟩ heap = .ok (c, heap')) :
    (xs ++ ys).length < h.szMod ∧ Built heap₀ heap' c (xs ++ ys) := by
  have hij : i ≠ j := by
    have hnd := (List.nodup_append.mp ho.nodup).1
    simpa using hnd
  have hsz : (xs ++ ys).length < h.szMod := by
    rw [bufAppend] at hr
    obtain ⟨b, -, hgo⟩ := realloc_exists_ok hr
    rw [Prog.bind_ok (x := lend _) rfl] at hgo
    obtain ⟨bytes, heap₁, h₁, hgo⟩ := Prog.bind_eq_ok.mp hgo
    obtain ⟨hread, rfl⟩ := memcpyFrom_ok h₁
    obtain ⟨⟨⟩, heap₂, h₂, -⟩ := Prog.bind_eq_ok.mp hgo
    obtain ⟨hle, -⟩ := memcpyTo_inside (by rw [Heap.new_cells, Heap.drop_next, if_pos rfl]) h₂
    have hlen : bytes.length = ys.length := Mem.length_of_read hread
    have hlt : h.sz (xs.length + ys.length) < h.szMod :=
      Nat.mod_lt _ (Nat.pow_pos (by decide))
    simp only [hlen] at hle
    rw [List.length_append]
    exact Nat.lt_of_le_of_lt hle hlt
  obtain ⟨k, hk, ho'⟩ := bufAppend_owns rfl rfl ho hr
  cases (bufAppend_always hi hj hij hsz).symm.trans ((bufAppend_failStop _ _).ok hr)
  cases hk
  have hne : heap.next ≠ j := Nat.ne_of_gt (Heap.lt_next_of_cells hj)
  exact ⟨hsz, _, _, rfl, ho', (HoldsBytes.new_self (heap.drop i) _).drop hne⟩

/-! ## Nested calls -/

namespace Join

/-- What an expression that returned has built. -/
theorem run_built {t : Join} {b : Buffer Ptr} (hr : t.run h A heap = .ok (b, heap')) :
    (∀ c ∈ t.calls, c.Fits) ∧ (wireStream h.order t.calls).length < h.szMod ∧
      Built heap heap' b (wireStream h.order t.calls) := by
  induction t generalizing heap b heap' with
  | call c =>
    obtain ⟨hfits, hsz⟩ := Call.run_fits hr
    have hwire : wireStream h.order (calls (.call c)) = c.wire h.order := by
      simp [wireStream, calls]
    rw [hwire]
    exact ⟨by simpa [calls] using hfits, hsz, Call.run_built hr⟩
  | append afterFirst base after ihb iha =>
    have hwire : wireStream h.order (calls (.append afterFirst base after)) =
        wireStream h.order base.calls ++ wireStream h.order after.calls := List.flatMap_append
    -- The two arguments own a block each when `buf_append` is called.
    have hargs : ∃ b' a' heap₁ i j done, bufAppend h A b' a' heap₁ = .ok (b, heap') ∧
        b' = ⟨.block i, (wireStream h.order base.calls).length⟩ ∧
        a' = ⟨.block j, (wireStream h.order after.calls).length⟩ ∧
        heap.Owns heap₁ [i, j] done ∧ HoldsBytes heap₁ i (wireStream h.order base.calls) ∧
        HoldsBytes heap₁ j (wireStream h.order after.calls) ∧
        (∀ c ∈ base.calls, c.Fits) ∧ ∀ c ∈ after.calls, c.Fits := by
      cases afterFirst with
      | false =>
        obtain ⟨b', heap₁, hb, hr⟩ := Prog.bind_eq_ok.mp hr
        obtain ⟨a', heap₂, ha, happ⟩ := Prog.bind_eq_ok.mp hr
        obtain ⟨hfb, -, i, done₁, hb', ho₁, hi⟩ := ihb hb
        obtain ⟨hfa, -, j, done₂, ha', ho₂, hj⟩ := iha ha
        exact ⟨b', a', heap₂, i, j, _, happ, hb', ha', ho₁.trans ho₂, hi.keep ho₂, hj, hfb, hfa⟩
      | true =>
        obtain ⟨a', heap₁, ha, hr⟩ := Prog.bind_eq_ok.mp hr
        obtain ⟨b', heap₂, hb, happ⟩ := Prog.bind_eq_ok.mp hr
        obtain ⟨hfa, -, j, done₁, ha', ho₁, hj⟩ := iha ha
        obtain ⟨hfb, -, i, done₂, hb', ho₂, hi⟩ := ihb hb
        exact ⟨b', a', heap₂, i, j, _, happ, hb', ha', (ho₁.trans ho₂).perm (.swap i j []), hi,
          hj.keep ho₂, hfb, hfa⟩
    obtain ⟨b', a', heap₁, i, j, done, happ, rfl, rfl, ho, hi, hj, hfb, hfa⟩ := hargs
    obtain ⟨hsz, hbuilt⟩ := bufAppend_built ho hi hj happ
    rw [hwire]
    refine ⟨fun c hc => ?_, hsz, hbuilt⟩
    rcases List.mem_append.mp hc with hc | hc
    · exact hfb c hc
    · exact hfa c hc

/-- With memory in plenty an expression whose frames fit returns. -/
theorem run_always {t : Join} (hfits : ∀ c ∈ t.calls, c.Fits)
    (hsz : (wireStream h.order t.calls).length < h.szMod) (heap : Heap) :
    ∃ b heap', t.run h .always heap = .ok (b, heap') := by
  induction t generalizing heap with
  | call c =>
    have hlen : (c.wire h.order).length < h.szMod := by simpa [wireStream, calls] using hsz
    exact ⟨_, _, Call.run_always (hfits c List.mem_cons_self) hlen⟩
  | append afterFirst base after ihb iha =>
    have hsum : (wireStream h.order base.calls ++ wireStream h.order after.calls).length <
        h.szMod := by
      rw [wireStream, wireStream, ← List.flatMap_append]
      exact hsz
    have hparts := hsum
    rw [List.length_append] at hparts
    have hb := ihb (fun c hc => hfits c (List.mem_append_left _ hc)) (by omega)
    have ha := iha (fun c hc => hfits c (List.mem_append_right _ hc)) (by omega)
    cases afterFirst with
    | false =>
      obtain ⟨b', heap₁, hb⟩ := hb heap
      obtain ⟨a', heap₂, ha⟩ := ha heap₁
      obtain ⟨-, -, i, done₁, rfl, ho₁, hi⟩ := run_built hb
      obtain ⟨-, -, j, done₂, rfl, ho₂, hj⟩ := run_built ha
      have hnd := (List.nodup_append.mp (ho₁.trans ho₂).nodup).1
      exact ⟨_, _, (Prog.bind_ok hb).trans ((Prog.bind_ok ha).trans
        (bufAppend_always (hi.keep ho₂) hj (by simpa using hnd) hsum))⟩
    | true =>
      obtain ⟨a', heap₁, ha⟩ := ha heap
      obtain ⟨b', heap₂, hb⟩ := hb heap₁
      obtain ⟨-, -, j, done₁, rfl, ho₁, hj⟩ := run_built ha
      obtain ⟨-, -, i, done₂, rfl, ho₂, hi⟩ := run_built hb
      have hnd := (List.nodup_append.mp (ho₁.trans ho₂).nodup).1
      have hij : i ≠ j := Ne.symm (by simpa using hnd)
      exact ⟨_, _, (Prog.bind_ok ha).trans ((Prog.bind_ok hb).trans
        (bufAppend_always hi (hj.keep ho₂) hij hsum))⟩

end Join

/-- Whatever the nesting of the `buf_append` calls, the order in which arguments are
evaluated, the host and the heap. For every allocator, an expression that returns has
built the frames of its calls from left to right, in one block, and released every
other block that it allocated. When allocations succeed, it returns if and only if
each payload fits its length field and the stream a `size_t`. -/
theorem join_built (h : Host) (t : Join) (heap : Heap) :
    (∀ A b heap', t.run h A heap = .ok (b, heap') →
      Built heap heap' b (wireStream h.order t.calls)) ∧
    ((∃ b heap', t.run h .always heap = .ok (b, heap')) ↔
      (∀ c ∈ t.calls, c.Fits) ∧ (wireStream h.order t.calls).length < h.szMod) := by
  refine ⟨fun A b heap' hr => (Join.run_built hr).2.2, ?_, ?_⟩
  · rintro ⟨b, heap', hr⟩
    exact ⟨(Join.run_built hr).1, (Join.run_built hr).2.1⟩
  · rintro ⟨hfits, hsz⟩
    exact Join.run_always hfits hsz heap

/-! ## One call after the other -/

/-- The expression that joins one call after the other. -/
def Join.leftward (t : Join) (cs : List Call) : Join :=
  cs.foldl (fun t c => .append false t (.call c)) t

theorem Join.calls_leftward (t : Join) (cs : List Call) :
    (t.leftward cs).calls = t.calls ++ cs := by
  induction cs generalizing t with
  | nil => exact (List.append_nil _).symm
  | cons c cs ih =>
    show ((Join.append false t (.call c)).leftward cs).calls = _
    rw [ih, calls, calls, List.append_assoc, List.singleton_append]

theorem Join.run_leftward (t : Join) (cs : List Call) :
    (t.leftward cs).run h A =
      (do let stream ← t.run h A; joinAll h A stream (cs.map (Call.run h A))) := by
  induction cs generalizing t with
  | nil => exact (bind_pure _).symm
  | cons c cs ih =>
    show ((Join.append false t (.call c)).leftward cs).run h A = _
    rw [ih, List.map_cons]
    simp only [run, joinAll, bind_assoc]

theorem sendStream_eq_run (c : Call) (cs : List Call) :
    sendStream h A (c :: cs) = ((Join.call c).leftward cs).run h A :=
  (Join.run_leftward (.call c) cs).symm

/-- What a stream that was sent has been. -/
theorem sendStream_built {cs : List Call} {b : Buffer Ptr} (hne : cs ≠ [])
    (hr : sendStream h A cs heap = .ok (b, heap')) :
    (∀ c ∈ cs, c.Fits) ∧ (wireStream h.order cs).length < h.szMod ∧
      Built heap heap' b (wireStream h.order cs) := by
  cases cs with
  | nil => exact absurd rfl hne
  | cons c cs =>
    rw [sendStream_eq_run] at hr
    have hbuilt := Join.run_built hr
    rwa [Join.calls_leftward] at hbuilt

/-- The bytes of a stream that was sent; of no calls there is the null buffer. -/
theorem sendStream_ok {cs : List Call} {b : Buffer Ptr}
    (hr : sendStream h A cs heap = .ok (b, heap')) :
    (∀ c ∈ cs, c.Fits) ∧ (wireStream h.order cs).length < h.szMod ∧
      b.len = (wireStream h.order cs).length ∧
      bufBytes heap' b = some (wireStream h.order cs) := by
  cases cs with
  | nil =>
    cases hr
    exact ⟨by simp, Nat.pow_pos (by decide), rfl, rfl⟩
  | cons c cs =>
    obtain ⟨hfits, hsz, k, done, rfl, -, hk⟩ := sendStream_built (by simp) hr
    exact ⟨hfits, hsz, rfl, hk.bufBytes⟩

end Tlv
