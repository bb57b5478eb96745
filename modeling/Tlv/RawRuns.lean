import Tlv.Lib.Blocks
import Tlv.RawArray
import Tlv.Refusal

/-!
# Programs with several arrays

A program makes arrays, works on any of them in any order, copies and frees them, all
on one heap. The arrays are the pointers it keeps, and behind each one is a list.

`ReadsAs` says that the macros read a list behind a pointer. Results: runs in bytes end
as the runs of `DynArr` do, with the same elements (`rawRuns_refine`); and whatever an
allocator refuses, a program with several arrays that uses operations only where the
caller may (`AllowedPool`) ends with each of them as the list on which its own operations
were done, owns nothing but their blocks, and has changed no other block, unless the
process was ended by a refused allocation or by a stuck `da_append` (`runPool_behaves`).
-/

namespace Tlv
open Lib

variable {α β : Type}

/-- `da_free`. -/
def rawFree (arr : Ptr) : CProg Unit := free arr

/-- The operations on one array, one after the other. -/
def rawRunOps (h : Host) (A : Allocator) (L : Layout α) : Ptr → List (ArrayOp α) → CProg Ptr
  | arr, [] => pure arr
  | arr, op :: ops => do
    let arr ← op.rawRun h A L arr
    rawRunOps h A L arr ops

/-! ## Several arrays -/

/-- A step of a program that keeps several arrays; they are numbered. -/
inductive PoolOp (α : Type)
  | new
  | on (k : Nat) (op : ArrayOp α)
  | free (k : Nat)

/-- Where the array that an operation gives is kept: `da_copy` gives one more array, the
other operations give the array they were used on. -/
def ArrayOp.keep (op : ArrayOp α) (l : List β) (k : Nat) (x : β) : List β :=
  match op with
  | .copy => l ++ [x]
  | _ => l.set k x

namespace PoolOp

def run (h : Host) (A : Allocator) (L : Layout α) (arrs : List Ptr) : PoolOp α → CProg (List Ptr)
  | .new => do
    let arr ← rawNew h A
    pure (arrs ++ [arr])
  | .on k op => do
    let arr ← op.rawRun h A L (arrs.getD k .null)
    pure (op.keep arrs k arr)
  | .free k => do
    rawFree (arrs.getD k .null)
    pure (arrs.eraseIdx k)

/-- The step on the lists behind the arrays. -/
def apply (ss : List (Plain α)) : PoolOp α → List (Plain α)
  | .new => ss ++ [⟨[], 0⟩]
  | .on k op =>
    match ss[k]? with
    | some s => op.keep ss k (s.after op)
    | none => ss
  | .free k => ss.eraseIdx k

/-- The array is there, and the caller may use the operation on it. -/
def Allowed (h : Host) (size : Nat) (ss : List (Plain α)) : PoolOp α → Prop
  | .new => True
  | .on k op => ∃ s ∈ ss[k]?, op.Allowed h size s
  | .free k => k < ss.length

def Stuck (ss : List (Plain α)) : PoolOp α → Prop
  | .on k op => ∃ s ∈ ss[k]?, op.Stuck s
  | _ => False

end PoolOp

/-- The program. -/
def runPool (h : Host) (A : Allocator) (L : Layout α) : List Ptr → List (PoolOp α) →
    CProg (List Ptr)
  | arrs, [] => pure arrs
  | arrs, op :: ops => do
    let arrs ← op.run h A L arrs
    runPool h A L arrs ops

/-- The caller may use each of the operations in its turn. -/
def AllowedPool (h : Host) (size : Nat) : List (Plain α) → List (PoolOp α) → Prop
  | _, [] => True
  | ss, op :: ops => op.Allowed h size ss ∧ AllowedPool h size (op.apply ss) ops

/-- None of the operations is stuck in its turn. -/
def PoolNeverStuck : List (Plain α) → List (PoolOp α) → Prop
  | _, [] => True
  | ss, op :: ops => ¬ op.Stuck ss ∧ PoolNeverStuck (op.apply ss) ops

instance decidablePoolOpAllowed (h : Host) (size : Nat) (ss : List (Plain α)) :
    (op : PoolOp α) → Decidable (op.Allowed h size ss)
  | .new => inferInstanceAs (Decidable True)
  | .on k op => inferInstanceAs (Decidable (∃ s ∈ ss[k]?, op.Allowed h size s))
  | .free k => inferInstanceAs (Decidable (k < ss.length))

instance decidableAllowedPool (h : Host) (size : Nat) :
    (ss : List (Plain α)) → (pops : List (PoolOp α)) → Decidable (AllowedPool h size ss pops)
  | _, [] => inferInstanceAs (Decidable True)
  | ss, op :: pops => @instDecidableAnd _ _ _ (decidableAllowedPool h size (op.apply ss) pops)

/-- What the macros read behind a pointer: `da_length`, `da_capacity`, `da_empty`, an
element with or without `da_get`, and `da_last`. -/
structure ReadsAs (h : Host) (L : Layout α) (heap : Heap) (arr : Ptr) (s : Plain α) : Prop where
  count : rawCount h arr heap = .ok (s.items.length, heap)
  capacity : rawCapacity h arr heap = .ok (s.capacity, heap)
  empty : rawEmpty h arr heap = .ok (s.items.isEmpty, heap)
  item : ∀ j x, s.items[j]? = some x → rawAt h L arr j heap = .ok (L.encode x, heap)
  get : ∀ j, rawGet h L arr j heap =
    s.items[j]?.elim (.error (.assertFailed, heap)) fun x => .ok (L.encode x, heap)
  last : ∀ x, s.items.getLast? = some x → rawLast h L arr heap = .ok (L.encode x, heap)

/-- The blocks `is` hold the lists `ss`, and since `heap₀` they are all that was allocated
and not freed. -/
structure PoolHolds (h : Host) (L : Layout α) (heap₀ heap : Heap) (is : List Nat)
    (ss : List (Plain α)) : Prop where
  arrays : heap.HoldsAll (ArrayBlock h L) is ss
  owns : ∃ done, heap₀.Owns heap is done

variable {h : Host} {L : Layout α} {A : Allocator} {heap heap' heap₀ : Heap} {i i' k : Nat}
  {b b' : Block} {s : Plain α} {ss : List (Plain α)} {is : List Nat} {ops : List (ArrayOp α)}

theorem ArrayBlock.readsAs (hb : ArrayBlock h L b s) (hcell : heap.cells i = some b) :
    ReadsAs h L heap (.block i) s := by
  have hcount := rawCount_ok hcell hb
  have hitem : ∀ j x, s.items[j]? = some x →
      rawAt h L (.block i) j heap = .ok (L.encode x, heap) :=
    fun _ _ hx => rawAt_ok hcell (hb.read_item hx)
  refine ⟨hcount, rawCapacity_ok hcell hb, ?_, hitem, fun j => ?_, fun x hx => ?_⟩
  · rw [rawEmpty, Prog.bind_ok hcount]
    cases s.items <;> rfl
  · rw [rawGet, Prog.bind_ok hcount]
    cases hx : s.items[j]? with
    | none =>
      have hj := List.getElem?_eq_none_iff.mp hx
      rw [if_pos (Nat.not_lt.mpr hj)]
      rfl
    | some x =>
      have hj := (List.getElem?_eq_some_iff.mp hx).1
      rw [if_neg (not_not.mpr hj)]
      exact hitem j x hx
  · have hne : s.items ≠ [] := by
      intro hnil
      rw [hnil] at hx
      cases hx
    rw [rawLast, Prog.bind_ok hcount, hb.last_eq hne]
    rw [List.getLast?_eq_getElem?] at hx
    exact hitem _ x hx

/-! ## Runs on one array -/

theorem rawRunOps_block (hcell : heap.cells i = some b) (hb : ArrayBlock h L b s)
    (ha : AllowedRun h L.size s ops) (hst : NeverStuck s ops) :
    ∃ i' heap' b', rawRunOps h .always L (.block i) ops heap = .ok (.block i', heap') ∧
      heap'.cells i' = some b' ∧ ArrayBlock h L b' (ops.foldl Plain.after s) := by
  induction ops generalizing heap i b s with
  | nil => exact ⟨i, heap, b, rfl, hcell, hb⟩
  | cons op ops ih =>
    obtain ⟨i₁, heap₁, b₁, hrun, he, hb₁⟩ := op.rawRun_block hcell hb ha.1 hst.1
    obtain ⟨i', heap', b', hruns, hcell', hb'⟩ := ih he.self hb₁ ha.2 hst.2
    exact ⟨i', heap', b', (Prog.bind_ok hrun).trans hruns, hcell', hb'⟩

/-- A run that returns had no stuck operation. -/
theorem neverStuck_of_rawRunOps (hcell : heap.cells i = some b) (hb : ArrayBlock h L b s)
    (ha : AllowedRun h L.size s ops) {r : Ptr × Heap}
    (hrun : rawRunOps h .always L (.block i) ops heap = .ok r) : NeverStuck s ops := by
  induction ops generalizing heap i b s with
  | nil => trivial
  | cons op ops ih =>
    by_cases hst : op.Stuck s
    · obtain ⟨heap', hstop⟩ := op.rawRun_stuck hcell hb hst
      rw [rawRunOps, Prog.bind_error hstop] at hrun
      cases hrun
    · obtain ⟨i₁, heap₁, b₁, hop, he, hb₁⟩ := op.rawRun_block hcell hb ha.1 hst
      rw [rawRunOps, Prog.bind_ok hop] at hrun
      exact ⟨hst, ih he.self hb₁ ha.2 hrun⟩

/-! ### The blocks and the requests of a run -/

section Tame
variable {mine : Nat → Prop} {arr : Ptr}

theorem rawNew_tame : Tame mine (fun A => rawNew h A) (Ptr.In mine) :=
  malloc_exists_tame _ fun _ hp => .const <| (memcpyTo_within hp _ _).bind fun _ _ =>
    (memcpyTo_within hp _ _).bind fun _ _ => .pure hp

theorem rawCount_within : Prog.Within mine (rawCount h arr) fun _ => True :=
  (lend_within _).bind fun _ _ => loadFrom_within _ _ _

theorem rawCapacity_within : Prog.Within mine (rawCapacity h arr) fun _ => True :=
  (lend_within _).bind fun _ _ => loadFrom_within _ _ _

theorem rawAt_within (i : Nat) : Prog.Within mine (rawAt h L arr i) fun _ => True :=
  (lend_within _).bind fun _ _ => memcpyFrom_within _ _ _

theorem rawCopy_tame : Tame mine (fun A => rawCopy h A L arr) (Ptr.In mine) :=
  .after rawCount_within fun _ _ => malloc_exists_tame _ fun _ hp => .const <|
    (memcpyTo_within hp _ _).bind fun _ _ => (memcpyTo_within hp _ _).bind fun _ _ =>
      (lend_within _).bind fun _ _ => (memcpyFrom_within _ _ _).bind fun _ _ =>
        (memcpyTo_within hp _ _).bind fun _ _ => .pure hp

variable (ha : arr.In mine)
include ha

theorem rawRealloc_tame (capacity : Nat) :
    Tame mine (fun A => rawRealloc h A L arr capacity) (Ptr.In mine) :=
  realloc_exists_tame ha _ fun _ hp => .const <| (memcpyTo_within hp _ _).bind fun _ _ => .pure hp

theorem rawGrow_tame : Tame mine (fun A => rawGrow h A L arr) (Ptr.In mine) :=
  .after rawCount_within fun _ _ =>
    .after rawCapacity_within fun _ _ =>
      (rawRealloc_tame ha _).ite (.const (.pure ha))

theorem rawReserve_tame (n : Nat) : Tame mine (fun A => rawReserve h A L arr n) (Ptr.In mine) :=
  .after rawCapacity_within fun _ _ =>
    (rawRealloc_tame ha n).ite (.const (.pure ha))

/-- Whatever the block of the array holds, also a header that is no header. -/
theorem ArrayOp.rawRun_tame (op : ArrayOp α) :
    Tame mine (fun A => op.rawRun h A L arr) (Ptr.In mine) := by
  cases op with
  | append x =>
    exact .after (existsPtr_within _) fun _ _ => (rawGrow_tame ha).bind fun _ hp =>
      .const <| rawCount_within.bind fun _ _ => (memcpyTo_within hp _ _).bind fun _ _ =>
        (memcpyTo_within hp _ _).bind fun _ _ => .pure hp
  | extend xs =>
    exact .after rawCount_within fun _ _ => (rawReserve_tame ha _).bind fun _ hp =>
      .const <| (memcpyFrom_within _ _ _).bind fun _ _ => (memcpyTo_within hp _ _).bind fun _ _ =>
        (memcpyTo_within hp _ _).bind fun _ _ => .pure hp
  | reserve n => exact rawReserve_tame ha n
  | pop =>
    have hpop : Prog.Within mine (rawPop h L arr) fun r => r.2.In mine :=
      rawCount_within.bind fun _ _ => (memcpyTo_within ha _ _).bind fun _ _ =>
        (rawAt_within _).bind fun _ _ => .pure ha
    exact .const <| hpop.bind fun _ hp => .pure hp
  | swapRemove i =>
    have hswap : Prog.Within mine (rawSwapRemove h L arr i) (Ptr.In mine) :=
      rawCount_within.bind fun _ _ => .ite (.stop _) <| (rawAt_within _).bind fun _ _ =>
        (memcpyTo_within ha _ _).bind fun _ _ => (memcpyTo_within ha _ _).bind fun _ _ => .pure ha
    exact .const hswap
  | clear => exact .const <| (memcpyTo_within ha _ _).bind fun _ _ => .pure ha
  | copy => exact rawCopy_tame

theorem rawRunOps_tame (ops : List (ArrayOp α)) :
    Tame mine (fun A => rawRunOps h A L arr ops) (Ptr.In mine) := by
  induction ops generalizing arr with
  | nil => exact .const (.pure ha)
  | cons op ops ih => exact (op.rawRun_tame ha).bind fun _ hp => ih hp

end Tame

/-! ### The two levels -/

/-- A program with one array, as `DynArr` has it. -/
def daProgram (h : Host) (A : Allocator) (size : Nat) (ops : List (ArrayOp α)) :
    CProg (DynArr α) := do
  let arr ← daNew h A
  runOps h A size arr ops

/-- The program in bytes. -/
def rawProgram (h : Host) (A : Allocator) (L : Layout α) (ops : List (ArrayOp α)) :
    CProg Ptr := do
  let arr ← rawNew h A
  rawRunOps h A L arr ops

theorem daProgram_represents {arr : DynArr α} (ha : AllowedRun h L.size ⟨[], 0⟩ ops)
    (hr : daProgram h A L.size ops heap = .ok (arr, heap')) :
    NeverStuck ⟨[], 0⟩ ops ∧ arr.Represents h heap' (ops.foldl Plain.after ⟨[], 0⟩) := by
  have hstop : FailStop fun A => daProgram h A L.size ops :=
    (daNew_tame.bind fun _ ha => runOps_tame ha L.size ops).failStop
  obtain ⟨arr₀, heap₁, hnew, hrun⟩ := Prog.bind_eq_ok.mp (hstop.ok hr)
  have hst := neverStuck_of_runOps (represents_new hnew) L.size_pos ha hrun
  obtain ⟨arr', heap₂, hrun', hr'⟩ := runOps_represents (represents_new hnew) L.size_pos ha hst
  cases hrun.symm.trans hrun'
  exact ⟨hst, hr'⟩

theorem rawProgram_reads {p : Ptr} (ha : AllowedRun h L.size ⟨[], 0⟩ ops)
    (hr : rawProgram h A L ops heap = .ok (p, heap')) :
    NeverStuck ⟨[], 0⟩ ops ∧ ReadsAs h L heap' p (ops.foldl Plain.after ⟨[], 0⟩) := by
  have hstop : FailStop fun A => rawProgram h A L ops :=
    (rawNew_tame.bind fun _ ha => rawRunOps_tame ha ops).failStop
  obtain ⟨heap₁, b, hnew, hu, hb⟩ := rawNew_block h L heap
  have hrun := hstop.ok hr
  rw [rawProgram, Prog.bind_ok hnew] at hrun
  have hst := neverStuck_of_rawRunOps hu.self hb ha hrun
  obtain ⟨i', heap₂, b', hrun', hcell, hb'⟩ := rawRunOps_block hu.self hb ha hst
  cases hrun.symm.trans hrun'
  exact ⟨hst, hb'.readsAs hcell⟩

/-- Any operations that the caller may use, on a new array. With memory in plenty they
return in bytes if and only if they do on `DynArr`; and whenever both return, whatever
the two allocators, both have the same count, the same capacity and the same elements. -/
theorem rawRuns_refine (h : Host) (L : Layout α) (ops : List (ArrayOp α))
    (ha : AllowedRun h L.size ⟨[], 0⟩ ops) :
    (∀ heap heap₀, (∃ r, rawProgram h .always L ops heap₀ = .ok r) ↔
      ∃ r, daProgram h .always L.size ops heap = .ok r) ∧
    ∀ A B heap heap' heap₀ heap₁ arr p, daProgram h A L.size ops heap = .ok (arr, heap') →
      rawProgram h B L ops heap₀ = .ok (p, heap₁) →
      rawCount h p heap₁ = .ok (arr.count, heap₁) ∧
      rawCapacity h p heap₁ = .ok (arr.capacity, heap₁) ∧
      ∀ j < arr.count, ∀ x, arr.slots j = some x ↔
        rawAt h L p j heap₁ = .ok (L.encode x, heap₁) := by
  constructor
  · intro heap heap₀
    constructor
    · rintro ⟨⟨p, heap₁⟩, hr⟩
      have hst := (rawProgram_reads ha hr).1
      obtain ⟨arr, heap₂, hnew⟩ : ∃ arr heap₂, daNew h .always heap = .ok (arr, heap₂) :=
        ⟨_, _, rfl⟩
      obtain ⟨arr', heap', hrun, -⟩ :=
        runOps_represents (represents_new hnew) L.size_pos ha hst
      exact ⟨_, (Prog.bind_ok hnew).trans hrun⟩
    · rintro ⟨⟨arr, heap'⟩, hr⟩
      have hst := (daProgram_represents ha hr).1
      obtain ⟨heap₁, b, hnew, hu, hb⟩ := rawNew_block h L heap₀
      obtain ⟨i', heap₂, b', hrun, -⟩ := rawRunOps_block hu.self hb ha hst
      exact ⟨_, (Prog.bind_ok hnew).trans hrun⟩
  · intro A B heap heap' heap₀ heap₁ arr p hr hraw
    have hrep := (daProgram_represents ha hr).2
    have hreads := (rawProgram_reads ha hraw).2
    refine ⟨hrep.count_eq ▸ hreads.count, hrep.capacity_eq ▸ hreads.capacity, fun j hj x => ?_⟩
    rw [hrep.count_eq] at hj
    have hy := List.getElem?_eq_getElem hj
    rw [(hrep.holds.2 j hj).trans hy, hreads.item j _ hy]
    constructor
    · rintro ⟨⟩
      rfl
    · intro hget
      injection hget with hpair
      rw [L.encode_injective (congrArg Prod.fst hpair)]

/-- Elements of one byte: two are appended, and the first one is removed. -/
theorem rawRuns_refine_sample :
    ∃ r, rawProgram ⟨.big, .w64⟩ .always .byte [.append 7, .append 8, .swapRemove 0] .empty =
      .ok r :=
  ((rawRuns_refine ⟨.big, .w64⟩ .byte [.append 7, .append 8, .swapRemove 0] (by decide)).1
    .empty .empty).mpr ⟨_, rfl⟩

/-! ## Runs on several arrays -/

namespace PoolHolds

variable (hp : PoolHolds h L heap₀ heap is ss)
include hp

theorem exists_array (hs : ss[k]? = some s) :
    ∃ i b, is[k]? = some i ∧ (is.map Ptr.block).getD k .null = .block i ∧
      heap.cells i = some b ∧ ArrayBlock h L b s := by
  obtain ⟨i, b, hi, hcell, hb⟩ := hp.arrays.exists_index hs
  refine ⟨i, b, hi, ?_, hcell, hb⟩
  rw [List.getD_eq_getElem?_getD, List.getElem?_map, hi]
  rfl

/-- Two arrays are never in one block. -/
theorem nodup : is.Nodup := by
  obtain ⟨done, ho⟩ := hp.owns
  exact (List.nodup_append.mp ho.nodup).1

/-- An operation on one array leaves the blocks of the others alone. -/
theorem cells_eq {kept : List Nat} (he : Effect heap i heap' i' b' kept) {j : Nat}
    (hj : j ∈ is) (hji : j ≠ i) : heap'.cells j = heap.cells j := by
  obtain ⟨done, ho⟩ := hp.owns
  obtain ⟨b₁, hcell₁⟩ := ho.exists_block hj
  exact he.other j (Heap.lt_next_of_cells hcell₁) hji

/-- One array is changed. -/
theorem set (hi : is[k]? = some i) (he : Effect heap i heap' i' b' [])
    (hb : ArrayBlock h L b' s) : PoolHolds h L heap₀ heap' (is.set k i') (ss.set k s) := by
  obtain ⟨done, ho⟩ := hp.owns
  obtain ⟨done', ho'⟩ := he.owns heap₀ _ done (ho.perm (eraseIdx_perm hi).symm)
  exact ⟨hp.arrays.set hp.nodup hi (fun j hj hji => hp.cells_eq he hj hji) he.self hb, done',
    ho'.perm (set_perm (List.getElem?_eq_some_iff.mp hi).1 i')⟩

/-- One array is copied, and stays. -/
theorem copied (hi : is[k]? = some i) (he : Effect heap i heap' i' b' [i])
    (hb : ArrayBlock h L b' s) : PoolHolds h L heap₀ heap' (is ++ [i']) (ss ++ [s]) := by
  obtain ⟨done, ho⟩ := hp.owns
  obtain ⟨done', ho'⟩ := he.owns heap₀ _ done (ho.perm (eraseIdx_perm hi).symm)
  refine ⟨hp.arrays.push he.self hb fun j hj => ?_, done', ho'.perm ?_⟩
  · by_cases hji : j = i
    · subst hji
      exact (he.kept_eq j List.mem_cons_self).2
    · exact hp.cells_eq he hj hji
  · exact ((eraseIdx_perm hi).cons i').trans (List.perm_append_singleton i' is).symm

/-- One array is freed. -/
theorem freed (hi : is[k]? = some i) :
    PoolHolds h L heap₀ (heap.drop i) (is.eraseIdx k) (ss.eraseIdx k) := by
  obtain ⟨done, ho⟩ := hp.owns
  refine ⟨hp.arrays.erase hp.nodup hi fun j _ hji => ?_, _,
    (ho.perm (eraseIdx_perm hi).symm).drop⟩
  rw [Heap.drop_cells, if_neg hji]

theorem reads : List.Forall₂ (ReadsAs h L heap) (is.map Ptr.block) ss := by
  rw [List.forall₂_iff_get]
  refine ⟨by rw [List.length_map, hp.arrays.length_eq], fun k hk hk' => ?_⟩
  obtain ⟨i, b, hi, -, hcell, hb⟩ := hp.exists_array (List.getElem?_eq_getElem hk')
  rw [List.get_eq_getElem, List.getElem_map, (List.getElem?_eq_some_iff.mp hi).2]
  exact hb.readsAs hcell

end PoolHolds

variable {op : PoolOp α} {pops : List (PoolOp α)}

/-- A step that the caller may take, and that is not stuck, does to the arrays what it
does to the lists. -/
theorem PoolOp.run_holds (hp : PoolHolds h L heap₀ heap is ss) (ha : op.Allowed h L.size ss)
    (hst : ¬ op.Stuck ss) :
    ∃ is' heap', op.run h .always L (is.map .block) heap = .ok (is'.map .block, heap') ∧
      PoolHolds h L heap₀ heap' is' (op.apply ss) := by
  cases op with
  | new =>
    obtain ⟨heap', b', hnew, hu, hb'⟩ := rawNew_block h L heap
    obtain ⟨done, ho⟩ := hp.owns
    refine ⟨is ++ [heap.next], heap', ?_, hp.arrays.push hu.self hb' fun j hj => ?_, done,
      (hu.owns heap₀ is done (ho.new _ _)).perm (List.perm_append_singleton _ is).symm⟩
    · rw [PoolOp.run, Prog.bind_ok hnew, List.map_append]
      rfl
    · obtain ⟨b₁, hcell₁⟩ := ho.exists_block hj
      have hne : j ≠ heap.next := Nat.ne_of_lt (Heap.lt_next_of_cells hcell₁)
      rw [hu.other j hne, Heap.alloc, Heap.new_cells, if_neg hne]
  | on k op =>
    obtain ⟨s, hs, ha⟩ := ha
    obtain ⟨i, b, hi, hptr, hcell, hb⟩ := hp.exists_array hs
    have hst' : ¬ op.Stuck s := fun hc => hst ⟨s, hs, hc⟩
    obtain ⟨i', heap', b', hrun, he, hb'⟩ := op.rawRun_block hcell hb ha hst'
    have happly : (PoolOp.on k op).apply ss = op.keep ss k (s.after op) := by
      rw [PoolOp.apply, hs]
    rw [happly]
    refine ⟨op.keep is k i', heap', ?_, ?_⟩
    · rw [PoolOp.run, hptr, Prog.bind_ok hrun]
      cases op with
      | copy => simp only [ArrayOp.keep, List.map_append]; rfl
      | append | extend | reserve | pop | swapRemove | clear =>
        simp only [ArrayOp.keep, List.map_set]; rfl
    · cases op with
      | copy => exact hp.copied hi he hb'
      | append | extend | reserve | pop | swapRemove | clear => exact hp.set hi he hb'
  | free k =>
    have hs := List.getElem?_eq_getElem ha
    obtain ⟨i, b, hi, hptr, hcell, -⟩ := hp.exists_array hs
    refine ⟨is.eraseIdx k, heap.drop i, ?_, hp.freed hi⟩
    rw [PoolOp.run, hptr, rawFree, Prog.bind_ok (free_block hcell), List.eraseIdx_map]
    rfl

theorem PoolOp.run_stuck (hp : PoolHolds h L heap₀ heap is ss) (hst : op.Stuck ss) :
    ∃ heap', op.run h .always L (is.map .block) heap = .error (.writePastEnd, heap') := by
  cases op with
  | on k op =>
    obtain ⟨s, hs, hst⟩ := hst
    obtain ⟨i, b, hi, hptr, hcell, hb⟩ := hp.exists_array hs
    obtain ⟨heap', hstop⟩ := op.rawRun_stuck hcell hb hst
    refine ⟨heap', ?_⟩
    rw [PoolOp.run, hptr]
    exact Prog.bind_error hstop
  | new | free k => exact absurd hst not_false

theorem PoolOp.run_tame (arrs : List Ptr) (op : PoolOp α) :
    Tame (fun _ => True) (fun A => op.run h A L arrs) fun _ => True := by
  cases op with
  | new => exact rawNew_tame.bind fun _ _ => .const (.pure trivial)
  | on k op => exact (op.rawRun_tame fun _ _ => trivial).bind fun _ _ => .const (.pure trivial)
  | free k =>
    exact .const <| (free_within fun _ _ => trivial).bind fun _ _ => .pure trivial

theorem runPool_tame (arrs : List Ptr) (pops : List (PoolOp α)) :
    Tame (fun _ => True) (fun A => runPool h A L arrs pops) fun _ => True := by
  induction pops generalizing arrs with
  | nil => exact .const (.pure trivial)
  | cons op pops ih => exact (op.run_tame arrs).bind fun arrs _ => ih arrs

/-- A whole program with memory in plenty. -/
theorem runPool_always (hp : PoolHolds h L heap₀ heap is ss)
    (ha : AllowedPool h L.size ss pops) :
    (PoolNeverStuck ss pops ∧ ∃ is' heap',
      runPool h .always L (is.map .block) pops heap = .ok (is'.map .block, heap') ∧
        PoolHolds h L heap₀ heap' is' (pops.foldl PoolOp.apply ss)) ∨
    ¬ PoolNeverStuck ss pops ∧ ∃ heap',
      runPool h .always L (is.map .block) pops heap = .error (.writePastEnd, heap') := by
  induction pops generalizing heap is ss with
  | nil => exact .inl ⟨trivial, is, heap, rfl, hp⟩
  | cons op pops ih =>
    by_cases hst : op.Stuck ss
    · obtain ⟨heap', hstop⟩ := op.run_stuck hp hst
      exact .inr ⟨fun hn => hn.1 hst, heap', Prog.bind_error hstop⟩
    · obtain ⟨is₁, heap₁, hrun, hp₁⟩ := op.run_holds hp ha.1 hst
      rcases ih hp₁ ha.2 with ⟨hn, is', heap', hruns, hp'⟩ | ⟨hn, heap', hstop⟩
      · exact .inl ⟨⟨hst, hn⟩, is', heap', (Prog.bind_ok hrun).trans hruns, hp'⟩
      · exact .inr ⟨fun hc => hn hc.2, heap', (Prog.bind_ok hrun).trans hstop⟩

/-- A program with several arrays, on any heap and with any allocator, whose operations are
on arrays that are there, within their preconditions, and grow them to sizes that are a
`size_t`. When it comes to its end, no `da_append` of it was stuck; its arrays read as the
lists on which the same operations were done, each in a block of its own; these blocks are
all that it has allocated and not freed, and the blocks that were there before are as they
were. It is ended early only by the allocation that was refused, or by a stuck
`da_append`. -/
theorem runPool_behaves (h : Host) (L : Layout α) (A : Allocator) (pops : List (PoolOp α))
    (heap₀ : Heap) (ha : AllowedPool h L.size [] pops) :
    (∀ arrs heap, runPool h A L [] pops heap₀ = .ok (arrs, heap) →
      PoolNeverStuck [] pops ∧ ∃ is done, arrs = is.map .block ∧ heap₀.Owns heap is done ∧
        List.Forall₂ (ReadsAs h L heap) arrs (pops.foldl PoolOp.apply [])) ∧
    ∀ e, runPool h A L [] pops heap₀ = .error e →
      (Refused A e fun A' => runPool h A' L [] pops heap₀ = .error e) ∨
        e.1 = .writePastEnd ∧ ¬ PoolNeverStuck [] pops := by
  have hnone : PoolHolds h L heap₀ heap₀ [] ([] : List (Plain α)) :=
    ⟨.nil _ heap₀, [], .refl heap₀⟩
  have hstop : FailStop fun A => runPool h A L [] pops := (runPool_tame [] pops).failStop
  rcases runPool_always hnone ha with ⟨hn, is, heap', hrun, hp⟩ | ⟨hn, heap', hrun⟩
  · constructor
    · intro arrs heap hr
      cases (hstop.ok hr).symm.trans hrun
      obtain ⟨done, ho⟩ := hp.owns
      exact ⟨hn, is, done, rfl, ho, hp.reads⟩
    · intro e he
      rcases hstop.error he with href | hover
      · exact .inl href
      · cases hover.symm.trans hrun
  · constructor
    · intro arrs heap hr
      cases (hstop.ok hr).symm.trans hrun
    · intro e he
      rcases hstop.error he with href | hover
      · exact .inl href
      · cases hover.symm.trans hrun
        exact .inr ⟨rfl, hn⟩

/-- An array is copied, the copy is extended, and the first one is freed. -/
theorem runPool_behaves_sample :
    ∃ arr heap, runPool ⟨.little, .w64⟩ .always .byte []
        [.new, .on 0 (.append 7), .on 0 .copy, .on 1 (.extend [8, 9]), .free 0] .empty =
          .ok ([arr], heap) ∧
      ReadsAs ⟨.little, .w64⟩ .byte heap arr ⟨[7, 8, 9], 3⟩ := by
  obtain ⟨arr, heap, hrun⟩ : ∃ arr heap, runPool ⟨.little, .w64⟩ .always .byte []
      [.new, .on 0 (.append 7), .on 0 .copy, .on 1 (.extend [8, 9]), .free 0] .empty =
        .ok ([arr], heap) := ⟨_, _, rfl⟩
  obtain ⟨-, is, done, -, -, hreads⟩ := (runPool_behaves ⟨.little, .w64⟩ .byte .always
    [.new, .on 0 (.append 7), .on 0 .copy, .on 1 (.extend [8, 9]), .free 0] .empty
    (by decide)).1 _ _ hrun
  exact ⟨arr, heap, hrun, (List.forall₂_cons.mp hreads).1⟩

end Tlv
