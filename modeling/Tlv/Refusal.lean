import Tlv.Accessors
import Tlv.ArrayRuns
import Tlv.Lib.FailStop

/-!
# Allocations that are refused

Every allocation of the library is checked with `exists`, so an allocator that
refuses one can only end the process. What a call returns under such an allocator
is what it returns with memory in plenty, at the same addresses and on the same
heap; and when the process ends for want of memory, it ends at the request that was
refused.

Each function is shown to be `Tame`: it keeps to the blocks that its arguments point to
and those that it allocates, and ends at refused requests only (`emitFrame_tame` to
`messageFree_within`). Result: what this says of refused requests, for each function of
the library, in one statement (`library_failStop`).
-/

namespace Tlv
open Lib

variable {h : Host} {A : Allocator} {α β : Type} {mine : Nat → Prop}

/-- The process has ended for want of memory, at a request that `A` refuses. -/
abbrev Refused (A : Allocator) (e : Fault × Heap) (ends : Allocator → Prop) : Prop :=
  Prog.Refused .nullPointer A e ends

theorem not_refused_always {e : Fault × Heap} {ends : Allocator → Prop} :
    ¬Refused .always e ends := by
  rintro ⟨-, -, n, hn, -⟩
  cases hn

/-- A program does what it does with memory in plenty, or ends at a refused request. -/
abbrev FailStop (p : Allocator → CProg α) : Prop := Prog.FailStop .nullPointer Allocator.always p

abbrev Tame (mine : Nat → Prop) (p : Allocator → CProg α) (Q : α → Prop) : Prop :=
  Prog.Tame .nullPointer Allocator.always mine p Q

/-- A pointer to a block that the program may use. -/
def Ptr.In (mine : Nat → Prop) (p : Ptr) : Prop := ∀ i, p = .block i → mine i

theorem Ptr.null_in : Ptr.null.In mine := fun _ hp => by cases hp

/-! ## The C library -/

theorem malloc_within (n : Nat) : Prog.Within mine (malloc A n) (Ptr.In mine) := by
  intro heap hfresh
  by_cases hA : A heap.next n = true
  · rw [malloc_granted hA]
    refine ⟨fun p heap' hr => ?_, fun e heap' hr => by cases hr⟩
    cases hr
    refine ⟨.new hfresh n Mem.empty, fun i hi => ?_⟩
    cases hi
    exact hfresh _ (Nat.le_refl _)
  · rw [malloc_refused hA]
    refine ⟨fun p heap' hr => ?_, fun e heap' hr => by cases hr⟩
    cases hr
    exact ⟨.refl mine heap, Ptr.null_in⟩

theorem realloc_within {p : Ptr} (hp : p.In mine) (n : Nat) :
    Prog.Within mine (realloc A p n) (Ptr.In mine) := by
  cases p with
  | null => exact malloc_within n
  | bits k =>
    refine fun heap _ => ⟨fun p heap' hr => (by cases hr), fun e heap' hr => ?_⟩
    cases hr
    exact .refl mine heap
  | block i =>
    intro heap hfresh
    have hdrop : heap.LeavesAlone mine (heap.drop i) := .drop (hp i rfl) heap
    cases hb : heap.cells i with
    | none =>
      have hdead : realloc A (.block i) n heap = .error (.badFree, heap) := by
        simp only [realloc, Heap.realloc, hb, Option.map_none]
      rw [hdead]
      refine ⟨fun p heap' hr => (by cases hr), fun e heap' hr => ?_⟩
      cases hr
      exact .refl mine heap
    | some b =>
      by_cases hA : A heap.next n = true
      · rw [realloc_granted hb hA]
        refine ⟨fun p heap' hr => ?_, fun e heap' hr => by cases hr⟩
        cases hr
        refine ⟨hdrop.trans (.new (hdrop.fresh hfresh) n _), fun j hj => ?_⟩
        cases hj
        exact hfresh _ (Nat.le_refl _)
      · rw [realloc_refused hb hA]
        refine ⟨fun p heap' hr => ?_, fun e heap' hr => by cases hr⟩
        cases hr
        exact ⟨.refl mine heap, Ptr.null_in⟩

theorem free_within {p : Ptr} (hp : p.In mine) : Prog.Within mine (free p) fun _ => True := by
  intro heap hfresh
  cases p with
  | null =>
    refine ⟨fun u heap' hr => ?_, fun e heap' hr => by cases hr⟩
    cases hr
    exact ⟨.refl mine heap, trivial⟩
  | bits k =>
    refine ⟨fun u heap' hr => (by cases hr), fun e heap' hr => ?_⟩
    cases hr
    exact .refl mine heap
  | block i =>
    cases hb : heap.cells i with
    | none =>
      have hdead : free (.block i) heap = .error (.badFree, heap) := by
        simp [free, Heap.free, hb]
      rw [hdead]
      refine ⟨fun u heap' hr => (by cases hr), fun e heap' hr => ?_⟩
      cases hr
      exact .refl mine heap
    | some b =>
      rw [free_block hb]
      refine ⟨fun u heap' hr => ?_, fun e heap' hr => by cases hr⟩
      cases hr
      exact ⟨.drop (hp i rfl) heap, trivial⟩

theorem memcpyTo_within {p : Ptr} (hp : p.In mine) (off : Nat) (bs : List Byte) :
    Prog.Within mine (memcpyTo p off bs) fun _ => True := by
  intro heap hfresh
  constructor
  · intro u heap' hr
    cases p with
    | null | bits k => cases hr
    | block i =>
      obtain ⟨b, -, hs⟩ := Option.bind_eq_some_iff.mp (memcpyTo_ok hr)
      split at hs
      · cases hs
        exact ⟨.set (hp i rfl) heap _, trivial⟩
      · cases hs
  · intro e heap' hr
    have hsame : heap' = heap := by
      cases p with
      | null | bits k =>
        cases hr
        rfl
      | block i =>
        simp only [memcpyTo] at hr
        split at hr
        · cases hr
          rfl
        · cases hr
    rw [hsame]
    exact .refl mine heap

theorem memcpyFrom_within (m : Mem) (off n : Nat) :
    Prog.Within mine (memcpyFrom m off n) fun _ => True := by
  unfold memcpyFrom
  cases m.read off n with
  | some bs => exact .pure trivial
  | none => exact .stop _

theorem lend_within (b : Buffer Ptr) : Prog.Within mine (lend b) fun _ => True := by
  refine fun heap _ => ⟨fun a heap' hr => ?_, fun e heap' hr => by cases hr⟩
  cases hr
  exact ⟨.refl mine heap, trivial⟩

theorem loadFrom_within (m : Mem) (off n : Nat) :
    Prog.Within mine (loadFrom h m off n) fun _ => True :=
  (memcpyFrom_within m off n).bind fun _ _ => .pure trivial

theorem existsPtr_within (p : Ptr) : Prog.Within mine (existsPtr p) fun _ => True :=
  .ite (.stop _) (.pure trivial)

theorem malloc_exists_tame (n : Nat) {f : Allocator → Ptr → CProg α} {Q : α → Prop}
    (hf : ∀ p, p.In mine → Tame mine (fun A => f A p) Q) :
    Tame mine (fun A => do let p ← malloc A n; existsPtr p; f A p) Q where
  within := fun A => (malloc_within n).bind fun p hp =>
    (existsPtr_within p).bind fun _ _ => (hf p hp).within A
  stops := fun A heap hfresh => by
    have hp : Ptr.In mine (.block heap.next) :=
      fun i hi => hfresh i (by cases hi; exact Nat.le_refl _)
    refine (hf _ hp).stops_request (h := heap) n
      ((Heap.LeavesAlone.new hfresh n Mem.empty).fresh hfresh) rfl rfl (fun A' hA' => ?_)
      (fun A' hA' => malloc_exists_refused hA') A
    rw [Prog.bind_ok (malloc_granted hA'), Prog.bind_ok (existsPtr_block _ _)]
    rfl

theorem realloc_exists_tame {p : Ptr} (hp : p.In mine) (n : Nat) {f : Allocator → Ptr → CProg α}
    {Q : α → Prop} (hf : ∀ p, p.In mine → Tame mine (fun A => f A p) Q) :
    Tame mine (fun A => do let p ← realloc A p n; existsPtr p; f A p) Q where
  within := fun A => (realloc_within hp n).bind fun p hp =>
    (existsPtr_within p).bind fun _ _ => (hf p hp).within A
  stops := fun A heap hfresh => by
    cases p with
    | null => exact (malloc_exists_tame n hf).stops A heap hfresh
    | bits k => exact .inl rfl
    | block i =>
      cases hb : heap.cells i with
      | none =>
        -- A block that is not live is no matter of the allocator.
        have hdead : ∀ B, realloc B (.block i) n heap = .error (.badFree, heap) := by
          intro B
          simp only [realloc, Heap.realloc, hb, Option.map_none]
        rw [Prog.bind_error (hdead A), Prog.bind_error (hdead .always)]
        exact .inl rfl
      | some b =>
        have hin : Ptr.In mine (.block heap.next) :=
          fun j hj => hfresh j (by cases hj; exact Nat.le_refl _)
        have hdrop : heap.LeavesAlone mine (heap.drop i) := .drop (hp i rfl) heap
        have hnew := hdrop.trans (.new (hdrop.fresh hfresh) n (b.mem.cut n))
        refine (hf _ hin).stops_request (h := heap) n (hnew.fresh hfresh) rfl rfl
          (q := fun A => do let p ← realloc A (.block i) n; existsPtr p; f A p)
          (fun A' hA' => ?_) (fun A' hA' => ?_) A
        · rw [Prog.bind_ok (realloc_granted hb hA'), Prog.bind_ok (existsPtr_block _ _)]
        · rw [Prog.bind_ok (realloc_refused hb hA')]
          exact Prog.bind_error rfl

/-! ## The sender -/

theorem emitFrame_tame (target : List Byte) (type : TypeTag) :
    Tame mine (fun A => emitFrame h A target type) fun b => b.bytes.In mine :=
  malloc_exists_tame _ fun _ hp => .const <| (memcpyTo_within hp _ _).bind fun _ _ =>
    (memcpyTo_within hp _ _).bind fun _ _ => (memcpyTo_within hp _ _).bind fun _ _ => .pure hp

theorem complexSerialize_tame (val : Buffer Mem) (type : TypeTag) :
    Tame mine (fun A => complexSerialize h A val type) fun b => b.bytes.In mine :=
  malloc_exists_tame _ fun _ hp => .const <| .ite (.stop _) <|
    (memcpyTo_within hp _ _).bind fun _ _ => (memcpyTo_within hp _ _).bind fun _ _ =>
      (memcpyFrom_within _ _ _).bind fun _ _ => (memcpyTo_within hp _ _).bind fun _ _ => .pure hp

theorem Call.run_tame (c : Call) :
    Tame mine (fun A => c.run h A) fun b => b.bytes.In mine := by
  cases c with
  | str | bin | err | cstr => exact complexSerialize_tame _ _
  | _ => exact emitFrame_tame _ _

/-- `buf_append` uses the blocks of both of its arguments. -/
theorem bufAppend_tame {base after : Buffer Ptr} (hb : base.bytes.In mine)
    (ha : after.bytes.In mine) :
    Tame mine (fun A => bufAppend h A base after) fun b => b.bytes.In mine :=
  realloc_exists_tame hb _ fun _ hp => .const <| (lend_within _).bind fun _ _ =>
    (memcpyFrom_within _ _ _).bind fun _ _ => (memcpyTo_within hp _ _).bind fun _ _ =>
      (free_within ha).bind fun _ _ => .pure hp

theorem joinAll_tame (cs : List Call) {stream : Buffer Ptr} (hs : stream.bytes.In mine) :
    Tame mine (fun A => joinAll h A stream (cs.map (Call.run h A))) fun b => b.bytes.In mine := by
  induction cs generalizing stream with
  | nil => exact .const (.pure hs)
  | cons c cs ih =>
    exact c.run_tame.bind fun _ hframe => (bufAppend_tame hs hframe).bind fun _ hs => ih hs

theorem sendStream_tame (cs : List Call) :
    Tame mine (fun A => sendStream h A cs) fun b => b.bytes.In mine := by
  cases cs with
  | nil => exact .const (.pure Ptr.null_in)
  | cons c cs => exact c.run_tame.bind fun _ hs => joinAll_tame cs hs

/-! ## Arrays -/

section Arrays
variable {arr : DynArr α} (ha : arr.header.In mine) (size : Nat)

theorem daNew_tame : Tame mine (fun A => daNew (α := α) h A) fun arr => arr.header.In mine :=
  malloc_exists_tame _ fun _ hp => .const (.pure hp)

theorem daRead_within (i : Nat) : Prog.Within mine (daRead arr i) fun _ => True := by
  unfold daRead
  cases arr.slots i with
  | some x => exact .pure trivial
  | none => exact .stop _

theorem daCopy_tame : Tame mine (fun A => daCopy h A size arr) fun arr => arr.header.In mine :=
  malloc_exists_tame _ fun _ hp => .const (.pure hp)

include ha

theorem daRealloc_tame (capacity : Nat) :
    Tame mine (fun A => daRealloc h A size arr capacity) fun arr => arr.header.In mine :=
  realloc_exists_tame ha _ fun _ hp => .const (.pure hp)

theorem daWrite_within (i : Nat) (elem : α) :
    Prog.Within mine (daWrite arr i elem) fun arr => arr.header.In mine :=
  .ite (.pure ha) (.stop _)

theorem daAppend_tame (elem : α) :
    Tame mine (fun A => daAppend h A size arr elem) fun arr => arr.header.In mine :=
  .after (existsPtr_within _) fun _ _ =>
    ((daRealloc_tame ha size _).ite (.const (.pure ha))).bind fun _ ha =>
      .const <| (daWrite_within ha _ _).bind fun _ ha => .pure ha

theorem daReserve_tame (n : Nat) :
    Tame mine (fun A => daReserve h A size arr n) fun arr => arr.header.In mine :=
  (daRealloc_tame ha size n).ite (.const (.pure ha))

theorem daWriteAll_within (i : Nat) (xs : List α) :
    Prog.Within mine (daWriteAll arr i xs) fun arr => arr.header.In mine := by
  induction xs generalizing arr i with
  | nil => exact .pure ha
  | cons x xs ih => exact (daWrite_within ha i x).bind fun _ ha => ih ha (i + 1)

theorem daPop_within :
    Prog.Within mine (daPop h arr) fun r => r.2.header.In mine :=
  (daRead_within _).bind fun _ _ => .pure ha

theorem ArrayOp.run_tame (op : ArrayOp α) :
    Tame mine (fun A => op.run h A size arr) fun arr => arr.header.In mine := by
  cases op with
  | append elem => exact daAppend_tame ha size elem
  | extend elems =>
    exact (daReserve_tame ha size _).bind fun _ ha =>
      .const <| (daWriteAll_within ha _ elems).bind fun _ ha => .pure ha
  | reserve n => exact daReserve_tame ha size n
  | pop => exact .after (daPop_within ha) fun _ ha => .const (.pure ha)
  | swapRemove i =>
    exact .const <| .ite (.stop _) <| (daRead_within _).bind fun _ _ =>
      (daWrite_within ha _ _).bind fun _ ha => .pure ha
  | clear => exact .const (.pure ha)
  | copy => exact daCopy_tame size

theorem runOps_tame (ops : List (ArrayOp α)) :
    Tame mine (fun A => runOps h A size arr ops) fun arr => arr.header.In mine := by
  induction ops generalizing arr with
  | nil => exact .const (.pure ha)
  | cons op ops ih => exact (op.run_tame ha size).bind fun _ ha => ih ha

end Arrays

/-! ## The receiver -/

theorem decodeValue_tame (m : Mem) (current len : Nat) (t : TypeTag) :
    Tame mine (fun A => decodeValue h A m current len t) fun _ => True := by
  have hpayload : Tame mine (fun A => decodePayload A m current len) fun _ => True :=
    malloc_exists_tame _ fun _ hp => .const <| (memcpyFrom_within _ _ _).bind fun _ _ =>
      (memcpyTo_within hp _ _).bind fun _ _ => .pure trivial
  cases t with
  | nul => exact .const (.pure trivial)
  | str | bin | err => exact hpayload.bind fun _ _ => .const (.pure trivial)
  | _ => exact .after (loadFrom_within _ _ _) fun _ _ => .const (.pure trivial)

theorem deserializePass_tame (m : Mem) {s : DecodeState} (hs : s.messages.header.In mine) :
    Tame mine (fun A => deserializePass h A m s) fun s => s.messages.header.In mine := by
  refine .after (loadFrom_within _ _ _) fun tag _ =>
    .after (loadFrom_within _ _ _) fun _ _ => ?_
  cases TypeTag.ofByte (UInt8.ofNat tag) with
  | none => exact .const (.stop _)
  | some type =>
    exact (decodeValue_tame _ _ _ _).bind fun _ _ =>
      (daAppend_tame hs _ _).bind fun _ hs => .const (.pure hs)

theorem expectMember_within (wanted : TypeTag) (member : Union (Buffer Ptr) → Option α)
    (m : Message (Buffer Ptr)) :
    Prog.Within mine (expectMember wanted member m) fun _ => True := by
  refine .ite ?_ (.stop _)
  cases member m.val with
  | some a => exact .pure trivial
  | none => exact .stop _

theorem access_within (m : Message (Buffer Ptr)) (t : TypeTag) :
    Prog.Within mine (access m t) fun _ => True := by
  have hcopy : ∀ b, Prog.Within mine (copyOut b) fun _ => True := fun b =>
    (lend_within b).bind fun _ _ => memcpyFrom_within _ _ _
  cases t with
  | nul => exact .stop _
  | str | bin | err =>
    exact (expectMember_within _ _ m).bind fun _ _ => (hcopy _).bind fun _ _ => .pure trivial
  | _ => exact (expectMember_within _ _ m).bind fun _ _ => .pure trivial

theorem messageCstr_tame (m : Message (Buffer Ptr)) :
    Tame mine (fun A => messageCstr h A m) (Ptr.In mine) :=
  .after (expectMember_within _ _ m) fun _ _ => malloc_exists_tame _ fun _ hp =>
    .const <| (lend_within _).bind fun _ _ => (memcpyFrom_within _ _ _).bind fun _ _ =>
      (memcpyTo_within hp _ _).bind fun _ _ => (memcpyTo_within hp _ _).bind fun _ _ => .pure hp

theorem reserialize_tame (m : Message (Buffer Ptr)) :
    Tame mine (fun A => reserialize h A m) fun b => b.bytes.In mine := by
  unfold reserialize
  cases m.type with
  | nul => exact .const (.stop _)
  | str | bin | err =>
    exact .after (expectMember_within _ _ m) fun _ _ =>
      .after (lend_within _) fun _ _ => complexSerialize_tame _ _
  | _ =>
    exact .after (expectMember_within _ _ m) fun _ _ => emitFrame_tame _ _

/-- `message_free` uses the block of the pointer that it passes to `free`. -/
theorem messageFree_within {m : Message (Buffer Ptr)}
    (hm : ∀ p, freeArgument m = some p → p.In mine) :
    Prog.Within mine (messageFree m) fun _ => True := by
  rw [messageFree_eq]
  cases harg : freeArgument m with
  | none => exact .pure trivial
  | some p => exact (free_within (hm p harg)).bind fun _ _ => .pure trivial

/-! ## In one statement -/

theorem Call.run_failStop (c : Call) : FailStop fun A => c.run h A := c.run_tame.failStop

theorem bufAppend_failStop (base after : Buffer Ptr) : FailStop fun A => bufAppend h A base after :=
  (bufAppend_tame (fun _ _ => trivial) fun _ _ => trivial).failStop

theorem messageCstr_failStop (m : Message (Buffer Ptr)) : FailStop fun A => messageCstr h A m :=
  (messageCstr_tame m).failStop

theorem reserialize_failStop (m : Message (Buffer Ptr)) : FailStop fun A => reserialize h A m :=
  (reserialize_tame m).failStop

theorem runOps_failStop (size : Nat) (arr : DynArr α) (ops : List (ArrayOp α)) :
    FailStop fun A => runOps h A size arr ops :=
  (runOps_tame (fun _ _ => trivial) size ops).failStop

/-- For each number of passes that the loop may make. -/
theorem deserialize_failStop (buf : Buffer (Option Mem)) (passes : Nat) (A : Allocator)
    (heap : Heap) :
    deserialize h A buf passes heap = deserialize h .always buf passes heap ∨
      ∃ e, Refused A e fun A' => deserialize h A' buf passes heap = some (.error e) := by
  unfold deserialize
  cases buf.bytes with
  | none => exact .inl rfl
  | some m =>
    have hfresh : heap.Fresh fun _ => True := fun _ _ => trivial
    have hnew : Tame (fun _ => True) (fun A => daNew (α := Message (Buffer Ptr)) h A) _ :=
      daNew_tame
    rcases hnew.stops A heap hfresh with heq | ⟨e, hrefused, -⟩
    · cases hq : daNew (α := Message (Buffer Ptr)) h .always heap with
      | error e =>
        left
        simp only [heq, hq]
      | ok r =>
        obtain ⟨messages, heap₁⟩ := r
        rcases WhileLoop.run_tame (l := fun A => deserializeLoop h A m buf.len)
          (p := fun A => deserializePass h A m) (B := Allocator.always)
          (I := fun s => s.messages.header.In fun _ => True) (fun _ _ => rfl) (fun _ _ => rfl)
          (fun s hs => deserializePass_tame m hs) A passes (s := (⟨0, 0, messages⟩, heap₁))
          (fun _ _ => trivial) (fun _ _ => trivial) with
          hrun | ⟨e, ⟨hnull, hA, k, hk, hbut⟩, hle⟩
        · left
          simp only [heq, hq, hrun]
        · refine .inr ⟨e, hnull, ?_, k, hk, ?_⟩
          · simp only [heq, hq, hA]
            rfl
          · simp only [hnew.allBut_ok hfresh hq hle k, hbut]
            rfl
    · refine .inr ⟨e, hrefused.mono fun A' hr => ?_⟩
      simp only [hr]

/-- Whatever the allocator refuses, and whenever: each function of the library comes
to what it comes to with memory in plenty, or ends the process at a request that was
refused, and that it would end at also if nothing else were. -/
theorem library_failStop (h : Host) :
    (∀ cs, FailStop fun A => sendStream h A cs) ∧
    (∀ buf passes A heap,
      deserialize h A buf passes heap = deserialize h .always buf passes heap ∨
        ∃ e, Refused A e fun A' => deserialize h A' buf passes heap = some (.error e)) ∧
    (∀ m, FailStop fun A => messageCstr h A m) ∧
    (∀ m, FailStop fun A => reserialize h A m) ∧
    ∀ α size (arr : DynArr α) ops, FailStop fun A => runOps h A size arr ops :=
  ⟨fun cs => (sendStream_tame cs).failStop, deserialize_failStop, messageCstr_failStop,
    reserialize_failStop, fun _ => runOps_failStop⟩

end Tlv
