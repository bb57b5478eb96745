import Tlv.Sizes

/-!
# Room for the capacity

`dynarr.h` calls the capacity the "number of elements the allocation can hold".
`da_append` asks for the capacity times the size of the expression it appends,
`da_reserve` and `da_extend` for the capacity times the size of an element, and
neither looks whether the product is a `size_t`. So the block may be smaller than
its capacity says: when the expression is narrower than an element, and when the
product wraps.

Results: in any run of the three macros the block has room for the capacity after each
step if and only if each size that the run asks for is large enough (`keepsRoom_iff`);
and each is, unless an expression is narrower than an element or a request wraps
(`capacityRuns_fit`).
-/

namespace Tlv
open Lib

variable {α : Type}

/-- Count and capacity, which decide what a macro asks for. -/
structure Shape where
  count : Nat
  capacity : Nat

def DynArr.shape (arr : DynArr α) : Shape := ⟨arr.count, arr.capacity⟩

/-- `arr[i] = elem`, whether or not the capacity has the index `i`. -/
def DynArr.put (arr : DynArr α) (i : Nat) (elem : α) : DynArr α :=
  { arr with slots := fun j => if j = i then some elem else arr.slots j }

/-- The `memcpy` of `da_extend`, element by element. -/
def DynArr.putAll (arr : DynArr α) (i : Nat) : List α → DynArr α
  | [] => arr
  | x :: xs => (arr.put i x).putAll (i + 1) xs

/-- A macro that adds elements, and its arguments. The `e` of an append is
`sizeof(elem)`, which may differ from the size of an element. -/
inductive GrowOp (α : Type)
  | append (e : Nat) (elem : α)
  | reserve (n : Nat)
  | extend (elems : List α)

namespace GrowOp

/-- The macro, on an array with elements of `E` bytes. None of the three looks where its
elements go, so a run does not end at an index that is not below the capacity: when a
wider expression was appended, that can still lie in the block. Where it does not, the
write is undefined behaviour; what the macros ask for depends on count and capacity alone,
and is followed here all the same. -/
def run (h : Host) (A : Allocator) (E : Nat) (arr : DynArr α) : GrowOp α → CProg (DynArr α)
  | .append e elem => do
    existsPtr arr.header
    let arr ← daGrow h A e arr
    pure { arr.put arr.count elem with count := h.sz (arr.count + 1) }
  | .reserve n => daReserve h A E arr n
  | .extend elems => do
    let count := arr.count
    let arr ← daReserve h A E arr (h.sz (count + elems.length))
    pure { arr.putAll count elems with count := h.sz (count + elems.length) }

/-- The elements that the macro reallocates for, if it does. -/
def request (h : Host) (s : Shape) : GrowOp α → Option Nat
  | .append _ _ => appendRequest h s.count s.capacity
  | .reserve n => reserveRequest s.capacity n
  | .extend elems => reserveRequest s.capacity (h.sz (s.count + elems.length))

/-- The size by which the macro counts them. -/
def operand (E : Nat) : GrowOp α → Nat
  | .append e _ => e
  | .reserve _ | .extend _ => E

/-- The count and the capacity behind the macro. -/
def after (h : Host) (s : Shape) (op : GrowOp α) : Shape where
  count :=
    match op with
    | .append _ _ => h.sz (s.count + 1)
    | .reserve _ => s.count
    | .extend elems => h.sz (s.count + elems.length)
  capacity := (op.request h s).getD s.capacity

end GrowOp

/-- The block has the bytes of the header and of as many elements as the capacity
says, counted without wrapping, so each of these elements lies inside. -/
def Covered (h : Host) (E : Nat) (arr : DynArr α) (heap : Heap) : Prop :=
  ∃ n, arr.blockSize heap = some n ∧ h.headerSize + arr.capacity * E ≤ n ∧
    ∀ i < arr.capacity, h.headerSize + i * E + E ≤ n

/-- The block has room for the capacity behind each macro of the run, unless the macro
has ended the process. -/
def StaysCovered (h : Host) (A : Allocator) (E : Nat) : DynArr α → Heap → List (GrowOp α) → Prop
  | _, _, [] => True
  | arr, heap, op :: ops =>
    (∀ f heap', op.run h A E arr heap = .error (f, heap') → f = .nullPointer) ∧
    ∀ arr' heap', op.run h A E arr heap = .ok (arr', heap') →
      Covered h E arr' heap' ∧ StaysCovered h A E arr' heap' ops

/-- A new array has room for its capacity, and keeps it through the run. -/
def KeepsRoom (h : Host) (E : Nat) (ops : List (GrowOp α)) : Prop :=
  ∀ A heap (arr : DynArr α) heap', daNew h A heap = .ok (arr, heap') →
    Covered h E arr heap' ∧ StaysCovered h A E arr heap' ops

/-- `P size c` of each reallocation of the run, which is to `c` elements that are counted
by `size` bytes. -/
def EachRequest (P : Nat → Nat → Prop) (h : Host) (E : Nat) : Shape → List (GrowOp α) → Prop
  | _, [] => True
  | s, op :: ops =>
    (∀ c ∈ op.request h s, P (op.operand E) c) ∧ EachRequest P h E (op.after h s) ops

instance decidableEachRequest (P : Nat → Nat → Prop) [∀ size c, Decidable (P size c)] (h : Host)
    (E : Nat) : (s : Shape) → (ops : List (GrowOp α)) → Decidable (EachRequest P h E s ops)
  | _, [] => inferInstanceAs (Decidable True)
  | s, op :: ops =>
    have := decidableEachRequest P h E (op.after h s) ops
    inferInstanceAs (Decidable (_ ∧ _))

/-- Elements are not counted by too few bytes, and the request is a `size_t`. -/
def Fits (h : Host) (E size c : Nat) : Prop :=
  c = 0 ∨ E ≤ size ∧ h.headerSize + c * size < h.szMod

instance (h : Host) (E size c : Nat) : Decidable (Fits h E size c) :=
  inferInstanceAs (Decidable (_ ∨ _))

/-- If elements are counted by too many bytes, the request is a `size_t`. -/
def WideFits (h : Host) (E size c : Nat) : Prop := E < size → h.headerSize + c * size < h.szMod

instance (h : Host) (E size c : Nat) : Decidable (WideFits h E size c) :=
  inferInstanceAs (Decidable (_ → _))

variable {h : Host} {A : Allocator} {E size c n : Nat} {arr arr' : DynArr α} {heap heap' : Heap}
  {s : Shape} {op : GrowOp α} {ops : List (GrowOp α)} {P Q : Nat → Nat → Prop}

/-! ## Requests -/

theorem EachRequest.mono (hpq : ∀ size c, P size c → Q size c) (hp : EachRequest P h E s ops) :
    EachRequest Q h E s ops := by
  induction ops generalizing s with
  | nil => trivial
  | cons op ops ih => exact ⟨fun c hc => hpq _ c (hp.1 c hc), ih hp.2⟩

theorem EachRequest.and (hp : EachRequest P h E s ops) (hq : EachRequest Q h E s ops) :
    EachRequest (fun size c => P size c ∧ Q size c) h E s ops := by
  induction ops generalizing s with
  | nil => trivial
  | cons op ops ih => exact ⟨fun c hc => ⟨hp.1 c hc, hq.1 c hc⟩, ih hp.2 hq.2⟩

/-- The bytes that are asked for are those of the header and the elements, modulo what a
`size_t` can count. -/
theorem daBytes_eq_mod (h : Host) (size c : Nat) :
    daBytes h size c = (h.headerSize + c * size) % h.szMod := Nat.add_mod_mod _ _ _

theorem Fits.enough (hf : Fits h E size c) : h.headerSize + c * E ≤ daBytes h size c := by
  rcases hf with rfl | ⟨hle, hlt⟩
  · rw [daBytes_eq_mod, Nat.zero_mul, Nat.zero_mul, Nat.add_zero, Nat.mod_eq_of_lt h.headerSize_lt]
  · rw [daBytes_of_lt hlt]
    exact Nat.add_le_add_left (Nat.mul_le_mul_left c hle) _

/-- A request that is large enough does not wrap, unless the expression is wider than an
element. -/
theorem fits_of_enough (hw : WideFits h E size c)
    (hle : h.headerSize + c * E ≤ daBytes h size c) : Fits h E size c := by
  rw [daBytes_eq_mod] at hle
  rcases Nat.eq_zero_or_pos c with hc | hc
  · exact .inl hc
  have hmod : (h.headerSize + c * size) % h.szMod ≤ h.headerSize + c * size := Nat.mod_le _ _
  have hlt : (h.headerSize + c * size) % h.szMod < h.szMod :=
    Nat.mod_lt _ (Nat.zero_lt_of_lt h.headerSize_lt)
  have hmul : c * E ≤ c * size := Nat.le_of_add_le_add_left (hle.trans hmod)
  have hsize : E ≤ size := Nat.le_of_mul_le_mul_left hmul hc
  refine .inr ⟨hsize, ?_⟩
  rcases Nat.eq_or_lt_of_le hsize with rfl | hwide
  · exact Nat.lt_of_le_of_lt hle hlt
  · exact hw hwide

/-! ## One macro -/

theorem covered_iff (hb : arr.blockSize heap = some n) :
    Covered h E arr heap ↔ h.headerSize + arr.capacity * E ≤ n := by
  constructor
  · rintro ⟨n', hb', hle, -⟩
    rw [hb] at hb'
    cases hb'
    exact hle
  · intro hle
    refine ⟨n, hb, hle, fun i hi => ?_⟩
    have hmul := Nat.mul_le_mul_right E (Nat.succ_le_of_lt hi)
    rw [Nat.succ_mul] at hmul
    exact (Nat.add_assoc _ _ _).le.trans ((Nat.add_le_add_left hmul _).trans hle)

theorem DynArr.putAll_eq (arr : DynArr α) (i : Nat) (elems : List α) :
    ∃ slots, arr.putAll i elems = { arr with slots := slots } := by
  induction elems generalizing arr i with
  | nil => exact ⟨arr.slots, rfl⟩
  | cons x xs ih => exact ih (arr.put i x) (i + 1)

theorem daWriteAll_ok {i : Nat} {elems : List α}
    (hr : daWriteAll arr i elems heap = .ok (arr', heap')) :
    arr' = arr.putAll i elems ∧ heap' = heap := by
  induction elems generalizing arr i with
  | nil =>
    cases hr
    exact ⟨rfl, rfl⟩
  | cons x xs ih =>
    obtain ⟨arr₁, heap₁, hwrite, hr⟩ := Prog.bind_eq_ok.mp hr
    obtain ⟨-, rfl, rfl⟩ := daWrite_cases hwrite
    exact ih hr

namespace GrowOp

/-- A macro does what growing does, and then leaves the block and the heap alone. -/
theorem run_cases (hb : arr.blockSize heap = some n) (A : Allocator) (op : GrowOp α) :
    (∃ arr₁ arr' heap', daResize h A (op.operand E) arr (op.request h arr.shape) heap =
        .ok (arr₁, heap') ∧ op.run h A E arr heap = .ok (arr', heap') ∧
        arr'.header = arr₁.header ∧ arr'.shape = op.after h arr.shape) ∨
      ∃ e, daResize h A (op.operand E) arr (op.request h arr.shape) heap = .error e ∧
        op.run h A E arr heap = .error e := by
  cases hg : daResize h A (op.operand E) arr (op.request h arr.shape) heap with
  | error e =>
    refine .inr ⟨e, rfl, ?_⟩
    cases op with
    | append size elem =>
      obtain ⟨i, -, hh, -, -⟩ := DynArr.blockSize_eq_some hb
      rw [run, hh, Prog.bind_ok (existsPtr_block i heap), daGrow_eq_resize]
      exact Prog.bind_error hg
    | reserve m =>
      rw [run, daReserve_eq_resize]
      exact hg
    | extend elems =>
      rw [run, daReserve_eq_resize]
      exact Prog.bind_error hg
  | ok r =>
    obtain ⟨arr₁, heap'⟩ := r
    obtain ⟨hcount, -, hcap, -⟩ := daResize_ok hb hg
    have hcap' : arr₁.capacity = (op.after h arr.shape).capacity := hcap
    refine .inl ?_
    cases op with
    | append size elem =>
      obtain ⟨i, -, hh, -, -⟩ := DynArr.blockSize_eq_some hb
      rw [run, hh, Prog.bind_ok (existsPtr_block i heap), daGrow_eq_resize]
      refine ⟨arr₁, _, heap', rfl, Prog.bind_ok hg, rfl, ?_⟩
      show Shape.mk (h.sz (arr₁.count + 1)) arr₁.capacity = _
      rw [hcount, hcap']
      rfl
    | reserve m =>
      rw [run, daReserve_eq_resize]
      refine ⟨arr₁, arr₁, heap', rfl, hg, rfl, ?_⟩
      show Shape.mk arr₁.count arr₁.capacity = _
      rw [hcount, hcap']
      rfl
    | extend elems =>
      rw [run, daReserve_eq_resize]
      obtain ⟨slots, hput⟩ := arr₁.putAll_eq arr.count elems
      refine ⟨arr₁, _, heap', rfl, Prog.bind_ok hg, ?_, ?_⟩
      · rw [hput]
      · show Shape.mk (h.sz (arr.count + elems.length)) (arr₁.putAll arr.count elems).capacity = _
        rw [hput]
        show Shape.mk _ arr₁.capacity = _
        rw [hcap']
        rfl

/-- The block is the one that was asked for last. -/
theorem run_ok (hb : arr.blockSize heap = some n)
    (hr : op.run h A E arr heap = .ok (arr', heap')) :
    arr'.shape = op.after h arr.shape ∧ arr'.blockSize heap' =
      some ((op.request h arr.shape).elim n (daBytes h (op.operand E))) := by
  rcases run_cases (h := h) (E := E) hb A op with ⟨arr₁, arr₂, heap₁, hg, hrun, hh, hshape⟩ |
    ⟨e, -, hrun⟩
  · cases hrun.symm.trans hr
    refine ⟨hshape, ?_⟩
    rw [← (daResize_ok hb hg).2.2.2]
    unfold DynArr.blockSize
    rw [hh]
  · cases hrun.symm.trans hr

/-- A macro ends for want of memory only. -/
theorem run_error {f : Fault} (hb : arr.blockSize heap = some n)
    (hr : op.run h A E arr heap = .error (f, heap')) : f = .nullPointer := by
  rcases run_cases (h := h) (E := E) hb A op with ⟨arr₁, arr₂, heap₁, -, hrun, -⟩ | ⟨e, hg, hrun⟩
  · cases hrun.symm.trans hr
  · cases hrun.symm.trans hr
    cases hreq : op.request h arr.shape with
    | none =>
      rw [hreq] at hg
      cases hg
    | some c =>
      obtain ⟨i, b, hh, hcell, -⟩ := DynArr.blockSize_eq_some hb
      rw [hreq] at hg
      exact (daRealloc_error hh hcell hg).1

theorem run_always (hb : arr.blockSize heap = some n) (op : GrowOp α) :
    ∃ arr' heap', op.run h .always E arr heap = .ok (arr', heap') := by
  obtain ⟨arr₁, heap₁, hg⟩ := daResize_always (h := h) hb (op.request h arr.shape) (op.operand E)
  rcases run_cases (h := h) (E := E) hb .always op with ⟨-, arr', heap', -, hrun, -⟩ | ⟨e, he, -⟩
  · exact ⟨arr', heap', hrun⟩
  · cases he.symm.trans hg

/-- A macro leaves room for the capacity if its request was large enough, and only then. -/
theorem run_covered_iff (hc : Covered h E arr heap)
    (hr : op.run h A E arr heap = .ok (arr', heap')) :
    Covered h E arr' heap' ↔
      ∀ c ∈ op.request h arr.shape, h.headerSize + c * E ≤ daBytes h (op.operand E) c := by
  obtain ⟨n, hb, hle, -⟩ := hc
  obtain ⟨hshape, hsize⟩ := run_ok hb hr
  have hcap : arr'.capacity = (op.request h arr.shape).getD arr.capacity :=
    congrArg Shape.capacity hshape
  rw [covered_iff hsize, hcap]
  cases op.request h arr.shape with
  | none => simpa using hle
  | some c => simp

/-! Where the macros of `DynArr` return, which stop at the first index that is not below the
capacity, these return the same array. -/

theorem run_of_daAppend {e : Nat} {elem : α} {r : DynArr α × Heap}
    (hr : daAppend h A e arr elem heap = .ok r) :
    (append e elem).run h A E arr heap = .ok r := by
  obtain ⟨⟨⟩, heap₀, hexists, hr⟩ := Prog.bind_eq_ok.mp hr
  obtain ⟨arr₁, heap₁, hg, hr⟩ := Prog.bind_eq_ok.mp hr
  obtain ⟨arr₂, heap₂, hwrite, hr⟩ := Prog.bind_eq_ok.mp hr
  obtain ⟨-, rfl, rfl⟩ := daWrite_cases hwrite
  rw [run, Prog.bind_ok hexists, Prog.bind_ok hg]
  exact hr

theorem run_of_daExtend {elems : List α} {r : DynArr α × Heap}
    (hr : daExtend h A E arr elems heap = .ok r) :
    (extend elems).run h A E arr heap = .ok r := by
  obtain ⟨arr₁, heap₁, hg, hrest⟩ := Prog.bind_eq_ok.mp hr
  obtain ⟨arr₂, heap₂, hwrite, hdone⟩ := Prog.bind_eq_ok.mp hrest
  obtain ⟨rfl, rfl⟩ := daWriteAll_ok hwrite
  exact (Prog.bind_ok hg).trans hdone

end GrowOp

/-! ## Runs -/

theorem staysCovered_of_each (hc : Covered h E arr heap)
    (hf : EachRequest (fun size c => h.headerSize + c * E ≤ daBytes h size c) h E arr.shape ops) :
    StaysCovered h A E arr heap ops := by
  induction ops generalizing arr heap with
  | nil => trivial
  | cons op ops ih =>
    have ⟨n, hb, _⟩ := hc
    refine ⟨fun f heap' hr => GrowOp.run_error hb hr, fun arr' heap' hr => ?_⟩
    have hc' := (GrowOp.run_covered_iff hc hr).mpr hf.1
    exact ⟨hc', ih hc' ((GrowOp.run_ok hb hr).1 ▸ hf.2)⟩

theorem each_of_staysCovered (hc : Covered h E arr heap)
    (hs : StaysCovered h .always E arr heap ops) :
    EachRequest (fun size c => h.headerSize + c * E ≤ daBytes h size c) h E arr.shape ops := by
  induction ops generalizing arr heap with
  | nil => trivial
  | cons op ops ih =>
    have ⟨n, hb, _⟩ := hc
    obtain ⟨arr', heap', hr⟩ := GrowOp.run_always (h := h) (E := E) hb op
    obtain ⟨hc', hs'⟩ := hs.2 arr' heap' hr
    exact ⟨(GrowOp.run_covered_iff hc hr).mp hc', (GrowOp.run_ok hb hr).1 ▸ ih hc' hs'⟩

theorem covered_new (hr : daNew h A heap = .ok (arr, heap')) :
    arr.shape = ⟨0, 0⟩ ∧ Covered h E arr heap' := by
  obtain ⟨hcount, hcap, -, hb⟩ := daNew_ok hr
  refine ⟨by rw [DynArr.shape, hcount, hcap], (covered_iff hb).mpr ?_⟩
  rw [hcap, Nat.zero_mul]
  exact Nat.le_refl _

/-- Whatever the allocator does, a run keeps room for the capacity exactly when each size
that it asks for is at least what the header and the elements take. -/
theorem keepsRoom_iff : KeepsRoom h E ops ↔
    EachRequest (fun size c => h.headerSize + c * E ≤ daBytes h size c) h E ⟨0, 0⟩ ops := by
  constructor
  · intro hall
    obtain ⟨hc, hs⟩ := hall .always Heap.empty _ _ rfl
    exact each_of_staysCovered hc hs
  · intro hf A heap arr heap' hr
    obtain ⟨hshape, hc⟩ := covered_new hr
    exact ⟨hc, staysCovered_of_each hc (hshape ▸ hf)⟩

/-- For elements of any type and size, and any run of the three macros on a new array: the
block has room for the capacity after each step if no appended expression that makes the
array grow is narrower than an element and no request wraps. If no request by a wider
expression wraps, it has room in no other case. -/
theorem capacityRuns_fit (h : Host) (E : Nat) (ops : List (GrowOp α)) :
    (EachRequest (Fits h E) h E ⟨0, 0⟩ ops → KeepsRoom h E ops) ∧
    (EachRequest (WideFits h E) h E ⟨0, 0⟩ ops → KeepsRoom h E ops →
      EachRequest (Fits h E) h E ⟨0, 0⟩ ops) := by
  constructor
  · intro hf
    exact keepsRoom_iff.mpr (hf.mono fun _ _ => Fits.enough)
  · intro hw hk
    exact (hw.and (keepsRoom_iff.mp hk)).mono fun _ _ hboth => fits_of_enough hboth.1 hboth.2

/-- A run with an expression wider than an element. -/
theorem capacityRuns_fit_sample :
    KeepsRoom ⟨.little, .w64⟩ 4 [.append 8 1, .reserve 20, .extend [2, 3]] :=
  (capacityRuns_fit ⟨.little, .w64⟩ 4 [.append 8 1, .reserve 20, .extend [2, 3]]).1 (by decide)

/-- Append the literal 5, an `int`, to an array of `int64_t`: the block for 8 elements
has 48 bytes, room for 4. And reserve 2^61 elements: the block is the header. And a run in
which the second append, of a wider expression, goes to an index that is not below the
capacity and yet into the block; the last request wraps. -/
theorem not_keepsRoom :
    ¬ KeepsRoom ⟨.little, .w64⟩ 8 [.append 4 5] ∧
    ¬ KeepsRoom (α := Nat) ⟨.little, .w64⟩ 8 [.reserve (2 ^ 61)] ∧
    ¬ KeepsRoom ⟨.little, .w64⟩ 4 [.reserve 1, .append 4 7, .append 8 8, .reserve (2 ^ 62)] := by
  refine ⟨fun hk => ?_, fun hk => ?_, fun hk => ?_⟩
  · exact absurd (keepsRoom_iff.mp hk) (by decide)
  · exact absurd (keepsRoom_iff.mp hk) (by decide)
  · exact absurd (keepsRoom_iff.mp hk) (by decide)

end Tlv
