import Tlv.Lib.Heap
import Tlv.Basic

/-!
# The C library under the model

`malloc`, `realloc`, `free`, `memcpy` and the macro `exists`, as programs over
the heap. Whether an allocation succeeds is decided by an `Allocator`, which
sees how many allocations there were before and how many bytes are wanted, so
every behaviour of a real allocator is one of these functions.
-/

namespace Tlv
open Lib

/-- A program of the library. -/
abbrev CProg (α : Type) := Prog Fault α

/-- Does the allocation numbered `i`, of `n` bytes, succeed? -/
abbrev Allocator := Nat → Nat → Bool

/-- The allocator that never fails. -/
def Allocator.always : Allocator := fun _ _ => true

/-! ## Memory management -/

def malloc (A : Allocator) (n : Nat) : CProg Ptr := fun h =>
  if A h.next n then .ok (.block h.next, h.alloc n) else .ok (.null, h)

/-- `realloc` of a live block. The old block is gone when it succeeds, and
unchanged when it does not. -/
def realloc (A : Allocator) (p : Ptr) (n : Nat) : CProg Ptr := fun h =>
  match p with
  | .block i =>
    match h.realloc i n with
    | none => .error (.badFree, h)
    | some h' => if A h.next n then .ok (.block h.next, h') else .ok (.null, h)
  | .null => malloc A n h
  | .bits _ => .error (.badFree, h)

def free (p : Ptr) : CProg Unit := fun h =>
  match p with
  | .null => .ok ((), h)
  | .block i =>
    match h.free i with
    | none => .error (.badFree, h)
    | some h' => .ok ((), h')
  | .bits _ => .error (.badFree, h)

/-- The macro `exists`. -/
def existsPtr (p : Ptr) : CProg Unit :=
  if p = .null then Prog.stop .nullPointer else pure ()

/-! ## Copies -/

/-- `memcpy` out of memory that the caller lends. -/
def memcpyFrom (m : Mem) (off n : Nat) : CProg (List Byte) :=
  match m.read off n with
  | some bs => pure bs
  | none => Prog.stop .readPastEnd

/-- `memcpy` into a block. -/
def memcpyTo (p : Ptr) (off : Nat) (bs : List Byte) : CProg Unit := fun h =>
  match p with
  | .block i =>
    match h.store i off bs with
    | none => .error (.writePastEnd, h)
    | some h' => .ok ((), h')
  | _ => .error (.writePastEnd, h)

/-- The memory that a pointer points to. -/
def ptrView (h : Heap) : Ptr → Mem
  | .block i => h.view i
  | _ => Mem.empty

/-- The bytes of a buffer on the heap, if all of them can be read. -/
def bufBytes (h : Heap) (b : Buffer Ptr) : Option (List Byte) := (ptrView h b.bytes).read 0 b.len

/-- The same buffer, as memory lent to a callee. -/
def lend (b : Buffer Ptr) : CProg (Buffer Mem) := fun h => .ok (⟨ptrView h b.bytes, b.len⟩, h)

/-! ## What they do -/

variable {A : Allocator} {h h' : Heap} {p : Ptr} {i n : Nat} {b : Block}

theorem malloc_always (n : Nat) (h : Heap) :
    malloc .always n h = .ok (.block h.next, h.alloc n) := rfl

theorem malloc_granted (hA : A h.next n = true) :
    malloc A n h = .ok (.block h.next, h.alloc n) := if_pos hA

theorem malloc_refused (hA : ¬ A h.next n = true) : malloc A n h = .ok (.null, h) := if_neg hA

/-- `malloc` followed by `exists`, when there is no memory. -/
theorem malloc_exists_refused {α : Type} {f : Ptr → CProg α} (hA : ¬ A h.next n = true) :
    (do let p ← malloc A n; existsPtr p; f p) h = .error (.nullPointer, h) := by
  rw [Prog.bind_ok (malloc_refused hA)]
  exact Prog.bind_error rfl

/-- `malloc` followed by `exists`: it goes on only with a new block. -/
theorem malloc_exists_ok {α : Type} {f : Ptr → CProg α} {r : α × Heap} :
    (do let p ← malloc A n; existsPtr p; f p) h = .ok r →
      f (.block h.next) (h.alloc n) = .ok r := by
  intro hr
  by_cases hA : A h.next n = true
  · rw [Prog.bind_ok (malloc_granted hA)] at hr
    exact hr
  · rw [malloc_exists_refused hA] at hr
    cases hr

/-- It stops for want of memory, or later. -/
theorem malloc_exists_error {α : Type} {f : Ptr → CProg α} {e : Fault × Heap}
    (hr : (do let p ← malloc A n; existsPtr p; f p) h = .error e) :
    e = (.nullPointer, h) ∨ f (.block h.next) (h.alloc n) = .error e := by
  by_cases hA : A h.next n = true
  · rw [Prog.bind_ok (malloc_granted hA)] at hr
    exact .inr hr
  · rw [malloc_exists_refused hA] at hr
    cases hr
    exact .inl rfl

theorem existsPtr_block (i : Nat) (h : Heap) : existsPtr (.block i) h = .ok ((), h) := rfl

theorem realloc_granted (hb : h.cells i = some b) (hA : A h.next n = true) :
    realloc A (.block i) n h = .ok (.block h.next, (h.drop i).new n (b.mem.cut n)) := by
  simp only [realloc, Heap.realloc_of_live hb, if_pos hA]

theorem realloc_refused (hb : h.cells i = some b) (hA : ¬ A h.next n = true) :
    realloc A (.block i) n h = .ok (.null, h) := by
  simp only [realloc, Heap.realloc_of_live hb, if_neg hA]

/-- `realloc` followed by `exists`: it goes on only with the block moved. -/
theorem realloc_exists_ok {α : Type} {f : Ptr → CProg α} {r : α × Heap}
    (hr : (do let p ← realloc A (.block i) n; existsPtr p; f p) h = .ok r) :
    ∃ b, h.cells i = some b ∧
      f (.block h.next) ((h.drop i).new n (b.mem.cut n)) = .ok r := by
  cases hb : h.cells i with
  | none =>
    obtain ⟨p, h1, hp, -⟩ := Prog.bind_eq_ok.mp hr
    simp [realloc, Heap.realloc, hb] at hp
  | some b =>
    by_cases hA : A h.next n = true
    · rw [Prog.bind_ok (realloc_granted hb hA), Prog.bind_ok (existsPtr_block h.next _)] at hr
      exact ⟨b, rfl, hr⟩
    · rw [Prog.bind_ok (realloc_refused hb hA), Prog.bind_error (e := (.nullPointer, h)) rfl] at hr
      cases hr

theorem realloc_always (hb : h.cells i = some b) (n : Nat) :
    realloc .always (.block i) n h = .ok (.block h.next, (h.drop i).new n (b.mem.cut n)) :=
  realloc_granted hb rfl

theorem free_block (hb : h.cells i = some b) : free (.block i) h = .ok ((), h.drop i) := by
  simp only [free, Heap.free_of_live hb]

theorem free_null (h : Heap) : free .null h = .ok ((), h) := rfl

theorem memcpyFrom_some {m : Mem} {off : Nat} {bs : List Byte} (hr : m.read off n = some bs)
    (h : Heap) : memcpyFrom m off n h = .ok (bs, h) := by
  rw [memcpyFrom, hr]
  rfl

theorem memcpyFrom_ok {m : Mem} {off : Nat} {bs : List Byte}
    (hr : memcpyFrom m off n h = .ok (bs, h')) : m.read off n = some bs ∧ h' = h := by
  rw [memcpyFrom] at hr
  cases hread : m.read off n with
  | none =>
    rw [hread] at hr
    cases hr
  | some bs' =>
    rw [hread] at hr
    cases hr
    exact ⟨rfl, rfl⟩

theorem memcpyFrom_none {m : Mem} {off : Nat} (hr : m.read off n = none) (h : Heap) :
    memcpyFrom m off n h = .error (.readPastEnd, h) := by
  rw [memcpyFrom, hr]
  rfl

theorem memcpyTo_new {m : Mem} {off : Nat} {bs : List Byte} (hn : off + bs.length ≤ n) :
    memcpyTo (.block h.next) off bs (h.new n m) = .ok ((), h.new n (m.write off bs)) := by
  simp only [memcpyTo, Heap.store_new hn]

theorem memcpyTo_ok {off : Nat} {bs : List Byte}
    (hr : memcpyTo (.block i) off bs h = .ok ((), h')) : h.store i off bs = some h' := by
  cases hs : h.store i off bs with
  | none =>
    simp only [memcpyTo, hs] at hr
    cases hr
  | some h1 =>
    simp only [memcpyTo, hs] at hr
    cases hr
    rfl

/-! ## Blocks that hold bytes -/

/-- The block `i` consists of the bytes `bs`. -/
def HoldsBytes (h : Heap) (i : Nat) (bs : List Byte) : Prop :=
  h.cells i = some ⟨bs.length, Mem.ofList bs⟩

namespace HoldsBytes

variable {bs : List Byte}

theorem new_self (h : Heap) (bs : List Byte) :
    HoldsBytes (h.new bs.length (Mem.ofList bs)) h.next bs := by
  simp [HoldsBytes]

theorem new {m : Mem} (hi : HoldsBytes h i bs) : HoldsBytes (h.new n m) i bs := by
  have hlt := Heap.lt_next_of_cells hi
  rw [HoldsBytes, Heap.new_cells, if_neg (by omega), hi]

theorem drop {j : Nat} (hi : HoldsBytes h i bs) (hij : i ≠ j) : HoldsBytes (h.drop j) i bs := by
  rw [HoldsBytes, Heap.drop_cells, if_neg hij, hi]

theorem bufBytes (hi : HoldsBytes h i bs) : bufBytes h ⟨.block i, bs.length⟩ = some bs := by
  rw [Tlv.bufBytes, ptrView, Heap.view_eq hi, Mem.read_ofList (by simp)]
  simp

end HoldsBytes

end Tlv
