import Mathlib.Tactic

/-!
# Partial byte memories

A memory is a map from indices to bytes. An index without a byte cannot be
read, and a read that touches one fails as a whole, so a memory that has bytes
at exactly the indices of an object tells whether a program stays inside that
object: it does when no read fails (`read_mono` says that such a run is the same
on every larger memory).

`Mem.ofList` is the memory of one object, `Mem.read` reads a range, `Mem.write`
overwrites one, and `Mem.cut` forgets everything from an index on.
-/

namespace Lib

/-- A byte memory. `none` marks an index that cannot be read. -/
abbrev Mem := Nat → Option UInt8

namespace Mem

/-- The memory in which nothing can be read. -/
def empty : Mem := fun _ => none

/-- The memory of one object with the given bytes. -/
def ofList (bs : List UInt8) : Mem := fun i => bs[i]?

/-- The `n` bytes from `off` on, if all of them can be read. -/
def read (m : Mem) : Nat → Nat → Option (List UInt8)
  | _, 0 => some []
  | off, n + 1 => (m off).bind fun b => (m.read (off + 1) n).map (b :: ·)

/-- The memory after `bs` has been written from `off` on. -/
def write (m : Mem) (off : Nat) (bs : List UInt8) : Mem :=
  fun i => if off ≤ i ∧ i < off + bs.length then bs[i - off]? else m i

/-- The memory without the indices from `n` on. -/
def cut (m : Mem) (n : Nat) : Mem := fun i => if i < n then m i else none

/-- `m'` has every byte of `m`. -/
def Extends (m' m : Mem) : Prop := ∀ i b, m i = some b → m' i = some b

/-! ## Reading -/

@[simp] theorem read_zero (m : Mem) (off : Nat) : m.read off 0 = some [] := rfl

theorem read_succ (m : Mem) (off n : Nat) :
    m.read off (n + 1) = (m off).bind fun b => (m.read (off + 1) n).map (b :: ·) := rfl

theorem length_of_read {m : Mem} {off n : Nat} {bs : List UInt8} (h : m.read off n = some bs) :
    bs.length = n := by
  induction n generalizing off bs with
  | zero => cases h; rfl
  | succ n ih =>
    simp only [read_succ, Option.bind_eq_some_iff, Option.map_eq_some_iff] at h
    obtain ⟨b, _, bs', hr, rfl⟩ := h
    rw [List.length_cons, ih hr]

/-- A read that succeeds gives the same bytes in every larger memory. -/
theorem read_mono {m m' : Mem} (hx : m'.Extends m) {off n : Nat} {bs : List UInt8}
    (h : m.read off n = some bs) : m'.read off n = some bs := by
  induction n generalizing off bs with
  | zero => exact h
  | succ n ih =>
    simp only [read_succ, Option.bind_eq_some_iff, Option.map_eq_some_iff] at h ⊢
    obtain ⟨b, hb, bs', hr, rfl⟩ := h
    exact ⟨b, hx _ _ hb, bs', ih hr, rfl⟩

/-- Reading at a shifted index is reading in the shifted memory. -/
theorem read_shift {m m' : Mem} {d : Nat} (h : ∀ i, m (d + i) = m' i) (off n : Nat) :
    m.read (d + off) n = m'.read off n := by
  induction n generalizing off with
  | zero => rfl
  | succ n ih => rw [read_succ, read_succ, h, Nat.add_assoc, ih]

theorem read_isSome {m : Mem} (h : ∀ i, (m i).isSome) (off n : Nat) :
    ∃ bs, m.read off n = some bs := by
  induction n generalizing off with
  | zero => exact ⟨[], rfl⟩
  | succ n ih =>
    obtain ⟨b, hb⟩ := Option.isSome_iff_exists.mp (h off)
    obtain ⟨bs, hbs⟩ := ih (off + 1)
    exact ⟨b :: bs, by rw [read_succ, hb, hbs]; rfl⟩

/-- A read that succeeds touches bytes that are there. -/
theorem isSome_of_read {m : Mem} {off n i : Nat} {bs : List UInt8} (h : m.read off n = some bs)
    (hi : i < n) : (m (off + i)).isSome := by
  induction n generalizing off bs i with
  | zero => exact absurd hi (Nat.not_lt_zero i)
  | succ n ih =>
    simp only [read_succ, Option.bind_eq_some_iff, Option.map_eq_some_iff] at h
    obtain ⟨b, hb, bs', hr, -⟩ := h
    cases i with
    | zero => exact Option.isSome_iff_exists.mpr ⟨b, hb⟩
    | succ i =>
      have hrest := ih hr (Nat.lt_of_succ_lt_succ hi)
      rwa [Nat.add_right_comm] at hrest

/-! ## The memory of one object -/

theorem read_ofList {bs : List UInt8} {off n : Nat} (h : off + n ≤ bs.length) :
    (ofList bs).read off n = some ((bs.drop off).take n) := by
  induction n generalizing off with
  | zero => simp
  | succ n ih =>
    have hlt : off < bs.length := by omega
    rw [read_succ, ih (by omega), List.drop_eq_getElem_cons hlt, List.take_succ_cons]
    simp [ofList, hlt]

theorem read_ofList_none {bs : List UInt8} {off n : Nat} (hn : 0 < n)
    (h : bs.length < off + n) : (ofList bs).read off n = none := by
  induction n generalizing off with
  | zero => exact absurd hn (Nat.lt_irrefl 0)
  | succ n ih =>
    rw [read_succ]
    rcases Nat.lt_or_ge off bs.length with hlt | hge
    · rw [ih (by omega) (by omega)]
      cases ofList bs off <;> rfl
    · rw [show ofList bs off = none from List.getElem?_eq_none hge]
      rfl

/-- A range of one object can be read exactly when it lies inside the object. -/
theorem read_ofList_eq_some_iff {bs : List UInt8} {off n : Nat} (hoff : off ≤ bs.length)
    {l : List UInt8} :
    (ofList bs).read off n = some l ↔ off + n ≤ bs.length ∧ l = (bs.drop off).take n := by
  rcases Nat.lt_or_ge bs.length (off + n) with hlt | hge
  · rw [read_ofList_none (by omega) hlt]
    exact ⟨fun h => absurd h (by simp), fun h => absurd h.1 (by omega)⟩
  · rw [read_ofList hge, Option.some.injEq]
    exact ⟨fun h => ⟨hge, h.symm⟩, fun h => h.2.symm⟩

theorem ofList_append_shift (as bs : List UInt8) (i : Nat) :
    ofList (as ++ bs) (as.length + i) = ofList bs i := by
  simp [ofList, List.getElem?_append_right]

theorem extends_ofList {bs : List UInt8} {m : Mem} (h : ∀ i < bs.length, m i = bs[i]?) :
    m.Extends (ofList bs) := by
  intro i b hb
  have hi : i < bs.length := (List.getElem?_eq_some_iff.mp hb).1
  rw [h i hi]
  exact hb

theorem ofList_nil : ofList [] = empty := rfl

/-- Writing right behind an object extends it. -/
theorem write_ofList (as bs : List UInt8) :
    (ofList as).write as.length bs = ofList (as ++ bs) := by
  funext i
  simp only [write, ofList]
  split
  · next h => rw [List.getElem?_append_right h.1]
  · next h =>
    rcases Nat.lt_or_ge i as.length with hi | hi
    · rw [List.getElem?_append_left hi]
    · rw [List.getElem?_eq_none hi, List.getElem?_eq_none (by simp; omega)]

theorem cut_ofList {bs : List UInt8} {n : Nat} (h : bs.length ≤ n) :
    (ofList bs).cut n = ofList bs := by
  funext i
  simp only [cut, ofList]
  split
  · rfl
  · next hi => rw [List.getElem?_eq_none (by omega)]

end Mem

end Lib
