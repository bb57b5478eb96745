import Mathlib.Data.List.Flatten
import Tlv.Lib.Memory

/-!
# Values laid out in memory

Ranges of a memory: a read is made of the reads of its parts (`Mem.read_append`,
`Mem.read_parts`), a write is read back (`Mem.read_write`) and leaves the ranges alone
that it does not meet (`Mem.read_write_other`).

A `Layout` gives each value of a type a string of bytes, of one length for all. The
elements of a list are laid out one after the other (`Layout.all`), so that the bytes
of one element are at its index times the size (`Layout.take_drop_all`), and an element
can be replaced in place (`Layout.all_set`).
-/

namespace Lib

/-! ## Ranges -/

namespace Mem

variable {m m' : Mem} {off k n : Nat} {xs ys zs : List UInt8}

theorem read_append {a b : Nat} (hxs : m.read off a = some xs)
    (hys : m.read (off + a) b = some ys) : m.read off (a + b) = some (xs ++ ys) := by
  induction a generalizing off xs with
  | zero =>
    cases hxs
    rw [Nat.zero_add]
    exact hys
  | succ a ih =>
    simp only [read_succ, Option.bind_eq_some_iff, Option.map_eq_some_iff] at hxs
    obtain ⟨x, hx, xs', hxs', rfl⟩ := hxs
    have hys' : m.read (off + 1 + a) b = some ys := by
      rw [Nat.add_assoc, Nat.add_comm 1 a]
      exact hys
    rw [Nat.succ_add, read_succ, hx, ih hxs' hys']
    rfl

/-- The two parts of a range that can be read. -/
theorem read_parts {a b : Nat} (h : m.read off (a + b) = some zs) :
    m.read off a = some (zs.take a) ∧ m.read (off + a) b = some (zs.drop a) := by
  induction a generalizing off zs with
  | zero =>
    rw [Nat.zero_add] at h
    exact ⟨rfl, h⟩
  | succ a ih =>
    rw [Nat.succ_add] at h
    simp only [read_succ, Option.bind_eq_some_iff, Option.map_eq_some_iff] at h
    obtain ⟨x, hx, zs', hzs, rfl⟩ := h
    obtain ⟨hfst, hsnd⟩ := ih hzs
    rw [Nat.add_assoc, Nat.add_comm 1 a] at hsnd
    exact ⟨by rw [read_succ, hx, hfst]; rfl, hsnd⟩

/-- A read looks at its range only. -/
theorem read_congr (h : ∀ i, off ≤ i → i < off + n → m i = m' i) :
    m.read off n = m'.read off n := by
  induction n generalizing off with
  | zero => rfl
  | succ n ih =>
    rw [read_succ, read_succ, h off (Nat.le_refl _) (by omega),
      ih fun i hi hlt => h i (by omega) (by omega)]

theorem read_write_other (h : off + n ≤ k ∨ k + ys.length ≤ off) :
    (m.write k ys).read off n = m.read off n := by
  refine read_congr fun i hi hlt => ?_
  rw [write, if_neg (by omega)]

theorem read_write (m : Mem) (off : Nat) (ys : List UInt8) :
    (m.write off ys).read off ys.length = some ys := by
  -- The memory that ends with the bytes written is `ofList ys` behind `off`.
  let cut : Mem := fun i => if i < off + ys.length then m.write off ys i else none
  have hcut : ∀ i, cut (off + i) = ofList ys i := by
    intro i
    show (if off + i < off + ys.length then m.write off ys (off + i) else none) = _
    rcases Nat.lt_or_ge i ys.length with hi | hi
    · rw [if_pos (by omega), write, if_pos (by omega), Nat.add_sub_cancel_left, ofList]
    · rw [if_neg (by omega), ofList, List.getElem?_eq_none hi]
  have hshift : (m.write off ys).read off ys.length = (ofList ys).read 0 ys.length := by
    rw [← read_shift hcut, Nat.add_zero]
    exact read_congr fun i _ hlt => (if_pos hlt).symm
  rw [hshift, read_ofList (by omega)]
  simp

theorem read_cut (h : off + n ≤ k) : (m.cut k).read off n = m.read off n := by
  refine read_congr fun i _ hlt => ?_
  rw [cut, if_pos (by omega)]

/-- A range after some of its bytes were overwritten. -/
theorem read_write_inside (h : m.read off n = some zs) (hk : k + ys.length ≤ n) :
    (m.write (off + k) ys).read off n =
      some (zs.take k ++ (ys ++ zs.drop (k + ys.length))) := by
  have hsplit : n = k + (ys.length + (n - (k + ys.length))) := by omega
  rw [hsplit] at h ⊢
  obtain ⟨hfst, hrest⟩ := read_parts h
  obtain ⟨-, hsnd⟩ := read_parts hrest
  refine read_append ?_ (read_append (read_write _ _ _) ?_)
  · rw [read_write_other (.inl (Nat.le_refl _)), hfst]
  · rw [read_write_other (.inr (Nat.le_refl _)), hsnd, List.drop_drop]

end Mem

/-! ## Layouts -/

/-- The bytes of the values of a type, all of one length. -/
structure Layout (α : Type) where
  size : Nat
  size_pos : 0 < size
  encode : α → List UInt8
  length_encode : ∀ a, (encode a).length = size
  encode_injective : Function.Injective encode

namespace Layout

/-- One byte for each value. -/
def byte : Layout UInt8 where
  size := 1
  size_pos := by decide
  encode := fun b => [b]
  length_encode := fun _ => rfl
  encode_injective := List.singleton_injective

variable {α : Type} (L : Layout α)

attribute [simp] length_encode

/-- Values one after the other. -/
def all (l : List α) : List UInt8 := l.flatMap L.encode

@[simp] theorem all_nil : L.all [] = [] := rfl

@[simp] theorem all_cons (a : α) (l : List α) : L.all (a :: l) = L.encode a ++ L.all l := rfl

theorem all_append (l l' : List α) : L.all (l ++ l') = L.all l ++ L.all l' := List.flatMap_append

@[simp] theorem length_all (l : List α) : (L.all l).length = l.length * L.size := by
  induction l with
  | nil => simp
  | cons a l ih => rw [all_cons, List.length_append, ih, L.length_encode, List.length_cons,
      Nat.succ_mul, Nat.add_comm]

/-- The bytes of the first elements. -/
theorem take_all (l : List α) (i : Nat) : (L.all l).take (i * L.size) = L.all (l.take i) := by
  rcases Nat.lt_or_ge i l.length with hi | hi
  · have hlen : (L.all (l.take i)).length = i * L.size := by
      rw [length_all, List.length_take, Nat.min_eq_left (Nat.le_of_lt hi)]
    conv_lhs => rw [← List.take_append_drop i l, all_append]
    exact List.take_left' hlen
  · rw [List.take_of_length_le hi, List.take_of_length_le]
    rw [length_all]
    exact Nat.mul_le_mul_right _ hi

/-- The bytes of the other elements. -/
theorem drop_all (l : List α) (i : Nat) : (L.all l).drop (i * L.size) = L.all (l.drop i) := by
  rcases Nat.lt_or_ge i l.length with hi | hi
  · have hlen : (L.all (l.take i)).length = i * L.size := by
      rw [length_all, List.length_take, Nat.min_eq_left (Nat.le_of_lt hi)]
    conv_lhs => rw [← List.take_append_drop i l, all_append]
    exact List.drop_left' hlen
  · rw [List.drop_eq_nil_of_le hi, all_nil, List.drop_eq_nil_of_le]
    rw [length_all]
    exact Nat.mul_le_mul_right _ hi

/-- The bytes of one element. -/
theorem take_drop_all {l : List α} {i : Nat} {a : α} (ha : l[i]? = some a) :
    ((L.all l).drop (i * L.size)).take L.size = L.encode a := by
  obtain ⟨hi, rfl⟩ := List.getElem?_eq_some_iff.mp ha
  rw [drop_all, List.drop_eq_getElem_cons hi, all_cons]
  exact List.take_left' (L.length_encode _)

/-- The bytes after one element was replaced. -/
theorem all_set {l : List α} {i : Nat} (hi : i < l.length) (a : α) :
    L.all (l.set i a) =
      (L.all l).take (i * L.size) ++ (L.encode a ++ (L.all l).drop (i * L.size + L.size)) := by
  have hnext : i * L.size + L.size = (i + 1) * L.size := (Nat.succ_mul _ _).symm
  rw [hnext, take_all, drop_all, ← all_cons, ← all_append, List.set_eq_take_cons_drop a hi]

end Layout

end Lib
