import Tlv.Lib.Ownership

/-!
# Values in blocks

A program that keeps many blocks works on one of them at a time. `HoldsAll P h is xs`
says that the blocks `is` hold the values `xs`, one each, where `P b x` says that the
block `b` holds `x`. The rules add a block, exchange one and take one away; each asks
that the step left the other blocks as they were.

`bytesIn h is` is what the blocks `is` take.
-/

namespace Lib

variable {α : Type}

/-- The elements but one, and that one before them. -/
theorem eraseIdx_perm {l : List α} {k : Nat} {x : α} (hx : l[k]? = some x) :
    (x :: l.eraseIdx k).Perm l := by
  obtain ⟨hk, rfl⟩ := List.getElem?_eq_some_iff.mp hx
  rw [List.eraseIdx_eq_take_drop_succ]
  refine List.perm_middle.symm.trans ?_
  rw [List.getElem_cons_drop, List.take_append_drop]

theorem set_perm {l : List α} {k : Nat} (hk : k < l.length) (y : α) :
    (y :: l.eraseIdx k).Perm (l.set k y) := by
  rw [List.eraseIdx_eq_take_drop_succ, List.set_eq_take_cons_drop y hk]
  exact List.perm_middle.symm

namespace Heap

structure HoldsAll (P : Block → α → Prop) (h : Heap) (is : List Nat) (xs : List α) : Prop where
  length_eq : is.length = xs.length
  block : ∀ (k i : Nat) (x : α), is[k]? = some i → xs[k]? = some x →
    ∃ b, h.cells i = some b ∧ P b x

namespace HoldsAll

variable {P : Block → α → Prop} {h h' : Heap} {is : List Nat} {xs : List α} {i i' k : Nat}
  {b : Block} {x : α}

theorem nil (P : Block → α → Prop) (h : Heap) : HoldsAll P h [] [] :=
  ⟨rfl, fun k i x hi => by simp at hi⟩

section Rules
variable (hp : HoldsAll P h is xs)
include hp

theorem exists_index (hx : xs[k]? = some x) :
    ∃ i b, is[k]? = some i ∧ h.cells i = some b ∧ P b x := by
  have hk : k < is.length := by
    rw [hp.length_eq]
    exact (List.getElem?_eq_some_iff.mp hx).1
  have hi := List.getElem?_eq_getElem hk
  obtain ⟨b, hb, hP⟩ := hp.block k is[k] x hi hx
  exact ⟨is[k], b, hi, hb, hP⟩

theorem congr (hkeep : ∀ j ∈ is, h'.cells j = h.cells j) : HoldsAll P h' is xs where
  length_eq := hp.length_eq
  block := fun k i x hi hx => by
    obtain ⟨b, hb, hP⟩ := hp.block k i x hi hx
    exact ⟨b, (hkeep i (List.mem_of_getElem? hi)).trans hb, hP⟩

/-- One more block. -/
theorem push (hb : h'.cells i' = some b) (hx : P b x)
    (hkeep : ∀ j ∈ is, h'.cells j = h.cells j) : HoldsAll P h' (is ++ [i']) (xs ++ [x]) where
  length_eq := by rw [List.length_append, List.length_append, hp.length_eq]; rfl
  block := fun k i₁ x₁ hi₁ hx₁ => by
    rcases Nat.lt_or_ge k is.length with hk | hk
    · have hk' : k < xs.length := hp.length_eq ▸ hk
      rw [List.getElem?_append_left hk] at hi₁
      rw [List.getElem?_append_left hk'] at hx₁
      exact (hp.congr hkeep).block k i₁ x₁ hi₁ hx₁
    · have hk' : xs.length ≤ k := hp.length_eq ▸ hk
      rw [List.getElem?_append_right hk, List.getElem?_singleton] at hi₁
      rw [List.getElem?_append_right hk', List.getElem?_singleton] at hx₁
      split at hi₁
      · cases hi₁
        split at hx₁
        · cases hx₁
          exact ⟨b, hb, hx⟩
        · cases hx₁
      · cases hi₁

variable (hnd : is.Nodup) (hi : is[k]? = some i)
  (hkeep : ∀ j ∈ is, j ≠ i → h'.cells j = h.cells j)
include hnd hi hkeep

/-- The values at the other places. -/
theorem block_of_ne {k' i₁ : Nat} {x₁ : α} (hk : k ≠ k') (hi₁ : is[k']? = some i₁)
    (hx₁ : xs[k']? = some x₁) : ∃ b, h'.cells i₁ = some b ∧ P b x₁ := by
  obtain ⟨b, hb, hP⟩ := hp.block k' i₁ x₁ hi₁ hx₁
  have hne : i₁ ≠ i := by
    rintro rfl
    have hlt := (List.getElem?_eq_some_iff.mp hi).1
    exact hk ((List.getElem?_inj hlt hnd).mp (hi.trans hi₁.symm))
  exact ⟨b, (hkeep i₁ (List.mem_of_getElem? hi₁) hne).trans hb, hP⟩

/-- One block is exchanged for another, or changed. -/
theorem set (hb : h'.cells i' = some b) (hx : P b x) :
    HoldsAll P h' (is.set k i') (xs.set k x) where
  length_eq := by rw [List.length_set, List.length_set, hp.length_eq]
  block := fun k' i₁ x₁ hi₁ hx₁ => by
    by_cases hk : k = k'
    · subst hk
      have hlt := (List.getElem?_eq_some_iff.mp hi).1
      rw [List.getElem?_set_self hlt] at hi₁
      rw [List.getElem?_set_self (hp.length_eq ▸ hlt)] at hx₁
      cases hi₁
      cases hx₁
      exact ⟨b, hb, hx⟩
    · rw [List.getElem?_set_ne hk] at hi₁ hx₁
      exact hp.block_of_ne hnd hi hkeep hk hi₁ hx₁

/-- One block is taken away. -/
theorem erase : HoldsAll P h' (is.eraseIdx k) (xs.eraseIdx k) where
  length_eq := by rw [List.length_eraseIdx, List.length_eraseIdx, hp.length_eq]
  block := fun k' i₁ x₁ hi₁ hx₁ => by
    rw [List.getElem?_eraseIdx] at hi₁ hx₁
    -- The places from `k` on have moved by one.
    split at hi₁
    · next hlt =>
      rw [if_pos hlt] at hx₁
      exact hp.block_of_ne hnd hi hkeep (by omega) hi₁ hx₁
    · next hge =>
      rw [if_neg hge] at hx₁
      exact hp.block_of_ne hnd hi hkeep (by omega) hi₁ hx₁

end Rules

end HoldsAll

/-- The sizes of the blocks `is` together. -/
def bytesIn (h : Heap) (is : List Nat) : Nat := (is.map fun i => (h.cells i).elim 0 Block.size).sum

theorem bytesIn_append (h : Heap) (is js : List Nat) :
    h.bytesIn (is ++ js) = h.bytesIn is + h.bytesIn js := by
  unfold bytesIn
  rw [List.map_append, List.sum_append]

theorem bytesIn_cons {h : Heap} {i : Nat} {b : Block} (hb : h.cells i = some b) (is : List Nat) :
    h.bytesIn (i :: is) = b.size + h.bytesIn is := by
  unfold bytesIn
  rw [List.map_cons, List.sum_cons, hb, Option.elim_some]

end Heap

end Lib
