import Tlv.Lib.WhileLoop

/-!
# Loops that come to a state again

What a loop does depends on its state only. So a loop that comes to a state again never
ends, and one that does not comes to at most as many states as there are.

Results, for a loop over numbers below a bound: `not_ends_of_revisits`, and
`Reaches.le_of_not_revisits` for the number of passes of a loop that does not. Any loop
ends or makes any number of passes (`ends_or_reaches`).
-/

namespace Lib.WhileLoop

variable {σ ε : Type} {l : WhileLoop σ ε} {s t u : σ} {n k : Nat} {o : Except ε σ}

/-- From `s` the loop comes to some state, and from there to the same state again. -/
def Revisits (l : WhileLoop σ ε) (s : σ) : Prop :=
  ∃ n k t, l.Reaches s n t ∧ l.Reaches t (k + 1) t

theorem Reaches.unique (h : l.Reaches s n t) (h' : l.Reaches s n u) : t = u := by
  induction h generalizing u with
  | refl =>
    cases h'
    rfl
  | pass _ _ hb ih =>
    cases h' with
    | pass hr _ hb' =>
      obtain rfl := ih hr
      exact Except.ok.inj (hb.symm.trans hb')

/-- As often as one likes. -/
theorem Reaches.circle (h : l.Reaches t (k + 1) t) (n : Nat) : l.Reaches t (n * (k + 1)) t := by
  induction n with
  | zero =>
    rw [Nat.zero_mul]
    exact .refl
  | succ n ih =>
    rw [Nat.succ_mul]
    exact ih.trans h

/-- There is always a next pass. -/
theorem not_ends_of_circle (h : l.Reaches t (k + 1) t) : ¬l.Ends t o := by
  have hnext : ∀ {n u}, l.Reaches t n u → ∃ v, l.guard u = true ∧ l.body u = .ok v := by
    intro n u hu
    have hlt : n + 1 < (n + 2) * (k + 1) :=
      Nat.lt_of_lt_of_le (Nat.lt_succ_self _) (Nat.le_mul_of_pos_right _ (Nat.succ_pos k))
    obtain ⟨v, hv, -, -⟩ := (h.circle (n + 2)).split hlt
    cases hv with
    | pass hr hg hb =>
      obtain rfl := hu.unique hr
      exact ⟨v, hg, hb⟩
  intro he
  cases o with
  | ok u =>
    obtain ⟨n, hu, hg⟩ := ends_ok_iff.mp he
    obtain ⟨v, hg', -⟩ := hnext hu
    rw [hg] at hg'
    cases hg'
  | error e =>
    obtain ⟨n, u, hu, -, hb⟩ := ends_error_iff.mp he
    obtain ⟨v, -, hb'⟩ := hnext hu
    rw [hb] at hb'
    cases hb'

theorem not_ends_of_revisits (h : l.Revisits s) : ¬l.Ends s o := by
  obtain ⟨n, k, t, hr, hc⟩ := h
  exact fun he => not_ends_of_circle hc (hr.ends_iff.mp he)

theorem ends_or_reaches (l : WhileLoop σ ε) (s : σ) (n : Nat) :
    (∃ o, l.Ends s o) ∨ ∃ t, l.Reaches s n t := by
  induction n with
  | zero => exact .inr ⟨s, .refl⟩
  | succ n ih =>
    rcases ih with he | ⟨t, hr⟩
    · exact .inl he
    · cases hg : l.guard t with
      | false => exact .inl ⟨_, hr.ends_iff.mpr (ends_done hg)⟩
      | true =>
        cases hb : l.body t with
        | error e => exact .inl ⟨_, hr.ends_iff.mpr (ends_error hg hb)⟩
        | ok u => exact .inr ⟨u, .pass hr hg hb⟩

/-- A loop over numbers below `L` that never comes to a number again makes at most `L`
passes. -/
theorem Reaches.le_of_not_revisits {l : WhileLoop Nat ε} {s t L : Nat}
    (hguard : ∀ t, l.guard t = true → t < L) (hnot : ¬l.Revisits s) (h : l.Reaches s n t) :
    n ≤ L := by
  by_contra hlt
  have hmid : ∀ i : Fin n, ∃ u : Fin L, l.Reaches s i u ∧ l.Reaches u (n - i) t := by
    intro i
    obtain ⟨u, hu, hg, hut⟩ := h.split i.isLt
    exact ⟨⟨u, hguard u hg⟩, hu, hut⟩
  choose f hf using hmid
  obtain ⟨i, j, hij, hfij⟩ := Fintype.exists_ne_map_eq_of_card_lt f (by simpa using hlt)
  have hback : ∀ i j : Fin n, i < j → f i = f j → l.Revisits s := by
    intro i j hlt heq
    have hd : (j : Nat) - i < n - i := by omega
    obtain ⟨u, hu, -, -⟩ := (hf i).2.split hd
    have hj := (hf i).1.trans hu
    rw [Nat.add_sub_cancel' (Nat.le_of_lt hlt)] at hj
    rw [hj.unique (hf j).1, ← heq] at hu
    obtain ⟨k, hk⟩ := Nat.exists_eq_add_of_lt hlt
    refine ⟨i, k, f i, (hf i).1, ?_⟩
    rwa [show k + 1 = (j : Nat) - i by omega]
  rcases Nat.lt_or_gt_of_ne (Fin.val_ne_of_ne hij) with hlt | hgt
  · exact hnot (hback i j hlt hfij)
  · exact hnot (hback j i hgt hfij.symm)

end Lib.WhileLoop
