import Mathlib.Order.Monotone.Basic
import Mathlib.Tactic.Ring

/-!
# Tables that grow when they are full

A table takes one element after the other, and when it is full it is moved to a larger
place. `Growth` is a rule for how large: the first place, and the next one for each
capacity from there on. `Growth.capacity g k` and `Growth.moves g k` are the capacity
behind `k` elements and how often the table was moved on the way.

Results: there is always room (`le_capacity`); the capacity is at most what the rule
gives a full table (`capacity_le`); and a rule that multiplies by `a / b` at least moves
the table as often as a power of `a / b` fits into the capacity (`pow_moves_le`).
-/

namespace Lib

structure Growth where
  first : Nat
  next : Nat → Nat
  first_pos : 0 < first
  lt_next : ∀ c, first ≤ c → c < next c

namespace Growth

variable (g : Growth)

/-- The capacity after a move of a full table of capacity `c`. -/
def grow (c : Nat) : Nat := if c = 0 then g.first else g.next c

def capacity : Nat → Nat
  | 0 => 0
  | k + 1 => if capacity k = k then g.grow k else capacity k

def moves : Nat → Nat
  | 0 => 0
  | k + 1 => if g.capacity k = k then moves k + 1 else moves k

variable {g} {k : Nat}

theorem capacity_full (hk : g.capacity k = k) : g.capacity (k + 1) = g.grow k := if_pos hk

theorem capacity_room (hk : g.capacity k ≠ k) : g.capacity (k + 1) = g.capacity k := if_neg hk

theorem moves_full (hk : g.capacity k = k) : g.moves (k + 1) = g.moves k + 1 := if_pos hk

theorem moves_room (hk : g.capacity k ≠ k) : g.moves (k + 1) = g.moves k := if_neg hk

theorem grow_of_pos (hk : 0 < k) : g.grow k = g.next k := if_neg (Nat.ne_of_gt hk)

theorem first_le_capacity (g : Growth) (k : Nat) : g.first ≤ g.capacity (k + 1) := by
  induction k with
  | zero => exact Nat.le_refl g.first
  | succ k ih =>
    by_cases hk : g.capacity (k + 1) = k + 1
    · rw [capacity_full hk, grow_of_pos (Nat.succ_pos k)]
      rw [hk] at ih
      exact Nat.le_of_lt (Nat.lt_of_le_of_lt ih (g.lt_next _ ih))
    · rwa [capacity_room hk]

/-- A full table gets room. -/
theorem lt_grow (hk : g.capacity k = k) : k < g.grow k := by
  cases k with
  | zero => exact g.first_pos
  | succ k =>
    have hfirst := g.first_le_capacity k
    rw [hk] at hfirst
    rw [grow_of_pos (Nat.succ_pos k)]
    exact g.lt_next _ hfirst

theorem le_capacity (g : Growth) (k : Nat) : k ≤ g.capacity k := by
  induction k with
  | zero => exact Nat.le_refl 0
  | succ k ih =>
    by_cases hk : g.capacity k = k
    · rw [capacity_full hk]
      exact lt_grow hk
    · rw [capacity_room hk]
      exact Nat.lt_of_le_of_ne ih (Ne.symm hk)

/-- The last move was one of a full table. -/
theorem capacity_le {f : Nat → Nat} (hf : Monotone f) (hgrow : ∀ c, g.grow c ≤ f (c + 1))
    (k : Nat) : g.capacity k ≤ f k := by
  induction k with
  | zero => exact Nat.zero_le (f 0)
  | succ k ih =>
    by_cases hk : g.capacity k = k
    · rw [capacity_full hk]
      exact hgrow k
    · rw [capacity_room hk]
      exact ih.trans (hf (Nat.le_succ k))

/-- Each move multiplies the capacity by `a / b` at least, but for the first. -/
theorem pow_moves_le {a b : Nat} (hmul : ∀ c, g.first ≤ c → a * c ≤ b * g.next c) (k : Nat) :
    ∃ n, g.moves (k + 1) = n + 1 ∧ g.first * a ^ n ≤ g.capacity (k + 1) * b ^ n := by
  induction k with
  | zero => exact ⟨0, rfl, Nat.le_refl _⟩
  | succ k ih =>
    obtain ⟨n, hmoves, hpow⟩ := ih
    by_cases hk : g.capacity (k + 1) = k + 1
    · refine ⟨n + 1, by rw [moves_full hk, hmoves], ?_⟩
      have hfirst := g.first_le_capacity k
      rw [hk] at hfirst hpow
      rw [capacity_full hk, grow_of_pos (Nat.succ_pos k)]
      calc g.first * a ^ (n + 1) = a * (g.first * a ^ n) := by ring
        _ ≤ a * ((k + 1) * b ^ n) := Nat.mul_le_mul_left a hpow
        _ = a * (k + 1) * b ^ n := by ring
        _ ≤ b * g.next (k + 1) * b ^ n := Nat.mul_le_mul_right _ (hmul _ hfirst)
        _ = g.next (k + 1) * b ^ (n + 1) := by ring
    · exact ⟨n, by rw [moves_room hk, hmoves], by rwa [capacity_room hk]⟩

end Growth

end Lib
