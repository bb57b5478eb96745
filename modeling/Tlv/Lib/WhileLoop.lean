import Mathlib.Tactic

/-!
# Loops that may stop with an error

A loop is a guard and a body; the body either gives the next state or stops the
whole loop with an error. Nothing forces a loop to end, so `run` takes the
number of passes it may make and answers `none` when they do not suffice.

* `Reaches s n t`: `n` complete passes lead from `s` to `t`.
* `Ends s o`: the loop started in `s` ends with the outcome `o`.

Rules: `Reaches.invariant` (what one pass preserves, all passes preserve),
`run_isSome_of_progress` (a quantity that grows by `d` in every pass and stays
below a bound gives the number of passes), and `Simulates` (two loops whose
passes correspond have corresponding outcomes).
-/

namespace Lib

structure WhileLoop (σ ε : Type) where
  guard : σ → Bool
  body : σ → Except ε σ

namespace WhileLoop

variable {σ τ ε δ : Type}

/-- At most `n` passes of the loop; `none` when the loop is not finished then. -/
def run (l : WhileLoop σ ε) : Nat → σ → Option (Except ε σ)
  | 0, s => if l.guard s then none else some (.ok s)
  | n + 1, s =>
    if l.guard s then
      match l.body s with
      | .error e => some (.error e)
      | .ok s' => l.run n s'
    else some (.ok s)

/-- `n` complete passes lead from `s` to `t`. -/
inductive Reaches (l : WhileLoop σ ε) (s : σ) : Nat → σ → Prop
  | refl : Reaches l s 0 s
  | pass {n : Nat} {t u : σ} :
      Reaches l s n t → l.guard t = true → l.body t = .ok u → Reaches l s (n + 1) u

/-- The loop started in `s` ends with the outcome `o`. -/
def Ends (l : WhileLoop σ ε) (s : σ) (o : Except ε σ) : Prop := ∃ n, l.run n s = some o

variable {l : WhileLoop σ ε} {s t u : σ} {n m : Nat} {e : ε} {o o' : Except ε σ}

/-! ## One pass -/

theorem run_done (h : l.guard s = false) : l.run n s = some (.ok s) := by
  cases n <;> simp [run, h]

theorem run_zero_of_guard (h : l.guard s = true) : l.run 0 s = none := by
  simp [run, h]

theorem run_succ_ok (h : l.guard s = true) (hb : l.body s = .ok t) :
    l.run (n + 1) s = l.run n t := by
  simp [run, h, hb]

theorem run_succ_error (h : l.guard s = true) (hb : l.body s = .error e) :
    l.run (n + 1) s = some (.error e) := by
  simp [run, h, hb]

/-! ## More passes -/

theorem run_mono (h : l.run n s = some o) (hnm : n ≤ m) : l.run m s = some o := by
  induction n generalizing s m with
  | zero =>
    cases hg : l.guard s with
    | true => rw [run_zero_of_guard hg] at h; cases h
    | false => rw [run_done hg] at h ⊢; exact h
  | succ n ih =>
    obtain ⟨k, rfl⟩ := Nat.exists_eq_add_of_le hnm
    rw [Nat.succ_add]
    cases hg : l.guard s with
    | false => rw [run_done hg] at h ⊢; exact h
    | true =>
      cases hb : l.body s with
      | error e => rw [run_succ_error hg hb] at h ⊢; exact h
      | ok t =>
        rw [run_succ_ok hg hb] at h ⊢
        exact ih h (Nat.le_add_right n k)

theorem Ends.unique (h : l.Ends s o) (h' : l.Ends s o') : o = o' := by
  obtain ⟨n, hn⟩ := h
  obtain ⟨m, hm⟩ := h'
  have h1 := run_mono hn (Nat.le_max_left n m)
  have h2 := run_mono hm (Nat.le_max_right n m)
  rw [h1] at h2
  exact Option.some.inj h2

theorem ends_done (h : l.guard s = false) : l.Ends s (.ok s) := ⟨0, run_done h⟩

theorem ends_error (h : l.guard s = true) (hb : l.body s = .error e) : l.Ends s (.error e) :=
  ⟨1, run_succ_error h hb⟩

theorem ends_pass (h : l.guard s = true) (hb : l.body s = .ok t) : l.Ends s o ↔ l.Ends t o := by
  constructor
  · rintro ⟨n, hn⟩
    cases n with
    | zero => rw [run_zero_of_guard h] at hn; cases hn
    | succ n => exact ⟨n, by rwa [run_succ_ok h hb] at hn⟩
  · rintro ⟨n, hn⟩
    exact ⟨n + 1, by rwa [run_succ_ok h hb]⟩

/-! ## Several passes -/

theorem Reaches.head (h : l.guard s = true) (hb : l.body s = .ok t) (hr : l.Reaches t n u) :
    l.Reaches s (n + 1) u := by
  induction hr with
  | refl => exact .pass .refl h hb
  | pass _ hg hb' ih => exact .pass ih hg hb'

theorem Reaches.trans (h : l.Reaches s n t) (h' : l.Reaches t m u) : l.Reaches s (n + m) u := by
  induction h' with
  | refl => exact h
  | pass _ hg hb ih => exact .pass ih hg hb

theorem Reaches.ends_iff (h : l.Reaches s n t) : l.Ends s o ↔ l.Ends t o := by
  induction h with
  | refl => exact Iff.rfl
  | pass _ hg hb ih => exact ih.trans (ends_pass hg hb)

/-- What every pass preserves holds in every state that passes lead to. -/
theorem Reaches.invariant {I : σ → Prop} (h : l.Reaches s n t) (hs : I s)
    (hpass : ∀ t u, I t → l.guard t = true → l.body t = .ok u → I u) : I t := by
  induction h with
  | refl => exact hs
  | pass _ hg hb ih => exact hpass _ _ ih hg hb

/-- A run that ends normally made no more passes than it was given. -/
theorem reaches_of_run (h : l.run n s = some (.ok t)) :
    ∃ k ≤ n, l.Reaches s k t ∧ l.guard t = false := by
  induction n generalizing s with
  | zero =>
    cases hg : l.guard s with
    | true => rw [run_zero_of_guard hg] at h; cases h
    | false => rw [run_done hg] at h; cases h; exact ⟨0, Nat.le_refl 0, .refl, hg⟩
  | succ n ih =>
    cases hg : l.guard s with
    | false => rw [run_done hg] at h; cases h; exact ⟨0, Nat.zero_le _, .refl, hg⟩
    | true =>
      cases hb : l.body s with
      | error e => rw [run_succ_error hg hb] at h; cases h
      | ok s' =>
        rw [run_succ_ok hg hb] at h
        obtain ⟨k, hkn, hk, hd⟩ := ih h
        exact ⟨k + 1, Nat.succ_le_succ hkn, hk.head hg hb, hd⟩

/-- A loop ends normally exactly when passes lead to a state outside the guard. -/
theorem ends_ok_iff : l.Ends s (.ok t) ↔ ∃ n, l.Reaches s n t ∧ l.guard t = false := by
  constructor
  · rintro ⟨n, hn⟩
    obtain ⟨k, -, hk, hd⟩ := reaches_of_run hn
    exact ⟨k, hk, hd⟩
  · rintro ⟨n, hr, hd⟩
    exact hr.ends_iff.mpr (ends_done hd)

/-- A loop stops with an error exactly when passes lead to a state whose pass
gives that error. -/
theorem ends_error_iff :
    l.Ends s (.error e) ↔ ∃ n t, l.Reaches s n t ∧ l.guard t = true ∧ l.body t = .error e := by
  constructor
  · rintro ⟨n, hn⟩
    induction n generalizing s with
    | zero =>
      cases hg : l.guard s with
      | true => rw [run_zero_of_guard hg] at hn; cases hn
      | false => rw [run_done hg] at hn; cases hn
    | succ n ih =>
      cases hg : l.guard s with
      | false => rw [run_done hg] at hn; cases hn
      | true =>
        cases hb : l.body s with
        | error e' =>
          rw [run_succ_error hg hb] at hn
          cases hn
          exact ⟨0, s, .refl, hg, hb⟩
        | ok s' =>
          rw [run_succ_ok hg hb] at hn
          obtain ⟨k, t, hk, hgt, hbt⟩ := ih hn
          exact ⟨k + 1, t, hk.head hg hb, hgt, hbt⟩
  · rintro ⟨n, t, hr, hg, hb⟩
    exact hr.ends_iff.mpr (ends_error hg hb)

/-- Two loops whose passes agree, as far as an invariant holds, have the same runs. -/
theorem run_congr {k : WhileLoop σ ε} {I : σ → Prop} (hguard : ∀ s, l.guard s = k.guard s)
    (hbody : ∀ s, I s → k.guard s = true → l.body s = k.body s)
    (hpass : ∀ s t, I s → k.guard s = true → k.body s = .ok t → I t) (hs : I s) :
    l.run n s = k.run n s := by
  induction n generalizing s with
  | zero => rw [run, run, hguard]
  | succ n ih =>
    cases hg : k.guard s with
    | false => rw [run_done hg, run_done ((hguard s).trans hg)]
    | true =>
      have hl := hbody s hs hg
      cases hb : k.body s with
      | error e =>
        rw [run_succ_error hg hb, run_succ_error ((hguard s).trans hg) (hl.trans hb)]
      | ok t =>
        rw [run_succ_ok hg hb, run_succ_ok ((hguard s).trans hg) (hl.trans hb)]
        exact ih (hpass s t hs hg hb)

/-! ## The number of passes -/

/-- If every pass adds at least `d` to `f`, and the guard only holds below `L`,
then `n` passes suffice as soon as `d * n` covers the distance to `L`. -/
theorem run_isSome_of_progress {I : σ → Prop} {f : σ → Nat} {L d : Nat}
    (hguard : ∀ t, l.guard t = true → f t < L)
    (hpass : ∀ t u, I t → l.guard t = true → l.body t = .ok u → I u ∧ f t + d ≤ f u)
    (hs : I s) (hn : L ≤ f s + d * n) : ∃ o, l.run n s = some o := by
  induction n generalizing s with
  | zero =>
    cases hg : l.guard s with
    | true => exact absurd (hguard s hg) (by omega)
    | false => exact ⟨_, run_done hg⟩
  | succ n ih =>
    cases hg : l.guard s with
    | false => exact ⟨_, run_done hg⟩
    | true =>
      cases hb : l.body s with
      | error e => exact ⟨_, run_succ_error hg hb⟩
      | ok u =>
        obtain ⟨hu, hf⟩ := hpass s u hs hg hb
        rw [run_succ_ok hg hb]
        refine ih hu ?_
        rw [Nat.mul_succ] at hn
        omega

/-- Under the same conditions `n` passes have added at least `d * n`. -/
theorem Reaches.progress {I : σ → Prop} {f : σ → Nat} {d : Nat}
    (hpass : ∀ t u, I t → l.guard t = true → l.body t = .ok u → I u ∧ f t + d ≤ f u)
    (hs : I s) (h : l.Reaches s n t) : I t ∧ f s + d * n ≤ f t := by
  induction h with
  | refl => exact ⟨hs, by omega⟩
  | pass _ hg hb ih =>
    obtain ⟨hu, hf⟩ := hpass _ _ ih.1 hg hb
    exact ⟨hu, by rw [Nat.mul_succ]; omega⟩

/-- The state after some of the passes. -/
theorem Reaches.split (h : l.Reaches s n t) {i : Nat} (hi : i < n) :
    ∃ u, l.Reaches s i u ∧ l.guard u = true ∧ l.Reaches u (n - i) t := by
  induction h with
  | refl => exact absurd hi (Nat.not_lt_zero i)
  | @pass n t u hr hg hb ih =>
    rcases Nat.lt_or_ge i n with hin | hin
    · obtain ⟨v, hv, hgv, hvt⟩ := ih hin
      refine ⟨v, hv, hgv, ?_⟩
      rw [Nat.succ_sub (Nat.le_of_lt hin)]
      exact .pass hvt hg hb
    · obtain rfl : i = n := by omega
      exact ⟨t, hr, hg, by simpa using Reaches.pass .refl hg hb⟩

/-- A loop over numbers below `L` comes to every number it comes to within `L`
passes: longer ways visit a number twice. -/
theorem Reaches.shorten {l : WhileLoop Nat ε} {s t L : Nat}
    (hguard : ∀ t, l.guard t = true → t < L) (h : l.Reaches s n t) :
    ∃ k ≤ L, l.Reaches s k t := by
  induction n using Nat.strong_induction_on with
  | _ n ih =>
    rcases Nat.lt_or_ge L n with hLn | hLn
    · have hmid : ∀ i : Fin n, ∃ u : Fin L, l.Reaches s i u ∧ l.Reaches u (n - i) t := by
        intro i
        obtain ⟨u, hu, hg, hut⟩ := h.split i.isLt
        exact ⟨⟨u, hguard u hg⟩, hu, hut⟩
      choose f hf using hmid
      obtain ⟨i, j, hij, hfij⟩ := Fintype.exists_ne_map_eq_of_card_lt f (by simpa using hLn)
      -- The passes between the two visits can be left out.
      have hcut : ∀ i j : Fin n, i < j → f i = f j → ∃ k < n, l.Reaches s k t := by
        intro i j hlt heq
        have hj := (hf j).2
        rw [← heq] at hj
        exact ⟨i + (n - j), by omega, (hf i).1.trans hj⟩
      rcases Nat.lt_or_gt_of_ne (Fin.val_ne_of_ne hij) with hlt | hgt
      · obtain ⟨k, hkn, hk⟩ := hcut i j hlt hfij
        exact ih k hkn hk
      · obtain ⟨k, hkn, hk⟩ := hcut j i hgt hfij.symm
        exact ih k hkn hk
    · exact ⟨n, hLn, h⟩

/-! ## Simulation -/

/-- Two outcomes correspond: both normal with related states, or both errors
that are related. -/
def OutcomeRel (R : σ → τ → Prop) (E : ε → δ → Prop) : Except ε σ → Except δ τ → Prop
  | .ok s, .ok t => R s t
  | .error e, .error d => E e d
  | _, _ => False

/-- Passes from related states correspond. -/
structure Simulates (l : WhileLoop σ ε) (k : WhileLoop τ δ) (R : σ → τ → Prop)
    (E : ε → δ → Prop) : Prop where
  guard : ∀ s t, R s t → l.guard s = k.guard t
  body : ∀ s t, R s t → k.guard t = true → OutcomeRel R E (l.body s) (k.body t)

theorem Simulates.run {k : WhileLoop τ δ} {R : σ → τ → Prop} {E : ε → δ → Prop}
    (hsim : l.Simulates k R E) {s : σ} {t : τ} (h : R s t) (n : Nat) :
    Option.Rel (OutcomeRel R E) (l.run n s) (k.run n t) := by
  -- The guards agree, so both loops are done here or both make a pass.
  have hguard := hsim.guard s t h
  cases hg : k.guard t with
  | false =>
    rw [run_done (hguard.trans hg), run_done hg]
    exact .some h
  | true =>
    have hbody := hsim.body s t h hg
    cases n with
    | zero =>
      rw [run_zero_of_guard (hguard.trans hg), run_zero_of_guard hg]
      exact .none
    | succ n =>
      cases hk : k.body t with
      | error d =>
        cases hl : l.body s with
        | ok s' => rw [hk, hl] at hbody; exact hbody.elim
        | error e =>
          rw [run_succ_error (hguard.trans hg) hl, run_succ_error hg hk]
          rw [hk, hl] at hbody
          exact .some hbody
      | ok t' =>
        cases hl : l.body s with
        | error e => rw [hk, hl] at hbody; exact hbody.elim
        | ok s' =>
          rw [run_succ_ok (hguard.trans hg) hl, run_succ_ok hg hk]
          rw [hk, hl] at hbody
          exact hsim.run hbody n

/-- Every outcome of the simulated loop is matched by the simulating one. -/
theorem Simulates.ends {k : WhileLoop τ δ} {R : σ → τ → Prop} {E : ε → δ → Prop}
    (hsim : l.Simulates k R E) {s : σ} {t : τ} (h : R s t) {o : Except δ τ} (ho : k.Ends t o) :
    ∃ o', l.Ends s o' ∧ OutcomeRel R E o' o := by
  obtain ⟨n, hn⟩ := ho
  have hrel := hsim.run h n
  rw [hn] at hrel
  cases hl : l.run n s with
  | none => rw [hl] at hrel; cases hrel
  | some o' =>
    rw [hl] at hrel
    cases hrel with
    | some hrel => exact ⟨o', ⟨n, hl⟩, hrel⟩

theorem Simulates.ends_ok {k : WhileLoop τ δ} {R : σ → τ → Prop} {E : ε → δ → Prop}
    (hsim : l.Simulates k R E) {s : σ} {t t' : τ} (h : R s t) (ho : k.Ends t (.ok t')) :
    ∃ s', l.Ends s (.ok s') ∧ R s' t' := by
  obtain ⟨o, hl, hrel⟩ := hsim.ends h ho
  cases o with
  | error e => exact hrel.elim
  | ok s' => exact ⟨s', hl, hrel⟩

theorem Simulates.ends_error {k : WhileLoop τ δ} {R : σ → τ → Prop} {E : ε → δ → Prop}
    (hsim : l.Simulates k R E) {s : σ} {t : τ} {d : δ} (h : R s t)
    (ho : k.Ends t (.error d)) : ∃ e, l.Ends s (.error e) ∧ E e d := by
  obtain ⟨o, hl, hrel⟩ := hsim.ends h ho
  cases o with
  | error e => exact ⟨e, hl, hrel⟩
  | ok s' => exact hrel.elim

theorem OutcomeRel.symm {R : σ → τ → Prop} {E : ε → δ → Prop} {p : Except δ τ}
    (h : OutcomeRel R E o p) : OutcomeRel (flip R) (flip E) p o := by
  cases o <;> cases p <;> exact h

/-- Two loops that correspond simulate each other. -/
theorem Simulates.symm {k : WhileLoop τ δ} {R : σ → τ → Prop} {E : ε → δ → Prop}
    (hsim : l.Simulates k R E) : k.Simulates l (flip R) (flip E) where
  guard := fun t s h => (hsim.guard s t h).symm
  body := fun t s h hg => (hsim.body s t h ((hsim.guard s t h).symm.trans hg)).symm

/-- Where a state has one counterpart, the one loop ends in the counterparts of what
the other ends in. -/
theorem Simulates.ends_ok_iff {k : WhileLoop τ δ} {R : σ → τ → Prop} {E : ε → δ → Prop}
    (hsim : l.Simulates k R E) (hR : Relator.LeftUnique R) {s s' : σ} {t : τ} (h : R s t) :
    l.Ends s (.ok s') ↔ ∃ t', k.Ends t (.ok t') ∧ R s' t' := by
  constructor
  · intro hl
    exact hsim.symm.ends_ok h hl
  · rintro ⟨t', hk, hrel⟩
    obtain ⟨s'', hl, hrel'⟩ := hsim.ends_ok h hk
    exact hR hrel hrel' ▸ hl

theorem Simulates.ends_error_iff {k : WhileLoop τ δ} {R : σ → τ → Prop} {E : ε → δ → Prop}
    (hsim : l.Simulates k R E) (hE : Relator.LeftUnique E) {s : σ} {t : τ} {e : ε} (h : R s t) :
    l.Ends s (.error e) ↔ ∃ d, k.Ends t (.error d) ∧ E e d := by
  constructor
  · intro hl
    exact hsim.symm.ends_error h hl
  · rintro ⟨d, hk, hrel⟩
    obtain ⟨e', hl, hrel'⟩ := hsim.ends_error h hk
    exact hE hrel hrel' ▸ hl

end WhileLoop

end Lib
