import Tlv.Lib.Footprint

/-!
# Programs that end when a request is refused

A program that allocates asks an allocator: may the block named `i` have `n` bytes? An
allocator `A` is the answers. `Refused null A e ends` says that the program has ended with
the error `null` on a heap where `A` refuses the next block, and that it `ends` there
also when that one request is the only one that is refused (`allBut`). So this is the
request that was made, with its number and its size.

`FailStop null B p`: with any allocator `p` does what it does with `B`, to the same heap,
or it ends at a request that was refused. So whatever it returns, it returns with `B` as
well (`FailStop.ok`), and it is enough to know it there.

`Tame mine p Q` is what is needed of the parts of a sequence: each keeps to the blocks
`mine` (`Within`), and does not ask for names that come behind its own.

Rules: sequences (`Tame.bind`, and `Tame.after` for a first step that asks for nothing),
branches (`Tame.ite`), programs that ask for nothing (`Tame.const`) and loops
(`WhileLoop.run_tame`).
-/

namespace Lib

/-- Grants every request but the one numbered `i`, if it is for `n` bytes. -/
def allBut (i n : Nat) : Nat → Nat → Bool := fun j k => decide (¬(j = i ∧ k = n))

theorem allBut_eq_false {i n j k : Nat} (h : allBut i n j k = false) : j = i ∧ k = n :=
  not_not.mp (of_decide_eq_false h)

namespace Prog

variable {ε α β : Type} {null : ε} {A B : Nat → Nat → Bool} {mine : Nat → Prop}

def Refused (null : ε) (A : Nat → Nat → Bool) (e : ε × Heap) (ends : (Nat → Nat → Bool) → Prop) :
    Prop :=
  e.1 = null ∧ ends A ∧ ∃ n, A e.2.next n = false ∧ ends (allBut e.2.next n)

theorem Refused.mono {e : ε × Heap} {ends ends' : (Nat → Nat → Bool) → Prop}
    (hr : Refused null A e ends) (himp : ∀ A', ends A' → ends' A') : Refused null A e ends' := by
  obtain ⟨hnull, hA, n, hn, hbut⟩ := hr
  exact ⟨hnull, himp A hA, n, hn, himp _ hbut⟩

def FailStop (null : ε) (B : Nat → Nat → Bool) (p : (Nat → Nat → Bool) → Prog ε α) : Prop :=
  ∀ A h, p A h = p B h ∨ ∃ e, Refused null A e fun A' => p A' h = .error e

structure Tame (null : ε) (B : Nat → Nat → Bool) (mine : Nat → Prop)
    (p : (Nat → Nat → Bool) → Prog ε α) (Q : α → Prop) : Prop where
  within : ∀ A, Within mine (p A) Q
  stops : ∀ A h, h.Fresh mine → p A h = p B h ∨
    ∃ e, (Refused null A e fun A' => p A' h = .error e) ∧
      ∀ a h', p B h = .ok (a, h') → e.2.next < h'.next

namespace FailStop

variable {p : (Nat → Nat → Bool) → Prog ε α} {h : Heap}

/-- What the program returns, it returns with `B`. -/
theorem ok {r : α × Heap} (hp : FailStop null B p) (hr : p A h = .ok r) : p B h = .ok r := by
  rcases hp A h with heq | ⟨e, -, hstop, -⟩
  · exact heq.symm.trans hr
  · rw [hstop] at hr
    cases hr

/-- What ends the program ends it with `B`, or is a refused request. -/
theorem error {e : ε × Heap} (hp : FailStop null B p) (hr : p A h = .error e) :
    (Refused null A e fun A' => p A' h = .error e) ∨ p B h = .error e := by
  rcases hp A h with heq | ⟨e', hrefused⟩
  · exact .inr (heq.symm.trans hr)
  · cases hrefused.2.1.symm.trans hr
    exact .inl hrefused

end FailStop

namespace Tame

variable {p p' : (Nat → Nat → Bool) → Prog ε α} {f : (Nat → Nat → Bool) → α → Prog ε β}
  {Q : α → Prop} {R : β → Prop} {h h' : Heap} {a : α}

theorem const {q : Prog ε α} (hq : Within mine q Q) : Tame null B mine (fun _ => q) Q :=
  ⟨fun _ => hq, fun _ _ _ => .inl rfl⟩

/-- To refuse a request that is numbered behind what the program returns does not change
what it returns. -/
theorem allBut_ok (hp : Tame null B mine p Q) (hfresh : h.Fresh mine)
    (hr : p B h = .ok (a, h')) {i : Nat} (hi : h'.next ≤ i) (n : Nat) :
    p (allBut i n) h = .ok (a, h') := by
  rcases hp.stops (allBut i n) h hfresh with heq | ⟨e, ⟨-, -, k, hk, -⟩, hlt⟩
  · exact heq.trans hr
  · have he : e.2.next = i := (allBut_eq_false hk).1
    exact absurd hi (Nat.not_le.mpr (he ▸ hlt a h' hr))

theorem bind (hp : Tame null B mine p Q) (hf : ∀ a, Q a → Tame null B mine (fun A => f A a) R) :
    Tame null B mine (fun A => p A >>= f A) R where
  within := fun A => (hp.within A).bind fun a ha => (hf a ha).within A
  stops := by
    intro A h hfresh
    cases hq : p B h with
    | error e =>
      rcases hp.stops A h hfresh with heq | ⟨e', hrefused, -⟩
      · exact .inl ((bind_error (heq.trans hq)).trans (bind_error hq).symm)
      · refine .inr ⟨e', hrefused.mono fun A' => bind_error, fun b h₂ hr => ?_⟩
        rw [bind_error hq] at hr
        cases hr
    | ok r =>
      obtain ⟨a, h₁⟩ := r
      obtain ⟨hl, ha⟩ := (hp.within B h hfresh).1 a h₁ hq
      rcases hp.stops A h hfresh with heq | ⟨e', hrefused, hlt⟩
      · rcases (hf a ha).stops A h₁ (hl.fresh hfresh) with
          heq' | ⟨e', ⟨hnull, hA, n, hn, hbut⟩, hlt⟩
        · refine .inl ?_
          rw [bind_ok (heq.trans hq), bind_ok hq]
          exact heq'
        · have hle : h₁.next ≤ e'.2.next :=
            (((hf a ha).within A h₁ (hl.fresh hfresh)).2 e'.1 e'.2 hA).le
          refine .inr ⟨e', ⟨hnull, (bind_ok (heq.trans hq)).trans hA, n, hn,
            (bind_ok (hp.allBut_ok hfresh hq hle n)).trans hbut⟩, fun b h₂ hr => ?_⟩
          rw [bind_ok hq] at hr
          exact hlt b h₂ hr
      · refine .inr ⟨e', hrefused.mono fun A' => bind_error, fun b h₂ hr => ?_⟩
        rw [bind_ok hq] at hr
        exact Nat.lt_of_lt_of_le (hlt a h₁ hq)
          (((hf a ha).within B h₁ (hl.fresh hfresh)).1 b h₂ hr).1.le

/-- A first step that asks for nothing. -/
theorem after {q : Prog ε α} (hq : Within mine q Q)
    (hf : ∀ a, Q a → Tame null B mine (fun A => f A a) R) :
    Tame null B mine (fun A => q >>= f A) R :=
  (const hq).bind hf

theorem ite {c : Prop} [Decidable c] (hp : Tame null B mine p Q) (hp' : Tame null B mine p' Q) :
    Tame null B mine (fun A => if c then p A else p' A) Q := by
  by_cases hc : c
  · simp only [if_pos hc]
    exact hp
  · simp only [if_neg hc]
    exact hp'

/-- A program that asks for the next block goes on with it, or ends. -/
theorem stops_request (hp : Tame null B mine p Q) (n : Nat) (hfresh : h'.Fresh mine)
    (hnext : h'.next = h.next + 1) (hB : B h.next n = true)
    {q : (Nat → Nat → Bool) → Prog ε α} (hgo : ∀ A, A h.next n = true → q A h = p A h')
    (hstop : ∀ A, ¬A h.next n = true → q A h = .error (null, h)) (A : Nat → Nat → Bool) :
    q A h = q B h ∨ ∃ e, (Refused null A e fun A' => q A' h = .error e) ∧
      ∀ a h₂, q B h = .ok (a, h₂) → e.2.next < h₂.next := by
  by_cases hA : A h.next n = true
  · rw [hgo A hA, hgo B hB]
    rcases hp.stops A h' hfresh with heq | ⟨e, ⟨hnull, hends, k, hk, hbut⟩, hlt⟩
    · exact .inl heq
    · have hle := ((hp.within A h' hfresh).2 e.1 e.2 hends).le
      have hother : allBut e.2.next k h.next n = true := by
        refine decide_eq_true fun hsame => ?_
        rw [hnext, hsame.1] at hle
        exact Nat.not_succ_le_self _ hle
      exact .inr ⟨e, ⟨hnull, (hgo A hA).trans hends, k, hk, (hgo _ hother).trans hbut⟩, hlt⟩
  · have hbut : ¬allBut h.next n h.next n = true := by simp [allBut]
    refine .inr ⟨(null, h), ⟨rfl, hstop A hA, n, Bool.eq_false_of_not_eq_true hA,
      hstop _ hbut⟩, fun a h₂ hr => ?_⟩
    have hle := ((hp.within B h' hfresh).1 a h₂ ((hgo B hB).symm.trans hr)).1.le
    rw [hnext] at hle
    exact hle

theorem failStop (hp : Tame null B (fun _ => True) p Q) : FailStop null B p := fun A h =>
  (hp.stops A h fun _ _ => trivial).imp_right fun ⟨e, hrefused, _⟩ => ⟨e, hrefused⟩

end Tame

end Prog

/-- A loop whose passes are tame programs, and keep a property of its state. -/
theorem WhileLoop.run_tame {σ ε : Type} {null : ε} {B : Nat → Nat → Bool} {mine : Nat → Prop}
    {I : σ → Prop} {l : (Nat → Nat → Bool) → WhileLoop (σ × Heap) (ε × Heap)}
    {p : (Nat → Nat → Bool) → σ → Prog ε σ} (hguard : ∀ A s, (l A).guard s = (l B).guard s)
    (hbody : ∀ A s, (l A).body s = p A s.1 s.2)
    (hp : ∀ s, I s → Prog.Tame null B mine (fun A => p A s) I) (A : Nat → Nat → Bool) (n : Nat)
    {s : σ × Heap} (hs : I s.1) (hfresh : s.2.Fresh mine) :
    (l A).run n s = (l B).run n s ∨
      ∃ e, (Prog.Refused null A e fun A' => (l A').run n s = some (.error e)) ∧
        s.2.next ≤ e.2.next := by
  induction n generalizing s with
  | zero =>
    left
    rw [run, run, hguard]
  | succ n ih =>
    cases hg : (l B).guard s with
    | false =>
      left
      rw [run_done hg, run_done ((hguard A s).trans hg)]
    | true =>
      have hgo : ∀ A', (l A').guard s = true := fun A' => (hguard A' s).trans hg
      have herr : ∀ {e} A', p A' s.1 s.2 = .error e → (l A').run (n + 1) s = some (.error e) :=
        fun A' hr => run_succ_error (hgo A') ((hbody A' s).trans hr)
      have hok : ∀ {t} A', p A' s.1 s.2 = .ok t → (l A').run (n + 1) s = (l A').run n t :=
        fun A' hr => run_succ_ok (hgo A') ((hbody A' s).trans hr)
      rcases (hp s.1 hs).stops A s.2 hfresh with heq | ⟨e, hrefused, -⟩
      · cases hq : p B s.1 s.2 with
        | error e =>
          left
          rw [herr A (heq.trans hq), herr B hq]
        | ok t =>
          obtain ⟨hl, ht⟩ := ((hp s.1 hs).within B s.2 hfresh).1 t.1 t.2 hq
          rw [hok A (heq.trans hq), hok B hq]
          rcases ih ht (hl.fresh hfresh) with heq' | ⟨e, ⟨hnull, hA, k, hk, hbut⟩, hle⟩
          · exact .inl heq'
          · exact .inr ⟨e, ⟨hnull, (hok A (heq.trans hq)).trans hA, k, hk,
              (hok _ ((hp s.1 hs).allBut_ok hfresh hq hle k)).trans hbut⟩, hl.le.trans hle⟩
      · exact .inr ⟨e, hrefused.mono herr,
          (((hp s.1 hs).within A s.2 hfresh).2 e.1 e.2 hrefused.2.1).le⟩

end Lib
