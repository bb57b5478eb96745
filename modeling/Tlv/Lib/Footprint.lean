import Tlv.Lib.Heap
import Tlv.Lib.WhileLoop

/-!
# What a program leaves alone

`mine` is a property of block names: those of the blocks that a program may use. Names
that are not in use yet are always among them. `Within mine p Q` says that, whether `p`
returns or stops, every other block is as it was, and that a value which `p` returns has
the property `Q`; for pointers that is to point to one of the program's own blocks.

Rules: sequences (`Within.bind`), branches (`Within.ite`) and loops
(`WhileLoop.run_within`).
-/

namespace Lib

/-- From `h` to `h'`, no block but those named by `mine` was changed or released. -/
structure Heap.LeavesAlone (mine : Nat → Prop) (h h' : Heap) : Prop where
  le : h.next ≤ h'.next
  cells : ∀ i, ¬ mine i → h'.cells i = h.cells i

/-- The names that are not in use yet are the program's own. -/
def Heap.Fresh (mine : Nat → Prop) (h : Heap) : Prop := ∀ i, h.next ≤ i → mine i

namespace Heap.LeavesAlone

variable {mine : Nat → Prop} {h h₁ h₂ : Heap} {i n : Nat} {m : Mem}

theorem refl (mine : Nat → Prop) (h : Heap) : LeavesAlone mine h h :=
  ⟨Nat.le_refl _, fun _ _ => rfl⟩

theorem trans (h₁₂ : LeavesAlone mine h h₁) (h₂₃ : LeavesAlone mine h₁ h₂) :
    LeavesAlone mine h h₂ :=
  ⟨h₁₂.le.trans h₂₃.le, fun i hi => (h₂₃.cells i hi).trans (h₁₂.cells i hi)⟩

theorem fresh (hl : LeavesAlone mine h h₁) (hf : h.Fresh mine) : h₁.Fresh mine :=
  fun i hi => hf i (hl.le.trans hi)

theorem new (hf : h.Fresh mine) (n : Nat) (m : Mem) : LeavesAlone mine h (h.new n m) := by
  refine ⟨Nat.le_succ _, fun i hi => ?_⟩
  rw [new_cells, if_neg]
  rintro rfl
  exact hi (hf _ (Nat.le_refl _))

theorem drop (hi : mine i) (h : Heap) : LeavesAlone mine h (h.drop i) := by
  refine ⟨Nat.le_refl _, fun j hj => ?_⟩
  rw [drop_cells, if_neg]
  rintro rfl
  exact hj hi

theorem set (hi : mine i) (h : Heap) (b : Block) : LeavesAlone mine h (h.set i b) := by
  refine ⟨Nat.le_refl _, fun j hj => ?_⟩
  show (if j = i ∧ i < h.next then some b else h.cells j) = _
  rw [if_neg]
  rintro ⟨rfl, -⟩
  exact hj hi

end Heap.LeavesAlone

namespace Prog

variable {ε α β : Type} {mine : Nat → Prop}

def Within (mine : Nat → Prop) (p : Prog ε α) (Q : α → Prop) : Prop :=
  ∀ h, h.Fresh mine →
    (∀ a h', p h = .ok (a, h') → h.LeavesAlone mine h' ∧ Q a) ∧
    ∀ e h', p h = .error (e, h') → h.LeavesAlone mine h'

namespace Within

variable {p p' : Prog ε α} {f : α → Prog ε β} {Q Q' : α → Prop} {R : β → Prop} {a : α}

theorem pure (ha : Q a) : Within mine (pure a : Prog ε α) Q := by
  refine fun h _ => ⟨fun a' h' hr => ?_, fun e h' hr => by cases hr⟩
  cases hr
  exact ⟨.refl mine h, ha⟩

theorem stop (e : ε) : Within mine (Prog.stop e : Prog ε α) Q := by
  refine fun h _ => ⟨fun a h' hr => (by cases hr), fun e' h' hr => ?_⟩
  cases hr
  exact .refl mine h

/-- What the first program returns is all that the second one knows. -/
theorem bind (hp : Within mine p Q) (hf : ∀ a, Q a → Within mine (f a) R) :
    Within mine (p >>= f) R := by
  intro h hfresh
  obtain ⟨hok, herr⟩ := hp h hfresh
  constructor
  · intro b h₂ hr
    obtain ⟨a, h₁, hrun, hr⟩ := bind_eq_ok.mp hr
    obtain ⟨hl, ha⟩ := hok a h₁ hrun
    obtain ⟨hl', hb⟩ := (hf a ha h₁ (hl.fresh hfresh)).1 b h₂ hr
    exact ⟨hl.trans hl', hb⟩
  · intro e h₂ hr
    rcases bind_eq_error.mp hr with hrun | ⟨a, h₁, hrun, hr⟩
    · exact herr e h₂ hrun
    · obtain ⟨hl, ha⟩ := hok a h₁ hrun
      exact hl.trans ((hf a ha h₁ (hl.fresh hfresh)).2 e h₂ hr)

theorem ite {c : Prop} [Decidable c] (hp : Within mine p Q) (hp' : Within mine p' Q) :
    Within mine (if c then p else p') Q := by
  split
  · exact hp
  · exact hp'

end Within

end Prog

end Lib
