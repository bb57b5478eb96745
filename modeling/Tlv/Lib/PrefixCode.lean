import Mathlib.Data.List.Infix

/-!
# Prefix codes

A code gives each symbol a word. It is a prefix code when no word is empty and none
is the beginning of the word of another symbol. Then a text, the words of some
symbols one after the other, can be read from the left: texts that begin alike come
from symbols that begin alike (`PrefixCode.flatMap_prefix_iff`).

`exists_cut` says where a text of any code is cut by taking its first bytes.
-/

namespace Lib

variable {α β : Type} {code : α → List β} {as bs : List α} {xs ys : List β}

structure PrefixCode (code : α → List β) : Prop where
  ne_nil : ∀ a, code a ≠ []
  eq_of_prefix : ∀ a b, code a <+: code b → a = b

namespace PrefixCode

/-- The first word can be read off. -/
theorem append_inj (hc : PrefixCode code) {a b : α} (heq : code a ++ xs = code b ++ ys) :
    a = b ∧ xs = ys := by
  have ha : code a <+: code b ++ ys := ⟨xs, heq⟩
  have hb : code b <+: code b ++ ys := List.prefix_append _ _
  have hab : a = b := by
    rcases List.prefix_or_prefix_of_prefix ha hb with h | h
    · exact hc.eq_of_prefix a b h
    · exact (hc.eq_of_prefix b a h).symm
  subst hab
  exact ⟨rfl, List.append_cancel_left heq⟩

theorem flatMap_prefix_iff (hc : PrefixCode code) :
    as.flatMap code <+: bs.flatMap code ↔ as <+: bs := by
  constructor
  · intro hpre
    induction as generalizing bs with
    | nil => exact List.nil_prefix
    | cons a as ih =>
      obtain ⟨rest, hrest⟩ := hpre
      cases bs with
      | nil =>
        rw [List.flatMap_cons, List.flatMap_nil, List.append_assoc] at hrest
        exact absurd (List.append_eq_nil_iff.mp hrest).1 (hc.ne_nil a)
      | cons b bs =>
        rw [List.flatMap_cons, List.flatMap_cons, List.append_assoc] at hrest
        obtain ⟨rfl, htail⟩ := hc.append_inj hrest
        exact List.cons_prefix_cons.mpr ⟨rfl, ih ⟨rest, htail⟩⟩
  · rintro ⟨cs, rfl⟩
    rw [List.flatMap_append]
    exact List.prefix_append _ _

end PrefixCode

/-- The first `k` letters of a text are the words of the first symbols, and then the
beginning of one more word, unless the cut is between two words. -/
theorem exists_cut (code : α → List β) (as : List α) {k : Nat}
    (hk : k ≤ (as.flatMap code).length) :
    ∃ bs, bs <+: as ∧ (bs.flatMap code).length ≤ k ∧
      ((as.flatMap code).take k = bs.flatMap code ∨
        ∃ a part, bs ++ [a] <+: as ∧ part ≠ [] ∧ part <+: code a ∧ part.length < (code a).length ∧
          (as.flatMap code).take k = bs.flatMap code ++ part) := by
  induction as generalizing k with
  | nil => exact ⟨[], List.nil_prefix, Nat.zero_le k, .inl (by simp)⟩
  | cons a as ih =>
    rw [List.flatMap_cons, List.length_append] at hk
    rcases Nat.lt_or_ge k (code a).length with hlt | hge
    · refine ⟨[], List.nil_prefix, Nat.zero_le k, ?_⟩
      rw [List.flatMap_cons, List.take_append_of_le_length (Nat.le_of_lt hlt)]
      rcases Nat.eq_zero_or_pos k with rfl | hpos
      · exact .inl List.take_zero
      · refine .inr ⟨a, (code a).take k, ?_, ?_, List.take_prefix _ _, ?_, by simp⟩
        · exact ⟨as, rfl⟩
        · intro hnil
          have hzero := congrArg List.length hnil
          rw [List.length_take, List.length_nil] at hzero
          omega
        · rw [List.length_take]
          omega
    -- The cut is behind the first word, so it is one of the rest.
    · obtain ⟨bs, hpre, hle, hcut⟩ := ih (k := k - (code a).length) (by omega)
      have htake : ((a :: as).flatMap code).take k =
          code a ++ (as.flatMap code).take (k - (code a).length) := by
        rw [List.flatMap_cons, List.take_append, List.take_of_length_le hge]
      refine ⟨a :: bs, List.cons_prefix_cons.mpr ⟨rfl, hpre⟩, ?_, ?_⟩
      · rw [List.flatMap_cons, List.length_append]
        omega
      · rw [htake, List.flatMap_cons]
        rcases hcut with hcut | ⟨b, part, hb, hne, hpart, hlen, hcut⟩
        · exact .inl (by rw [hcut])
        · exact .inr ⟨b, part, List.cons_prefix_cons.mpr ⟨rfl, hb⟩, hne, hpart, hlen,
            by rw [hcut, List.append_assoc]⟩

end Lib
