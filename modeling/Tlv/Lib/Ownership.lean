import Tlv.Lib.Heap

/-!
# Which blocks a program owns

`Owns h₀ h ids done` compares the heap `h` with the earlier heap `h₀`: the blocks
allocated since are `ids`, which are live, and `done`, which were released, in
that order and each once; every other block is as it was.

Each heap operation has one rule. A program that owns nothing at its end has
left the live blocks as it found them (`Owns.cells_eq`).
-/

namespace Lib.Heap

structure Owns (h₀ h : Heap) (ids done : List Nat) : Prop where
  le : h₀.next ≤ h.next
  allocated : (ids ++ done).Perm (List.range' h₀.next (h.next - h₀.next))
  released : h.released = h₀.released ++ done
  live : ∀ i ∈ ids, (h.cells i).isSome
  frame : ∀ i, i ∉ ids → h.cells i = h₀.cells i

namespace Owns

variable {h₀ h h' : Heap} {ids ids' done done' : List Nat} {i n off : Nat} {m : Mem}
  {bs : List UInt8}

theorem refl (h : Heap) : Owns h h [] [] where
  le := Nat.le_refl _
  allocated := by simp
  released := by simp
  live := by simp
  frame := fun _ _ => rfl

theorem perm (ho : Owns h₀ h ids done) (hp : ids.Perm ids') : Owns h₀ h ids' done where
  le := ho.le
  allocated := (hp.symm.append_right done).trans ho.allocated
  released := ho.released
  live := fun i hi => ho.live i (hp.mem_iff.mpr hi)
  frame := fun i hi => ho.frame i (fun hm => hi (hp.mem_iff.mp hm))

/-- No block is owned or released twice. -/
theorem nodup (ho : Owns h₀ h ids done) : (ids ++ done).Nodup :=
  ho.allocated.nodup_iff.mpr List.nodup_range'

theorem mem_range (ho : Owns h₀ h ids done) (hi : i ∈ ids ++ done) :
    h₀.next ≤ i ∧ i < h.next := by
  have hr := ho.allocated.mem_iff.mp hi
  have hle := ho.le
  rw [List.mem_range'_1] at hr
  omega

/-- An owned block was not live before. -/
theorem not_live_before (ho : Owns h₀ h ids done) (hi : i ∈ ids) : h₀.cells i = none :=
  h₀.fresh i (ho.mem_range (List.mem_append_left done hi)).1

theorem exists_block (ho : Owns h₀ h ids done) (hi : i ∈ ids) : ∃ b, h.cells i = some b :=
  Option.isSome_iff_exists.mp (ho.live i hi)

/-- A new block is owned. -/
theorem new (ho : Owns h₀ h ids done) (n : Nat) (m : Mem) :
    Owns h₀ (h.new n m) (h.next :: ids) done where
  le := Nat.le_succ_of_le ho.le
  allocated := by
    have hsplit : h.next + 1 - h₀.next = h.next - h₀.next + 1 := Nat.succ_sub ho.le
    have hlast : h₀.next + 1 * (h.next - h₀.next) = h.next := by
      have := ho.le
      omega
    rw [new_next, hsplit, List.range'_concat, hlast, List.cons_append]
    exact (ho.allocated.cons h.next).trans (List.perm_append_singleton _ _).symm
  released := ho.released
  live := fun i hi => by
    rw [new_cells]
    split
    · rfl
    · next hne => exact ho.live i ((List.mem_cons.mp hi).resolve_left hne)
  frame := fun i hi => by
    rw [List.mem_cons, not_or] at hi
    rw [new_cells, if_neg hi.1, ho.frame i hi.2]

/-- A released block is not owned any more. -/
theorem drop (ho : Owns h₀ h (i :: ids) done) : Owns h₀ (h.drop i) ids (done ++ [i]) where
  le := ho.le
  allocated := by
    refine List.Perm.trans ?_ ho.allocated
    rw [← List.append_assoc, List.cons_append]
    exact List.perm_append_singleton i (ids ++ done)
  released := by rw [drop_released, ho.released, List.append_assoc]
  live := fun j hj => by
    have hne : j ≠ i := by
      rintro rfl
      exact (List.nodup_cons.mp ho.nodup).1 (List.mem_append_left done hj)
    rw [drop_cells, if_neg hne]
    exact ho.live j (List.mem_cons_of_mem i hj)
  frame := fun j hj => by
    rw [drop_cells]
    split
    · next heq =>
      subst heq
      exact (ho.not_live_before List.mem_cons_self).symm
    · next hne => exact ho.frame j (fun hm => (List.mem_cons.mp hm).elim hne hj)

/-- A store into an owned block changes nothing else. -/
theorem store (ho : Owns h₀ h ids done) (hi : i ∈ ids) (hs : h.store i off bs = some h') :
    Owns h₀ h' ids done := by
  obtain ⟨b, hb, hs⟩ := Option.bind_eq_some_iff.mp hs
  split at hs
  · cases hs
    refine ⟨ho.le, ho.allocated, ho.released, fun j hj => ?_, fun j hj => ?_⟩
    · show (if j = i ∧ i < h.next then some _ else h.cells j).isSome
      split
      · rfl
      · exact ho.live j hj
    · have hne : ¬ (j = i ∧ i < h.next) := fun hc => hj (hc.1 ▸ hi)
      show (if j = i ∧ i < h.next then some _ else h.cells j) = _
      rw [if_neg hne, ho.frame j hj]
  · cases hs

/-- What two programs in a row own. -/
theorem trans (ho : Owns h₀ h ids done) (ho' : Owns h h' ids' done') :
    Owns h₀ h' (ids ++ ids') (done ++ done') where
  le := ho.le.trans ho'.le
  allocated := by
    have hlast : h₀.next + 1 * (h.next - h₀.next) = h.next := by
      have := ho.le
      omega
    have hsplit : h.next - h₀.next + (h'.next - h.next) = h'.next - h₀.next := by
      have := ho.le
      have := ho'.le
      omega
    have hranges : List.range' h₀.next (h.next - h₀.next) ++ List.range' h.next (h'.next - h.next) =
        List.range' h₀.next (h'.next - h₀.next) := by
      rw [← hsplit, ← List.range'_append, hlast]
    rw [← hranges]
    -- The second range begins where the first one ends.
    refine List.Perm.trans ?_ (ho.allocated.append ho'.allocated)
    simp only [List.append_assoc]
    refine List.Perm.append_left ids ?_
    simp only [← List.append_assoc]
    exact List.perm_append_comm.append_right done'
  released := by rw [ho'.released, ho.released, List.append_assoc]
  live := fun i hi => by
    rcases List.mem_append.mp hi with hi | hi
    · have hlt := (ho.mem_range (List.mem_append_left done hi)).2
      have hni : i ∉ ids' := fun hi' =>
        absurd (ho'.mem_range (List.mem_append_left done' hi')).1 (Nat.not_le.mpr hlt)
      rw [ho'.frame i hni]
      exact ho.live i hi
    · exact ho'.live i hi
  frame := fun i hi => by
    rw [List.mem_append, not_or] at hi
    rw [ho'.frame i hi.2, ho.frame i hi.1]

/-- A program that owns nothing has left the live blocks as they were. -/
theorem cells_eq (ho : Owns h₀ h [] done) : h.cells = h₀.cells :=
  funext fun i => ho.frame i (List.not_mem_nil)

end Owns

end Lib.Heap
