import Mathlib

/-! Readers of a growing log that keeps its last entries only. -/
namespace EpochKernel.Library.LossyLog
variable {α : Type*} {log : List α} {capacity next : ℕ} {taken : List ℕ} {read : List α} {a : α}

/-- A reader that has taken the positions `taken`, where it found `read`, and will go on at `next`.
What it has passed without taking it was among all but the last `capacity - 1` entries. -/
structure Follows (capacity : ℕ) (log : List α) (next : ℕ) (taken : List ℕ) (read : List α) :
    Prop where
  sorted : taken.Pairwise (· < ·)
  below : ∀ p ∈ taken, p < next
  next_le : next ≤ log.length
  found : read.map some = taken.map (log[·]?)
  covered : ∀ p < log.length, p ∈ taken ∨ next ≤ p ∨ p + capacity ≤ log.length

lemma follows_nil (capacity : ℕ) (log : List α) : Follows capacity log 0 [] [] where
  sorted := List.Pairwise.nil
  below := by simp
  next_le := Nat.zero_le _
  found := rfl
  covered := fun p _ => .inr (.inl (Nat.zero_le p))

/-- The log grows. -/
lemma Follows.append (h : Follows capacity log next taken read) :
    Follows capacity (log ++ [a]) next taken read where
  sorted := h.sorted
  below := h.below
  next_le := by
    rw [List.length_append]
    exact Nat.le_add_right_of_le h.next_le
  found := by
    rw [h.found]
    apply List.map_congr_left
    intro p hp
    have hlt : p < log.length := (h.below p hp).trans_le h.next_le
    rw [List.getElem?_append_left hlt]
  covered := by
    intro p hp
    simp only [List.length_append, List.length_singleton] at hp ⊢
    by_cases hlt : p < log.length
    · exact (h.covered p hlt).imp_right (Or.imp_right Nat.le_succ_of_le)
    · exact .inr (.inl (h.next_le.trans (Nat.not_lt.mp hlt)))

/-- An entry is passed that is no longer kept. -/
lemma Follows.drop (h : Follows capacity log next taken read) (hlt : next < log.length)
    (hcap : next + capacity ≤ log.length) : Follows capacity log (next + 1) taken read where
  sorted := h.sorted
  below := fun p hp => Nat.lt_succ_of_lt (h.below p hp)
  next_le := hlt
  found := h.found
  covered := by
    intro p hp
    by_cases he : p = next
    · subst he
      exact .inr (.inr hcap)
    · exact (h.covered p hp).imp_right (Or.imp_left fun hle => lt_of_le_of_ne hle (Ne.symm he))

/-- The next entry is taken. -/
lemma Follows.take (h : Follows capacity log next taken read) (hlt : next < log.length) :
    Follows capacity log (next + 1) (taken ++ [next]) (read ++ [log[next]]) where
  sorted := by
    rw [List.pairwise_append]
    refine ⟨h.sorted, List.pairwise_singleton _ _, fun p hp q hq => ?_⟩
    rw [List.mem_singleton.mp hq]
    exact h.below p hp
  below := by
    intro p hp
    rcases List.mem_append.mp hp with hp | hp
    · exact Nat.lt_succ_of_lt (h.below p hp)
    · rw [List.mem_singleton.mp hp]
      exact Nat.lt_succ_self next
  next_le := hlt
  found := by
    rw [List.map_append, List.map_append, h.found]
    simp [hlt]
  covered := by
    intro p hp
    rw [List.mem_append, List.mem_singleton]
    by_cases he : p = next
    · exact .inl (.inr he)
    · exact (h.covered p hp).imp .inl (Or.imp_left fun hle => lt_of_le_of_ne hle (Ne.symm he))

/-- What was read is a subsequence of the log. -/
theorem Follows.sublist (h : Follows capacity log next taken read) : read.Sublist log := by
  have hlt : ∀ p ∈ taken, p < log.length := fun p hp => (h.below p hp).trans_le h.next_le
  let positions : List (Fin log.length) := taken.pmap Fin.mk hlt
  have hread : read = positions.map (log[·]) := by
    apply List.map_injective_iff.mpr (Option.some_injective α)
    rw [h.found, List.map_map, List.map_pmap, ← List.pmap_eq_map hlt]
    apply List.pmap_congr_left
    intro p _ hp _
    exact List.getElem?_eq_getElem hp
  rw [hread]
  apply List.map_getElem_sublist
  exact h.sorted.pmap _ fun p hp q hq hpq => hpq

end EpochKernel.Library.LossyLog
