import Mathlib

/-! A counting semaphore that serves its waiting users in the order of their arrival. A permit that
is given back while somebody waits goes to the first of them and is never free in between. -/
namespace EpochKernel.Library

/-- The users that hold a permit, each as often as it holds one, and those that wait for one. -/
@[ext]
structure FairSemaphore (α : Type*) where
  capacity : ℕ
  holders : List α
  queue : List α
  holders_le : holders.length ≤ capacity
  full : queue ≠ [] → holders.length = capacity

namespace FairSemaphore
variable {α : Type*} {x y : α} {xs : List α} (s : FairSemaphore α)

def new (n : ℕ) : FairSemaphore α := ⟨n, [], [], Nat.zero_le n, fun h => absurd rfl h⟩

/-- `x` takes a free permit or goes to the end of the queue. -/
def lock (x : α) : FairSemaphore α :=
  if h : s.holders.length < s.capacity then
    { s with
      holders := x :: s.holders
      holders_le := h
      full := fun hq => absurd (s.full hq) h.ne }
  else
    { s with
      queue := s.queue ++ [x]
      full := fun _ => le_antisymm s.holders_le (not_lt.mp h) }

/-- `x` takes a permit if one is free. -/
def tryLock (x : α) : Bool × FairSemaphore α :=
  if s.holders.length < s.capacity then (true, s.lock x) else (false, s)

/-- `x` gives a permit back. -/
def unlock [DecidableEq α] (x : α) : FairSemaphore α :=
  if hx : x ∈ s.holders then
    match hq : s.queue with
    | [] =>
      { s with
        holders := s.holders.erase x
        holders_le := (List.length_erase_le).trans s.holders_le
        full := fun h => absurd hq h }
    | y :: ys =>
      have hlen : (y :: s.holders.erase x).length = s.holders.length := by
        rw [List.length_cons, List.length_erase_add_one hx]
      { s with
        holders := y :: s.holders.erase x
        queue := ys
        holders_le := hlen ▸ s.holders_le
        full := fun _ => hlen.trans (s.full (by simp [hq])) }
  else s

variable {s}

@[simp] lemma lock_capacity : (s.lock x).capacity = s.capacity := by
  rw [lock]
  split <;> rfl

@[simp] lemma tryLock_capacity : (s.tryLock x).2.capacity = s.capacity := by
  rw [tryLock]
  split
  · exact lock_capacity
  · rfl

lemma lock_of_lt (h : s.holders.length < s.capacity) :
    (s.lock x).holders = x :: s.holders ∧ (s.lock x).queue = s.queue := by
  rw [lock, dif_pos h]
  exact ⟨rfl, rfl⟩

lemma lock_of_not_lt (h : ¬ s.holders.length < s.capacity) :
    (s.lock x).holders = s.holders ∧ (s.lock x).queue = s.queue ++ [x] := by
  rw [lock, dif_neg h]
  exact ⟨rfl, rfl⟩

/-- Whoever asks for a permit holds one or waits afterwards. -/
lemma mem_lock : x ∈ (s.lock x).queue ∨ x ∈ (s.lock x).holders := by
  by_cases h : s.holders.length < s.capacity
  · rw [(lock_of_lt h).1]
    exact Or.inr List.mem_cons_self
  · rw [(lock_of_not_lt h).2]
    exact Or.inl (by simp)

/-- Asking for a permit takes nothing from the others. -/
lemma mem_lock_of_mem (h : y ∈ s.queue ∨ y ∈ s.holders) :
    y ∈ (s.lock x).queue ∨ y ∈ (s.lock x).holders := by
  by_cases hlt : s.holders.length < s.capacity
  · rw [(lock_of_lt hlt).1, (lock_of_lt hlt).2]
    exact h.imp_right (List.mem_cons_of_mem x)
  · rw [(lock_of_not_lt hlt).1, (lock_of_not_lt hlt).2]
    exact h.imp_left (List.mem_append_left [x])

lemma mem_tryLock_of_mem (h : y ∈ s.queue ∨ y ∈ s.holders) :
    y ∈ (s.tryLock x).2.queue ∨ y ∈ (s.tryLock x).2.holders := by
  rw [tryLock]
  split
  · exact mem_lock_of_mem h
  · exact h

section Unlock
variable [DecidableEq α]

@[simp] lemma unlock_capacity : (s.unlock x).capacity = s.capacity := by
  rw [unlock]
  split
  · split <;> rfl
  · rfl

lemma unlock_nil (hx : x ∈ s.holders) (hq : s.queue = []) :
    (s.unlock x).holders = s.holders.erase x ∧ (s.unlock x).queue = [] := by
  rw [unlock, dif_pos hx]
  split
  · exact ⟨rfl, hq⟩
  · simp_all

/-- The permit goes to the user that has waited longest. -/
lemma unlock_cons (hx : x ∈ s.holders) (hq : s.queue = y :: xs) :
    (s.unlock x).holders = y :: s.holders.erase x ∧ (s.unlock x).queue = xs := by
  rw [unlock, dif_pos hx]
  split
  · simp_all
  · rename_i z zs hz
    obtain ⟨rfl, rfl⟩ := List.cons.inj (hz.symm.trans hq)
    exact ⟨rfl, rfl⟩

/-- Giving back a permit takes nothing from the others. -/
lemma mem_unlock_of_mem (hx : x ∈ s.holders) (hne : y ≠ x) (h : y ∈ s.queue ∨ y ∈ s.holders) :
    y ∈ (s.unlock x).queue ∨ y ∈ (s.unlock x).holders := by
  rcases hq : s.queue with _ | ⟨z, zs⟩
  · rw [(unlock_nil hx hq).1]
    rw [hq] at h
    exact Or.inr ((List.mem_erase_of_ne hne).mpr (h.resolve_left List.not_mem_nil))
  · rw [(unlock_cons hx hq).1, (unlock_cons hx hq).2]
    rw [hq, List.mem_cons] at h
    rcases h with (rfl | h) | h
    · exact Or.inr List.mem_cons_self
    · exact Or.inl h
    · exact Or.inr (List.mem_cons_of_mem z ((List.mem_erase_of_ne hne).mpr h))

end Unlock

end FairSemaphore
end EpochKernel.Library
