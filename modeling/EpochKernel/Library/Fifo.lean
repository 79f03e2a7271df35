import Mathlib

/-! Histories of a first-in first-out queue whose members may also leave it from the middle. -/
namespace EpochKernel.Library.Fifo

inductive Event (α : Type*)
  | ready (x : α)
  | dispatch (x : α)
  | left (x : α)
  deriving DecidableEq

variable {α : Type*} {log : List (Event α)} {q : List α} {x : α}

/-- The last member taken from the head of the queue. -/
def lastDispatched (log : List (Event α)) : Option α :=
  log.foldl (fun last e => match e with | .dispatch x => some x | _ => last) none

@[simp] lemma lastDispatched_ready : lastDispatched (log ++ [.ready x]) = lastDispatched log := by
  simp [lastDispatched]

@[simp] lemma lastDispatched_left : lastDispatched (log ++ [.left x]) = lastDispatched log := by
  simp [lastDispatched]

@[simp] lemma lastDispatched_dispatch : lastDispatched (log ++ [.dispatch x]) = some x := by
  simp [lastDispatched]

variable [DecidableEq α]

/-- The effect of one event on the queue; `none` if the queue does not allow it. -/
def Event.apply : Event α → List α → Option (List α)
  | .ready x, q => if x ∈ q then none else some (q ++ [x])
  | .dispatch x, q => if q.head? = some x then some q.tail else none
  | .left x, q => if x ∈ q then some (q.erase x) else none

/-- The queue after a history that started with an empty queue. -/
def replay (log : List (Event α)) : Option (List α) :=
  log.foldl (fun q e => q.bind e.apply) (some [])

@[simp] lemma replay_nil : replay ([] : List (Event α)) = some [] := rfl

lemma replay_concat (e : Event α) : replay (log ++ [e]) = (replay log).bind e.apply := by
  simp [replay]

lemma replay_ready (h : replay log = some q) (hx : x ∉ q) :
    replay (log ++ [.ready x]) = some (q ++ [x]) := by
  rw [replay_concat, h]
  simp [Event.apply, hx]

lemma replay_dispatch (h : replay log = some (x :: q)) :
    replay (log ++ [.dispatch x]) = some q := by
  rw [replay_concat, h]
  simp [Event.apply]

lemma replay_left (h : replay log = some q) (hx : x ∈ q) :
    replay (log ++ [.left x]) = some (q.erase x) := by
  rw [replay_concat, h]
  simp [Event.apply, hx]

/-- No event brings back a member but its own `ready`. -/
lemma notMem_of_replay {l : List (Event α)} {q' : List α} (hx : x ∉ q) (hl : .ready x ∉ l)
    (h : l.foldl (fun q e => q.bind e.apply) (some q) = some q') : x ∉ q' := by
  induction l generalizing q with
  | nil =>
    obtain rfl := Option.some.inj h
    exact hx
  | cons e l ih =>
    rw [List.mem_cons, not_or] at hl
    rw [List.foldl_cons, Option.bind_some] at h
    rcases he : e.apply q with _ | q₁
    · rw [he, List.foldl_fixed' (fun _ => rfl)] at h
      cases h
    · rw [he] at h
      refine ih ?_ hl.2 h
      cases e with
      | ready y =>
        obtain ⟨-, he⟩ := Option.ite_none_left_eq_some.mp he
        obtain rfl := Option.some.inj he
        have hne : x ≠ y := fun hxy => hl.1 (by rw [hxy])
        simp [hx, hne]
      | dispatch y =>
        obtain ⟨-, he⟩ := Option.ite_none_right_eq_some.mp he
        obtain rfl := Option.some.inj he
        exact fun hm => hx (List.mem_of_mem_tail hm)
      | left y =>
        obtain ⟨-, he⟩ := Option.ite_none_right_eq_some.mp he
        obtain rfl := Option.some.inj he
        exact fun hm => hx (List.mem_of_mem_erase hm)

lemma replay_nodup (h : replay log = some q) : q.Nodup := by
  induction log using List.reverseRecOn generalizing q with
  | nil =>
    obtain rfl := Option.some.inj h
    exact List.nodup_nil
  | append_singleton log e ih =>
    rw [replay_concat, Option.bind_eq_some_iff] at h
    obtain ⟨q₁, h₁, he⟩ := h
    have hnd := ih h₁
    cases e with
    | ready y =>
      obtain ⟨hy, he⟩ := Option.ite_none_left_eq_some.mp he
      obtain rfl := Option.some.inj he
      exact List.nodup_append.mpr ⟨hnd, List.nodup_singleton y, by
        rintro a ha b hb rfl
        rw [List.mem_singleton.mp hb] at ha
        exact hy ha⟩
    | dispatch y =>
      obtain ⟨-, he⟩ := Option.ite_none_right_eq_some.mp he
      obtain rfl := Option.some.inj he
      exact hnd.tail
    | left y =>
      obtain ⟨-, he⟩ := Option.ite_none_right_eq_some.mp he
      obtain rfl := Option.some.inj he
      exact hnd.erase y

/-- Between two turns of one member it has become ready again. -/
theorem ready_between {l₁ l₂ l₃ : List (Event α)}
    (h : replay (l₁ ++ .dispatch x :: (l₂ ++ .dispatch x :: l₃)) = some q) : .ready x ∈ l₂ := by
  by_contra hl
  have hnone : ∀ l : List (Event α), l.foldl (fun q e => q.bind e.apply) none = none :=
    fun l => List.foldl_fixed' (fun _ => rfl) l
  rw [replay, List.foldl_append, List.foldl_cons] at h
  rcases h₁ : l₁.foldl (fun q e => q.bind e.apply) (some []) with _ | q₁
  · rw [h₁, Option.bind_none, hnone] at h
    cases h
  rw [h₁, Option.bind_some] at h
  rcases h₂ : (Event.dispatch x).apply q₁ with _ | q₂
  · rw [h₂, hnone] at h
    cases h
  rw [h₂, List.foldl_append, List.foldl_cons] at h
  rcases h₃ : l₂.foldl (fun q e => q.bind e.apply) (some q₂) with _ | q₃
  · rw [h₃, Option.bind_none, hnone] at h
    cases h
  rw [h₃, Option.bind_some] at h
  have hx₂ : x ∉ q₂ := by
    have hnd := replay_nodup h₁
    obtain ⟨hh, he⟩ := Option.ite_none_right_eq_some.mp h₂
    obtain rfl := Option.some.inj he
    cases q₁ with
    | nil => simp at hh
    | cons y ys =>
      obtain rfl : y = x := by simpa using hh
      exact (List.nodup_cons.mp hnd).1
  have hx₃ := notMem_of_replay hx₂ hl h₃
  rcases h₄ : (Event.dispatch x).apply q₃ with _ | q₄
  · rw [h₄, hnone] at h
    cases h
  obtain ⟨hh, -⟩ := Option.ite_none_right_eq_some.mp h₄
  exact hx₃ (List.mem_of_mem_head? hh)

section Waiting

def Event.IsDispatch : Event α → Bool
  | .dispatch _ => true
  | _ => false

lemma replay_append (log log' : List (Event α)) :
    replay (log ++ log') = log'.foldl (fun q e => q.bind e.apply) (replay log) := by
  simp [replay]

variable {as bs q' : List α}

/-- One event takes a member at most one place to the front, and only a dispatch does. -/
lemma Event.apply_waiting {e : Event α} (h : e.apply (as ++ x :: bs) = some q')
    (hd : e ≠ .dispatch x) (hl : e ≠ .left x) :
    ∃ as' bs', q' = as' ++ x :: bs' ∧ as'.Sublist as ∧
      as'.length + (if e.IsDispatch then 1 else 0) ≤ as.length := by
  cases e with
  | ready y =>
    obtain ⟨-, h⟩ := Option.ite_none_left_eq_some.mp h
    obtain rfl := Option.some.inj h
    exact ⟨as, bs ++ [y], by simp, .refl as, le_rfl⟩
  | dispatch y =>
    obtain ⟨hh, h⟩ := Option.ite_none_right_eq_some.mp h
    obtain rfl := Option.some.inj h
    cases as with
    | nil => exact absurd (congrArg Event.dispatch (Option.some.inj hh).symm) hd
    | cons a as => exact ⟨as, bs, rfl, List.sublist_cons_self a as, le_rfl⟩
  | left y =>
    obtain ⟨-, h⟩ := Option.ite_none_right_eq_some.mp h
    obtain rfl := Option.some.inj h
    have hne : x ≠ y := fun he => hl (by rw [he])
    by_cases hy : y ∈ as
    · exact ⟨as.erase y, bs, List.erase_append_left _ hy, List.erase_sublist, List.length_erase_le⟩
    · refine ⟨as, bs.erase y, ?_, .refl as, le_rfl⟩
      rw [List.erase_append_right _ hy, List.erase_cons_tail (by simpa using hne)]

/-- A member that stays in the queue is not overtaken, and sees no more dispatches than there are
members before it. -/
theorem waiting (h : log.foldl (fun q e => q.bind e.apply) (some (as ++ x :: bs)) = some q')
    (hd : .dispatch x ∉ log) (hl : .left x ∉ log) :
    ∃ as' bs', q' = as' ++ x :: bs' ∧ as'.Sublist as ∧
      as'.length + log.countP Event.IsDispatch ≤ as.length := by
  induction log generalizing as bs with
  | nil =>
    obtain rfl := Option.some.inj h
    exact ⟨as, bs, rfl, .refl as, le_rfl⟩
  | cons e log ih =>
    rw [List.mem_cons, not_or] at hd hl
    rw [List.foldl_cons, Option.bind_some] at h
    rcases he : e.apply (as ++ x :: bs) with _ | q₁
    · rw [he, List.foldl_fixed' (fun _ => rfl)] at h
      cases h
    · rw [he] at h
      obtain ⟨as₁, bs₁, rfl, hs1, h1⟩ := e.apply_waiting he (Ne.symm hd.1) (Ne.symm hl.1)
      obtain ⟨as', bs', rfl, hs2, h2⟩ := ih h hd.2 hl.2
      refine ⟨as', bs', rfl, hs2.trans hs1, ?_⟩
      rw [List.countP_cons]
      omega

end Waiting

end EpochKernel.Library.Fifo
