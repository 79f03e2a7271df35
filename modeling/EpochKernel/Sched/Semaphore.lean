import EpochKernel.Library.FairSemaphore
import EpochKernel.Sched.Run

/-! One semaphore in the runs of the scheduler, beside the fair semaphore that receives the same
calls. -/
namespace EpochKernel.Sched
open EpochKernel.Util EpochKernel.Util.LinkedList EpochKernel.Library

variable {Θ P S : Type*}

/-- A kernel, the fair semaphore that its semaphore should be, and the threads inside of `lock ()`:
those that have called it and have not returned. -/
structure Use (Θ P S : Type*) where
  kernel : Kernel Θ P S
  model : FairSemaphore Θ
  inLock : List Θ

/-- The thread that runs goes on, or is interrupted, or returns from `lock ()`. -/
inductive Use.Event (Θ P S : Type*)
  | call (c : Call Θ P S)
  | ret

/-- What an interrupt does, whatever the running thread is at. -/
def Call.isInterrupt : Call Θ P S → Bool
  | .schedule _ | .tick _ _ _ => true
  | _ => false

/-- A call that deletes the semaphore `s`. -/
def Call.Deletes (k : Kernel Θ P S) (s : S) : Call Θ P S → Prop
  | .resetReady s' _ | .resetDestroy s' => s' = s
  | .teardown p _ => (k.semaphore s).owner = p
  | _ => False

instance [DecidableEq P] [DecidableEq S] (k : Kernel Θ P S) (s : S) :
    (c : Call Θ P S) → Decidable (c.Deletes k s)
  | .resetReady s' _ | .resetDestroy s' => inferInstanceAs (Decidable (s' = s))
  | .teardown p _ => inferInstanceAs (Decidable ((k.semaphore s).owner = p))
  | .create _ _ _ | .schedule _ | .block _ _ | .nsleepUntil _ _ _ | .tick _ _ _
  | .createSemaphore _ _ | .semLock _ _ | .semTryLock _ | .semUnlock _ _ | .clean => isFalse id

/-- The call is `unlock` of the semaphore `s`. -/
def Call.isUnlock [DecidableEq S] (s : S) : Call Θ P S → Bool
  | .semUnlock s' _ => s' = s
  | _ => false

namespace Use
variable [DecidableEq Θ] [DecidableEq P] [DecidableEq S]

/-- Only holders unlock, a thread inside of `lock ()` makes no other call, and the semaphore stays. -/
def Allows (s : S) (u : Use Θ P S) (c : Call Θ P S) : Prop :=
  (u.kernel.threadC ∈ u.inLock → c.isInterrupt = true) ∧
  (c.isUnlock s = true → u.kernel.threadC ∈ u.model.holders) ∧ ¬ c.Deletes u.kernel s

instance (s : S) (u : Use Θ P S) (c : Call Θ P S) : Decidable (u.Allows s c) :=
  inferInstanceAs (Decidable (_ ∧ _ ∧ _))

/-- The fair semaphore receives the calls made on `s`. -/
def follow (s : S) (u : Use Θ P S) : Call Θ P S → FairSemaphore Θ × List Θ
  | .semLock s' _ =>
    if s' = s then (u.model.lock u.kernel.threadC, u.kernel.threadC :: u.inLock)
    else (u.model, u.inLock)
  | .semTryLock s' => (if s' = s then (u.model.tryLock u.kernel.threadC).2 else u.model, u.inLock)
  | .semUnlock s' _ => (if s' = s then u.model.unlock u.kernel.threadC else u.model, u.inLock)
  | _ => (u.model, u.inLock)

def step (idle : Θ) (s : S) : Machine (Use Θ P S) (Use.Event Θ P S)
  | u, .call c =>
    if u.Allows s c then
      (Kernel.step idle u.kernel c).map fun k => ⟨k, (u.follow s c).1, (u.follow s c).2⟩
    else none
  | u, .ret =>
    if u.kernel.threadC ∈ u.inLock then some { u with inLock := u.inLock.erase u.kernel.threadC }
    else none

end Use

variable {idle : Θ} {s : S} {k : Kernel Θ P S} {q : Place S → List Θ} {n : ℕ}

/-- The semaphore `s` counts and queues as the fair semaphore does. -/
structure Agrees (k : Kernel Θ P S) (q : Place S → List Θ) (s : S) (m : FairSemaphore Θ) : Prop where
  maxThrC : (k.semaphore s).maxThrC = m.capacity
  thrC : (k.semaphore s).thrC = m.holders.length
  waiting : q (.waiting s) = m.queue

section Calls
variable {m : FairSemaphore Θ}

lemma Agrees.lt_iff (h : Agrees k q s m) :
    (k.semaphore s).thrC < (k.semaphore s).maxThrC ↔ m.holders.length < m.capacity := by
  rw [h.thrC, h.maxThrC]

lemma Untouched.agrees {k' : Kernel Θ P S} {q' : Place S → List Θ} (hu : Untouched k k' q q' s)
    (h : Agrees k q s m) : Agrees k' q' s m :=
  ⟨by rw [hu.semaphore, h.maxThrC], by rw [hu.semaphore, h.thrC], by rw [hu.waiting, h.waiting]⟩

variable [DecidableEq S]

/-- `try_lock` succeeds when the fair semaphore has a free permit. -/
lemma Agrees.semTryLock_fst (h : Agrees k q s m) :
    (k.semTryLock s).1 = (m.tryLock k.threadC).1 := by
  rw [Kernel.semTryLock, FairSemaphore.tryLock]
  by_cases hlt : (k.semaphore s).thrC < (k.semaphore s).maxThrC
  · rw [if_pos (h.lt_iff.mp hlt)]
    simp [hlt]
  · rw [if_neg (mt h.lt_iff.mpr hlt)]
    simp [hlt]

variable [DecidableEq Θ]

theorem Agrees.semTryLock (h : Agrees k q s m) (hi : Inv idle k q) (hs : s ∈ k.sems) :
    Inv idle (k.semTryLock s).2 q ∧ s ∈ (k.semTryLock s).2.sems ∧
      Agrees (k.semTryLock s).2 q s (m.tryLock k.threadC).2 := by
  obtain ⟨hi', hc, -⟩ := hi.semTryLock s
  refine ⟨hi', by rw [hc.sems]; exact hs, ?_⟩
  rw [Kernel.semTryLock, FairSemaphore.tryLock]
  by_cases hlt : (k.semaphore s).thrC < (k.semaphore s).maxThrC
  · obtain ⟨hh, hq⟩ := FairSemaphore.lock_of_lt (x := k.threadC) (h.lt_iff.mp hlt)
    rw [if_pos (h.lt_iff.mp hlt)]
    dsimp only
    rw [if_pos hlt]
    refine ⟨?_, ?_, ?_⟩
    · simp [Kernel.setSemaphore, h.maxThrC]
    · rw [hh]
      simp [Kernel.setSemaphore, h.thrC]
    · rw [hq, h.waiting]
  · rw [if_neg (mt h.lt_iff.mpr hlt)]
    dsimp only
    rw [if_neg hlt]
    exact h

variable [DecidableEq P]

theorem Agrees.semLock (h : Agrees k q s m) (hi : Inv idle k q) (ho : k.Offers idle s)
    (i : Trap) : ∃ q', Inv idle (k.semLock s i) q' ∧ s ∈ (k.semLock s i).sems ∧
      Agrees (k.semLock s i) q' s (m.lock k.threadC) := by
  by_cases hlt : (k.semaphore s).thrC < (k.semaphore s).maxThrC
  · obtain ⟨hh, hq⟩ := FairSemaphore.lock_of_lt (x := k.threadC) (h.lt_iff.mp hlt)
    rw [Kernel.semLock]
    dsimp only
    rw [if_pos hlt]
    refine ⟨q, hi.setSemaphore rfl, ho.2.1, ?_, ?_, ?_⟩
    · simp [Kernel.setSemaphore, h.maxThrC]
    · rw [hh]
      simp [Kernel.setSemaphore, h.thrC]
    · rw [hq, h.waiting]
  · obtain ⟨hh, hq⟩ := FairSemaphore.lock_of_not_lt (x := k.threadC) (mt h.lt_iff.mpr hlt)
    obtain ⟨q', hi', hc, hsem, -, hw⟩ := hi.semLock_wait ho hlt i
    refine ⟨q', hi', by rw [hc.sems]; exact ho.2.1, ?_, ?_, ?_⟩
    · rw [hsem, FairSemaphore.lock_capacity, h.maxThrC]
    · rw [hsem, hh, h.thrC]
    · rw [hw, hq, h.waiting]

/-- A holder that unlocks lowers the counter, unless somebody waits. -/
theorem Agrees.semUnlock (h : Agrees k q s m) (hi : Inv idle k q) (ho : k.Offers idle s)
    (hh : k.threadC ∈ m.holders) (i : Trap) :
    ∃ q', Inv idle (k.semUnlock s i) q' ∧ s ∈ (k.semUnlock s i).sems ∧
      Agrees (k.semUnlock s i) q' s (m.unlock k.threadC) := by
  have hpos : (k.semaphore s).thrC ≠ 0 := by
    rw [h.thrC]
    exact (List.length_pos_of_mem hh).ne'
  rcases hq : q (.waiting s) with _ | ⟨t, ts⟩
  · obtain ⟨hh', hq'⟩ := FairSemaphore.unlock_nil hh (h.waiting.symm.trans hq)
    rw [hi.semUnlock_nil hq, if_pos hpos]
    refine ⟨q, hi.setSemaphore rfl, ho.2.1, ?_, ?_, ?_⟩
    · simp [Kernel.setSemaphore, h.maxThrC]
    · rw [hh', List.length_erase_of_mem hh]
      simp [Kernel.setSemaphore, h.thrC]
    · rw [hq', hq]
  · obtain ⟨hh', hq'⟩ := FairSemaphore.unlock_cons hh (h.waiting.symm.trans hq)
    obtain ⟨hi', hc, hf⟩ := hi.semUnlock_wake ho hq i
    refine ⟨_, hi', by rw [hc.sems]; exact ho.2.1, ?_, ?_, ?_⟩
    · rw [hf.semaphore, FairSemaphore.unlock_capacity, h.maxThrC]
    · rw [hf.semaphore, hh', h.thrC, List.length_cons, List.length_erase_add_one hh]
    · rw [released_waiting, hq']

end Calls

lemma not_touches {c : Call Θ P S} (hd : ¬ c.Deletes k s)
    (hc : ∀ i, c ≠ .semLock s i ∧ c ≠ .semTryLock s ∧ c ≠ .semUnlock s i) :
    ¬ c.Touches k s := by
  cases c with
  | semLock s' i => exact fun he => (hc i).1 (congrArg (Call.semLock · i) he)
  | semTryLock s' => exact fun he => (hc default).2.1 (congrArg Call.semTryLock he)
  | semUnlock s' i => exact fun he => (hc i).2.2 (congrArg (Call.semUnlock · i) he)
  | resetReady | resetDestroy | teardown => exact hd
  | _ => exact id

variable [DecidableEq Θ] [DecidableEq S]

/-- The fair semaphore hears only of the calls on `s`. -/
lemma follow_of_ne {u : Use Θ P S} {c : Call Θ P S}
    (hc : ∀ i, c ≠ .semLock s i ∧ c ≠ .semTryLock s ∧ c ≠ .semUnlock s i) :
    u.follow s c = (u.model, u.inLock) := by
  cases c with
  | semLock s' i =>
    have hne : ¬ s' = s := fun he => (hc i).1 (congrArg (Call.semLock · i) he)
    simp [Use.follow, hne]
  | semTryLock s' =>
    have hne : ¬ s' = s := fun he => (hc default).2.1 (congrArg Call.semTryLock he)
    simp [Use.follow, hne]
  | semUnlock s' i =>
    have hne : ¬ s' = s := fun he => (hc i).2.2 (congrArg (Call.semUnlock · i) he)
    simp [Use.follow, hne]
  | _ => rfl

lemma follow_capacity {u : Use Θ P S} {c : Call Θ P S} :
    (u.follow s c).1.capacity = u.model.capacity := by
  cases c with
  | semLock s' i =>
    rw [Use.follow]
    split_ifs
    · exact FairSemaphore.lock_capacity
    · rfl
  | semTryLock s' =>
    rw [Use.follow]
    dsimp only
    split_ifs
    · exact FairSemaphore.tryLock_capacity
    · rfl
  | semUnlock s' i =>
    rw [Use.follow]
    dsimp only
    split_ifs
    · exact FairSemaphore.unlock_capacity
    · rfl
  | _ => rfl

/-- What holds between two steps of a run on the semaphore `s`. -/
structure Used (idle : Θ) (s : S) (u : Use Θ P S) (q : Place S → List Θ) : Prop where
  inv : Inv idle u.kernel q
  mem : s ∈ u.kernel.sems
  agrees : Agrees u.kernel q s u.model
  inLock : ∀ t ∈ u.inLock, t ∈ u.model.queue ∨ t ∈ u.model.holders

lemma Used.create (hi : Inv idle k q) (hs : s ∉ k.sems) (n : ℕ) (p : P) :
    Used idle s ⟨k.createSemaphore s n p, FairSemaphore.new n, []⟩ q := by
  have hnil : q (.waiting s) = [] := by
    by_contra hne
    obtain ⟨t, ht⟩ := List.exists_mem_of_ne_nil _ hne
    exact hs (hi.placed.waiting s t ht).2.2.1
  refine ⟨hi.createSemaphore hs n p, by simp [Kernel.createSemaphore], ⟨?_, ?_, hnil⟩, by simp⟩
  · simp [Kernel.createSemaphore, Kernel.setSemaphore, FairSemaphore.new]
  · simp [Kernel.createSemaphore, Kernel.setSemaphore, FairSemaphore.new]

variable [DecidableEq P]

theorem Used.call {u : Use Θ P S} (h : Used idle s u q) {c : Call Θ P S} (ha : u.Allows s c)
    (hk : Kernel.step idle u.kernel c = some k) :
    ∃ q', Used idle s ⟨k, (u.follow s c).1, (u.follow s c).2⟩ q' := by
  obtain ⟨hin, hun, hdel⟩ := ha
  by_cases hc : ∀ i, c ≠ .semLock s i ∧ c ≠ .semTryLock s ∧ c ≠ .semUnlock s i
  · obtain ⟨q', hi', hu, -⟩ := h.inv.step hk
    have hs := hu s h.mem (not_touches hdel hc)
    rw [follow_of_ne hc]
    exact ⟨q', hi', hs.mem, hs.agrees h.agrees, h.inLock⟩
  · cases c with
    | semLock s' i =>
      obtain rfl : s' = s := by
        by_contra hne
        exact hc fun _ => by simp [hne]
      obtain ⟨ho, hk⟩ := Option.ite_none_right_eq_some.mp hk
      obtain rfl := Option.some.inj hk
      obtain ⟨q', hi', hm, hag⟩ := h.agrees.semLock h.inv ho i
      rw [Use.follow, if_pos rfl]
      refine ⟨q', hi', hm, hag, fun t ht => ?_⟩
      rcases List.mem_cons.mp ht with rfl | ht
      · exact FairSemaphore.mem_lock
      · exact FairSemaphore.mem_lock_of_mem (h.inLock t ht)
    | semTryLock s' =>
      obtain rfl : s' = s := by
        by_contra hne
        exact hc fun _ => by simp [hne]
      obtain ⟨ho, hk⟩ := Option.ite_none_right_eq_some.mp hk
      obtain rfl := Option.some.inj hk
      obtain ⟨hi', hm, hag⟩ := h.agrees.semTryLock h.inv h.mem
      rw [Use.follow, if_pos rfl]
      exact ⟨q, hi', hm, hag, fun t ht => FairSemaphore.mem_tryLock_of_mem (h.inLock t ht)⟩
    | semUnlock s' i =>
      obtain rfl : s' = s := by
        by_contra hne
        exact hc fun _ => by simp [hne]
      obtain ⟨ho, hk⟩ := Option.ite_none_right_eq_some.mp hk
      obtain rfl := Option.some.inj hk
      have hhold : u.kernel.threadC ∈ u.model.holders := hun (by simp [Call.isUnlock])
      obtain ⟨q', hi', hm, hag⟩ := h.agrees.semUnlock h.inv ho hhold i
      rw [Use.follow, if_pos rfl]
      refine ⟨q', hi', hm, hag, fun t ht => ?_⟩
      -- the thread that unlocks is not inside of `lock ()`
      have hne : t ≠ u.kernel.threadC := by
        rintro rfl
        exact absurd (hin ht) (by simp [Call.isInterrupt])
      exact FairSemaphore.mem_unlock_of_mem hhold hne (h.inLock t ht)
    | _ => exact absurd (fun _ => ⟨nofun, nofun, nofun⟩) hc

theorem Used.step {u u' : Use Θ P S} (h : Used idle s u q) {e : Use.Event Θ P S}
    (hs : Use.step idle s u e = some u') : ∃ q', Used idle s u' q' := by
  cases e with
  | call c =>
    obtain ⟨ha, hs⟩ := Option.ite_none_right_eq_some.mp hs
    obtain ⟨k, hk, rfl⟩ := Option.map_eq_some_iff.mp hs
    exact h.call ha hk
  | ret =>
    obtain ⟨-, hs⟩ := Option.ite_none_right_eq_some.mp hs
    obtain rfl := Option.some.inj hs
    exact ⟨q, h.inv, h.mem, h.agrees, fun t ht => h.inLock t (List.mem_of_mem_erase ht)⟩

/-- What the semaphore `s` of capacity `n` guarantees to its users between two steps. -/
structure Fair (idle : Θ) (s : S) (n : ℕ) (u : Use Θ P S) : Prop where
  capacity : u.model.capacity = n ∧ (u.kernel.semaphore s).maxThrC = n
  thrC : (u.kernel.semaphore s).thrC = u.model.holders.length ∧ (u.kernel.semaphore s).thrC ≤ n
  waiting : u.kernel.members (.waiting s) = u.model.queue
  full : u.kernel.members (.waiting s) ≠ [] → (u.kernel.semaphore s).thrC = n
  waits : ∀ t ∈ u.kernel.members (.waiting s), (u.kernel.thread t).state = .semaphoreWait ∧
    (u.kernel.members (.waiting s)).count t = 1 ∧ ∀ st, t ∉ u.kernel.members (.tList st)
  returns : u.kernel.threadC ∈ u.inLock →
    u.kernel.threadC ∈ u.model.holders ∧ u.kernel.threadC ∉ u.model.queue
  handsOver : ∀ t ts i, u.kernel.Offers idle s → u.kernel.threadC ∈ u.model.holders →
    u.kernel.members (.waiting s) = t :: ts →
      (u.model.unlock u.kernel.threadC).holders = t :: u.model.holders.erase u.kernel.threadC ∧
      (u.kernel.semUnlock s i).members (.waiting s) = ts ∧
      t ∈ (u.kernel.semUnlock s i).members (.tList .ready) ∧
      (u.kernel.semUnlock s i).semaphore = u.kernel.semaphore
  tryLock : (u.kernel.semTryLock s).1 = (u.model.tryLock u.kernel.threadC).1
  noBarging : u.kernel.members (.waiting s) ≠ [] → u.kernel.semTryLock s = (false, u.kernel)

theorem Used.fair {u : Use Θ P S} (h : Used idle s u q) : Fair idle s u.model.capacity u := by
  have hm := h.inv.members_eq
  have hp := h.inv.placed
  have hw : u.kernel.members (.waiting s) = u.model.queue := by rw [hm, h.agrees.waiting]
  have hfull : u.model.queue ≠ [] → (u.kernel.semaphore s).thrC = u.model.capacity := fun hq =>
    h.agrees.thrC.trans (u.model.full hq)
  refine ⟨⟨rfl, h.agrees.maxThrC⟩, ⟨h.agrees.thrC, h.agrees.thrC ▸ u.model.holders_le⟩, hw,
    hw ▸ hfull, fun t ht => ?_, fun hin => ?_, fun t ts i ho hh hq => ?_,
    h.agrees.semTryLock_fst, fun hq => ?_⟩
  · rw [hm] at ht ⊢
    refine ⟨(hp.waiting s t ht).2.1, List.count_eq_one_of_mem (hp.family.nodup _) ht, fun st hst => ?_⟩
    exact absurd (hp.family.disjoint _ _ t hst ht) (by simp)
  · -- the running thread is in no waiting list
    have hno : u.kernel.threadC ∉ u.model.queue := by
      intro hq
      rw [← h.agrees.waiting] at hq
      have := (hp.waiting s _ hq).2.1
      rw [h.inv.state_threadC] at this
      cases this
    exact ⟨(h.inLock _ hin).resolve_left hno, hno⟩
  · have hq' : q (.waiting s) = t :: ts := by rw [← hm, hq]
    obtain ⟨hi', -, hf⟩ := h.inv.semUnlock_wake ho hq' i
    refine ⟨(FairSemaphore.unlock_cons hh (hw.symm.trans hq)).1, ?_, ?_, hf.semaphore⟩
    · rw [hi'.members_eq, released_waiting]
    · rw [hi'.members_eq, released_tList]
      simp
  · have hlt : ¬ (u.kernel.semaphore s).thrC < (u.kernel.semaphore s).maxThrC := by
      rw [h.agrees.maxThrC, hfull (hw ▸ hq)]
      exact lt_irrefl _
    rw [Kernel.semTryLock, if_neg hlt]

lemma step_capacity {u u' : Use Θ P S} {e : Use.Event Θ P S}
    (hs : Use.step idle s u e = some u') : u'.model.capacity = u.model.capacity := by
  cases e with
  | call c =>
    obtain ⟨-, hs⟩ := Option.ite_none_right_eq_some.mp hs
    obtain ⟨k, -, rfl⟩ := Option.map_eq_some_iff.mp hs
    exact follow_capacity
  | ret =>
    obtain ⟨-, hs⟩ := Option.ite_none_right_eq_some.mp hs
    obtain rfl := Option.some.inj hs
    rfl

/-- A semaphore created at any point of a run behaves, from then on, as the fair semaphore. -/
theorem fair_of_run {p : P} {memory : Kernel Θ P S}
    (hstate : ∀ t, (memory.thread t).state ≠ .sleep) {cs : List (Call Θ P S)}
    (hk : Machine.run (Kernel.step idle) (Kernel.boot idle p memory) cs = some k)
    (hs : s ∉ k.sems) (n : ℕ) {es : List (Use.Event Θ P S)} {u : Use Θ P S}
    (hr : Machine.run (Use.step idle s)
      ⟨k.createSemaphore s n k.procC, FairSemaphore.new n, []⟩ es = some u) :
    Fair idle s n u := by
  obtain ⟨q, hi⟩ := Machine.run_invariant (I := fun k => ∃ q, Inv idle k q)
    (fun k c k' ⟨q, h⟩ hs => (h.step hs).imp fun _ h => h.1) ⟨_, Kernel.boot_inv hstate⟩ hk
  obtain ⟨⟨q', h⟩, hc⟩ := Machine.run_invariant
    (I := fun u => (∃ q, Used idle s u q) ∧ u.model.capacity = n)
    (fun u e u' h hs => ⟨h.1.elim fun _ hu => hu.step hs, (step_capacity hs).trans h.2⟩)
    ⟨⟨q, Used.create hi hs n k.procC⟩, rfl⟩ hr
  exact hc ▸ h.fair

/-- Three threads of process 1 share a semaphore of capacity 1: the second one waits, the third one
fails to overtake it, and the second one gets the permit of the first and returns. -/
theorem fair_of_run_threads :
    ∃ k u, Machine.run (Kernel.step 0) zeroedBoot [.create 1 1 (userThread 0x1000000),
        .create 2 1 (userThread 0x2000000), .create 3 1 (userThread 0x3000000),
        .schedule 5] = some k ∧
      Machine.run (Use.step 0 9) ⟨k.createSemaphore 9 1 k.procC, FairSemaphore.new 1, []⟩
        [.call (.semLock 9 (trapAt 6 0)), .ret, .call (.schedule 7),
          .call (.semLock 9 (trapAt 8 0)), .call (.semTryLock 9), .call (.schedule 9),
          .call (.schedule 10), .call (.semUnlock 9 (trapAt 11 0)), .call (.schedule 12),
          .call (.schedule 13), .call (.schedule 14), .ret] = some u ∧ Fair 0 9 1 u := by
  have hrun : ∃ k, Machine.run (Kernel.step 0) zeroedBoot [.create 1 1 (userThread 0x1000000),
        .create 2 1 (userThread 0x2000000), .create 3 1 (userThread 0x3000000),
        .schedule 5] = some k ∧ 9 ∉ k.sems ∧
      (Machine.run (Use.step 0 9) ⟨k.createSemaphore 9 1 k.procC, FairSemaphore.new 1, []⟩
        [.call (.semLock 9 (trapAt 6 0)), .ret, .call (.schedule 7),
          .call (.semLock 9 (trapAt 8 0)), .call (.semTryLock 9), .call (.schedule 9),
          .call (.schedule 10), .call (.semUnlock 9 (trapAt 11 0)), .call (.schedule 12),
          .call (.schedule 13), .call (.schedule 14), .ret]).isSome = true :=
    ⟨_, rfl, by decide +kernel, by decide +kernel⟩
  obtain ⟨k, hk, hs, hu⟩ := hrun
  obtain ⟨u, hu⟩ := Option.isSome_iff_exists.mp hu
  exact ⟨k, u, hk, hu, fair_of_run zeroedMemory_state hk hs 1 hu⟩

end EpochKernel.Sched
