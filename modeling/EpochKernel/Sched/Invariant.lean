import EpochKernel.Sched.Dispatch

/-! The scheduler's invariant between two steps, and that every function called by a running thread
keeps it. The idle thread never blocks, so a thread that blocks always finds a thread to switch to. -/
namespace EpochKernel.Sched
open EpochKernel.Util EpochKernel.Util.LinkedList EpochKernel.Library

variable {Θ P S : Type*} [DecidableEq Θ]

structure Inv (idle : Θ) (k : Kernel Θ P S) (q : Place S → List Θ) : Prop where
  placed : Placed k q none
  running : q (.tList .running) = [k.threadC]
  idle_at : idle = k.threadC ∨ idle ∈ q (.tList .ready)
  postC : k.threadPostC = 0
  postFlag : k.threadPostFlag = false
  last : (Fifo.lastDispatched k.log).getD idle = k.threadC

/-- `thread_c` has just left the list of running threads and `schedule` is about to be called. -/
structure Blocked (idle : Θ) (k : Kernel Θ P S) (q : Place S → List Θ) : Prop where
  placed : Placed k q none
  running : q (.tList .running) = []
  state : (k.thread k.threadC).state ≠ .running
  idle_at : idle ∈ q (.tList .ready)
  postC : k.threadPostC = 0
  postFlag : k.threadPostFlag = false

variable {idle : Θ} {k k' : Kernel Θ P S} {q q' : Place S → List Θ} {t : Θ} {st : TState} {s : S}

namespace Inv

lemma state_threadC (h : Inv idle k q) : (k.thread k.threadC).state = .running :=
  (h.placed.tList .running k.threadC (by simp [h.running])).2.1

lemma threadC_alive (h : Inv idle k q) : k.threadC ∈ k.alive :=
  (h.placed.tList .running k.threadC (by simp [h.running])).1

lemma idle_alive (h : Inv idle k q) : idle ∈ k.alive := by
  rcases h.idle_at with rfl | hi
  · exact h.threadC_alive
  · exact (h.placed.tList .ready idle hi).1

lemma preempted (h : Inv idle k q) : k.preempted = [k.threadC] := by
  rw [Kernel.preempted, if_pos h.state_threadC]

/-- A step that moves neither the running nor the idle thread. -/
lemma of_frame (h : Inv idle k q) (hp : Placed k' q' none) (hf : Frame k k')
    (hrun : q' (.tList .running) = q (.tList .running))
    (hready : idle ∈ q (.tList .ready) → idle ∈ q' (.tList .ready)) : Inv idle k' q' := by
  refine ⟨hp, ?_, ?_, hf.threadPostC.trans h.postC, hf.threadPostFlag.trans h.postFlag, ?_⟩
  · rw [hrun, h.running, hf.threadC]
  · rw [hf.threadC]
    exact h.idle_at.imp_right hready
  · rw [hf.last, hf.threadC]
    exact h.last

end Inv

/-- After a switch the invariant holds again. -/
lemma Switched.inv (h : Switched k k' q q' t) (hpost : k.threadPostC = 0)
    (hflag : k.threadPostFlag = false)
    (hidle : idle ∈ q (.tList .ready) ++ k.preempted) : Inv idle k' q' := by
  refine ⟨h.placed, by rw [h.running, h.threadC], ?_, h.threadPostC.trans hpost,
    h.threadPostFlag.trans hflag, by rw [h.last, h.threadC]; rfl⟩
  rw [h.ready] at hidle
  rcases List.mem_cons.mp hidle with rfl | hi
  · exact Or.inl h.threadC.symm
  · exact Or.inr hi

section Switch

/-- A thread that runs and has not blocked is preempted, if any other is ready. -/
theorem Inv.switched_inv {k' : Kernel Θ P S} (h : Inv idle k q) (hs : Switched k k' q q' t) :
    Inv idle k' q' := by
  refine hs.inv h.postC h.postFlag ?_
  rw [h.preempted]
  rcases h.idle_at with rfl | hi
  · simp
  · simp [hi]

lemma Blocked.preempted (h : Blocked idle k q) : k.preempted = [] := by
  rw [Kernel.preempted, if_neg h.state]

variable [DecidableEq P] [DecidableEq S]

/-- A blocked thread always finds a thread to switch to. -/
lemma Blocked.schedule (h : Blocked idle k q) (now : UInt64) : (k.schedule now).1 ≠ none := by
  obtain ⟨t, q', ht, -⟩ := h.placed.schedule h.postC (h.running.trans h.preempted.symm)
    (List.ne_nil_of_mem h.idle_at) now
  simp [ht]

theorem Blocked.intSched (h : Blocked idle k q) (i : Trap) :
    ∃ t q', Switched k (k.intSched i) q q' t ∧ Inv idle (k.intSched i) q' ∧
      (k.intSched i).context = k.context.switch k.threadC i.frame t := by
  obtain ⟨t, q', hs, hc⟩ := h.placed.intSched h.postC (h.running.trans h.preempted.symm)
    (List.ne_nil_of_mem h.idle_at) i
  exact ⟨t, q', hs, hs.inv h.postC h.postFlag (by simp [h.idle_at]), hc⟩

end Switch

variable [DecidableEq S]

/-- The running thread, if it is not the idle thread, can leave the list of running threads. -/
theorem Inv.block_self (h : Inv idle k q) (hne : k.threadC ≠ idle) (hst : st ≠ .running)
    (hst' : st ≠ .semaphoreWait) :
    Blocked idle (k.moveTo k.threadC st) (Placed.moved q .running st k.threadC) := by
  have hrun := h.state_threadC
  obtain ⟨hp, hf, hs, -⟩ := h.placed.moveTo (t := k.threadC) st
    (by rw [hrun, h.running]; simp) (by rw [hrun]; exact Ne.symm hst) hst'
  rw [hrun] at hp
  have hi : idle ∈ q (.tList .ready) := h.idle_at.resolve_left (Ne.symm hne)
  refine ⟨hp, ?_, ?_, ?_, hf.threadPostC.trans h.postC, hf.threadPostFlag.trans h.postFlag⟩
  · rw [Placed.moved_from q (Ne.symm hst), h.running, List.erase_cons_head]
  · rw [hf.threadC, hs]
    exact hst
  · by_cases hr : st = .ready
    · subst hr
      rw [Placed.moved_to q (Ne.symm hst)]
      simp [hi]
    · rwa [Placed.moved_of_ne q _ (by simp) (by simpa using Ne.symm hr)]

/-- The running thread goes to the waiting list of a semaphore of its process. -/
theorem Inv.wait_self (h : Inv idle k q) (hne : k.threadC ≠ idle) (hs : s ∈ k.sems)
    (ho : (k.semaphore s).owner = k.procC) :
    ∃ q', Blocked idle ((k.moveTo k.threadC .semaphoreWait).append (.waiting s) k.threadC) q' ∧
      Frame k ((k.moveTo k.threadC .semaphoreWait).append (.waiting s) k.threadC) ∧
      q' (.waiting s) = q (.waiting s) ++ [k.threadC] ∧
      q' (.tList .ready) = q (.tList .ready) ∧
      ∀ l, l ≠ .waiting s → l ≠ .tList .running → q' l = q l := by
  have hrun := h.state_threadC
  have hmem : k.threadC ∈ q (.tList .running) := by simp [h.running]
  have h1 := (h.placed.unlink hmem).setState .semaphoreWait
  have hf1 := (k.unlink_frame .running k.threadC).trans
    (Kernel.setState_frame _ .semaphoreWait k.threadC)
  have heq : k.moveTo k.threadC .semaphoreWait =
      (k.unlink .running k.threadC).setState k.threadC .semaphoreWait := by
    rw [Kernel.moveTo_wait k k.threadC (by rw [hrun]; decide), hrun]
  have h2 := h1.wait (s := s) (by simp) (by rw [hf1.sems]; exact hs) (by
    rw [hf1.semaphore, hf1.proc]
    exact ho)
  rw [heq]
  have hi : idle ∈ q (.tList .ready) := h.idle_at.resolve_left (Ne.symm hne)
  refine ⟨_, ⟨h2, ?_, ?_, ?_, hf1.threadPostC.trans h.postC,
    hf1.threadPostFlag.trans h.postFlag⟩, ?_, ?_, ?_, fun l hl hl' => ?_⟩
  · simp [h.running]
  · change (((k.unlink .running k.threadC).setState k.threadC .semaphoreWait).thread
      ((k.unlink .running k.threadC).setState k.threadC .semaphoreWait).threadC).state ≠ .running
    rw [hf1.threadC, Kernel.setState_state]
    decide
  · simpa using hi
  · exact ⟨⟨hf1.threadPostC, hf1.threadPostFlag, hf1.semaphore, hf1.alive, hf1.sems, hf1.proc⟩,
      hf1.threadC, hf1.context, hf1.last⟩
  · simp
  · simp
  · simp [hl, hl']

section Waiting
variable {ts : List Θ}

/-- The sequences after the first waiting thread moved to an indexed list. -/
def released (q : Place S → List Θ) (s : S) (st : TState) (t : Θ) (ts : List Θ) :
    Place S → List Θ :=
  let q := Function.update q (.waiting s) ts
  Function.update q (.tList st) (q (.tList st) ++ [t])

section Released
omit [DecidableEq Θ]

lemma released_waiting (q : Place S → List Θ) : released q s st t ts (.waiting s) = ts := by
  simp [released]

lemma released_tList (q : Place S → List Θ) :
    released q s st t ts (.tList st) = q (.tList st) ++ [t] := by
  simp [released]

lemma released_of_ne (q : Place S → List Θ) {l : Place S} (hs : l ≠ .waiting s)
    (hst : l ≠ .tList st) : released q s st t ts l = q l := by
  simp [released, hs, hst]

end Released

/-- The first waiting thread leaves the semaphore. -/
theorem Inv.release (h : Inv idle k q) (hq : q (.waiting s) = t :: ts) (st : TState) (hst : st ≠ .running)
    (hst' : st ≠ .semaphoreWait) :
    (k.popStart (.waiting s)).1 = some t ∧
    Inv idle ((k.popStart (.waiting s)).2.moveTo t st) (released q s st t ts) ∧
    Frame k ((k.popStart (.waiting s)).2.moveTo t st) := by
  obtain ⟨hpop, hp⟩ := h.placed.popStart hq k.log
    (by rw [Function.update_of_ne (by simp)]; exact h.placed.fifo)
  set k₁ := (k.popStart (.waiting s)).2 with hk₁
  have hp' : Placed k₁ (Function.update q (.waiting s) ts) (some t) := hp
  have hw : (k₁.thread t).state = .semaphoreWait := (h.placed.waiting s t (by simp [hq])).2.1
  rw [Kernel.moveTo_of_wait k₁ st t hw hst']
  have hlink := (hp'.setState st).link st (by simp) hst'
  have hf : Frame k ((k₁.setState t st).link st t) := by
    have hf₁ : Frame k k₁ := ⟨⟨rfl, rfl, rfl, rfl, rfl, fun _ => rfl⟩, rfl, rfl, rfl⟩
    exact (hf₁.trans (Kernel.setState_frame k₁ st t)).trans (Kernel.link_frame _ st t)
  refine ⟨hpop, h.of_frame hlink hf ?_ fun hi => ?_, hf⟩
  · exact released_of_ne q (by simp) (by simpa using Ne.symm hst)
  · by_cases hr : st = .ready
    · subst hr
      rw [released_tList]
      simp [hi]
    · rwa [released_of_ne q (by simp) (by simpa using Ne.symm hr)]

/-- Unblocking a waiting thread does not switch, as the idle thread is ready too. -/
theorem Inv.unblock_waiting [DecidableEq P] (h : Inv idle k q) (hne : k.threadC ≠ idle)
    (hq : q (.waiting s) = t :: ts) (i : Trap) :
    (k.popStart (.waiting s)).2.unblock t i = (k.popStart (.waiting s)).2.moveTo t .ready := by
  obtain ⟨-, h', -⟩ := h.release hq .ready (by decide) (by decide)
  have hi : idle ∈ q (.tList .ready) := h.idle_at.resolve_left (Ne.symm hne)
  rw [Kernel.unblock, if_neg]
  rw [h'.placed.len_eq, released_tList, List.length_append, List.length_singleton]
  have := List.length_pos_of_mem hi
  omega

/-- `drain` empties the waiting list; `f` moves the popped thread to another list. -/
theorem Inv.drain (k' : Kernel Θ P S) (st : TState) {f : Kernel Θ P S → Θ → Kernel Θ P S} (hst : st ≠ .running)
    (hst' : st ≠ .semaphoreWait)
    (hf : ∀ k q t ts, Inv idle k q → k.threadC = k'.threadC → q (.waiting s) = t :: ts →
      f (k.popStart (.waiting s)).2 t = (k.popStart (.waiting s)).2.moveTo t st)
    (n : ℕ) (h : Inv idle k q) (hc : k.threadC = k'.threadC) (hn : (q (.waiting s)).length = n) :
    ∃ q', Inv idle (Kernel.drain f s n k) q' ∧ Frame k (Kernel.drain f s n k) ∧
      q' (.waiting s) = [] ∧ ∀ s' ≠ s, q' (.waiting s') = q (.waiting s') := by
  induction n generalizing k q with
  | zero => exact ⟨q, h, Frame.refl k, List.length_eq_zero_iff.mp hn, fun _ _ => rfl⟩
  | succ n ih =>
    obtain ⟨t, ts, hq⟩ := List.exists_cons_of_length_eq_add_one hn
    obtain ⟨hpop, h', hfr⟩ := h.release hq st hst hst'
    have hpop' : k.popStart (.waiting s) = (some t, (k.popStart (.waiting s)).2) :=
      Prod.ext hpop rfl
    have hstep := hf k q t ts h hc hq
    rw [Kernel.drain, hpop']
    dsimp only
    rw [hstep]
    have hlen : (released q s st t ts (.waiting s)).length = n := by
      rw [released_waiting]
      rw [hq, List.length_cons] at hn
      omega
    obtain ⟨q', hi, hfr', hnil, hoth⟩ := ih h' (hfr.threadC.trans hc) hlen
    refine ⟨q', hi, hfr.trans hfr', hnil, fun s' hs' => ?_⟩
    rw [hoth s' hs', released_of_ne q (by simpa using hs') (by simp)]

/-- A semaphore without waiting threads can be deleted. -/
theorem Inv.deleteSemaphore (h : Inv idle k q) (hq : q (.waiting s) = []) :
    Inv idle (k.deleteSemaphore s) q := by
  have hp := h.placed
  refine ⟨⟨hp.family, hp.tList, fun s' t ht => ?_, hp.absent, hp.placed, hp.waits, hp.dead, hp.fifo,
    hp.nodup, hp.sems_nodup.erase s⟩, h.running, h.idle_at, h.postC, h.postFlag, h.last⟩
  obtain ⟨h1, h2, h3, h4⟩ := hp.waiting s' t ht
  refine ⟨h1, h2, ?_, h4⟩
  have hne : s' ≠ s := by
    rintro rfl
    simp [hq] at ht
  exact (List.mem_erase_of_ne hne).mpr h3

end Waiting

section Reset

/-- What a reset leaves unchanged. -/
structure ResetOf (k k' : Kernel Θ P S) (q q' : Place S → List Θ) (s : S) : Prop where
  threadC : k'.threadC = k.threadC
  context : k'.context = k.context
  semaphore : k'.semaphore = k.semaphore
  alive : k'.alive = k.alive
  sems : k'.sems = k.sems.erase s
  proc : ∀ t, (k'.thread t).proc = (k.thread t).proc
  waiting : ∀ s' ≠ s, q' (.waiting s') = q (.waiting s')

theorem Inv.resetDestroy (h : Inv idle k q) (s : S) :
    ∃ q', Inv idle (k.resetDestroy s) q' ∧ ResetOf k (k.resetDestroy s) q q' s := by
  obtain ⟨q', h', hf, hnil, hoth⟩ := h.drain k .destroy (s := s) (by decide)
    (by decide) (f := fun k t => k.moveTo t .destroy) (fun _ _ _ _ _ _ _ => rfl) _ rfl
    (h.placed.len_eq (.waiting s)).symm
  exact ⟨q', h'.deleteSemaphore hnil, hf.threadC, hf.context, hf.semaphore, hf.alive,
    congrArg (List.erase · s) hf.sems, hf.proc, hoth⟩

variable [DecidableEq P]

theorem Inv.resetReady (h : Inv idle k q) (hne : k.threadC ≠ idle) (s : S) (i : Trap) :
    ∃ q', Inv idle (k.resetReady s i) q' ∧ ResetOf k (k.resetReady s i) q q' s := by
  obtain ⟨q', h', hf, hnil, hoth⟩ := h.drain k .ready (s := s) (by decide)
    (by decide) (f := fun k t => k.unblock t i)
    (fun k₁ q₁ t ts h₁ hc hq => h₁.unblock_waiting (by rw [hc]; exact hne) hq i) _ rfl
    (h.placed.len_eq (.waiting s)).symm
  exact ⟨q', h'.deleteSemaphore hnil, hf.threadC, hf.context, hf.semaphore, hf.alive,
    congrArg (List.erase · s) hf.sems, hf.proc, hoth⟩

end Reset

end EpochKernel.Sched
