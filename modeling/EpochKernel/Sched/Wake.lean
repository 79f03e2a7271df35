import EpochKernel.Sched.Invariant

/-! The wake-up loop of the timer handler. Nested switches are postponed while it runs. If the
cursor of `t_list[T_SLEEP]` has led it to a thread that does not sleep, the loop meets that thread
for ever; so whenever it ends, it has only moved sleeping threads. -/
namespace EpochKernel.Sched
open EpochKernel.Util EpochKernel.Util.LinkedList EpochKernel.Library

variable {Θ P S : Type*} [DecidableEq S]
  {idle : Θ} {k k' : Kernel Θ P S} {q : Place S → List Θ} {x : Θ} {l : Place S} {i : ℕ}
  {nsec : UInt64} {trap : Trap}

/-- Indexing a list moves its cursor. -/
lemma Kernel.get_eq (h : k.get l i = some (some x, k')) :
    ∃ list, k' = { k with lists := Function.update k.lists l list } ∧
      list.len = (k.lists l).len ∧ list.start = (k.lists l).start ∧
      list.end_ = (k.lists l).end_ ∧ i < list.len ∧ list.current = some x ∧ list.currentI = i := by
  rw [Kernel.get, Option.map_eq_some_iff] at h
  obtain ⟨⟨z, list⟩, hget, heq⟩ := h
  obtain ⟨rfl, rfl⟩ := Prod.mk.inj heq
  obtain ⟨h1, h2, h3, h4⟩ := get_fields hget
  obtain ⟨h5, h6, h7⟩ := h4 (by simp)
  exact ⟨list, rfl, h1, h2, h3, by omega, h6, h7⟩

/-- The second indexing in an iteration finds the thread that the first one found. -/
lemma Kernel.get_cursor (hlen : i < (k.lists l).len) (hc : (k.lists l).current = some x)
    (hi : (k.lists l).currentI = i) : k.get l i = some (some x, k) := by
  rw [Kernel.get, LinkedList.get_cursor hlen hc hi]
  simp

variable [DecidableEq Θ]

/-- The invariant while the scheduler is locked. -/
structure Waking (idle : Θ) (k : Kernel Θ P S) (q : Place S → List Θ) : Prop where
  placed : Placed k q none
  running : q (.tList .running) = [k.threadC]
  idle_at : idle = k.threadC ∨ idle ∈ q (.tList .ready)
  postC : k.threadPostC = 1
  postFlag : k.threadPostFlag = true → k.threadC = idle ∧ q (.tList .ready) ≠ []
  last : (Fifo.lastDispatched k.log).getD idle = k.threadC

lemma moveTo_nsecLast (t : Θ) (st : TState) : (k.moveTo t st).nsecLast = k.nsecLast := by
  rw [Kernel.moveTo]
  dsimp only
  split_ifs <;> rfl

/-- Moving a thread that does not sleep leaves the list of sleeping threads alone. -/
lemma moveTo_awake (h : (k.thread x).state ≠ .sleep) :
    (k.moveTo x .ready).lists (.tList .sleep) = k.lists (.tList .sleep) ∧
    ((k.moveTo x .ready).thread x).state = .ready ∧
    ((k.moveTo x .ready).thread x).sleepTime = (k.thread x).sleepTime ∧
    (k.moveTo x .ready).threadPostC = k.threadPostC := by
  have hsleep : ∀ (j : Kernel Θ P S) (st : TState), ((j.setState x st).thread x).sleepTime =
      (j.thread x).sleepTime := by
    intro j st
    simp [Kernel.setState, Kernel.setThread]
  have hlink : ∀ j : Kernel Θ P S, (j.link .ready x).lists (.tList .sleep) =
      j.lists (.tList .sleep) := by
    intro j
    rw [(j.link_lists .ready x).2]
    simp [Kernel.append]
  cases hst : (k.thread x).state with
  | ready =>
    rw [Kernel.moveTo_self k _ x hst]
    exact ⟨rfl, hst, rfl, rfl⟩
  | sleep => exact absurd hst h
  | semaphoreWait =>
    rw [Kernel.moveTo_of_wait k .ready x hst (by decide)]
    refine ⟨hlink _, by simp, ?_, (Kernel.link_frame _ _ _).threadPostC⟩
    rw [Kernel.link_thread]
    exact hsleep k .ready
  | running | destroy =>
    rw [Kernel.moveTo_eq k .ready x (by rw [hst]; decide) (by rw [hst]; decide) (by decide)]
    refine ⟨?_, by simp, ?_, ?_⟩
    · rw [hlink]
      change (k.unlink _ x).lists _ = _
      rw [(k.unlink_lists _ x).2, hst]
      simp [Kernel.removeP]
    · rw [Kernel.link_thread, hsleep, Kernel.unlink_thread]
    · exact ((k.unlink_frame _ x).toKept.trans
        ((Kernel.setState_frame _ _ _).toKept.trans (Kernel.link_frame _ _ _).toKept)).threadPostC

variable [DecidableEq P]

/-- Unblocking while the scheduler is locked is a move, and a note for `unlock_all` if the thread is
the only one that is ready. -/
lemma unblock_locked (trap : Trap) (h : k.threadPostC ≠ 0)
    (hp : (k.moveTo x .ready).threadPostC = k.threadPostC) :
    k.unblock x trap = k.moveTo x .ready ∨
    (k.moveTo x .ready).len (.tList .ready) = 1 ∧
      k.unblock x trap = { (k.moveTo x .ready).saveRegs trap.frame with threadPostFlag := true } := by
  rw [Kernel.unblock]
  dsimp only
  split_ifs with hlen
  · exact Or.inr ⟨hlen, intSched_of_postC (by rw [hp]; exact h)⟩
  · exact Or.inl rfl

/-- The cursor is on a ready thread whose time has come. -/
structure Stuck (k : Kernel Θ P S) (x : Θ) (i : ℕ) (nsec : UInt64) : Prop where
  len : i < (k.lists (.tList .sleep)).len
  current : (k.lists (.tList .sleep)).current = some x
  currentI : (k.lists (.tList .sleep)).currentI = i
  state : (k.thread x).state = .ready
  time : (k.thread x).sleepTime ≤ nsec
  postC : k.threadPostC ≠ 0

lemma Stuck.wakeLoop (h : Stuck k x i nsec) (fuel : ℕ) :
    Kernel.wakeLoop nsec trap fuel i k = none := by
  induction fuel generalizing k with
  | zero => rfl
  | succ fuel ih =>
    have hget := Kernel.get_cursor h.len h.current h.currentI
    have hself := Kernel.moveTo_self k .ready x h.state
    rw [Kernel.wakeLoop, if_pos (show i < k.len (.tList .sleep) from h.len), hget]
    simp only [if_pos h.time, hget]
    refine ih ?_
    rcases unblock_locked trap (x := x) h.postC (by rw [hself]) with he | ⟨-, he⟩
    · rw [he, hself]
      exact h
    · rw [he, hself]
      exact ⟨h.len, h.current, h.currentI, h.state, h.time, h.postC⟩

/-- What the loop leaves unchanged. The registers of the running thread are saved only with a note
for `unlock_all`. -/
structure Locked (k k' : Kernel Θ P S) (q q' : Place S → List Θ) : Prop where
  threadC : k'.threadC = k.threadC
  nsecLast : k'.nsecLast = k.nsecLast
  semaphore : k'.semaphore = k.semaphore
  alive : k'.alive = k.alive
  sems : k'.sems = k.sems
  proc : ∀ t, (k'.thread t).proc = (k.thread t).proc
  waiting : ∀ s, q' (.waiting s) = q (.waiting s)
  saved : k'.context = k.context ∨ ∃ r, k'.context = k.context.save k.threadC r
  unnoted : k'.threadPostFlag = false → k.threadPostFlag = false ∧ k'.context = k.context

section Locking
omit [DecidableEq S] [DecidableEq P]

lemma Locked.trans {k'' : Kernel Θ P S} {q' q'' : Place S → List Θ} (h : Locked k k' q q')
    (h' : Locked k' k'' q' q'') : Locked k k'' q q'' := by
  refine ⟨h'.threadC.trans h.threadC, h'.nsecLast.trans h.nsecLast, h'.semaphore.trans h.semaphore,
    h'.alive.trans h.alive, h'.sems.trans h.sems, fun t => (h'.proc t).trans (h.proc t),
    fun s => (h'.waiting s).trans (h.waiting s), ?_, fun hf => ?_⟩
  · rcases h'.saved with h' | ⟨r, h'⟩
    · rw [h']
      exact h.saved
    · rcases h.saved with hs | ⟨r', hs⟩
      · exact Or.inr ⟨r, by rw [h', hs, h.threadC]⟩
      · exact Or.inr ⟨r, by rw [h', hs, h.threadC, Context.save_save]⟩
  · obtain ⟨hf', hc'⟩ := h'.unnoted hf
    obtain ⟨hf, hc⟩ := h.unnoted hf'
    exact ⟨hf, hc'.trans hc⟩

end Locking

/-- Waking a sleeping thread. -/
lemma Waking.unblock (h : Waking idle k q) (hx : (k.thread x).state = .sleep) (trap : Trap) :
    Waking idle (k.unblock x trap) (Placed.moved q .sleep .ready x) ∧
      Locked k (k.unblock x trap) q (Placed.moved q .sleep .ready x) := by
  have hal : x ∈ k.alive := by
    by_contra hn
    exact h.placed.dead x hn hx
  have hmem := h.placed.placed x hal (by simp) (by rw [hx]; decide)
  obtain ⟨hp, hf, -, -⟩ := h.placed.moveTo .ready hmem (by rw [hx]; decide) (by decide)
  rw [hx] at hp
  have hrun : Placed.moved q .sleep .ready x (.tList .running) = q (.tList .running) :=
    Placed.moved_of_ne q x (by simp) (by simp)
  have hready : Placed.moved q .sleep .ready x (.tList .ready) = q (.tList .ready) ++ [x] :=
    Placed.moved_to q (by decide) x
  have hw : ∀ s : S, Placed.moved q .sleep .ready x (.waiting s) = q (.waiting s) := fun s =>
    Placed.moved_of_ne q x (by simp) (by simp)
  have hnsec := moveTo_nsecLast (k := k) x .ready
  have hmove : Waking idle (k.moveTo x .ready) (Placed.moved q .sleep .ready x) := by
    refine ⟨hp, by rw [hrun, h.running, hf.threadC], ?_, hf.threadPostC.trans h.postC,
      fun hflag => ?_, ?_⟩
    · rw [hf.threadC, hready]
      exact h.idle_at.imp_right (List.mem_append_left [x])
    · rw [hf.threadPostFlag] at hflag
      exact ⟨hf.threadC.trans (h.postFlag hflag).1, by simp [hready]⟩
    · rw [hf.last, hf.threadC]
      exact h.last
  rcases unblock_locked trap (x := x) (by rw [h.postC]; decide) hf.threadPostC with
    he | ⟨hlen, he⟩
  · rw [he]
    exact ⟨hmove, hf.threadC, hnsec, hf.semaphore, hf.alive, hf.sems, hf.proc, hw,
      Or.inl hf.context, fun hflag => ⟨hf.threadPostFlag.symm.trans hflag, hf.context⟩⟩
  · -- no other thread is ready, so it is the idle thread that runs
    have hnil : q (.tList .ready) = [] := by
      rw [hp.len_eq, hready, List.length_append, List.length_singleton] at hlen
      exact List.length_eq_zero_iff.mp (by omega)
    have hidle : k.threadC = idle := by
      rcases h.idle_at with hi | hi
      · exact hi.symm
      · simp [hnil] at hi
    rw [he]
    refine ⟨⟨hmove.placed.congr rfl rfl rfl rfl (fun _ => rfl) rfl (fun _ => rfl) (fun _ => rfl),
      hmove.running, hmove.idle_at, hmove.postC, fun _ => ⟨hf.threadC.trans hidle, by simp [hready]⟩,
      hmove.last⟩, hf.threadC, hnsec, hf.semaphore, hf.alive, hf.sems, hf.proc, hw,
      Or.inr ⟨trap.frame, ?_⟩, nofun⟩
    change (k.moveTo x .ready).context.save (k.moveTo x .ready).threadC trap.frame = _
    rw [hf.context, hf.threadC]

section Indexing
omit [DecidableEq P]

/-- Moving the cursor of the list changes nothing else. -/
lemma Waking.get {k₁ : Kernel Θ P S} (h : Waking idle k q)
    (hget : k.get (.tList .sleep) i = some (some x, k₁)) :
    Waking idle k₁ q ∧ Locked k k₁ q q ∧ k₁.thread = k.thread ∧
      k₁.get (.tList .sleep) i = some (some x, k₁) ∧ i < (k₁.lists (.tList .sleep)).len ∧
      (k₁.lists (.tList .sleep)).current = some x ∧ (k₁.lists (.tList .sleep)).currentI = i := by
  obtain ⟨list, rfl, h1, h2, h3, h4, h5, h6⟩ := Kernel.get_eq hget
  have hp := h.placed
  refine ⟨⟨⟨hp.family.setCursor h1 h2 h3, hp.tList, hp.waiting, hp.absent, hp.placed, hp.waits,
    hp.dead, hp.fifo, hp.nodup, hp.sems_nodup⟩, h.running, h.idle_at, h.postC, h.postFlag, h.last⟩,
    ⟨rfl, rfl, rfl, rfl, rfl, fun _ => rfl, fun _ => rfl, Or.inl rfl, fun hf => ⟨hf, rfl⟩⟩, rfl,
    ?_, ?_, ?_, ?_⟩
  · exact Kernel.get_cursor (by simpa using h4) (by simpa using h5) (by simpa using h6)
  · simpa using h4
  · simpa using h5
  · simpa using h6

end Indexing

/-- Whenever the loop ends, it has woken sleeping threads only. -/
theorem Waking.wakeLoop (fuel : ℕ) (h : Waking idle k q)
    (hr : Kernel.wakeLoop nsec trap fuel i k = some k') :
    ∃ q', Waking idle k' q' ∧ Locked k k' q q' := by
  induction fuel generalizing i k q with
  | zero => cases hr
  | succ fuel ih =>
    rw [Kernel.wakeLoop] at hr
    by_cases hlt : i < k.len (.tList .sleep)
    · rw [if_pos hlt] at hr
      rcases hget : k.get (.tList .sleep) i with _ | ⟨_ | x, k₁⟩
      · rw [hget] at hr
        cases hr
      · rw [hget] at hr
        cases hr
      rw [hget] at hr
      dsimp only at hr
      obtain ⟨h1, hl1, hth, hget1, hlen1, hcur1, hi1⟩ := h.get hget
      by_cases htime : (k₁.thread x).sleepTime ≤ nsec
      · rw [if_pos htime, hget1] at hr
        dsimp only at hr
        by_cases hx : (k₁.thread x).state = .sleep
        · obtain ⟨h2, hl2⟩ := h1.unblock hx trap
          obtain ⟨q', h', hl'⟩ := ih h2 hr
          exact ⟨q', h', (hl1.trans hl2).trans hl'⟩
        · -- the cursor has left the sleeping threads, and the loop never ends
          exfalso
          obtain ⟨hlists, hstate, hsleep, hpost⟩ := moveTo_awake hx
          have hne : k₁.threadPostC ≠ 0 := by
            rw [h1.postC]
            decide
          have hstuck : Stuck (k₁.moveTo x .ready) x i nsec :=
            ⟨by rw [hlists]; exact hlen1, by rw [hlists]; exact hcur1, by rw [hlists]; exact hi1,
              hstate, by rw [hsleep]; exact htime, by rw [hpost]; exact hne⟩
          have hstuck' : Stuck (k₁.unblock x trap) x i nsec := by
            rcases unblock_locked trap hne hpost with he | ⟨-, he⟩
            · rw [he]
              exact hstuck
            · rw [he]
              exact ⟨hstuck.len, hstuck.current, hstuck.currentI, hstuck.state, hstuck.time,
                hstuck.postC⟩
          rw [hstuck'.wakeLoop] at hr
          cases hr
      · rw [if_neg htime] at hr
        obtain ⟨q', h', hl'⟩ := ih h1 hr
        exact ⟨q', h', hl1.trans hl'⟩
    · rw [if_neg hlt] at hr
      obtain rfl := Option.some.inj hr
      exact ⟨q, h, rfl, rfl, rfl, rfl, rfl, fun _ => rfl, fun _ => rfl, Or.inl rfl,
        fun hf => ⟨hf, rfl⟩⟩

/-- What the timer handler has done when it comes to the check of the time slice. -/
structure Woken (idle : Θ) (k k' : Kernel Θ P S) (regs : Registers) (i : Nested) : Prop where
  semaphore : k'.semaphore = k.semaphore
  alive : k'.alive = k.alive
  sems : k'.sems = k.sems
  proc : ∀ t, (k'.thread t).proc = (k.thread t).proc
  stayed : k'.threadC = k.threadC →
    k'.nsecLast = k.nsecLast ∧ k'.context = k.context.save k.threadC regs
  left : k'.threadC ≠ k.threadC → k.threadC = idle ∧
    k'.context = k.context.switch k.threadC i.unlockAll.frame k'.threadC

/-- The timer handler up to the check of the time slice. It is left only by the idle thread, in the
interrupt that `unlock_all` raises. -/
theorem Inv.wakeSleepers {regs : Registers} {i : Nested} (h : Inv idle k q)
    (hr : k.wakeSleepers regs nsec i = some k') :
    ∃ q', Inv idle k' q' ∧ Woken idle k k' regs i ∧ ∀ s, q' (.waiting s) = q (.waiting s) := by
  rw [Kernel.wakeSleepers, Option.map_eq_some_iff] at hr
  obtain ⟨k₁, hloop, rfl⟩ := hr
  have hlock : Waking idle (k.saveRegs regs).lockAll q := by
    refine ⟨h.placed.congr rfl rfl rfl rfl (fun _ => rfl) rfl (fun _ => rfl) (fun _ => rfl),
      h.running, h.idle_at, ?_, fun hflag => ?_, h.last⟩
    · change k.threadPostC + 1 = 1
      rw [h.postC]
      rfl
    · exact absurd (h.postFlag.symm.trans hflag) (by decide)
  obtain ⟨q₁, h1, hl⟩ := hlock.wakeLoop _ hloop
  have hpost : (if k₁.threadPostC > 1 then k₁.threadPostC else 1) - 1 = 0 := by
    rw [h1.postC]
    decide
  set k₂ : Kernel Θ P S := { k₁ with threadPostC := 0, threadPostFlag := false } with hk₂
  have h2 : Inv idle k₂ q₁ :=
    ⟨h1.placed.congr rfl rfl rfl rfl (fun _ => rfl) rfl (fun _ => rfl) (fun _ => rfl),
      h1.running, h1.idle_at, rfl, rfl, h1.last⟩
  have hc : k₁.threadC = k.threadC := hl.threadC
  rw [Kernel.unlockAll]
  dsimp only
  rw [hpost]
  by_cases hflag : k₁.threadPostFlag = true
  · rw [if_pos ⟨rfl, hflag⟩]
    obtain ⟨hidle, hready⟩ := h1.postFlag hflag
    obtain ⟨t, q₂, hs, hctx⟩ := h2.placed.intSched rfl (h2.running.trans h2.preempted.symm) hready
      i.unlockAll
    change ∃ q', Inv idle (k₂.intSched i.unlockAll) q' ∧
      Woken idle k (k₂.intSched i.unlockAll) regs i ∧ _
    refine ⟨q₂, h2.switched_inv hs, ⟨hs.semaphore.trans hl.semaphore, hs.alive.trans hl.alive,
      hs.sems.trans hl.sems, fun t => (hs.proc t).trans (hl.proc t), fun hst => ?_, fun _ => ?_⟩,
      fun s => (hs.others _ (by simp) (by simp)).trans (hl.waiting s)⟩
    · -- the ready thread is not the one that runs
      exfalso
      rw [hs.threadC] at hst
      obtain ⟨x, xs, hxs⟩ := List.exists_cons_of_ne_nil hready
      have hready' := hs.ready
      rw [hxs, List.cons_append] at hready'
      obtain rfl := (List.cons.inj hready').1
      have hrun : x ∈ q₁ (.tList .running) := by
        rw [h1.running, hc, hst]
        simp
      have := h1.placed.family.disjoint (.tList .ready) (.tList .running) x (by simp [hxs]) hrun
      simp at this
    · refine ⟨hc.symm.trans hidle, ?_⟩
      rw [hctx, hs.threadC]
      change k₁.context.switch k₁.threadC _ t = _
      rcases hl.saved with he | ⟨r, he⟩
      · rw [he, hc]
        simp [Kernel.lockAll, Kernel.saveRegs, Context.switch]
      · rw [he, hc]
        simp [Kernel.lockAll, Kernel.saveRegs, Context.switch]
  · have hfalse : k₁.threadPostFlag = false := by simpa using hflag
    rw [if_neg (by simp [hfalse])]
    refine ⟨q₁, ?_, ⟨hl.semaphore, hl.alive, hl.sems, hl.proc, fun _ => ?_, fun hne => ?_⟩,
      hl.waiting⟩
    · exact ⟨h1.placed.congr rfl rfl rfl rfl (fun _ => rfl) rfl (fun _ => rfl) (fun _ => rfl),
        h1.running, h1.idle_at, rfl, hfalse, h1.last⟩
    · exact ⟨hl.nsecLast, (hl.unnoted hfalse).2⟩
    · exact absurd hc hne

end EpochKernel.Sched
