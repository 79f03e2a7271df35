import EpochKernel.Sched.Placed

/-! What `schedule` does: the first ready thread runs, and the thread that ran before it, if it has
not blocked, goes to the end of the ready list. -/
namespace EpochKernel.Sched
open EpochKernel.Util EpochKernel.Util.LinkedList EpochKernel.Library

variable {Θ P S : Type*} [DecidableEq Θ]

lemma updateTime_state (k : Kernel Θ P S) (now : UInt64) (t : Θ) :
    ((k.updateTime now).thread t).state = (k.thread t).state ∧
    ((k.updateTime now).thread t).proc = (k.thread t).proc := by
  by_cases h : t = k.threadC
  · subst h
    simp [Kernel.updateTime, Kernel.setThread]
  · simp [Kernel.updateTime, Kernel.setThread, h]

/-- The thread that goes back to the ready list when `schedule` switches away from `thread_c`. -/
def Kernel.preempted (k : Kernel Θ P S) : List Θ :=
  if (k.thread k.threadC).state = .running then [k.threadC] else []

/-- `schedule` has switched to `t`. -/
structure Switched (k k' : Kernel Θ P S) (q q' : Place S → List Θ) (t : Θ) : Prop
    extends Kept k k' where
  placed : Placed k' q' none
  threadC : k'.threadC = t
  running : q' (.tList .running) = [t]
  ready : q (.tList .ready) ++ k.preempted = t :: q' (.tList .ready)
  others : ∀ l, l ≠ .tList .running → l ≠ .tList .ready → q' l = q l
  last : Fifo.lastDispatched k'.log = some t

variable {k : Kernel Θ P S} {q : Place S → List Θ} {now : UInt64} [DecidableEq S]

/-- The thread that ran goes to the end of the ready list, unless it has blocked. -/
lemma Placed.preempt (h : Placed k q none) (hrun : q (.tList .running) = k.preempted)
    (now : UInt64) :
    ∃ k₁ q₁, k₁ = (if ((k.updateTime now).thread (k.updateTime now).threadC).state = .running then
        (k.updateTime now).moveTo (k.updateTime now).threadC .ready else k.updateTime now) ∧
      Placed k₁ q₁ none ∧ Frame k k₁ ∧ q₁ (.tList .running) = [] ∧
      q₁ (.tList .ready) = q (.tList .ready) ++ k.preempted ∧
      ∀ l, l ≠ .tList .running → l ≠ .tList .ready → q₁ l = q l := by
  have hst := fun t => (updateTime_state k now t).1
  have hpr := fun t => (updateTime_state k now t).2
  have h1 : Placed (k.updateTime now) q none :=
    h.congr rfl rfl rfl rfl (fun _ => rfl) rfl hst hpr
  have hf1 : Frame k (k.updateTime now) := ⟨⟨rfl, rfl, rfl, rfl, rfl, hpr⟩, rfl, rfl, rfl⟩
  by_cases hr : (k.thread k.threadC).state = .running
  · have hp : k.preempted = [k.threadC] := by rw [Kernel.preempted, if_pos hr]
    have hr' : ((k.updateTime now).thread k.threadC).state = .running := (hst _).trans hr
    have hm := h1.moveTo (t := k.threadC) .ready (by rw [hr', hrun, hp]; simp)
      (by rw [hr']; decide) (by decide)
    rw [hr'] at hm
    refine ⟨_, Placed.moved q .running .ready k.threadC, (if_pos hr').symm, hm.1,
      hf1.trans hm.2.1, ?_, ?_, fun l hl hl' => Placed.moved_of_ne q _ hl hl'⟩
    · rw [Placed.moved_from q (by decide), hrun, hp, List.erase_cons_head]
    · rw [Placed.moved_to q (by decide), hp]
  · have hp : k.preempted = [] := by rw [Kernel.preempted, if_neg hr]
    have hr' : ¬ ((k.updateTime now).thread k.threadC).state = .running := by
      rw [hst]
      exact hr
    exact ⟨_, q, (if_neg hr').symm, h1, hf1, hrun.trans hp, by rw [hp, List.append_nil],
      fun _ _ _ => rfl⟩

variable [DecidableEq P]

lemma schedule_of_postC (h : k.threadPostC ≠ 0) :
    k.schedule now = (none, { k with threadPostFlag := true }) := by
  rw [Kernel.schedule, if_pos h]

lemma Placed.schedule_nil (h : Placed k q none) (hp : k.threadPostC = 0)
    (hr : q (.tList .ready) = []) : k.schedule now = (none, k) := by
  have hl : ¬ k.len (.tList .ready) ≠ 0 := by
    rw [h.len_eq, hr]
    simp
  rw [Kernel.schedule, if_neg (by simp [hp]), if_neg hl]

theorem Placed.schedule (h : Placed k q none) (hp : k.threadPostC = 0)
    (hrun : q (.tList .running) = k.preempted) (hr : q (.tList .ready) ≠ []) (now : UInt64) :
    ∃ t q', (k.schedule now).1 = some t ∧ Switched k (k.schedule now).2 q q' t ∧
      (k.schedule now).2.context = k.context := by
  have hl : k.len (.tList .ready) ≠ 0 := by
    rw [h.len_eq]
    simpa using hr
  obtain ⟨k₁, q₁, hk₁, h1, hf1, hrun1, hready1, hother1⟩ := h.preempt hrun now
  obtain ⟨t, ts, hts⟩ := List.exists_cons_of_ne_nil (l := q₁ (.tList .ready)) (by simp [hready1, hr])
  obtain ⟨hpop, h2⟩ := h1.popStart hts (k₁.log ++ [.dispatch t]) (by
    rw [Function.update_self]
    exact Fifo.replay_dispatch (hts ▸ h1.fifo))
  have hpop' : k₁.popStart (.tList .ready) = (some t, (k₁.popStart (.tList .ready)).2) :=
    Prod.ext hpop rfl
  set k₂ : Kernel Θ P S :=
    { (k₁.popStart (.tList .ready)).2.record (.dispatch t) with threadC := t } with hk₂
  have h2' : Placed k₂ (Function.update q₁ (.tList .ready) ts) (some t) :=
    h2.congr rfl rfl rfl rfl (fun _ => rfl) rfl (fun _ => rfl) (fun _ => rfl)
  have h3 := (h2'.setState .running).link .running (by simp) (by decide)
  have hk₃ : (k₂.setState t .running).link .running t =
      (k₂.append (.tList .running) t).setState t .running := by
    rw [Kernel.link, if_neg (by decide)]
    rfl
  rw [hk₃] at h3
  set k₃ := (k₂.append (.tList .running) t).setState t .running with hk₃'
  have hproc3 : ∀ t', (k₃.thread t').proc = (k₁.thread t').proc := by
    intro t'
    exact (Kernel.setState_frame (k₂.append (.tList .running) t) .running t).proc t'
  set q₃ := Function.update (Function.update q₁ (.tList .ready) ts) (.tList .running)
    (Function.update q₁ (.tList .ready) ts (.tList .running) ++ [t]) with hq₃
  have hsched : k.schedule now = (some t,
      if k₃.procC ≠ (k.updateTime now).procC then { k₃ with cr3 := k₃.procC } else k₃) := by
    rw [Kernel.schedule, if_neg (by simp [hp]), if_pos hl]
    dsimp only
    rw [← hk₁, hpop']
  have hfin : ∀ k', (k' = k₃ ∨ k' = { k₃ with cr3 := k₃.procC }) → Switched k k' q q₃ t := by
    intro k' hk'
    have hrun3 : q₃ (.tList .running) = [t] := by simp [hq₃, hrun1]
    have hready3 : q (.tList .ready) ++ k.preempted = t :: q₃ (.tList .ready) := by
      rw [← hready1, hts]
      simp [hq₃]
    have hother3 : ∀ l, l ≠ .tList .running → l ≠ .tList .ready → q₃ l = q l := by
      intro l hl1 hl2
      rw [hq₃, Function.update_of_ne hl1, Function.update_of_ne hl2, hother1 l hl1 hl2]
    have hproc : ∀ t', (k₃.thread t').proc = (k.thread t').proc := fun t' =>
      (hproc3 t').trans (hf1.proc t')
    have hlast : Fifo.lastDispatched k₃.log = some t := Fifo.lastDispatched_dispatch
    rcases hk' with rfl | rfl
    · exact ⟨⟨hf1.threadPostC, hf1.threadPostFlag, hf1.semaphore, hf1.alive, hf1.sems, hproc⟩, h3,
        rfl, hrun3, hready3, hother3, hlast⟩
    · exact ⟨⟨hf1.threadPostC, hf1.threadPostFlag, hf1.semaphore, hf1.alive, hf1.sems, hproc⟩,
        h3.congr rfl rfl rfl rfl (fun _ => rfl) rfl (fun _ => rfl) (fun _ => rfl),
        rfl, hrun3, hready3, hother3, hlast⟩
  refine ⟨t, q₃, by rw [hsched], ?_⟩
  rw [hsched]
  simp only
  split_ifs
  · exact ⟨hfin _ (Or.inr rfl), hf1.context⟩
  · exact ⟨hfin _ (Or.inl rfl), hf1.context⟩

section Interrupt
variable {i : Trap}

omit [DecidableEq S] [DecidableEq P] in
/-- The scheduler does not read the contexts. -/
lemma Placed.setContext {hole : Option Θ} (h : Placed k q hole) (c : Context Θ) :
    Placed { k with context := c } q hole :=
  h.congr rfl rfl rfl rfl (fun _ => rfl) rfl (fun _ => rfl) (fun _ => rfl)

omit [DecidableEq S] [DecidableEq P] in
lemma Switched.setContext {c c' : Context Θ} {k' : Kernel Θ P S} {q' : Place S → List Θ} {t : Θ}
    (h : Switched { k with context := c } k' q q' t) :
    Switched k { k' with context := c' } q q' t :=
  ⟨⟨h.threadPostC, h.threadPostFlag, h.semaphore, h.alive, h.sems, h.proc⟩,
    h.placed.setContext c', h.threadC, h.running, h.ready, h.others, h.last⟩

/-- `int_sched` saves the frame as it is and calls `schedule`. -/
lemma intSched_eq (k : Kernel Θ P S) (i : Trap) :
    k.intSched i =
      Kernel.handlerReturns k.threadC i.frame ((k.saveRegs i.frame).schedule i.now) := by
  rw [Kernel.intSched, Kernel.cIntHandler, Context.complete, if_neg i.kernel,
    Kernel.schedIntHandler, if_neg i.kernel]

lemma intSched_of_postC (h : k.threadPostC ≠ 0) :
    k.intSched i = { k.saveRegs i.frame with threadPostFlag := true } := by
  rw [intSched_eq, schedule_of_postC (k := k.saveRegs i.frame) h, Kernel.handlerReturns]

/-- `int_sched` with a ready thread switches to it. -/
theorem Placed.intSched (h : Placed k q none) (hp : k.threadPostC = 0)
    (hrun : q (.tList .running) = k.preempted) (hr : q (.tList .ready) ≠ []) (i : Trap) :
    ∃ t q', Switched k (k.intSched i) q q' t ∧
      (k.intSched i).context = k.context.switch k.threadC i.frame t := by
  obtain ⟨t, q', ht, hs, hc⟩ :=
    (h.setContext (k.context.save k.threadC i.frame)).schedule (k := k.saveRegs i.frame) hp hrun hr
      i.now
  have hsched : (k.saveRegs i.frame).schedule i.now =
      (some t, ((k.saveRegs i.frame).schedule i.now).2) := Prod.ext ht rfl
  rw [intSched_eq, hsched, Kernel.handlerReturns]
  refine ⟨t, q', hs.setContext, ?_⟩
  dsimp only
  rw [hc]
  rfl

end Interrupt

end EpochKernel.Sched
