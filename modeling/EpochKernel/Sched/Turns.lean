import EpochKernel.Sched.Run

/-! Turns on the processor. A step dispatches one thread at most and charges the time that has passed
since the last switch to the thread that ran. So a ready thread waits for as many turns as there are
threads before it, and the times of the threads add up to the time that has passed. -/
namespace EpochKernel.Sched
open EpochKernel.Util EpochKernel.Util.LinkedList EpochKernel.Library

variable {Θ P S : Type*}

/-- A part of a step without a switch. `gone` are the threads that may leave the ready list. -/
structure Quiet (gone : Θ → Prop) (k k' : Kernel Θ P S) : Prop where
  threadC : k'.threadC = k.threadC
  nsecLast : k'.nsecLast = k.nsecLast
  time : ∀ t, (k'.thread t).time = (k.thread t).time
  log : ∃ es, k'.log = k.log ++ es ∧ es.countP Fifo.Event.IsDispatch = 0 ∧
    ∀ t, .left t ∈ es → gone t

section Parts
variable {gone gone' : Θ → Prop} {k k₁ k' : Kernel Θ P S} {c : Prop} [Decidable c]

lemma Quiet.of_log (hc : k'.threadC = k.threadC) (hn : k'.nsecLast = k.nsecLast)
    (ht : ∀ t, (k'.thread t).time = (k.thread t).time) (hl : k'.log = k.log) : Quiet gone k k' :=
  ⟨hc, hn, ht, [], by rw [hl, List.append_nil], rfl, by simp⟩

lemma Quiet.refl (k : Kernel Θ P S) : Quiet gone k k := .of_log rfl rfl (fun _ => rfl) rfl

lemma Quiet.trans (h : Quiet gone k k₁) (h' : Quiet gone k₁ k') : Quiet gone k k' := by
  obtain ⟨es, he, hd, hg⟩ := h.log
  obtain ⟨es', he', hd', hg'⟩ := h'.log
  refine ⟨h'.threadC.trans h.threadC, h'.nsecLast.trans h.nsecLast,
    fun t => (h'.time t).trans (h.time t), es ++ es', ?_, ?_, fun t ht => ?_⟩
  · rw [he', he, List.append_assoc]
  · rw [List.countP_append, hd, hd']
  · exact (List.mem_append.mp ht).elim (hg t) (hg' t)

lemma Quiet.ite (h : c → Quiet gone k k') : Quiet gone k (if c then k' else k) := by
  split_ifs with hc
  · exact h hc
  · exact .refl k

lemma Quiet.mono (h : Quiet gone k k') (hg : ∀ t, gone t → gone' t) : Quiet gone' k k' := by
  obtain ⟨es, he, hd, hl⟩ := h.log
  exact ⟨h.threadC, h.nsecLast, h.time, es, he, hd, fun t ht => hg t (hl t ht)⟩

lemma notMem_dispatch {es : List (Fifo.Event Θ)} (h : es.countP Fifo.Event.IsDispatch = 0) (t : Θ) :
    .dispatch t ∉ es := fun ht => List.countP_eq_zero.mp h _ ht rfl

variable [DecidableEq Θ]

/-- A part of a step with one switch at most. -/
structure Turn (gone : Θ → Prop) (k k' : Kernel Θ P S) : Prop where
  time : ∀ t, (k'.thread t).time =
    (k.thread t).time + if t = k.threadC then k'.nsecLast - k.nsecLast else 0
  log : ∃ es, k'.log = k.log ++ es ∧
    (es.countP Fifo.Event.IsDispatch = 0 → k'.threadC = k.threadC) ∧
    (∀ t, .dispatch t ∈ es → k'.threadC = t) ∧ ∀ t, .left t ∈ es → gone t

lemma Quiet.turn (h : Quiet gone k k') : Turn gone k k' := by
  obtain ⟨es, he, hd, hg⟩ := h.log
  refine ⟨fun t => ?_, es, he, fun _ => h.threadC, fun t ht => absurd ht (notMem_dispatch hd t), hg⟩
  rw [h.time, h.nsecLast]
  simp

lemma Quiet.trans_turn (h : Quiet gone k k₁) (h' : Turn gone k₁ k') : Turn gone k k' := by
  obtain ⟨es, he, hd, hg⟩ := h.log
  obtain ⟨es', he', hd', hc', hg'⟩ := h'.log
  refine ⟨fun t => ?_, es ++ es', ?_, fun hz => ?_, fun t ht => ?_, fun t ht => ?_⟩
  · rw [h'.time, h.time, h.threadC, h.nsecLast]
  · rw [he', he, List.append_assoc]
  · rw [List.countP_append, hd, Nat.zero_add] at hz
    exact (hd' hz).trans h.threadC
  · exact hc' t ((List.mem_append.mp ht).resolve_left (notMem_dispatch hd t))
  · exact (List.mem_append.mp ht).elim (hg t) (hg' t)

end Parts

section Functions
variable {gone : Θ → Prop} (k : Kernel Θ P S) (t : Θ) (st : TState) (i : Trap)

lemma record_ready_quiet : Quiet gone k (k.record (.ready t)) :=
  ⟨rfl, rfl, fun _ => rfl, [.ready t], rfl, rfl, by simp⟩

lemma record_left_quiet (h : gone t) : Quiet gone k (k.record (.left t)) := by
  refine ⟨rfl, rfl, fun _ => rfl, [.left t], rfl, rfl, fun x hx => ?_⟩
  obtain rfl : x = t := by simpa using hx
  exact h

section Fields
variable [DecidableEq S]

lemma setSemaphore_quiet (s : S) (d : SemaphoreData P) : Quiet gone k (k.setSemaphore s d) :=
  .of_log rfl rfl (fun _ => rfl) rfl

lemma semTryLock_quiet (s : S) : Quiet gone k (k.semTryLock s).2 := by
  rw [Kernel.semTryLock]
  split_ifs
  · exact setSemaphore_quiet k s _
  · exact .refl k

lemma deleteSemaphore_quiet (s : S) : Quiet gone k (k.deleteSemaphore s) :=
  .of_log rfl rfl (fun _ => rfl) rfl

lemma get_quiet {k k' : Kernel Θ P S} {l : Place S} {j : ℕ} {o : Option Θ}
    (h : k.get l j = some (o, k')) :
    Quiet gone k k' ∧ k'.threadPostC = k.threadPostC := by
  obtain ⟨_, -, he⟩ := Option.map_eq_some_iff.mp h
  obtain ⟨-, rfl⟩ := Prod.mk.inj he
  exact ⟨.of_log rfl rfl (fun _ => rfl) rfl, rfl⟩

end Fields

variable [DecidableEq Θ]

lemma setState_quiet : Quiet gone k (k.setState t st) := by
  refine .of_log rfl rfl (fun x => ?_) rfl
  by_cases hx : x = t
  · subst hx
    simp [Kernel.setState, Kernel.setThread]
  · simp [Kernel.setState, Kernel.setThread, hx]

lemma saveRegs_quiet (regs : Registers) : Quiet gone k (k.saveRegs regs) :=
  .of_log rfl rfl (fun _ => rfl) rfl

/-- The time since the last switch goes to the thread that ran. -/
lemma updateTime_time (now : UInt64) : ((k.updateTime now).thread t).time =
    (k.thread t).time + if t = k.threadC then now - k.nsecLast else 0 := by
  by_cases h : t = k.threadC
  · subst h
    simp [Kernel.updateTime, Kernel.setThread]
  · simp [Kernel.updateTime, Kernel.setThread, h]

variable [DecidableEq S]

lemma append_quiet (l : Place S) : Quiet gone k (k.append l t) :=
  .of_log rfl rfl (fun _ => rfl) rfl

lemma removeP_quiet (l : Place S) : Quiet gone k (k.removeP l t) :=
  .of_log rfl rfl (fun _ => rfl) rfl

lemma popStart_quiet (l : Place S) : Quiet gone k (k.popStart l).2 :=
  .of_log rfl rfl (fun _ => rfl) rfl

lemma create_quiet (p : P) (n : NewThread) :
    Quiet gone (k.construct t p) (k.create t p n) := by
  refine ⟨rfl, rfl, fun x => ?_, [.ready t], rfl, rfl, by simp⟩
  by_cases hx : x = t
  · subst hx
    simp [Kernel.create, Kernel.record, Kernel.setState, Kernel.append, Kernel.setThread]
  · simp [Kernel.create, Kernel.record, Kernel.setState, Kernel.append, Kernel.setThread, hx]

lemma moveTo_quiet (h : (k.thread t).state = .ready → st ≠ .ready → gone t) :
    Quiet gone k (k.moveTo t st) := by
  rw [Kernel.moveTo]
  dsimp only
  by_cases hst : (k.thread t).state = st
  · rw [if_pos hst]
    exact .refl k
  rw [if_neg hst]
  have hleft (hr : (k.thread t).state = .ready) : gone t := h hr fun he => hst (hr.trans he.symm)
  have h1 := Quiet.ite fun _ : (k.thread t).state ≠ .semaphoreWait =>
    (removeP_quiet k t (.tList (k.thread t).state) : Quiet gone k _)
  have h2 := (h1.trans (.ite fun hr => record_left_quiet _ t (hleft hr))).trans (setState_quiet _ t st)
  have h3 := h2.trans (.ite fun _ : st ≠ .semaphoreWait => append_quiet _ t (.tList st))
  exact h3.trans (.ite fun _ => record_ready_quiet _ t)

lemma moveTo_ready_quiet : Quiet gone k (k.moveTo t .ready) :=
  moveTo_quiet k t .ready fun _ h => absurd rfl h

variable [DecidableEq P]

theorem schedule_turn (now : UInt64) : Turn gone k (k.schedule now).2 := by
  by_cases hp : k.threadPostC ≠ 0
  · rw [schedule_of_postC hp]
    exact Quiet.turn (.of_log rfl rfl (fun _ => rfl) rfl)
  by_cases hl : k.len (.tList .ready) ≠ 0
  swap
  · rw [Kernel.schedule, if_neg hp, if_neg hl]
    exact (Quiet.refl k).turn
  rw [Kernel.schedule, if_neg hp, if_pos hl]
  dsimp only
  set k₀ := k.updateTime now with hk₀
  set k₁ := if (k₀.thread k₀.threadC).state = .running then k₀.moveTo k₀.threadC .ready else k₀
  have hquiet : Quiet gone k₀ (k₁.popStart (.tList .ready)).2 :=
    (Quiet.ite fun _ => moveTo_ready_quiet k₀ k₀.threadC).trans (popStart_quiet k₁ _)
  rcases hpop : k₁.popStart (.tList .ready) with ⟨_ | t, k₂⟩
  · rw [hpop] at hquiet
    obtain ⟨es, he, hd, hg⟩ := hquiet.log
    refine ⟨fun x => ?_, es, he, fun _ => hquiet.threadC,
      fun x hx => absurd hx (notMem_dispatch hd x), hg⟩
    rw [hquiet.time, hquiet.nsecLast]
    exact updateTime_time k x now
  · rw [hpop] at hquiet
    obtain ⟨es, he, hd, hg⟩ := hquiet.log
    set k₃ := ({ k₂.record (.dispatch t) with threadC := t }.append (.tList .running) t).setState t
      .running with hk₃
    have hset : Quiet gone { k₂.record (.dispatch t) with threadC := t } k₃ :=
      (append_quiet _ t _).trans (setState_quiet _ t .running)
    have hturn : Turn gone k k₃ := by
      refine ⟨fun x => ?_, es ++ [.dispatch t], ?_, fun hz => ?_, fun x hx => ?_, fun x hx => ?_⟩
      · rw [hset.time, hset.nsecLast]
        refine (hquiet.time x).trans ((updateTime_time k x now).trans ?_)
        congr 2
        exact congrArg (· - k.nsecLast) hquiet.nsecLast.symm
      · change k₂.log ++ [.dispatch t] = _
        rw [show k₂.log = k.log ++ es from he, List.append_assoc]
      · rw [List.countP_append] at hz
        simp [Fifo.Event.IsDispatch] at hz
      · rcases List.mem_append.mp hx with hx | hx
        · exact absurd hx (notMem_dispatch hd x)
        · have hxt : x = t := by simpa using hx
          exact hxt.symm
      · rcases List.mem_append.mp hx with hx | hx
        · exact hg x hx
        · simp at hx
    dsimp only
    split_ifs
    · exact ⟨hturn.time, hturn.log⟩
    · exact hturn

theorem intSched_turn : Turn gone k (k.intSched i) := by
  rw [intSched_eq]
  have hs : Quiet gone k (k.saveRegs i.frame) := saveRegs_quiet k i.frame
  have h := hs.trans_turn (schedule_turn _ i.now)
  rcases hsched : (k.saveRegs i.frame).schedule i.now with ⟨_ | t, k'⟩
  · rw [hsched] at h
    exact h
  · rw [hsched] at h
    exact ⟨h.time, h.log⟩

theorem block_turn (h : (k.thread t).state = .ready → st ≠ .ready → gone t) :
    Turn gone k (k.block t st i) := by
  have hm := moveTo_quiet k t st h
  rw [Kernel.block]
  split_ifs
  · exact hm.trans_turn (intSched_turn _ i)
  · exact hm.turn

theorem unblock_turn : Turn gone k (k.unblock t i) := by
  have hm : Quiet gone k (k.moveTo t .ready) := moveTo_ready_quiet k t
  rw [Kernel.unblock]
  split_ifs
  · exact hm.trans_turn (intSched_turn _ i)
  · exact hm.turn

theorem semUnlock_turn (s : S) : Turn gone k (k.semUnlock s i) := by
  rw [Kernel.semUnlock]
  split_ifs
  · have hpop : Quiet gone k (k.popStart (.waiting s)).2 := popStart_quiet k (.waiting s)
    rcases he : k.popStart (.waiting s) with ⟨_ | t, k₁⟩
    · rw [he] at hpop
      exact hpop.turn
    · rw [he] at hpop
      exact hpop.trans_turn (unblock_turn k₁ t i)
  · dsimp only
    split_ifs
    · exact (setSemaphore_quiet k s _).turn
    · exact (Quiet.refl k).turn

end Functions

section Calls
variable {gone : Θ → Prop} {idle : Θ} {k k' : Kernel Θ P S} {q : Place S → List Θ} {s : S} {i : Trap}
  [DecidableEq Θ] [DecidableEq S]

/-- The kernel from which a call counts: a new thread begins with a cleared object. -/
def Call.cleared (k : Kernel Θ P S) : Call Θ P S → Kernel Θ P S
  | .create t p _ => k.construct t p
  | _ => k

lemma clean_quiet (k : Kernel Θ P S) : Quiet gone k k.clean := by
  have hpop : Quiet gone k (k.popStart (.tList .destroy)).2 := popStart_quiet k _
  rw [Kernel.clean]
  rcases he : k.popStart (.tList .destroy) with ⟨_ | t, k₁⟩
  · rw [he] at hpop
    exact hpop
  · rw [he] at hpop
    exact ⟨hpop.threadC, hpop.nsecLast, hpop.time, hpop.log⟩

/-- Waiting threads are not in the ready list. -/
lemma Inv.drain_quiet (c : Θ) (st : TState) {f : Kernel Θ P S → Θ → Kernel Θ P S}
    (hst : st ≠ .running) (hst' : st ≠ .semaphoreWait)
    (hf : ∀ k q t ts, Inv idle k q → k.threadC = c → q (.waiting s) = t :: ts →
      f (k.popStart (.waiting s)).2 t = (k.popStart (.waiting s)).2.moveTo t st)
    (n : ℕ) (h : Inv idle k q) (hc : k.threadC = c) (hn : (q (.waiting s)).length = n) :
    Quiet gone k (Kernel.drain f s n k) := by
  induction n generalizing k q with
  | zero => exact .refl k
  | succ n ih =>
    obtain ⟨t, ts, hq⟩ := List.exists_cons_of_length_eq_add_one hn
    obtain ⟨hpop, h', hfr⟩ := h.release hq st hst hst'
    have hpop' : k.popStart (.waiting s) = (some t, (k.popStart (.waiting s)).2) :=
      Prod.ext hpop rfl
    have hstep := hf k q t ts h hc hq
    have hwait : (k.thread t).state = .semaphoreWait :=
      (h.placed.waiting s t (by simp [hq])).2.1
    have hquiet : Quiet gone k ((k.popStart (.waiting s)).2.moveTo t st) :=
      (popStart_quiet k _).trans (moveTo_quiet _ t st fun hr => by
        have hr' : (k.thread t).state = .ready := hr
        rw [hwait] at hr'
        cases hr')
    rw [Kernel.drain, hpop']
    dsimp only
    rw [hstep]
    refine hquiet.trans (ih h' (hfr.threadC.trans hc) ?_)
    rw [released_waiting]
    rw [hq, List.length_cons] at hn
    omega

lemma Inv.resetDestroy_quiet (h : Inv idle k q) (s : S) : Quiet gone k (k.resetDestroy s) := by
  refine (h.drain_quiet (s := s) k.threadC .destroy (by decide) (by decide) ?_ _ rfl
    (h.placed.len_eq (.waiting s)).symm).trans (deleteSemaphore_quiet _ s)
  exact fun _ _ _ _ _ _ _ => rfl

lemma Inv.resetAll_quiet (ss : List S) (h : Inv idle k q) :
    Quiet gone k (ss.foldl (fun k s => k.resetDestroy s) k) := by
  induction ss generalizing k q with
  | nil => exact .refl k
  | cons s ss ih =>
    obtain ⟨q₁, h₁, -⟩ := h.resetDestroy s
    exact (h.resetDestroy_quiet s).trans (ih h₁)

variable [DecidableEq P]

/-- A running thread that gives way is not in the ready list. -/
lemma Inv.block_turn (h : Inv idle k q) (st : TState) (i : Trap) :
    Turn gone k (k.block k.threadC st i) :=
  Sched.block_turn k k.threadC st i fun hr => by
    rw [h.state_threadC] at hr
    cases hr

lemma Inv.nsleepUntil_turn (h : Inv idle k q) (time now : UInt64) (i : Trap) :
    Turn gone k (k.nsleepUntil k.threadC time now i) := by
  rw [Kernel.nsleepUntil]
  split_ifs
  · exact (Quiet.refl k).turn
  · set k₁ := k.setThread k.threadC { k.thread k.threadC with sleepTime := time } with hk₁
    have hth (x : Θ) : (k₁.thread x).time = (k.thread x).time ∧
        (k₁.thread x).state = (k.thread x).state := by
      by_cases hx : x = k.threadC
      · subst hx
        simp [hk₁, Kernel.setThread]
      · simp [hk₁, Kernel.setThread, hx]
    have hq : Quiet gone k k₁ := .of_log rfl rfl (fun x => (hth x).1) rfl
    refine hq.trans_turn (Sched.block_turn k₁ k.threadC .sleep i fun hr => ?_)
    rw [(hth _).2, h.state_threadC] at hr
    cases hr

lemma Inv.semLock_turn (h : Inv idle k q) (s : S) (i : Trap) : Turn gone k (k.semLock s i) := by
  rw [Kernel.semLock]
  dsimp only
  split_ifs
  · exact (setSemaphore_quiet k s _).turn
  · have hm : Quiet gone k (k.moveTo k.threadC .semaphoreWait) :=
      moveTo_quiet k _ _ fun hr => by
        rw [h.state_threadC] at hr
        cases hr
    exact (hm.trans (append_quiet _ _ _)).trans_turn (intSched_turn _ i)

lemma Inv.resetReady_quiet (h : Inv idle k q) (hne : k.threadC ≠ idle) (s : S) (i : Trap) :
    Quiet gone k (k.resetReady s i) := by
  refine (h.drain_quiet (s := s) k.threadC .ready (by decide) (by decide) ?_ _ rfl
    (h.placed.len_eq (.waiting s)).symm).trans (deleteSemaphore_quiet _ s)
  exact fun k₁ q₁ t ts h₁ hc hq => h₁.unblock_waiting (by rw [hc]; exact hne) hq i

lemma destroyAll_quiet (ts : List Θ) (k : Kernel Θ P S) (i : Trap) (hg : ∀ t ∈ ts, gone t) :
    Quiet gone k (ts.foldl (fun k t => if t ≠ k.threadC then k.block t .destroy i else k) k) := by
  induction ts generalizing k with
  | nil => exact .refl k
  | cons t ts ih =>
    refine .trans ?_ (ih _ fun x hx => hg x (List.mem_cons_of_mem _ hx))
    dsimp only
    by_cases ht : t = k.threadC
    · rw [if_neg (not_not.mpr ht)]
      exact .refl k
    · have hm : Quiet gone k (k.moveTo t .destroy) :=
        moveTo_quiet k t .destroy fun _ _ => hg t List.mem_cons_self
      rw [if_pos ht, Kernel.block, if_neg (by rw [hm.threadC]; exact ht)]
      exact hm

/-- Only the threads of the process can leave the ready list when it is torn down. -/
theorem Inv.teardown_turn {p : P} (h : Inv idle k q) (hp : p ≠ (k.thread idle).proc) (i : Trap) :
    Turn (fun t => (k.thread t).proc = p) k (k.teardown p i) := by
  set ss := k.sems.filter fun s => (k.semaphore s).owner = p with hss
  obtain ⟨q₁, h₁, hc₁, -, hsem₁, -, hsems₁, hproc₁, -⟩ := h.resetAll ss
  have hquiet₁ : Quiet (fun t => (k.thread t).proc = p) k
      (ss.foldl (fun k s => k.resetDestroy s) k) := h.resetAll_quiet ss
  set k₁ := ss.foldl (fun k s => k.resetDestroy s) k with hk₁
  set ts := k₁.alive.filter fun t => (k₁.thread t).proc = p with hts
  have hmem (t : Θ) (ht : t ∈ ts) : t ∈ k₁.alive ∧ (k₁.thread t).proc = p := by
    simpa [hts] using ht
  obtain ⟨q₂, h₂, hf₂, -⟩ := h₁.destroyAll ts (p := p) (by rw [hproc₁]; exact Ne.symm hp)
    (fun s hs => by
      rw [hsem₁]
      obtain ⟨hs, hn⟩ := (hsems₁ s).mp hs
      simpa [hss, hs] using hn) hmem i
  have hquiet₂ := destroyAll_quiet ts k₁ i fun t ht => (hproc₁ t).symm.trans (hmem t ht).2
  set k₂ := ts.foldl (fun k t => if t ≠ k.threadC then k.block t .destroy i else k) k₁ with hk₂
  have heq : k.teardown p i = if p = k₂.procC then k₂.block k₂.threadC .destroy i else k₂ := rfl
  rw [heq]
  split_ifs
  · exact (hquiet₁.trans hquiet₂).trans_turn (h₂.block_turn .destroy i)
  · exact (hquiet₁.trans hquiet₂).turn

/-- While the scheduler is locked a thread is woken without a switch. -/
lemma unblock_quiet (h : k.threadPostC ≠ 0) (t : Θ) (i : Trap) :
    Quiet gone k (k.unblock t i) ∧ (k.unblock t i).threadPostC = k.threadPostC := by
  have hm : Quiet gone k (k.moveTo t .ready) := moveTo_ready_quiet k t
  have hp : (k.moveTo t .ready).threadPostC = k.threadPostC := by
    rw [Kernel.moveTo]
    dsimp only
    split_ifs <;> rfl
  rcases unblock_locked i h hp with he | ⟨-, he⟩
  · rw [he]
    exact ⟨hm, hp⟩
  · rw [he]
    exact ⟨⟨hm.threadC, hm.nsecLast, hm.time, hm.log⟩, hp⟩

lemma wakeLoop_quiet {nsec : UInt64} {trap : Trap} {fuel j : ℕ} (hp : k.threadPostC ≠ 0)
    (hr : Kernel.wakeLoop nsec trap fuel j k = some k') : Quiet gone k k' := by
  induction fuel generalizing j k with
  | zero => cases hr
  | succ fuel ih =>
    rw [Kernel.wakeLoop] at hr
    split_ifs at hr
    swap
    · obtain rfl := Option.some.inj hr
      exact .refl k
    rcases hget : k.get (.tList .sleep) j with _ | ⟨_ | x, k₁⟩
    · rw [hget] at hr
      cases hr
    · rw [hget] at hr
      cases hr
    rw [hget] at hr
    dsimp only at hr
    obtain ⟨h1, hp1⟩ := get_quiet hget
    split_ifs at hr
    · rcases hget' : k₁.get (.tList .sleep) j with _ | ⟨_ | y, k₂⟩
      · rw [hget'] at hr
        cases hr
      · rw [hget'] at hr
        cases hr
      rw [hget'] at hr
      obtain ⟨h2, hp2⟩ := get_quiet hget'
      have hp2' : k₂.threadPostC ≠ 0 := by rwa [hp2, hp1]
      obtain ⟨h3, hp3⟩ := unblock_quiet hp2' y trap
      exact ((h1.trans h2).trans h3).trans (ih (by rwa [hp3]) hr)
    · exact h1.trans (ih (by rwa [hp1]) hr)

lemma unlockAll_turn (k : Kernel Θ P S) (i : Trap) : Turn gone k (k.unlockAll i) := by
  have hpost (c : UInt32) (flag : Bool) :
      Quiet gone k { k with threadPostC := c, threadPostFlag := flag } :=
    .of_log rfl rfl (fun _ => rfl) rfl
  rw [Kernel.unlockAll]
  dsimp only
  generalize (if k.threadPostC > 1 then k.threadPostC else 1) - 1 = c
  split_ifs
  · exact (hpost c false).trans_turn (intSched_turn _ i)
  · exact (hpost c k.threadPostFlag).turn

theorem Inv.wakeSleepers_turn {regs : Registers} {nsec : UInt64} {i : Nested} (h : Inv idle k q)
    (hr : k.wakeSleepers regs nsec i = some k') : Turn gone k k' := by
  rw [Kernel.wakeSleepers, Option.map_eq_some_iff] at hr
  obtain ⟨k₁, hloop, rfl⟩ := hr
  have hlock : Quiet gone k (k.saveRegs regs).lockAll := .of_log rfl rfl (fun _ => rfl) rfl
  have hpost : (k.saveRegs regs).lockAll.threadPostC ≠ 0 := by
    change k.threadPostC + 1 ≠ 0
    rw [h.postC]
    decide
  exact (hlock.trans (wakeLoop_quiet hpost hloop)).trans_turn (unlockAll_turn k₁ i.unlockAll)

/-- The threads that a call can take out of the ready list without dispatching them. -/
def Call.Gone (k : Kernel Θ P S) (t : Θ) : Call Θ P S → Prop
  | .teardown p _ => (k.thread t).proc = p
  | _ => False

instance (k : Kernel Θ P S) (t : Θ) : (c : Call Θ P S) → Decidable (c.Gone k t)
  | .teardown p _ => inferInstanceAs (Decidable ((k.thread t).proc = p))
  | .create .. | .schedule .. | .block .. | .nsleepUntil .. | .tick .. | .createSemaphore ..
  | .semLock .. | .semTryLock .. | .semUnlock .. | .resetReady .. | .resetDestroy .. | .clean =>
    isFalse id

/-- Every step switches once at most. -/
theorem Inv.step_turn (h : Inv idle k q) {c : Call Θ P S} (hs : k.step idle c = some k') :
    Turn (fun t => c.Gone k t) (c.cleared k) k' := by
  cases c with
  | create t p n =>
    obtain ⟨-, hs⟩ := Option.ite_none_right_eq_some.mp hs
    obtain rfl := Option.some.inj hs
    exact (create_quiet k t p n).turn
  | schedule now =>
    obtain rfl := Option.some.inj hs
    exact schedule_turn k now
  | block st i =>
    obtain ⟨-, hs⟩ := Option.ite_none_right_eq_some.mp hs
    obtain rfl := Option.some.inj hs
    exact h.block_turn st i
  | nsleepUntil time now i =>
    obtain ⟨-, hs⟩ := Option.ite_none_right_eq_some.mp hs
    obtain rfl := Option.some.inj hs
    exact h.nsleepUntil_turn time now i
  | tick regs nsec i => exact h.wakeSleepers_turn hs
  | createSemaphore s n =>
    obtain ⟨-, hs⟩ := Option.ite_none_right_eq_some.mp hs
    obtain rfl := Option.some.inj hs
    exact Quiet.turn (.of_log rfl rfl (fun _ => rfl) rfl)
  | semLock s i =>
    obtain ⟨-, hs⟩ := Option.ite_none_right_eq_some.mp hs
    obtain rfl := Option.some.inj hs
    exact h.semLock_turn s i
  | semTryLock s =>
    obtain ⟨-, hs⟩ := Option.ite_none_right_eq_some.mp hs
    obtain rfl := Option.some.inj hs
    exact (semTryLock_quiet k s).turn
  | semUnlock s i =>
    obtain ⟨-, hs⟩ := Option.ite_none_right_eq_some.mp hs
    obtain rfl := Option.some.inj hs
    exact semUnlock_turn k i s
  | resetReady s i =>
    obtain ⟨ho, hs⟩ := Option.ite_none_right_eq_some.mp hs
    obtain rfl := Option.some.inj hs
    exact (h.resetReady_quiet ho.1 s i).turn
  | resetDestroy s =>
    obtain ⟨-, hs⟩ := Option.ite_none_right_eq_some.mp hs
    obtain rfl := Option.some.inj hs
    exact (h.resetDestroy_quiet s).turn
  | teardown p i =>
    obtain ⟨hp, hs⟩ := Option.ite_none_right_eq_some.mp hs
    obtain rfl := Option.some.inj hs
    exact h.teardown_turn hp i
  | clean =>
    obtain rfl := Option.some.inj hs
    exact (clean_quiet k).turn

end Calls

end EpochKernel.Sched
