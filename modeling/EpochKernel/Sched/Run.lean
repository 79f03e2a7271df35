import EpochKernel.Library.Run
import EpochKernel.Sched.Wake

/-! Runs of the scheduler on one CPU. Every step runs with interrupts disabled; the calls of the
running thread are those the system call interface offers to it. -/
namespace EpochKernel.Sched
open EpochKernel.Util EpochKernel.Util.LinkedList EpochKernel.Library

variable {Θ P S : Type*}

/-- The steps of the scheduler: what a timer handler does before (`tick`) and after (`schedule`) the
check of the time slice, and what the running thread calls. -/
inductive Call (Θ P S : Type*)
  | create (t : Θ) (p : P) (n : NewThread)
  | schedule (now : UInt64)
  | block (st : TState) (i : Trap)
  | nsleepUntil (time now : UInt64) (i : Trap)
  | tick (regs : Registers) (nsec : UInt64) (i : Nested)
  | createSemaphore (s : S) (n : ℕ)
  | semLock (s : S) (i : Trap)
  | semTryLock (s : S)
  | semUnlock (s : S) (i : Trap)
  | resetReady (s : S) (i : Trap)
  | resetDestroy (s : S)
  | teardown (p : P) (i : Trap)
  | clean

namespace Kernel
variable [DecidableEq Θ] [DecidableEq P] [DecidableEq S]

/-- The running thread, which is not the idle thread, finds `s` in the table of its process. -/
def Offers (k : Kernel Θ P S) (idle : Θ) (s : S) : Prop :=
  k.threadC ≠ idle ∧ s ∈ k.sems ∧ (k.semaphore s).owner = k.procC

instance (k : Kernel Θ P S) (idle : Θ) (s : S) : Decidable (k.Offers idle s) :=
  inferInstanceAs (Decidable (_ ∧ _))

def step (idle : Θ) : Machine (Kernel Θ P S) (Call Θ P S)
  | k, .create t p n => if t ∉ k.alive then some (k.create t p n) else none
  | k, .schedule now => some (k.schedule now).2
  | k, .block st i =>
    if k.threadC ≠ idle ∧ st ≠ .running ∧ st ≠ .semaphoreWait then some (k.block k.threadC st i)
    else none
  | k, .nsleepUntil time now i =>
    if k.threadC ≠ idle then some (k.nsleepUntil k.threadC time now i) else none
  | k, .tick regs nsec i => k.wakeSleepers regs nsec i
  | k, .createSemaphore s n =>
    if s ∉ k.sems then some (k.createSemaphore s n k.procC) else none
  | k, .semLock s i => if k.Offers idle s then some (k.semLock s i) else none
  | k, .semTryLock s => if k.Offers idle s then some (k.semTryLock s).2 else none
  | k, .semUnlock s i => if k.Offers idle s then some (k.semUnlock s i) else none
  | k, .resetReady s i => if k.Offers idle s then some (k.resetReady s i) else none
  | k, .resetDestroy s => if k.Offers idle s then some (k.resetDestroy s) else none
  | k, .teardown p i => if p ≠ (k.thread idle).proc then some (k.teardown p i) else none
  | k, .clean => some k.clean

end Kernel

variable {idle : Θ} {k k' : Kernel Θ P S} {q : Place S → List Θ} {t : Θ} {s : S} {i : Trap}

/-- What a call on the semaphore `s` leaves unchanged. -/
structure CallOn (k k' : Kernel Θ P S) (q q' : Place S → List Θ) (s : S) : Prop where
  sems : k'.sems = k.sems
  owner : ∀ s, (k'.semaphore s).owner = (k.semaphore s).owner
  semaphore : ∀ s' ≠ s, k'.semaphore s' = k.semaphore s'
  waiting : ∀ s' ≠ s, q' (.waiting s') = q (.waiting s')

/-- What a step that is no call on a semaphore leaves of all semaphores. -/
structure Beside (k k' : Kernel Θ P S) (q q' : Place S → List Θ) : Prop where
  semaphore : k'.semaphore = k.semaphore
  sems : k'.sems = k.sems
  waiting : ∀ s, q' (.waiting s) = q (.waiting s)

/-- A call that works on the semaphore `s` or deletes it. -/
def Call.Touches (k : Kernel Θ P S) (s : S) : Call Θ P S → Prop
  | .semLock s' _ | .semTryLock s' | .semUnlock s' _ | .resetReady s' _ | .resetDestroy s' => s' = s
  | .teardown p _ => (k.semaphore s).owner = p
  | _ => False

/-- What a call that does not touch an existing semaphore leaves of it. -/
structure Untouched (k k' : Kernel Θ P S) (q q' : Place S → List Θ) (s : S) : Prop where
  mem : s ∈ k'.sems
  semaphore : k'.semaphore s = k.semaphore s
  waiting : q' (.waiting s) = q (.waiting s)

lemma Beside.untouched (h : Beside k k' q q') (hs : s ∈ k.sems) : Untouched k k' q q' s :=
  ⟨by rw [h.sems]; exact hs, congrFun h.semaphore s, h.waiting s⟩

lemma CallOn.untouched {s' : S} (h : CallOn k k' q q' s') (hs : s ∈ k.sems) (hne : ¬ s' = s) :
    Untouched k k' q q' s :=
  ⟨by rw [h.sems]; exact hs, h.semaphore s (Ne.symm hne), h.waiting s (Ne.symm hne)⟩

section Semaphores
variable [DecidableEq S]

lemma CallOn.setSemaphore {d : SemaphoreData P} (ho : d.owner = (k.semaphore s).owner) :
    CallOn k (k.setSemaphore s d) q q s := by
  refine ⟨rfl, fun s' => ?_, fun s' hs => ?_, fun _ _ => rfl⟩
  · by_cases hs : s' = s
    · subst hs
      simpa [Kernel.setSemaphore] using ho
    · simp [Kernel.setSemaphore, hs]
  · simp [Kernel.setSemaphore, hs]

lemma ResetOf.untouched {s' : S} (h : ResetOf k k' q q' s') (hs : s ∈ k.sems) (hne : ¬ s' = s) :
    Untouched k k' q q' s :=
  ⟨by rw [h.sems]; exact (List.mem_erase_of_ne (Ne.symm hne)).mpr hs, congrFun h.semaphore s,
    h.waiting s (Ne.symm hne)⟩

end Semaphores

variable [DecidableEq Θ]

/-- What a step that raises the interrupt `i`, if any, does to the contexts. No thread appears. -/
structure Raised (k k' : Kernel Θ P S) (i : Option Trap) : Prop where
  alive : ∀ t ∈ k'.alive, t ∈ k.alive
  context : match i with
    | none => k'.threadC = k.threadC ∧ k'.context = k.context
    | some i => k'.context = k.context.switch k.threadC i.frame k'.threadC

lemma Raised.refl (k : Kernel Θ P S) : Raised k k none := ⟨fun _ ht => ht, rfl, rfl⟩

lemma Frame.raised {k' : Kernel Θ P S} (h : Frame k k') : Raised k k' none :=
  ⟨fun _ ht => h.alive ▸ ht, h.threadC, h.context⟩

/-- A move of the running thread, and the interrupt that switches away from it. -/
lemma Frame.raised_switch {k₁ k' : Kernel Θ P S} {q q' : Place S → List Θ} (h : Frame k k₁)
    (hs : Switched k₁ k' q q' t) (hc : k'.context = k₁.context.switch k₁.threadC i.frame t) :
    Raised k k' (some i) := by
  refine ⟨fun _ ht => h.alive ▸ hs.alive ▸ ht, ?_⟩
  rw [hc, hs.threadC, h.context, h.threadC]

/-- The threads linked into a list, in order. -/
def Kernel.members (k : Kernel Θ P S) (l : Place S) : List Θ := (k.lists l).nodes k.links

/-- What the lists say about the threads between two steps. -/
structure Partitioned (idle : Θ) (k : Kernel Θ P S) : Prop where
  lists : ∀ l, Represents k.links (k.lists l) (k.members l)
  indexed : ∀ t ∈ k.alive, (k.thread t).state ≠ .semaphoreWait →
    ∀ l, t ∈ k.members l ↔ l = .tList (k.thread t).state
  waits : ∀ t ∈ k.alive, (k.thread t).state = .semaphoreWait →
    ∃ s ∈ k.sems, ∀ l, t ∈ k.members l ↔ l = .waiting s
  alive : ∀ l, ∀ t ∈ k.members l, t ∈ k.alive
  running : k.members (.tList .running) = [k.threadC] ∧ (k.thread k.threadC).state = .running
  idle_at : idle = k.threadC ∨ idle ∈ k.members (.tList .ready)
  fifo : Fifo.replay k.log = some (k.members (.tList .ready))
  last : (Fifo.lastDispatched k.log).getD idle = k.threadC
  again : ∀ t l₁ l₂ l₃, k.log = l₁ ++ .dispatch t :: (l₂ ++ .dispatch t :: l₃) → .ready t ∈ l₂

lemma Inv.members_eq (h : Inv idle k q) : k.members = q :=
  funext fun l => (h.placed.family.represents l).nodes_eq

theorem Inv.partitioned (h : Inv idle k q) : Partitioned idle k := by
  have hp := h.placed
  have hm := h.members_eq
  have hal : ∀ l, ∀ t ∈ k.members l, t ∈ k.alive := by
    rw [hm]
    intro l t ht
    cases l with
    | tList st => exact (hp.tList st t ht).1
    | waiting s => exact (hp.waiting s t ht).1
  refine ⟨fun l => hm ▸ hp.family.represents l, fun t ht hst l => ?_, fun t ht hst => ?_, hal,
    ⟨hm ▸ h.running, h.state_threadC⟩, hm ▸ h.idle_at, hm ▸ hp.fifo, h.last,
    fun t l₁ l₂ l₃ hl => Fifo.ready_between (hl ▸ hp.fifo)⟩
  · rw [hm]
    have hmem := hp.placed t ht (by simp) hst
    exact ⟨fun hl => hp.family.disjoint _ _ t hl hmem, fun hl => hl ▸ hmem⟩
  · rw [hm]
    obtain ⟨s, hs⟩ := hp.waits t ht (by simp) hst
    exact ⟨s, (hp.waiting s t hs).2.2.1, fun l =>
      ⟨fun hl => hp.family.disjoint _ _ t hl hs, fun hl => hl ▸ hs⟩⟩

variable [DecidableEq S]

/-- At boot the idle thread runs alone. The state byte of memory that holds no thread is not
`T_SLEEP`. -/
theorem Kernel.boot_inv {p : P} {memory : Kernel Θ P S}
    (hstate : ∀ t, (memory.thread t).state ≠ .sleep) :
    Inv idle (Kernel.boot idle p memory)
      (Function.update (fun _ => []) (.tList .running) [idle]) := by
  set k₀ : Kernel Θ P S := Kernel.construct
    { memory with
      lists := fun _ => {}, threadC := idle, threadPostC := 0, threadPostFlag := false,
      nsecLast := 0, cr3 := p, context := memory.context.save idle Registers.kernelRegs,
      alive := [idle], sems := [], log := [] } idle p with hk₀
  have h₀ : Placed k₀ (fun _ => []) (some idle) := by
    refine ⟨family_empty memory.links, by simp, by simp, fun t ht => ?_, fun t ht hne => ?_,
      fun t ht hne => ?_, fun t ht => ?_, rfl, by simp [hk₀, construct, setThread], by simp [hk₀, construct, setThread]⟩
    · obtain rfl := Option.some.inj ht
      simp [hk₀, construct, setThread]
    · exact absurd (by simpa [hk₀, construct, setThread] using ht : t = idle) fun he => hne (by rw [he])
    · exact absurd (by simpa [hk₀, construct, setThread] using ht : t = idle) fun he => hne (by rw [he])
    · have hne : t ≠ idle := by simpa [hk₀, construct, setThread] using ht
      simpa [hk₀, construct, setThread, hne] using hstate t
  have h₁ := (h₀.setState .running).link .running (by simp) (by decide)
  have heq : Kernel.boot idle p memory =
      (k₀.setState idle .running).link .running idle := by
    rw [Kernel.link, if_neg (by decide)]
    rfl
  refine ⟨heq ▸ h₁, by simp [Kernel.boot, Kernel.append, Kernel.setState, construct, setThread], Or.inl rfl,
    rfl, rfl, rfl⟩

/-- A new thread is ready. -/
theorem Inv.create (h : Inv idle k q) (ht : t ∉ k.alive) (p : P) (n : NewThread) :
    Inv idle (k.create t p n)
      (Function.update q (.tList .ready) (q (.tList .ready) ++ [t])) := by
  have hp := h.placed
  have hno : ∀ l, t ∉ q l := by
    intro l hl
    cases l with
    | tList st => exact ht (hp.tList st t hl).1
    | waiting s => exact ht (hp.waiting s t hl).1
  set k₁ : Kernel Θ P S :=
    { k.construct t p with
      context := k.context.create t n
      alive := k.alive ++ [t] } with hk₁
  have hth : ∀ t' ≠ t, k₁.thread t' = k.thread t' := by
    intro t' hne
    simp [hk₁, Kernel.construct, Kernel.setThread, hne]
  have hq : ∀ l, ∀ t' ∈ q l, t' ≠ t := fun l t' ht' he => hno l (he ▸ ht')
  have h1 : Placed k₁ q (some t) := by
    refine ⟨hp.family, fun st t' ht' => ?_, fun s t' ht' => ?_, fun t' ht' => ?_,
      fun t' ha hne => ?_, fun t' ha hne => ?_, fun t' ha => ?_, hp.fifo, ?_, hp.sems_nodup⟩
    · obtain ⟨h1, h2, h3⟩ := hp.tList st t' ht'
      rw [hth t' (hq _ t' ht')]
      exact ⟨List.mem_append_left _ h1, h2, h3⟩
    · obtain ⟨h1, h2⟩ := hp.waiting s t' ht'
      rw [hth t' (hq _ t' ht')]
      exact ⟨List.mem_append_left _ h1, h2⟩
    · obtain rfl := Option.some.inj ht'
      exact ⟨by simp [hk₁], hno⟩
    · have hne' : t' ≠ t := fun he => hne (by rw [he])
      rw [hth t' hne']
      exact hp.placed t' (by simpa [hk₁, hne'] using ha) (by simp)
    · have hne' : t' ≠ t := fun he => hne (by rw [he])
      rw [hth t' hne']
      exact hp.waits t' (by simpa [hk₁, hne'] using ha) (by simp)
    · have ha' : t' ∉ k.alive ∧ t' ≠ t := by simpa [hk₁] using ha
      rw [hth t' ha'.2]
      exact hp.dead t' ha'.1
    · exact List.nodup_append.mpr ⟨hp.nodup, List.nodup_singleton t, by
        rintro a ha b hb rfl
        rw [List.mem_singleton.mp hb] at ha
        exact ht ha⟩
  have h2 := (h1.setState .ready).link .ready (by simp) (by decide)
  refine ⟨h2, by simp [h.running]; rfl, ?_, h.postC, h.postFlag, ?_⟩
  · refine h.idle_at.imp_right fun hi => ?_
    simp [hi]
  · exact (congrArg (·.getD idle) Fifo.lastDispatched_ready).trans h.last

/-- The cleaner takes the first destroyed thread. -/
theorem Inv.clean (h : Inv idle k q) :
    ∃ q', Inv idle k.clean q' ∧ k.clean.semaphore = k.semaphore ∧ k.clean.sems = k.sems ∧
      Raised k k.clean none ∧ ∀ s, q' (.waiting s) = q (.waiting s) := by
  have hp := h.placed
  rcases hq : q (.tList .destroy) with _ | ⟨t, ts⟩
  · have hnil : k.popStart (.tList .destroy) = (none, k) := by
      have hr := hp.family.represents (.tList .destroy)
      rw [hq] at hr
      rw [Kernel.popStart, popStart_nil hr]
      simp
    rw [Kernel.clean, hnil]
    exact ⟨q, h, rfl, rfl, Raised.refl k, fun _ => rfl⟩
  · obtain ⟨hpop, h1⟩ := hp.popStart hq k.log
      (by rw [Function.update_of_ne (by simp)]; exact hp.fifo)
    have hpop' : k.popStart (.tList .destroy) = (some t, (k.popStart (.tList .destroy)).2) :=
      Prod.ext hpop rfl
    have hstate : (k.thread t).state = .destroy := (hp.tList .destroy t (by simp [hq])).2.1
    set q' := Function.update q (.tList .destroy) ts with hq'
    have hno := (h1.absent t rfl).2
    have hal : ∀ t' ∈ k.alive.erase t, t' ∈ k.alive ∧ some t ≠ some t' := by
      intro t' ht'
      obtain ⟨hne, ht'⟩ := hp.nodup.mem_erase_iff.mp ht'
      exact ⟨ht', fun he => hne (Option.some.inj he).symm⟩
    rw [Kernel.clean, hpop']
    refine ⟨q', ⟨⟨h1.family, fun st t' ht' => ?_, fun s t' ht' => ?_, by simp,
      fun t' ha _ => h1.placed t' (hal t' ha).1 (hal t' ha).2,
      fun t' ha _ => h1.waits t' (hal t' ha).1 (hal t' ha).2, fun t' ha => ?_, h1.fifo,
      hp.nodup.erase t, hp.sems_nodup⟩, ?_, ?_, h.postC, h.postFlag, h.last⟩, rfl, rfl,
      ⟨fun t' ht' => (hal t' ht').1, rfl, rfl⟩, fun s => ?_⟩
    · obtain ⟨ha, hs⟩ := h1.tList st t' ht'
      exact ⟨hp.nodup.mem_erase_iff.mpr ⟨fun he => hno _ (he ▸ ht'), ha⟩, hs⟩
    · obtain ⟨ha, hs⟩ := h1.waiting s t' ht'
      exact ⟨hp.nodup.mem_erase_iff.mpr ⟨fun he => hno _ (he ▸ ht'), ha⟩, hs⟩
    · by_cases hne : t' = t
      · subst hne
        change (k.thread t').state ≠ .sleep
        rw [hstate]
        decide
      · exact hp.dead t' fun ha' => ha (hp.nodup.mem_erase_iff.mpr ⟨hne, ha'⟩)
    · rw [hq', Function.update_of_ne (by simp)]
      exact h.running
    · rw [hq', Function.update_of_ne (by simp)]
      exact h.idle_at
    · rw [hq', Function.update_of_ne (by simp)]

/-- A new semaphore has no waiting threads. -/
theorem Inv.createSemaphore (h : Inv idle k q) (hs : s ∉ k.sems) (n : ℕ) (p : P) :
    Inv idle (k.createSemaphore s n p) q := by
  have hp := h.placed
  have hnil : q (.waiting s) = [] := by
    by_contra hne
    obtain ⟨t, ht⟩ := List.exists_mem_of_ne_nil _ hne
    exact hs (hp.waiting s t ht).2.2.1
  refine ⟨⟨⟨fun l => ?_, hp.family.disjoint⟩, hp.tList, fun s' t ht => ?_, hp.absent, hp.placed,
    hp.waits, hp.dead, hp.fifo, hp.nodup, ?_⟩, h.running, h.idle_at, h.postC, h.postFlag, h.last⟩
  · by_cases hl : l = .waiting s
    · subst hl
      simp [Kernel.createSemaphore, hnil]
    · simpa [Kernel.createSemaphore, hl, Kernel.setSemaphore] using hp.family.represents l
  · have hne : s' ≠ s := by
      rintro rfl
      simp [hnil] at ht
    obtain ⟨h1, h2, h3, h4⟩ := hp.waiting s' t ht
    refine ⟨h1, h2, List.mem_append_left _ h3, ?_⟩
    simpa [Kernel.createSemaphore, hne, Kernel.setSemaphore] using h4
  · exact List.nodup_append.mpr ⟨hp.sems_nodup, List.nodup_singleton s, by
      rintro a ha b hb rfl
      rw [List.mem_singleton.mp hb] at ha
      exact hs ha⟩

/-- The counters of a semaphore are not read by the scheduler. -/
theorem Inv.setSemaphore (h : Inv idle k q) {d : SemaphoreData P}
    (ho : d.owner = (k.semaphore s).owner) : Inv idle (k.setSemaphore s d) q := by
  refine ⟨h.placed.congr rfl rfl rfl rfl (fun s' => ?_) rfl (fun _ => rfl) (fun _ => rfl),
    h.running, h.idle_at, h.postC, h.postFlag, h.last⟩
  by_cases hs : s' = s
  · subst hs
    simpa [Kernel.setSemaphore] using ho
  · simp [Kernel.setSemaphore, hs]

lemma Raised.setSemaphore (k : Kernel Θ P S) (s : S) (d : SemaphoreData P) :
    Raised k (k.setSemaphore s d) none := ⟨fun _ ht => ht, rfl, rfl⟩

lemma Inv.semTryLock (h : Inv idle k q) (s : S) :
    Inv idle (k.semTryLock s).2 q ∧ CallOn k (k.semTryLock s).2 q q s ∧
      Raised k (k.semTryLock s).2 none := by
  rw [Kernel.semTryLock]
  split_ifs
  · exact ⟨h.setSemaphore rfl, CallOn.setSemaphore rfl, Raised.setSemaphore k s _⟩
  · exact ⟨h, ⟨rfl, fun _ => rfl, fun _ _ => rfl, fun _ _ => rfl⟩, Raised.refl k⟩

/-- Resetting a list of semaphores deletes these and leaves the others alone. -/
lemma Inv.resetAll (ss : List S) (h : Inv idle k q) :
    ∃ q', Inv idle (ss.foldl (fun k s => k.resetDestroy s) k) q' ∧
      (ss.foldl (fun k s => k.resetDestroy s) k).threadC = k.threadC ∧
      (ss.foldl (fun k s => k.resetDestroy s) k).context = k.context ∧
      (ss.foldl (fun k s => k.resetDestroy s) k).semaphore = k.semaphore ∧
      (ss.foldl (fun k s => k.resetDestroy s) k).alive = k.alive ∧
      (∀ s, s ∈ (ss.foldl (fun k s => k.resetDestroy s) k).sems ↔ s ∈ k.sems ∧ s ∉ ss) ∧
      (∀ t, ((ss.foldl (fun k s => k.resetDestroy s) k).thread t).proc = (k.thread t).proc) ∧
      ∀ s, s ∉ ss → q' (.waiting s) = q (.waiting s) := by
  induction ss generalizing k q with
  | nil => exact ⟨q, h, rfl, rfl, rfl, rfl, by simp, fun _ => rfl, fun _ _ => rfl⟩
  | cons s ss ih =>
    obtain ⟨q₁, h₁, hr⟩ := h.resetDestroy s
    obtain ⟨q', h', hc, hctx, hsem, hal, hsems, hproc, hw⟩ := ih h₁
    refine ⟨q', h', hc.trans hr.threadC, hctx.trans hr.context, hsem.trans hr.semaphore,
      hal.trans hr.alive, fun s' => ?_, fun t => (hproc t).trans (hr.proc t), fun s' hs' => ?_⟩
    · rw [List.foldl_cons, hsems s', hr.sems, h.placed.sems_nodup.mem_erase_iff]
      simp only [List.mem_cons]
      tauto
    · rw [List.mem_cons, not_or] at hs'
      rw [hw s' hs'.2, hr.waiting s' hs'.1]

variable [DecidableEq P]

/-- A thread that finds no permit waits last, and another thread runs. -/
theorem Inv.semLock_wait (h : Inv idle k q) (ho : k.Offers idle s)
    (hfull : ¬ (k.semaphore s).thrC < (k.semaphore s).maxThrC) (i : Trap) :
    ∃ q', Inv idle (k.semLock s i) q' ∧ CallOn k (k.semLock s i) q q' s ∧
      (k.semLock s i).semaphore = k.semaphore ∧ Raised k (k.semLock s i) (some i) ∧
      q' (.waiting s) = q (.waiting s) ++ [k.threadC] := by
  obtain ⟨q₁, hb, hf, hw, -, hoth⟩ := h.wait_self ho.1 ho.2.1 ho.2.2
  obtain ⟨t, q', hsw, h', hctx⟩ := hb.intSched i
  have heq : k.semLock s i = ((k.moveTo k.threadC .semaphoreWait).append (.waiting s)
      k.threadC).intSched i := by
    have hc : (k.moveTo k.threadC .semaphoreWait).threadC = k.threadC := hf.threadC
    rw [Kernel.semLock]
    dsimp only
    rw [if_neg hfull, hc]
  rw [heq]
  have hsem := hsw.semaphore.trans hf.semaphore
  refine ⟨q', h', ⟨hsw.sems.trans hf.sems, fun s' => by rw [hsem], fun s' _ => by rw [hsem],
    fun s' hs' => ?_⟩, hsem, hf.raised_switch hsw hctx, ?_⟩
  · rw [hsw.others _ (by simp) (by simp), hoth _ (by simpa using hs') (by simp)]
  · rw [hsw.others _ (by simp) (by simp), hw]

/-- Unlocking with a waiting thread makes the first of them ready. -/
theorem Inv.semUnlock_wake {ts : List Θ} (h : Inv idle k q) (ho : k.Offers idle s)
    (hq : q (.waiting s) = t :: ts) (i : Trap) :
    Inv idle (k.semUnlock s i) (released q s .ready t ts) ∧
      CallOn k (k.semUnlock s i) q (released q s .ready t ts) s ∧
      Frame k (k.semUnlock s i) := by
  obtain ⟨hpop, h', hf⟩ := h.release hq .ready (by decide) (by decide)
  have hlen : k.len (.waiting s) ≠ 0 := by
    rw [h.placed.len_eq, hq]
    simp
  have hpop' : k.popStart (.waiting s) = (some t, (k.popStart (.waiting s)).2) :=
    Prod.ext hpop rfl
  have heq : k.semUnlock s i = (k.popStart (.waiting s)).2.moveTo t .ready := by
    rw [Kernel.semUnlock, if_pos hlen, hpop']
    exact h.unblock_waiting ho.1 hq i
  rw [heq]
  refine ⟨h', ⟨hf.sems, fun s' => by rw [hf.semaphore], fun s' _ => by rw [hf.semaphore],
    fun s' hs' => ?_⟩, hf⟩
  exact released_of_ne q (by simpa using hs') (by simp)

/-- Without waiting threads unlocking only touches the counter. -/
lemma Inv.semUnlock_nil (h : Inv idle k q) (hq : q (.waiting s) = []) (i : Trap) :
    k.semUnlock s i = if (k.semaphore s).thrC ≠ 0 then
      k.setSemaphore s { k.semaphore s with thrC := (k.semaphore s).thrC - 1 } else k := by
  have hlen : ¬ k.len (.waiting s) ≠ 0 := by
    rw [h.placed.len_eq, hq]
    simp
  rw [Kernel.semUnlock, if_neg hlen]

lemma Inv.semLock (h : Inv idle k q) (ho : k.Offers idle s) (i : Trap) :
    ∃ q', Inv idle (k.semLock s i) q' ∧ CallOn k (k.semLock s i) q q' s ∧
      Raised k (k.semLock s i)
        (if (k.semaphore s).thrC < (k.semaphore s).maxThrC then none else some i) := by
  by_cases hlt : (k.semaphore s).thrC < (k.semaphore s).maxThrC
  · rw [if_pos hlt, Kernel.semLock]
    dsimp only
    rw [if_pos hlt]
    exact ⟨q, h.setSemaphore rfl, CallOn.setSemaphore rfl, Raised.setSemaphore k s _⟩
  · rw [if_neg hlt]
    obtain ⟨q', h', hc, -, hr, -⟩ := h.semLock_wait ho hlt i
    exact ⟨q', h', hc, hr⟩

lemma Inv.semUnlock (h : Inv idle k q) (ho : k.Offers idle s) (i : Trap) :
    ∃ q', Inv idle (k.semUnlock s i) q' ∧ CallOn k (k.semUnlock s i) q q' s ∧
      Raised k (k.semUnlock s i) none := by
  rcases hq : q (.waiting s) with _ | ⟨t, ts⟩
  · rw [h.semUnlock_nil hq]
    split_ifs
    · exact ⟨q, h.setSemaphore rfl, CallOn.setSemaphore rfl, Raised.setSemaphore k s _⟩
    · exact ⟨q, h, ⟨rfl, fun _ => rfl, fun _ _ => rfl, fun _ _ => rfl⟩, Raised.refl k⟩
  · obtain ⟨h', hc, hf⟩ := h.semUnlock_wake ho hq i
    exact ⟨_, h', hc, hf.raised⟩

/-- A time slice: the running thread goes to the end of the ready list, if any other is ready. -/
theorem Inv.schedule (h : Inv idle k q) (now : UInt64) :
    ∃ q', Inv idle (k.schedule now).2 q' ∧ Beside k (k.schedule now).2 q q' := by
  by_cases hr : q (.tList .ready) = []
  · rw [h.placed.schedule_nil h.postC hr]
    exact ⟨q, h, rfl, rfl, fun _ => rfl⟩
  · obtain ⟨t, q', -, hs, -⟩ := h.placed.schedule h.postC (h.running.trans h.preempted.symm) hr now
    exact ⟨q', h.switched_inv hs, hs.semaphore, hs.sems, fun s => hs.others _ (by simp) (by simp)⟩

theorem Inv.block (h : Inv idle k q) (hne : k.threadC ≠ idle) (st : TState) (hst : st ≠ .running)
    (hst' : st ≠ .semaphoreWait) (i : Trap) :
    ∃ q', Inv idle (k.block k.threadC st i) q' ∧ Beside k (k.block k.threadC st i) q q' ∧
      Raised k (k.block k.threadC st i) (some i) := by
  have hb := h.block_self hne hst hst'
  have hrun := h.state_threadC
  obtain ⟨-, hf, -⟩ := h.placed.moveTo (t := k.threadC) st
    (by rw [hrun, h.running]; simp) (by rw [hrun]; exact Ne.symm hst) hst'
  obtain ⟨t, q', hs, h', hctx⟩ := hb.intSched i
  have heq : k.block k.threadC st i = (k.moveTo k.threadC st).intSched i := by
    rw [Kernel.block, if_pos hf.threadC.symm]
  rw [heq]
  refine ⟨q', h', ⟨hs.semaphore.trans hf.semaphore, hs.sems.trans hf.sems, fun s => ?_⟩,
    hf.raised_switch hs hctx⟩
  rw [hs.others _ (by simp) (by simp), Placed.moved_of_ne q _ (by simp) (by simp)]

theorem Inv.nsleepUntil (h : Inv idle k q) (hne : k.threadC ≠ idle) (time now : UInt64)
    (i : Trap) :
    ∃ q', Inv idle (k.nsleepUntil k.threadC time now i) q' ∧
      Beside k (k.nsleepUntil k.threadC time now i) q q' ∧
      Raised k (k.nsleepUntil k.threadC time now i) (if time ≤ now then none else some i) := by
  rw [Kernel.nsleepUntil]
  split_ifs
  · exact ⟨q, h, ⟨rfl, rfl, fun _ => rfl⟩, Raised.refl k⟩
  · set k₁ := k.setThread k.threadC { k.thread k.threadC with sleepTime := time } with hk₁
    have hth : ∀ t, (k₁.thread t).state = (k.thread t).state ∧
        (k₁.thread t).proc = (k.thread t).proc := by
      intro t
      by_cases ht : t = k.threadC
      · subst ht
        simp [hk₁, Kernel.setThread]
      · simp [hk₁, Kernel.setThread, ht]
    have h₁ : Inv idle k₁ q :=
      ⟨h.placed.congr rfl rfl rfl rfl (fun _ => rfl) rfl (fun t => (hth t).1) (fun t => (hth t).2),
        h.running, h.idle_at, h.postC, h.postFlag, h.last⟩
    obtain ⟨q', h', hb, hr⟩ := h₁.block hne .sleep (by decide) (by decide) i
    exact ⟨q', h', ⟨hb.semaphore, hb.sems, hb.waiting⟩, hr.alive, hr.context⟩

section Teardown
variable {p : P}

/-- Destroying threads of a process without semaphores. None of them waits, and none of them is the
idle thread. -/
lemma Inv.destroyAll (ts : List Θ) (h : Inv idle k q) (hidle : (k.thread idle).proc ≠ p)
    (hsems : ∀ s ∈ k.sems, (k.semaphore s).owner ≠ p)
    (hts : ∀ t ∈ ts, t ∈ k.alive ∧ (k.thread t).proc = p) (i : Trap) :
    ∃ q', Inv idle (ts.foldl (fun k t => if t ≠ k.threadC then k.block t .destroy i else k) k) q' ∧
      Frame k (ts.foldl (fun k t => if t ≠ k.threadC then k.block t .destroy i else k) k) ∧
      ∀ s, q' (.waiting s) = q (.waiting s) := by
  induction ts generalizing k q with
  | nil => exact ⟨q, h, Frame.refl k, fun _ => rfl⟩
  | cons t ts ih =>
    obtain ⟨hal, hproc⟩ := hts t List.mem_cons_self
    have hstep : ∃ q₁, Inv idle (if t ≠ k.threadC then k.block t .destroy i else k) q₁ ∧
        Frame k (if t ≠ k.threadC then k.block t .destroy i else k) ∧
        ∀ s, q₁ (.waiting s) = q (.waiting s) := by
      by_cases ht : t = k.threadC
      · rw [if_neg (not_not.mpr ht)]
        exact ⟨q, h, Frame.refl k, fun _ => rfl⟩
      rw [if_pos ht]
      by_cases hd : (k.thread t).state = .destroy
      · have heq : k.block t .destroy i = k := by
          rw [Kernel.block, Kernel.moveTo_self k _ t hd]
          simp [ht]
        rw [heq]
        exact ⟨q, h, Frame.refl k, fun _ => rfl⟩
      have hw : (k.thread t).state ≠ .semaphoreWait := by
        intro hw
        obtain ⟨s, hs⟩ := h.placed.waits t hal (by simp) hw
        obtain ⟨-, -, h3, h4⟩ := h.placed.waiting s t hs
        exact hsems s h3 (h4.trans hproc)
      have hr : (k.thread t).state ≠ .running := by
        intro hr
        have := h.placed.placed t hal (by simp) hw
        rw [hr, h.running] at this
        exact ht (by simpa using this)
      have hti : idle ≠ t := by
        rintro rfl
        exact hidle hproc
      obtain ⟨hp, hf, -⟩ := h.placed.moveTo .destroy (h.placed.placed t hal (by simp) hw) hd
        (by decide)
      have heq : k.block t .destroy i = k.moveTo t .destroy := by
        rw [Kernel.block, if_neg (by rw [hf.threadC]; exact ht)]
      rw [heq]
      refine ⟨_, h.of_frame hp hf ?_ fun hi => ?_, hf, fun s => ?_⟩
      · exact Placed.moved_of_ne q _ (by simpa using Ne.symm hr) (by simp)
      · by_cases hready : (k.thread t).state = .ready
        · rw [hready, Placed.moved_from q (by decide)]
          exact (List.mem_erase_of_ne hti).mpr hi
        · rwa [Placed.moved_of_ne q _ (by simpa using Ne.symm hready) (by simp)]
      · exact Placed.moved_of_ne q _ (by simp) (by simp)
    obtain ⟨q₁, h₁, hf, hq₁⟩ := hstep
    obtain ⟨q', h', hf', hq'⟩ := ih h₁ (by rw [hf.proc]; exact hidle)
      (by rw [hf.sems, hf.semaphore]; exact hsems)
      (fun t' ht' => by
        rw [hf.alive, hf.proc]
        exact hts t' (List.mem_cons_of_mem _ ht'))
    exact ⟨q', h', hf.trans hf', fun s => (hq' s).trans (hq₁ s)⟩

theorem Inv.teardown (h : Inv idle k q) (hp : p ≠ (k.thread idle).proc) (i : Trap) :
    ∃ q', Inv idle (k.teardown p i) q' ∧ (k.teardown p i).semaphore = k.semaphore ∧
      (∀ s, s ∈ (k.teardown p i).sems ↔ s ∈ k.sems ∧ (k.semaphore s).owner ≠ p) ∧
      Raised k (k.teardown p i) (if p = k.procC then some i else none) ∧
      ∀ s, (k.semaphore s).owner ≠ p → q' (.waiting s) = q (.waiting s) := by
  set ss := k.sems.filter fun s => (k.semaphore s).owner = p with hss
  obtain ⟨q₁, h₁, hc₁, hctx₁, hsem₁, hal₁, hsems₁, hproc₁, hw₁⟩ := h.resetAll ss
  set k₁ := ss.foldl (fun k s => k.resetDestroy s) k with hk₁
  set ts := k₁.alive.filter fun t => (k₁.thread t).proc = p with hts
  have hnot : ∀ s, (k.semaphore s).owner ≠ p → s ∉ ss := by
    intro s hs hmem
    rw [hss, List.mem_filter] at hmem
    exact hs (by simpa using hmem.2)
  have hmem₁ : ∀ s, s ∈ k₁.sems ↔ s ∈ k.sems ∧ (k.semaphore s).owner ≠ p := by
    intro s
    rw [hsems₁, hss, List.mem_filter]
    simp only [decide_eq_true_eq]
    tauto
  obtain ⟨q₂, h₂, hf₂, hw₂⟩ := h₁.destroyAll ts (p := p) (by rw [hproc₁]; exact Ne.symm hp)
    (fun s hs => by rw [hsem₁]; exact ((hmem₁ s).mp hs).2)
    (fun t ht => by simpa [hts] using ht) i
  set k₂ := ts.foldl (fun k t => if t ≠ k.threadC then k.block t .destroy i else k) k₁ with hk₂
  have heq : k.teardown p i = if p = k₂.procC then k₂.block k₂.threadC .destroy i else k₂ := rfl
  have hw : ∀ s, (k.semaphore s).owner ≠ p → q₂ (.waiting s) = q (.waiting s) := fun s hs =>
    (hw₂ s).trans (hw₁ s (hnot s hs))
  have hsem : k₂.semaphore = k.semaphore := hf₂.semaphore.trans hsem₁
  have hsems : ∀ s, s ∈ k₂.sems ↔ s ∈ k.sems ∧ (k.semaphore s).owner ≠ p := by
    intro s
    rw [hf₂.sems]
    exact hmem₁ s
  have hpc₂ : k₂.procC = k.procC := by
    rw [Kernel.procC, Kernel.procC, hf₂.threadC, hc₁, hf₂.proc, hproc₁]
  have hal₂ : k₂.alive = k.alive := hf₂.alive.trans hal₁
  have hc₂ : k₂.threadC = k.threadC := hf₂.threadC.trans hc₁
  have hctx₂ : k₂.context = k.context := hf₂.context.trans hctx₁
  rw [heq, ← hpc₂]
  split_ifs with hpc
  · have hne : k₂.threadC ≠ idle := by
      intro he
      rw [Kernel.procC, he, hf₂.proc, hproc₁] at hpc
      exact hp hpc
    obtain ⟨q', h', hb, hr⟩ := h₂.block hne .destroy (by decide) (by decide) i
    refine ⟨q', h', hb.semaphore.trans hsem, fun s => ?_, ⟨fun t ht => hal₂ ▸ hr.alive t ht, ?_⟩,
      fun s hs => ?_⟩
    · rw [hb.sems]
      exact hsems s
    · rw [← hc₂, ← hctx₂]
      exact hr.context
    · rw [hb.waiting s, hw s hs]
  · exact ⟨q₂, h₂, hsem, hsems, ⟨fun t ht => hal₂ ▸ ht, hc₂, hctx₂⟩, hw⟩

end Teardown

/-- A call of a thread that works on threads there are. -/
def Call.IsPlain : Call Θ P S → Prop
  | .create _ _ _ | .schedule _ | .tick _ _ _ => False
  | _ => True

/-- The interrupt that a call raises to give way to another thread. -/
def Call.raises (k : Kernel Θ P S) : Call Θ P S → Option Trap
  | .block _ i => some i
  | .nsleepUntil time now i => if time ≤ now then none else some i
  | .semLock s i => if (k.semaphore s).thrC < (k.semaphore s).maxThrC then none else some i
  | .teardown p i => if p = k.procC then some i else none
  | _ => none

/-- Every step keeps the invariant, and the semaphores it does not touch. -/
theorem Inv.step (h : Inv idle k q) {c : Call Θ P S} (hs : k.step idle c = some k') :
    ∃ q', Inv idle k' q' ∧ (∀ s ∈ k.sems, ¬ c.Touches k s → Untouched k k' q q' s) ∧
      (c.IsPlain → Raised k k' (c.raises k)) := by
  cases c with
  | create t p n =>
    obtain ⟨ht, hs⟩ := Option.ite_none_right_eq_some.mp hs
    obtain rfl := Option.some.inj hs
    exact ⟨_, h.create ht p n, fun s hs _ => ⟨hs, rfl, by simp⟩, False.elim⟩
  | schedule now =>
    obtain rfl := Option.some.inj hs
    obtain ⟨q', h', hb⟩ := h.schedule now
    exact ⟨q', h', fun s hs _ => hb.untouched hs, False.elim⟩
  | block st i =>
    obtain ⟨⟨hne, hst, hst'⟩, hs⟩ := Option.ite_none_right_eq_some.mp hs
    obtain rfl := Option.some.inj hs
    obtain ⟨q', h', hb, hr⟩ := h.block hne _ hst hst' i
    exact ⟨q', h', fun s hs _ => hb.untouched hs, fun _ => hr⟩
  | nsleepUntil time now i =>
    obtain ⟨hne, hs⟩ := Option.ite_none_right_eq_some.mp hs
    obtain rfl := Option.some.inj hs
    obtain ⟨q', h', hb, hr⟩ := h.nsleepUntil hne time now i
    exact ⟨q', h', fun s hs _ => hb.untouched hs, fun _ => hr⟩
  | tick regs nsec i =>
    obtain ⟨q', h', hwk, hw⟩ := h.wakeSleepers hs
    exact ⟨q', h', fun s hs _ => ⟨by rw [hwk.sems]; exact hs, congrFun hwk.semaphore s, hw s⟩,
      False.elim⟩
  | createSemaphore s n =>
    obtain ⟨hnew, hs⟩ := Option.ite_none_right_eq_some.mp hs
    obtain rfl := Option.some.inj hs
    refine ⟨q, h.createSemaphore hnew n _, fun s' hs' _ => ⟨List.mem_append_left _ hs', ?_, rfl⟩,
      fun _ => ⟨fun _ ht => ht, rfl, rfl⟩⟩
    have hne : s' ≠ s := fun he => hnew (he ▸ hs')
    simp [Kernel.createSemaphore, Kernel.setSemaphore, hne]
  | semLock s i =>
    obtain ⟨ho, hs⟩ := Option.ite_none_right_eq_some.mp hs
    obtain rfl := Option.some.inj hs
    obtain ⟨q', h', hc, hr⟩ := h.semLock ho i
    exact ⟨q', h', fun s' hs' hne => hc.untouched hs' hne, fun _ => hr⟩
  | semTryLock s =>
    obtain ⟨ho, hs⟩ := Option.ite_none_right_eq_some.mp hs
    obtain rfl := Option.some.inj hs
    obtain ⟨h', hc, hr⟩ := h.semTryLock s
    exact ⟨q, h', fun s' hs' hne => hc.untouched hs' hne, fun _ => hr⟩
  | semUnlock s i =>
    obtain ⟨ho, hs⟩ := Option.ite_none_right_eq_some.mp hs
    obtain rfl := Option.some.inj hs
    obtain ⟨q', h', hc, hr⟩ := h.semUnlock ho i
    exact ⟨q', h', fun s' hs' hne => hc.untouched hs' hne, fun _ => hr⟩
  | resetReady s i =>
    obtain ⟨ho, hs⟩ := Option.ite_none_right_eq_some.mp hs
    obtain rfl := Option.some.inj hs
    obtain ⟨q', h', hr⟩ := h.resetReady ho.1 s i
    exact ⟨q', h', fun s' hs' hne => hr.untouched hs' hne, fun _ =>
      ⟨fun t ht => hr.alive ▸ ht, hr.threadC, hr.context⟩⟩
  | resetDestroy s =>
    obtain ⟨ho, hs⟩ := Option.ite_none_right_eq_some.mp hs
    obtain rfl := Option.some.inj hs
    obtain ⟨q', h', hr⟩ := h.resetDestroy s
    exact ⟨q', h', fun s' hs' hne => hr.untouched hs' hne, fun _ =>
      ⟨fun t ht => hr.alive ▸ ht, hr.threadC, hr.context⟩⟩
  | teardown p i =>
    obtain ⟨hp, hs⟩ := Option.ite_none_right_eq_some.mp hs
    obtain rfl := Option.some.inj hs
    obtain ⟨q', h', hsem, hsems, hr, hw⟩ := h.teardown hp i
    exact ⟨q', h', fun s hs hne => ⟨(hsems s).mpr ⟨hs, hne⟩, congrFun hsem s, hw s hne⟩,
      fun _ => hr⟩
  | clean =>
    obtain rfl := Option.some.inj hs
    obtain ⟨q', h', hsem, hsems, hr, hw⟩ := h.clean
    exact ⟨q', h', fun s hs _ => ⟨by rw [hsems]; exact hs, congrFun hsem s, hw s⟩, fun _ => hr⟩

/-- Whatever the running thread blocks in, `schedule` finds a thread to switch to. -/
def Kernel.SwitchesOnBlock (idle : Θ) (k : Kernel Θ P S) : Prop :=
  k.threadC ≠ idle → ∀ now,
    (∀ st, st ≠ .running → st ≠ .semaphoreWait →
      ((k.moveTo k.threadC st).schedule now).1 ≠ none) ∧
    ∀ s, k.Offers idle s →
      (((k.moveTo k.threadC .semaphoreWait).append (.waiting s) k.threadC).schedule now).1 ≠ none

theorem Inv.switchesOnBlock (h : Inv idle k q) : k.SwitchesOnBlock idle := by
  intro hne now
  refine ⟨fun st hst hst' => ?_, fun s ho => ?_⟩
  · exact (h.block_self hne hst hst').schedule now
  · obtain ⟨q', hb, -⟩ := h.wait_self hne ho.2.1 ho.2.2
    exact hb.schedule now

/-- In every state of every run each live thread is in the one list that its state names, `thread_c`
runs alone, and the threads were dispatched in the order in which they became ready. -/
theorem partitioned_of_run {p : P} {memory : Kernel Θ P S}
    (hstate : ∀ t, (memory.thread t).state ≠ .sleep) {cs : List (Call Θ P S)}
    (hr : Machine.run (Kernel.step idle) (Kernel.boot idle p memory) cs = some k) :
    Partitioned idle k ∧ k.SwitchesOnBlock idle := by
  have hI := Machine.run_invariant (I := fun k => ∃ q, Inv idle k q)
    (fun k c k' ⟨q, h⟩ hs => (h.step hs).imp fun _ h => h.1) ⟨_, Kernel.boot_inv hstate⟩ hr
  obtain ⟨q, h⟩ := hI
  exact ⟨h.partitioned, h.switchesOnBlock⟩

def zeroedMemory : Kernel ℕ ℕ ℕ where
  links := fun _ => ⟨none, none⟩
  lists := fun _ => {}
  thread := fun _ => ⟨.running, 0, 0, 0⟩
  threadC := 0
  threadPostC := 0
  threadPostFlag := false
  nsecLast := 0
  cr3 := 0
  context := ⟨fun _ => Registers.kernelRegs, 0, 0, 0, fun _ => Registers.kernelRegs⟩
  semaphore := fun _ => ⟨0, 0, 0⟩
  alive := []
  sems := []
  log := []

/-- The kernel at boot over zeroed memory; thread 0 is the idle thread of process 0. -/
def zeroedBoot : Kernel ℕ ℕ ℕ := Kernel.boot 0 0 zeroedMemory

lemma zeroedMemory_state (t : ℕ) : (zeroedMemory.thread t).state ≠ .sleep :=
  show TState.running ≠ .sleep by decide

/-- `INT_SCHED` at a time, with a kernel stack pointer. -/
def trapAt (now rsp : UInt64) : Trap where
  frame := { Registers.kernelRegs with rsp := rsp }
  now := now
  kernel := kernelRegs_not_isUser

/-- A user thread with its kernel stack. -/
def userThread (kstack : UInt64) : NewThread := ⟨2, 0x400000, 0x700000, 0x40000, kstack⟩

/-- Two threads of process 1 share a semaphore of capacity 1; a tick wakes the first one. -/
theorem partitioned_of_run_threads :
    ∃ k, Machine.run (Kernel.step 0) zeroedBoot [.create 1 1 (userThread 0x1000000),
        .create 2 1 (userThread 0x2000000), .schedule 5, .createSemaphore 9 1,
        .semLock 9 (trapAt 6 0), .schedule 7, .semLock 9 (trapAt 8 0), .schedule 9,
        .semUnlock 9 (trapAt 10 0), .nsleepUntil 40 20 (trapAt 20 0), .schedule 30,
        .tick Registers.userRegs 50 ⟨trapAt 51 0, trapAt 52 0⟩] = some k ∧
      Partitioned 0 k ∧ k.SwitchesOnBlock 0 := by
  obtain ⟨k, hk⟩ := Option.isSome_iff_exists.mp (by decide +kernel :
    (Machine.run (Kernel.step 0) zeroedBoot [.create 1 1 (userThread 0x1000000),
      .create 2 1 (userThread 0x2000000), .schedule 5, .createSemaphore 9 1,
      .semLock 9 (trapAt 6 0), .schedule 7, .semLock 9 (trapAt 8 0), .schedule 9,
      .semUnlock 9 (trapAt 10 0), .nsleepUntil 40 20 (trapAt 20 0), .schedule 30,
      .tick Registers.userRegs 50 ⟨trapAt 51 0, trapAt 52 0⟩]).isSome = true)
  exact ⟨k, hk, partitioned_of_run zeroedMemory_state hk⟩

end EpochKernel.Sched
