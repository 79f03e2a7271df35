import EpochKernel.Sched.Turns

/-! The processor is shared fairly. A ready thread runs after as many switches as there were threads
before it in the list, whatever happens in between, and no time is lost or charged twice. -/
namespace EpochKernel.Sched
open EpochKernel.Util EpochKernel.Util.LinkedList EpochKernel.Library

variable {Θ P S : Type*} [DecidableEq Θ]

section Objects
variable {t : Θ} {k : Kernel Θ P S} {c : Call Θ P S}

/-- The call makes the thread `t`. -/
def Call.Creates (t : Θ) : Call Θ P S → Prop
  | .create t' _ _ => t' = t
  | _ => False

/-- The time of the object that the call clears, if it is one of `T`. -/
def Call.dropped (T : Finset Θ) (k : Kernel Θ P S) : Call Θ P S → UInt64
  | .create t _ _ => if t ∈ T then (k.thread t).time else 0
  | _ => 0

lemma Call.cleared_threadC (c : Call Θ P S) (k : Kernel Θ P S) : (c.cleared k).threadC = k.threadC := by
  cases c <;> rfl

lemma Call.cleared_nsecLast (c : Call Θ P S) (k : Kernel Θ P S) :
    (c.cleared k).nsecLast = k.nsecLast := by
  cases c <;> rfl

lemma Call.cleared_log (c : Call Θ P S) (k : Kernel Θ P S) : (c.cleared k).log = k.log := by
  cases c <;> rfl

lemma construct_time (k : Kernel Θ P S) (t : Θ) (p : P) (x : Θ) :
    ((k.construct t p).thread x).time = if x = t then 0 else (k.thread x).time := by
  by_cases hx : x = t
  · subst hx
    simp [Kernel.construct, Kernel.setThread]
  · simp [Kernel.construct, Kernel.setThread, hx]

lemma Call.cleared_time (h : ¬ c.Creates t) : ((c.cleared k).thread t).time = (k.thread t).time := by
  cases c with
  | create x p n => exact (construct_time k x p t).trans (if_neg (Ne.symm h))
  | _ => rfl

/-- What the objects of `T` lose when one of them is cleared. -/
lemma Call.sum_cleared (T : Finset Θ) (k : Kernel Θ P S) (c : Call Θ P S) :
    ∑ t ∈ T, ((c.cleared k).thread t).time + c.dropped T k = ∑ t ∈ T, (k.thread t).time := by
  cases c with
  | create x p n =>
    have hsum : ∑ t ∈ T, ((k.construct x p).thread t).time =
        ∑ t ∈ T.erase x, (k.thread t).time := by
      have hzero : ((k.construct x p).thread x).time = 0 := (construct_time k x p x).trans (if_pos rfl)
      rw [← Finset.sum_erase T hzero]
      exact Finset.sum_congr rfl fun t ht =>
        (construct_time k x p t).trans (if_neg (Finset.ne_of_mem_erase ht))
    change ∑ t ∈ T, ((k.construct x p).thread t).time + (if x ∈ T then (k.thread x).time else 0) = _
    rw [hsum]
    by_cases hx : x ∈ T
    · rw [if_pos hx, Finset.sum_erase_add T _ hx]
    · rw [if_neg hx, Finset.erase_eq_of_notMem hx, add_zero]
  | _ => exact add_zero _

end Objects

variable [DecidableEq P] [DecidableEq S]

/-- The number of steps of a run after which another thread runs. -/
def switches (idle : Θ) : Kernel Θ P S → List (Call Θ P S) → ℕ
  | _, [] => 0
  | k, c :: cs =>
    match k.step idle c with
    | none => 0
    | some k' => (if k'.threadC = k.threadC then 0 else 1) + switches idle k' cs

/-- The time that passes in a run between two switches while `t` runs. -/
def ranFor (idle t : Θ) : Kernel Θ P S → List (Call Θ P S) → UInt64
  | _, [] => 0
  | k, c :: cs =>
    match k.step idle c with
    | none => 0
    | some k' => (if t = k.threadC then k'.nsecLast - k.nsecLast else 0) + ranFor idle t k' cs

/-- The time of the threads of `T` whose objects a run uses again. -/
def dropped (idle : Θ) (T : Finset Θ) : Kernel Θ P S → List (Call Θ P S) → UInt64
  | _, [] => 0
  | k, c :: cs =>
    match k.step idle c with
    | none => 0
    | some k' => c.dropped T k + dropped idle T k' cs

/-- The end of a time slice. -/
def Call.IsSlice : Call Θ P S → Bool
  | .schedule _ => true
  | _ => false

variable {idle t : Θ} {k k' : Kernel Θ P S} {q : Place S → List Θ} {c : Call Θ P S}
  {calls : List (Call Θ P S)} {as bs : List Θ}

section Step

/-- The time of a step goes to the thread that ran. -/
lemma Inv.step_time (h : Inv idle k q) (hs : k.step idle c = some k') (t : Θ) :
    (k'.thread t).time = ((c.cleared k).thread t).time +
      if t = k.threadC then k'.nsecLast - k.nsecLast else 0 := by
  rw [(h.step_turn hs).time, c.cleared_threadC, c.cleared_nsecLast]

/-- The end of a time slice switches whenever another thread is ready. -/
lemma Inv.schedule_switches (h : Inv idle k q) (hr : q (.tList .ready) ≠ []) (now : UInt64) :
    (k.schedule now).2.threadC ≠ k.threadC := by
  obtain ⟨t, q', -, hs, -⟩ :=
    h.placed.schedule h.postC (h.running.trans h.preempted.symm) hr now
  obtain ⟨x, xs, hx⟩ := List.exists_cons_of_ne_nil hr
  have ht : t ∈ q (.tList .ready) := by
    have hready := hs.ready
    rw [hx, List.cons_append] at hready
    rw [hx, ← (List.cons.inj hready).1]
    exact List.mem_cons_self
  rw [hs.threadC]
  rintro rfl
  have hrun : k.threadC ∈ q (.tList .running) := by simp [h.running]
  have hl := h.placed.family.disjoint (.tList .ready) (.tList .running) _ ht hrun
  cases hl

/-- In one step a waiting thread comes at most one place to the front, and it does if the step
switches. -/
lemma Inv.step_waiting (h : Inv idle k q) (hq : q (.tList .ready) = as ++ t :: bs)
    (hs : k.step idle c = some k') (hg : ¬ c.Gone k t) (hne : k'.threadC ≠ t) :
    ∃ q' as' bs', Inv idle k' q' ∧ q' (.tList .ready) = as' ++ t :: bs' ∧ as'.Sublist as ∧
      as'.length + (if k'.threadC = k.threadC then 0 else 1) ≤ as.length := by
  obtain ⟨q', h', -⟩ := h.step hs
  obtain ⟨es, he, hd, hc, hl⟩ := (h.step_turn hs).log
  rw [c.cleared_log] at he
  rw [c.cleared_threadC] at hd
  have hfold := h'.placed.fifo
  rw [he, Fifo.replay_append, h.placed.fifo, hq] at hfold
  obtain ⟨as', bs', hq', hsub, hlen⟩ := Fifo.waiting hfold (fun ht => hne (hc t ht)) fun ht => hg (hl t ht)
  refine ⟨q', as', bs', h', hq', hsub, ?_⟩
  split_ifs with hsame
  · omega
  · have hpos : es.countP Fifo.Event.IsDispatch ≠ 0 := fun hz => hsame (hd hz)
    omega

end Step

section Runs

lemma Inv.run_waiting (h : Inv idle k q) (hq : q (.tList .ready) = as ++ t :: bs)
    (hrun : Machine.run (Kernel.step idle) k calls = some k')
    (hkept : Machine.Along (Kernel.step idle) (fun k c => ¬ c.Gone k t) k calls)
    (hwait : Machine.Throughout (Kernel.step idle) (fun k => k.threadC ≠ t) k calls) :
    ∃ q' as' bs', Inv idle k' q' ∧ q' (.tList .ready) = as' ++ t :: bs' ∧ as'.Sublist as ∧
      as'.length + switches idle k calls ≤ as.length ∧
      calls.countP Call.IsSlice ≤ switches idle k calls := by
  induction calls generalizing k q as bs with
  | nil =>
    obtain rfl : k = k' := Option.some.inj hrun
    exact ⟨q, as, bs, h, hq, .refl as, le_rfl, le_rfl⟩
  | cons c cs ih =>
    obtain ⟨k₁, h1, hrest⟩ := Option.bind_eq_some_iff.mp hrun
    have hwait₁ := (Machine.throughout_cons.mp hwait).2 k₁ h1
    obtain ⟨q₁, as₁, bs₁, hinv₁, hq₁, hsub₁, hlen₁⟩ :=
      h.step_waiting hq h1 hkept.1 (hwait₁ [] cs k₁ rfl rfl)
    obtain ⟨q', as', bs', hinv', hq', hsub', hlen', hslice'⟩ :=
      ih hinv₁ hq₁ hrest (hkept.2 k₁ h1) hwait₁
    have hslice : (if c.IsSlice then 1 else 0) ≤ if k₁.threadC = k.threadC then 0 else 1 := by
      cases c with
      | schedule now =>
        obtain rfl := Option.some.inj h1
        rw [if_neg (h.schedule_switches (by simp [hq]) now)]
        rfl
      | _ => exact Nat.zero_le _
    refine ⟨q', as', bs', hinv', hq', hsub'.trans hsub₁, ?_, ?_⟩
    · rw [switches, h1]
      dsimp only
      omega
    · rw [switches, h1, List.countP_cons]
      dsimp only
      omega

/-- The time of a thread that there is grows by the slices in which it runs. -/
lemma Inv.run_time (h : Inv idle k q) (hrun : Machine.run (Kernel.step idle) k calls = some k')
    (hold : ∀ c ∈ calls, ¬ c.Creates t) :
    (k'.thread t).time = (k.thread t).time + ranFor idle t k calls := by
  induction calls generalizing k q with
  | nil =>
    obtain rfl : k = k' := Option.some.inj hrun
    simp [ranFor]
  | cons c cs ih =>
    obtain ⟨k₁, h1, hrest⟩ := Option.bind_eq_some_iff.mp hrun
    obtain ⟨q₁, hinv₁, -⟩ := h.step h1
    obtain ⟨hc, hold⟩ := List.forall_mem_cons.mp hold
    rw [ih hinv₁ hrest hold, h.step_time h1, Call.cleared_time hc, ranFor, h1, add_assoc]

/-- A new thread starts with no time. -/
lemma Inv.run_created {p : P} {n : NewThread} {cs : List (Call Θ P S)} (h : Inv idle k q)
    (hrun : Machine.run (Kernel.step idle) k (calls ++ .create t p n :: cs) = some k')
    (hold : ∀ c ∈ cs, ¬ c.Creates t) :
    ∃ k₁, Machine.run (Kernel.step idle) k (calls ++ [.create t p n]) = some k₁ ∧
      (k'.thread t).time = ranFor idle t k₁ cs := by
  rw [List.append_cons, Machine.run_append] at hrun
  obtain ⟨k₁, h1, hrest⟩ := Option.bind_eq_some_iff.mp hrun
  obtain ⟨q₁, hinv₁⟩ := Machine.run_invariant (I := fun k => ∃ q, Inv idle k q)
    (fun k c k' ⟨q, h⟩ hs => (h.step hs).imp fun _ h => h.1) ⟨q, h⟩ h1
  refine ⟨k₁, h1, ?_⟩
  rw [Machine.run_append] at h1
  obtain ⟨k₀, -, h0⟩ := Option.bind_eq_some_iff.mp h1
  rw [Machine.run_cons] at h0
  obtain ⟨k₂, hcreate, h2⟩ := Option.bind_eq_some_iff.mp h0
  obtain rfl : k₂ = k₁ := Option.some.inj h2
  obtain ⟨-, hcreate⟩ := Option.ite_none_right_eq_some.mp hcreate
  obtain rfl := Option.some.inj hcreate
  have hzero : ((k₀.create t p n).thread t).time = 0 := by
    have hquiet : Quiet (fun _ => False) (k₀.construct t p) (k₀.create t p n) := create_quiet k₀ t p n
    rw [hquiet.time, construct_time, if_pos rfl]
  rw [hinv₁.run_time hrest hold, hzero, zero_add]

/-- The times of the threads, together with what was dropped, grow by the time between the first and the
last switch. -/
lemma Inv.run_sum (h : Inv idle k q) (T : Finset Θ)
    (hrun : Machine.run (Kernel.step idle) k calls = some k')
    (hT : Machine.Throughout (Kernel.step idle) (fun k => k.threadC ∈ T) k calls) :
    ∑ t ∈ T, (k'.thread t).time + dropped idle T k calls =
      ∑ t ∈ T, (k.thread t).time + (k'.nsecLast - k.nsecLast) := by
  induction calls generalizing k q with
  | nil =>
    obtain rfl : k = k' := Option.some.inj hrun
    simp [dropped]
  | cons c cs ih =>
    obtain ⟨k₁, h1, hrest⟩ := Option.bind_eq_some_iff.mp hrun
    obtain ⟨q₁, hinv₁, -⟩ := h.step h1
    obtain ⟨hmem, hT⟩ := Machine.throughout_cons.mp hT
    have hslice : ∑ t ∈ T, (if t = k.threadC then k₁.nsecLast - k.nsecLast else 0) =
        k₁.nsecLast - k.nsecLast := by
      rw [Finset.sum_ite_eq' T k.threadC]
      exact if_pos hmem
    have hstep : ∑ t ∈ T, (k₁.thread t).time + c.dropped T k =
        ∑ t ∈ T, (k.thread t).time + (k₁.nsecLast - k.nsecLast) := by
      rw [← c.sum_cleared T k, Finset.sum_congr rfl fun t _ => h.step_time h1 t,
        Finset.sum_add_distrib, hslice]
      exact add_right_comm _ _ _
    have hrun' := ih hinv₁ hrest (hT k₁ h1)
    rw [dropped, h1]
    calc ∑ t ∈ T, (k'.thread t).time + (c.dropped T k + dropped idle T k₁ cs)
        = ∑ t ∈ T, (k'.thread t).time + dropped idle T k₁ cs + c.dropped T k := by
          rw [add_comm (c.dropped T k), add_assoc]
      _ = ∑ t ∈ T, (k₁.thread t).time + c.dropped T k + (k'.nsecLast - k₁.nsecLast) := by
          rw [hrun', add_right_comm]
      _ = ∑ t ∈ T, (k.thread t).time + (k'.nsecLast - k.nsecLast) := by
          rw [hstep, add_assoc, sub_add_sub_cancel']

end Runs

section Boot
variable {p : P} {memory : Kernel Θ P S} {before : List (Call Θ P S)}

/-- Every state that a run from boot reaches has the invariant. -/
lemma Inv.of_boot (hstate : ∀ t, (memory.thread t).state ≠ .sleep)
    (hr : Machine.run (Kernel.step idle) (Kernel.boot idle p memory) before = some k) :
    Inv idle k k.members := by
  obtain ⟨q, h⟩ := Machine.run_invariant (I := fun k => ∃ q, Inv idle k q)
    (fun k c k' ⟨q, h⟩ hs => (h.step hs).imp fun _ h => h.1) ⟨_, Kernel.boot_inv hstate⟩ hr
  rw [h.members_eq]
  exact h

/-- No ready thread starves: as long as it waits and its process is not torn down, nobody overtakes
it, and neither the switches nor the time slices are more than the threads that were before it. -/
theorem waits_its_turn (hstate : ∀ t, (memory.thread t).state ≠ .sleep)
    (hr : Machine.run (Kernel.step idle) (Kernel.boot idle p memory) before = some k)
    (ht : k.members (.tList .ready) = as ++ t :: bs)
    (hrun : Machine.run (Kernel.step idle) k calls = some k')
    (hkept : Machine.Along (Kernel.step idle) (fun k c => ¬ c.Gone k t) k calls)
    (hwait : Machine.Throughout (Kernel.step idle) (fun k => k.threadC ≠ t) k calls) :
    (∃ as' bs', k'.members (.tList .ready) = as' ++ t :: bs' ∧ as'.Sublist as ∧
      as'.length + switches idle k calls ≤ as.length) ∧
    calls.countP Call.IsSlice ≤ switches idle k calls := by
  obtain ⟨q', as', bs', h', hq', hsub, hlen, hslice⟩ :=
    (Inv.of_boot hstate hr).run_waiting ht hrun hkept hwait
  exact ⟨⟨as', bs', by rw [h'.members_eq, hq'], hsub, hlen⟩, hslice⟩

/-- Three threads become ready at boot. -/
def sampleThreads : List (Call ℕ ℕ ℕ) :=
  [.create 1 1 (userThread 0x1000000), .create 2 1 (userThread 0x2000000),
    .create 3 2 (userThread 0x3000000)]

/-- The first of them runs and goes to sleep. -/
def sampleSlices : List (Call ℕ ℕ ℕ) := [.schedule 5, .nsleepUntil 40 6 (trapAt 6 0)]

theorem waits_its_turn_sample : ∃ k k' : Kernel ℕ ℕ ℕ,
    Machine.run (Kernel.step 0) zeroedBoot sampleThreads = some k ∧
    Machine.run (Kernel.step 0) k sampleSlices = some k' ∧
    ∃ as' bs', k'.members (.tList .ready) = as' ++ 3 :: bs' ∧ as'.Sublist [1, 2] ∧
      as'.length + switches 0 k sampleSlices ≤ 2 := by
  obtain ⟨k, hk⟩ := Option.isSome_iff_exists.mp
    (by decide +kernel : (Machine.run (Kernel.step 0) zeroedBoot sampleThreads).isSome)
  obtain ⟨hready, hends, hkept, hwait⟩ :=
    (by decide +kernel : ∀ k ∈ Machine.run (Kernel.step 0) zeroedBoot sampleThreads,
      k.members (.tList .ready) = [1, 2] ++ [3] ∧
      (Machine.run (Kernel.step 0) k sampleSlices).isSome ∧
      Machine.Along (Kernel.step 0) (fun k c => ¬ c.Gone k 3) k sampleSlices ∧
      Machine.Throughout (Kernel.step 0) (fun k => k.threadC ≠ 3) k sampleSlices) k hk
  obtain ⟨k', hk'⟩ := Option.isSome_iff_exists.mp hends
  exact ⟨k, k', hk, hk',
    (waits_its_turn zeroedMemory_state hk hready hk' hkept hwait).1⟩

/-- The time of a thread grows by the slices in which it runs, from 0 for a new one, and the times of all
threads together, with those of the threads whose objects are used again, grow by the time that passes
between the switches. -/
theorem time_accounted (hstate : ∀ t, (memory.thread t).state ≠ .sleep)
    (hr : Machine.run (Kernel.step idle) (Kernel.boot idle p memory) before = some k)
    (hrun : Machine.run (Kernel.step idle) k calls = some k') :
    (∀ t, (∀ c ∈ calls, ¬ c.Creates t) →
      (k'.thread t).time = (k.thread t).time + ranFor idle t k calls) ∧
    (∀ t p₁ n cs cs', calls = cs ++ .create t p₁ n :: cs' → (∀ c ∈ cs', ¬ c.Creates t) →
      ∃ k₁, Machine.run (Kernel.step idle) k (cs ++ [.create t p₁ n]) = some k₁ ∧
        (k'.thread t).time = ranFor idle t k₁ cs') ∧
    ∀ T : Finset Θ, Machine.Throughout (Kernel.step idle) (fun k => k.threadC ∈ T) k calls →
      ∑ t ∈ T, (k'.thread t).time + dropped idle T k calls =
        ∑ t ∈ T, (k.thread t).time + (k'.nsecLast - k.nsecLast) := by
  have h := Inv.of_boot hstate hr
  refine ⟨fun t hold => h.run_time hrun hold, ?_, fun T hT => h.run_sum T hrun hT⟩
  rintro t p₁ n cs cs' rfl hold
  exact h.run_created hrun hold

/-- The first thread sleeps while the second one runs, and a fourth one is made. -/
def sampleCreation : List (Call ℕ ℕ ℕ) := sampleSlices ++ [.create 4 2 (userThread 0x4000000)]

theorem time_accounted_sample : ∃ k k' : Kernel ℕ ℕ ℕ,
    Machine.run (Kernel.step 0) zeroedBoot sampleThreads = some k ∧
    Machine.run (Kernel.step 0) k sampleCreation = some k' ∧
    (k'.thread 1).time = (k.thread 1).time + ranFor 0 1 k sampleCreation ∧
    ∑ t ∈ ({0, 1, 2} : Finset ℕ), (k'.thread t).time + dropped 0 {0, 1, 2} k sampleCreation =
      ∑ t ∈ ({0, 1, 2} : Finset ℕ), (k.thread t).time + (k'.nsecLast - k.nsecLast) := by
  obtain ⟨k, hk⟩ := Option.isSome_iff_exists.mp
    (by decide +kernel : (Machine.run (Kernel.step 0) zeroedBoot sampleThreads).isSome)
  obtain ⟨hends, hrun⟩ :=
    (by decide +kernel : ∀ k ∈ Machine.run (Kernel.step 0) zeroedBoot sampleThreads,
      (Machine.run (Kernel.step 0) k sampleCreation).isSome ∧
      Machine.Throughout (Kernel.step 0) (fun k => k.threadC ∈ ({0, 1, 2} : Finset ℕ)) k
        sampleCreation) k hk
  obtain ⟨k', hk'⟩ := Option.isSome_iff_exists.mp hends
  obtain ⟨hold, -, hsum⟩ := time_accounted zeroedMemory_state hk hk'
  exact ⟨k, k', hk, hk', hold 1 (by simp [sampleCreation, sampleSlices, Call.Creates]), hsum _ hrun⟩

end Boot

end EpochKernel.Sched
