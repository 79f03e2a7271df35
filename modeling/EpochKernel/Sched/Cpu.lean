import EpochKernel.Sched.Run

/-! The CPU between user mode and the kernel: system calls, timer interrupts and the interrupts that
the kernel raises for itself. The interrupt controller delivers no timer interrupt to a thread that
is in the handler of one. -/
namespace EpochKernel.Sched
open EpochKernel.Util EpochKernel.Util.LinkedList EpochKernel.Library

variable {Θ P S : Type*} [DecidableEq Θ]

def threadTimeSlice : UInt64 := 5000000

namespace Kernel
variable [DecidableEq P] [DecidableEq S]

/-- The end of `sched_time_handler`, which has read the time `nsec` before it woke the sleepers. -/
def timeSlice (k : Kernel Θ P S) (nsec now : UInt64) : Option Θ × Kernel Θ P S :=
  if nsec - k.nsecLast ≥ threadTimeSlice then k.schedule now else (none, k)

/-- What a timer handler with the frame `regs` of the running thread does after waking the
sleepers. -/
def endTimer (k : Kernel Θ P S) (regs : Registers) (nsec now : UInt64) : Kernel Θ P S :=
  handlerReturns k.threadC regs (k.timeSlice nsec now)

end Kernel

/-- A timer handler that has been left in the interrupt raised by `unlock_all`. -/
structure TimerCall where
  frame : Registers
  nsec : UInt64

/-- `timer` are the timer handlers to be finished, `inCall` says who is in a system call, and `past`
is the word 56 bytes behind the variable `thread_c`. `born` and `lastCall` are not part of the
program: what a thread was created with, and its stack pointer at its last system call. -/
structure Cpu (Θ P S : Type*) where
  kernel : Kernel Θ P S
  timer : Θ → Option TimerCall
  inCall : Θ → Bool
  past : UInt64
  born : Θ → NewThread
  lastCall : Θ → Option UInt64

inductive Cpu.Event (Θ P S : Type*)
  | call (c : Call Θ P S)
  | syscall (rsp : UInt64)
  | sysret
  | tick (frame : Registers) (nsec : UInt64) (i : Nested) (now : UInt64)
  | resume (now : UInt64)

instance : (c : Call Θ P S) → Decidable c.IsPlain
  | .create _ _ _ | .schedule _ | .tick _ _ _ => isFalse id
  | .block _ _ | .nsleepUntil _ _ _ | .createSemaphore _ _ | .semLock _ _ | .semTryLock _
  | .semUnlock _ _ | .resetReady _ _ | .resetDestroy _ | .teardown _ _ | .clean => isTrue trivial

namespace Cpu
variable [DecidableEq P] [DecidableEq S]

/-- The thread belongs to a process whose uid is not 0. -/
def IsUser (u : Cpu Θ P S) (t : Θ) : Prop := (u.born t).uid ≠ 0

instance (u : Cpu Θ P S) (t : Θ) : Decidable (u.IsUser t) := inferInstanceAs (Decidable (_ ≠ _))

/-- The thread is not in a system call. -/
def InUserMode (u : Cpu Θ P S) (t : Θ) : Prop := u.IsUser t ∧ u.inCall t = false

instance (u : Cpu Θ P S) (t : Θ) : Decidable (u.InUserMode t) := inferInstanceAs (Decidable (_ ∧ _))

/-- `thread::init` of a thread of the process `p`. -/
def create (u : Cpu Θ P S) (t : Θ) (p : P) (n : NewThread) : Cpu Θ P S :=
  { u with
    kernel := u.kernel.create t p n
    timer := Function.update u.timer t none
    inCall := Function.update u.inCall t false
    born := Function.update u.born t n
    lastCall := Function.update u.lastCall t none }

/-- `syscall_entry`, up to the call of the function. -/
def syscallEntry (u : Cpu Θ P S) (rsp : UInt64) : Cpu Θ P S :=
  { u with
    kernel := { u.kernel with context := { u.kernel.context with callSaveRsp := rsp } }
    past := rsp
    inCall := Function.update u.inCall u.kernel.threadC true
    lastCall := Function.update u.lastCall u.kernel.threadC (some rsp) }

/-- The frame `r` as the timer handler gets it. -/
def timerFrame (u : Cpu Θ P S) (r : Registers) : Registers :=
  u.kernel.context.complete u.kernel.threadC r

/-- A timer interrupt. If the running thread is left while sleepers are woken, the rest of the
handler has to wait for it. -/
def tick (u : Cpu Θ P S) (frame : Registers) (nsec : UInt64) (i : Nested) (now : UInt64) :
    Option (Cpu Θ P S) :=
  let regs := u.timerFrame frame
  (u.kernel.wakeSleepers regs nsec i).map fun k =>
    if k.threadC = u.kernel.threadC then { u with kernel := k.endTimer regs nsec now }
    else { u with
      kernel := k
      timer := Function.update u.timer u.kernel.threadC (some ⟨regs, nsec⟩) }

/-- Nested interrupts are taken at other points than the timer interrupt. -/
def Apart (u : Cpu Θ P S) (frame : Registers) (i : Nested) : Prop :=
  i.unblock.frame ≠ u.timerFrame frame ∧ i.unlockAll.frame ≠ u.timerFrame frame

instance (u : Cpu Θ P S) (frame : Registers) (i : Nested) : Decidable (u.Apart frame i) :=
  inferInstanceAs (Decidable (_ ∧ _))

def step (idle : Θ) : Machine (Cpu Θ P S) (Event Θ P S)
  | u, .call c =>
    if u.timer u.kernel.threadC = none ∧ ¬ u.InUserMode u.kernel.threadC then
      match c with
      | .create t p n => if t ∉ u.kernel.alive then some (u.create t p n) else none
      | c =>
        if c.IsPlain then (Kernel.step idle u.kernel c).map fun k => { u with kernel := k } else none
    else none
  | u, .syscall rsp =>
    if u.timer u.kernel.threadC = none ∧ u.InUserMode u.kernel.threadC then
      some (u.syscallEntry rsp)
    else none
  | u, .sysret =>
    if u.timer u.kernel.threadC = none ∧ u.inCall u.kernel.threadC = true then
      some { u with inCall := Function.update u.inCall u.kernel.threadC false }
    else none
  | u, .tick frame nsec i now =>
    if u.timer u.kernel.threadC = none ∧ (frame.IsUser ↔ u.InUserMode u.kernel.threadC) ∧
        u.Apart frame i then
      u.tick frame nsec i now
    else none
  | u, .resume now =>
    (u.timer u.kernel.threadC).map fun c =>
      { u with
        kernel := u.kernel.endTimer c.frame c.nsec now
        timer := Function.update u.timer u.kernel.threadC none }

/-- The CPU at boot. -/
def boot (idle : Θ) (p : P) (memory : Kernel Θ P S) : Cpu Θ P S where
  kernel := Kernel.boot idle p memory
  timer := fun _ => none
  inCall := fun _ => false
  past := 0
  born := fun _ => ⟨0, 0, 0, 0, 0⟩
  lastCall := fun _ => none

end Cpu

variable {idle : Θ} {u u' : Cpu Θ P S} {k : Kernel Θ P S} {q q' : Place S → List Θ} {t : Θ}

/-- Only the idle thread has a timer handler to finish, and it goes on inside of that handler. -/
structure Cpu.Inv (idle : Θ) (u : Cpu Θ P S) (q : Place S → List Θ) : Prop where
  kernel : Sched.Inv idle u.kernel q
  timer : ∀ t c, u.timer t = some c → t = idle ∧ u.kernel.context.regs idle ≠ c.frame
  idle_born : (u.born idle).uid = 0

section Step
variable [DecidableEq P] [DecidableEq S]

/-- The timer handler ends without a switch, or the first ready thread goes on. -/
theorem Inv.endTimer (h : Inv idle k q) (regs : Registers) (nsec now : UInt64) :
    ∃ q', Inv idle (k.endTimer regs nsec now) q' ∧
      (k.endTimer regs nsec now).alive = k.alive ∧
      if threadTimeSlice ≤ nsec - k.nsecLast ∧ k.len (.tList .ready) ≠ 0 then
        (k.endTimer regs nsec now).threadC ≠ k.threadC ∧
        (k.endTimer regs nsec now).context =
          k.context.leave k.threadC regs (k.endTimer regs nsec now).threadC
      else (k.endTimer regs nsec now).threadC = k.threadC ∧
        (k.endTimer regs nsec now).context = k.context := by
  have hlen : k.len (.tList .ready) ≠ 0 ↔ q (.tList .ready) ≠ [] := by
    rw [h.placed.len_eq]
    simp
  by_cases hslice : threadTimeSlice ≤ nsec - k.nsecLast
  · by_cases hr : q (.tList .ready) = []
    · rw [if_neg fun hh => hlen.mp hh.2 hr, Kernel.endTimer, Kernel.timeSlice, if_pos hslice,
        h.placed.schedule_nil h.postC hr, Kernel.handlerReturns]
      exact ⟨q, h, rfl, rfl, rfl⟩
    · obtain ⟨t, q', ht, hs, hc⟩ :=
        h.placed.schedule h.postC (h.running.trans h.preempted.symm) hr now
      have hsched : k.schedule now = (some t, (k.schedule now).2) := Prod.ext ht rfl
      have hne : t ≠ k.threadC := by
        rintro rfl
        obtain ⟨x, xs, hxs⟩ := List.exists_cons_of_ne_nil hr
        have hready := hs.ready
        rw [hxs, List.cons_append] at hready
        have hx := (List.cons.inj hready).1
        have := h.placed.family.disjoint (.tList .ready) (.tList .running) x (by simp [hxs])
          (by rw [hx, h.running]; simp)
        simp at this
      have hinv := h.switched_inv hs
      rw [if_pos ⟨hslice, hlen.mpr hr⟩, Kernel.endTimer, Kernel.timeSlice, if_pos hslice, hsched,
        Kernel.handlerReturns]
      refine ⟨q', ⟨hinv.placed.setContext _, hinv.running, hinv.idle_at, hinv.postC, hinv.postFlag,
        hinv.last⟩, hs.alive, ?_, ?_⟩
      · exact fun he => hne (hs.threadC.symm.trans he)
      · dsimp only
        rw [hc, hs.threadC]
  · rw [if_neg (fun hh => hslice hh.1), Kernel.endTimer, Kernel.timeSlice, if_neg hslice,
      Kernel.handlerReturns]
    exact ⟨q, h, rfl, rfl, rfl⟩

/-- The frame with which an event can leave the running thread. -/
def Cpu.Departs (idle : Θ) (u : Cpu Θ P S) (r : Registers) : Cpu.Event Θ P S → Prop
  | .call c => ∃ i, c.raises u.kernel = some i ∧ r = i.frame
  | .tick frame nsec i _ => r = u.timerFrame frame ∧ threadTimeSlice ≤ nsec - u.kernel.nsecLast ∨
      r = i.unlockAll.frame ∧ u.kernel.threadC = idle
  | _ => False

/-- What most steps leave unchanged. -/
structure Cpu.Same (u u' : Cpu Θ P S) : Prop where
  born : u'.born = u.born
  lastCall : u'.lastCall = u.lastCall
  alive : ∀ t ∈ u'.kernel.alive, t ∈ u.kernel.alive

/-- What a step does to the contexts. -/
inductive Cpu.Effect (idle : Θ) (u u' : Cpu Θ P S) : Cpu.Event Θ P S → Prop
  | stay {e} (hs : u.Same u') (hc : u'.kernel.threadC = u.kernel.threadC)
    (hctx : u'.kernel.context = u.kernel.context) : Effect idle u u' e
  | save {e} (r : Registers) (hs : u.Same u') (hc : u'.kernel.threadC = u.kernel.threadC)
    (hctx : u'.kernel.context = u.kernel.context.save u.kernel.threadC r) : Effect idle u u' e
  | switch {e} (r : Registers) (hs : u.Same u') (hr : u.Departs idle r e)
    (hctx : u'.kernel.context = u.kernel.context.switch u.kernel.threadC r u'.kernel.threadC) :
    Effect idle u u' e
  | resume {now} (c : TimerCall) (hs : u.Same u') (ht : u.timer u.kernel.threadC = some c)
    (hslice : threadTimeSlice ≤ c.nsec - u.kernel.nsecLast ∧ u.kernel.len (.tList .ready) ≠ 0)
    (hne : u'.kernel.threadC ≠ u.kernel.threadC)
    (hctx : u'.kernel.context =
      u.kernel.context.leave u.kernel.threadC c.frame u'.kernel.threadC) :
    Effect idle u u' (.resume now)
  | create {t p n} (ht : t ∉ u.kernel.alive) (hu : u' = u.create t p n) :
    Effect idle u u' (.call (.create t p n))
  | syscall {rsp} (hm : u.InUserMode u.kernel.threadC) (hu : u' = u.syscallEntry rsp) :
    Effect idle u u' (.syscall rsp)

end Step

namespace Cpu.Inv

/-- A step of the idle thread without a handler to finish, or of another thread. -/
lemma of_save (h : u.Inv idle q) (ht : u.timer u.kernel.threadC = none) (hk : Sched.Inv idle k q')
    (hregs : ∀ t ≠ u.kernel.threadC, k.context.regs t = u.kernel.context.regs t) :
    Cpu.Inv idle { u with kernel := k } q' := by
  refine ⟨hk, fun t c hc => ?_, h.idle_born⟩
  obtain ⟨hidle, hne⟩ := h.timer t c hc
  have hrun : idle ≠ u.kernel.threadC := by
    rintro rfl
    rw [hidle, ht] at hc
    cases hc
  rw [hregs idle hrun]
  exact ⟨hidle, hne⟩

variable [DecidableEq S]

lemma create {p : P} {n : NewThread} (h : u.Inv idle q) (ht : t ∉ u.kernel.alive) :
    ∃ q', (u.create t p n).Inv idle q' := by
  have hti : idle ≠ t := fun he => ht (he ▸ h.kernel.idle_alive)
  refine ⟨_, h.kernel.create ht p n, fun t' c hc => ?_, ?_⟩
  · by_cases he : t' = t
    · simp [Cpu.create, he] at hc
    · have hc' : u.timer t' = some c := by simpa [Cpu.create, he] using hc
      obtain ⟨hidle, hne⟩ := h.timer t' c hc'
      refine ⟨hidle, ?_⟩
      change Function.update u.kernel.context.regs t n.regs idle ≠ c.frame
      rwa [Function.update_of_ne hti]
  · simpa [Cpu.create, hti] using h.idle_born

lemma boot {p : P} {memory : Kernel Θ P S} (hstate : ∀ t, (memory.thread t).state ≠ .sleep) :
    (Cpu.boot idle p memory).Inv idle (Function.update (fun _ => []) (.tList .running) [idle]) :=
  ⟨Kernel.boot_inv hstate, by simp [Cpu.boot], rfl⟩

variable [DecidableEq P]

theorem tick {frame : Registers} {nsec now : UInt64} {i : Nested} (h : u.Inv idle q)
    (ht : u.timer u.kernel.threadC = none) (ha : u.Apart frame i)
    (hs : u.tick frame nsec i now = some u') :
    (∃ q', u'.Inv idle q') ∧ u.Effect idle u' (.tick frame nsec i now) := by
  rw [Cpu.tick, Option.map_eq_some_iff] at hs
  obtain ⟨k, hk, rfl⟩ := hs
  obtain ⟨q₁, h₁, hw, -⟩ := h.kernel.wakeSleepers hk
  by_cases hc : k.threadC = u.kernel.threadC
  · rw [if_pos hc]
    obtain ⟨hnsec, hctx⟩ := hw.stayed hc
    obtain ⟨q₂, h₂, hal, he⟩ := h₁.endTimer (u.timerFrame frame) nsec now
    have hsame : u.Same { u with kernel := k.endTimer (u.timerFrame frame) nsec now } :=
      ⟨rfl, rfl, fun t ht => hw.alive ▸ hal ▸ ht⟩
    split_ifs at he with hslice
    · have hctx' : (k.endTimer (u.timerFrame frame) nsec now).context =
          u.kernel.context.switch u.kernel.threadC (u.timerFrame frame)
            (k.endTimer (u.timerFrame frame) nsec now).threadC := by
        rw [he.2, hctx, hc]
        rfl
      refine ⟨⟨q₂, h.of_save ht h₂ fun t hne => ?_⟩, .switch _ hsame (Or.inl ⟨rfl, ?_⟩) hctx'⟩
      · rw [hctx']
        simp [Context.switch, Context.leave, Context.save, hne]
      · rw [← hnsec]
        exact hslice.1
    · have hctx' : (k.endTimer (u.timerFrame frame) nsec now).context =
          u.kernel.context.save u.kernel.threadC (u.timerFrame frame) := he.2.trans hctx
      refine ⟨⟨q₂, h.of_save ht h₂ fun t hne => ?_⟩, .save _ hsame (he.1.trans hc) hctx'⟩
      rw [hctx']
      simp [Context.save, hne]
  · rw [if_neg hc]
    obtain ⟨hidle, hctx⟩ := hw.left hc
    refine ⟨⟨q₁, h₁, fun t c hct => ?_, h.idle_born⟩,
      .switch _ ⟨rfl, rfl, fun t ht => hw.alive ▸ ht⟩ (Or.inr ⟨rfl, hidle⟩) hctx⟩
    have hregs : k.context.regs idle = i.unlockAll.frame := by
      rw [hctx, hidle]
      simp [Context.switch, Context.leave, Context.save]
    by_cases hti : t = idle
    · rw [hti, hidle] at hct
      have hct' : (⟨u.timerFrame frame, nsec⟩ : TimerCall) = c := by simpa using hct
      refine ⟨hti, ?_⟩
      change k.context.regs idle ≠ c.frame
      rw [hregs, ← hct']
      exact ha.2
    · have hct' : u.timer t = some c := by simpa [hidle, hti] using hct
      exact absurd (h.timer t c hct').1 hti

theorem resume {now : UInt64} {c : TimerCall} (h : u.Inv idle q)
    (hc : u.timer u.kernel.threadC = some c)
    (hu : u' = { u with
      kernel := u.kernel.endTimer c.frame c.nsec now
      timer := Function.update u.timer u.kernel.threadC none }) :
    (∃ q', u'.Inv idle q') ∧ u.Effect idle u' (.resume now) := by
  subst hu
  obtain ⟨q', h', hal, he⟩ := h.kernel.endTimer c.frame c.nsec now
  have hidle := (h.timer _ c hc).1
  refine ⟨⟨q', h', fun t c' hc' => ?_, h.idle_born⟩, ?_⟩
  · -- only the idle thread had a handler to finish
    by_cases ht : t = u.kernel.threadC
    · simp [ht] at hc'
    · have hct : u.timer t = some c' := by simpa [ht] using hc'
      exact absurd ((h.timer t c' hct).1.trans hidle.symm) ht
  · have hsame : u.Same { u with
        kernel := u.kernel.endTimer c.frame c.nsec now
        timer := Function.update u.timer u.kernel.threadC none } := ⟨rfl, rfl, fun t ht => hal ▸ ht⟩
    split_ifs at he with hslice
    · exact .resume c hsame hc hslice he.1 he.2
    · exact .stay hsame he.1 he.2

lemma plain {c : Call Θ P S} (h : u.Inv idle q) (ht : u.timer u.kernel.threadC = none)
    (hp : c.IsPlain) (hk : Kernel.step idle u.kernel c = some k) :
    (∃ q', Cpu.Inv idle { u with kernel := k } q') ∧ u.Effect idle { u with kernel := k } (.call c) := by
  obtain ⟨q', h', -, hr⟩ := h.kernel.step hk
  obtain ⟨hal, hctx⟩ := hr hp
  have hsame : u.Same { u with kernel := k } := ⟨rfl, rfl, hal⟩
  cases hraise : c.raises u.kernel with
  | none =>
    rw [hraise] at hctx
    obtain ⟨hc, hctx⟩ := hctx
    exact ⟨⟨q', h.of_save ht h' fun t _ => by rw [hctx]⟩, .stay hsame hc hctx⟩
  | some i =>
    rw [hraise] at hctx
    refine ⟨⟨q', h.of_save ht h' fun t hne => ?_⟩, .switch _ hsame ⟨i, hraise, rfl⟩ hctx⟩
    rw [hctx]
    simp [Context.switch, Context.leave, Context.save, hne]

theorem step {e : Cpu.Event Θ P S} (h : u.Inv idle q) (hs : u.step idle e = some u') :
    (∃ q', u'.Inv idle q') ∧ u.Effect idle u' e := by
  cases e with
  | call c =>
    obtain ⟨⟨ht, -⟩, hs⟩ := Option.ite_none_right_eq_some.mp hs
    cases c with
    | create t p n =>
      obtain ⟨hal, hs⟩ := Option.ite_none_right_eq_some.mp hs
      obtain rfl := Option.some.inj hs
      exact ⟨h.create hal, .create hal rfl⟩
    | _ =>
      obtain ⟨hp, hs⟩ := Option.ite_none_right_eq_some.mp hs
      obtain ⟨k, hk, rfl⟩ := Option.map_eq_some_iff.mp hs
      exact h.plain ht hp hk
  | syscall rsp =>
    obtain ⟨⟨ht, hm⟩, hs⟩ := Option.ite_none_right_eq_some.mp hs
    obtain rfl := Option.some.inj hs
    refine ⟨⟨q, ?_, h.timer, h.idle_born⟩, .syscall hm rfl⟩
    exact ⟨h.kernel.placed.setContext _, h.kernel.running, h.kernel.idle_at, h.kernel.postC,
      h.kernel.postFlag, h.kernel.last⟩
  | sysret =>
    obtain ⟨-, hs⟩ := Option.ite_none_right_eq_some.mp hs
    obtain rfl := Option.some.inj hs
    exact ⟨⟨q, h.kernel, h.timer, h.idle_born⟩, .stay ⟨rfl, rfl, fun _ ht => ht⟩ rfl rfl⟩
  | tick frame nsec i now =>
    obtain ⟨⟨ht, -, ha⟩, hs⟩ := Option.ite_none_right_eq_some.mp hs
    exact h.tick ht ha hs
  | resume now =>
    obtain ⟨c, hc, hu⟩ := Option.map_eq_some_iff.mp hs
    exact h.resume hc hu.symm

end Cpu.Inv

end EpochKernel.Sched
