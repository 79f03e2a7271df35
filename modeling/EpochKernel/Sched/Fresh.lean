import EpochKernel.Sched.Cpu

/-! Threads go on where they were interrupted, unless the timer handler of the idle thread, resumed
after a switch inside of it, finds its time slice over and switches once more: the registers of the
idle thread are then those of the nested interrupt. -/
namespace EpochKernel.Sched
open EpochKernel.Util EpochKernel.Util.LinkedList EpochKernel.Library

variable {Θ P S : Type*} [DecidableEq Θ]
  {idle : Θ} {u u' : Cpu Θ P S} {q : Place S → List Θ}

namespace Cpu

/-- Every live thread that does not run has in `thread::regs` the frame of the handler that switched
away from it. -/
def Fresh (u : Cpu Θ P S) : Prop :=
  ∀ t ∈ u.kernel.alive, t ≠ u.kernel.threadC →
    u.kernel.context.regs t = u.kernel.context.interruptedAt t

instance (u : Cpu Θ P S) : Decidable u.Fresh := inferInstanceAs (Decidable (∀ _ ∈ _, _))

/-- Saving with the frame of the same interrupt keeps the contexts fresh. -/
lemma Fresh.switch (h : u.Fresh) (hs : u.Same u') {r : Registers}
    (hctx : u'.kernel.context = u.kernel.context.switch u.kernel.threadC r u'.kernel.threadC) :
    u'.Fresh := by
  intro t ht _
  rw [hctx]
  by_cases hc : t = u.kernel.threadC
  · simp [Context.switch, Context.leave, Context.save, hc]
  · simpa [Context.switch, Context.leave, Context.save, hc] using h t (hs.alive t ht) hc

variable [DecidableEq P] [DecidableEq S]

/-- A timer handler that was left while it woke sleepers finds, when it goes on, the time slice not
over or no ready thread. -/
def Timely (u : Cpu Θ P S) : Event Θ P S → Prop
  | .resume _ => ∀ c, u.timer u.kernel.threadC = some c →
      ¬ (threadTimeSlice ≤ c.nsec - u.kernel.nsecLast ∧ u.kernel.len (.tList .ready) ≠ 0)
  | _ => True

lemma Fresh.effect {e : Event Θ P S} (h : u.Fresh) (hp : u.Timely e) (he : u.Effect idle u' e) :
    u'.Fresh := by
  cases he with
  | stay hs hc hctx =>
    intro t ht hne
    rw [hctx]
    exact h t (hs.alive t ht) (hc ▸ hne)
  | save r hs hc hctx =>
    intro t ht hne
    rw [hc] at hne
    rw [hctx]
    simpa [Context.save, hne] using h t (hs.alive t ht) hne
  | switch r hs _ hctx => exact h.switch hs hctx
  | resume c hs ht hslice _ _ => exact absurd hslice (hp c ht)
  | @create t p n ht hu =>
    subst hu
    intro t' ht' hne
    change Function.update u.kernel.context.regs t n.regs t' =
      Function.update u.kernel.context.interruptedAt t n.regs t'
    by_cases he : t' = t
    · simp [he]
    · have hal : t' ∈ u.kernel.alive ++ [t] := ht'
      simp only [List.mem_append, List.mem_singleton, he, or_false] at hal
      simpa [he] using h t' hal hne
  | syscall _ hu =>
    subst hu
    exact h

/-- Switching from a resumed timer handler leaves the registers of the nested interrupt behind. -/
lemma not_fresh_of_resume {now : UInt64} (h : u.Inv idle q) (hp : ¬ u.Timely (.resume now)) :
    ∃ u', u.step idle (.resume now) = some u' ∧ ¬ u'.Fresh := by
  rw [Timely] at hp
  push Not at hp
  obtain ⟨c, hc, hslice⟩ := hp
  obtain ⟨hidle, hne⟩ := h.timer _ c hc
  obtain ⟨q', h', hal, he⟩ := h.kernel.endTimer c.frame c.nsec now
  rw [if_pos hslice] at he
  refine ⟨_, by rw [Cpu.step, hc]; rfl, fun hf => ?_⟩
  have hreg := hf u.kernel.threadC (hal.symm ▸ h.kernel.threadC_alive) (Ne.symm he.1)
  change (u.kernel.endTimer c.frame c.nsec now).context.regs u.kernel.threadC =
    (u.kernel.endTimer c.frame c.nsec now).context.interruptedAt u.kernel.threadC at hreg
  rw [he.2] at hreg
  refine hne ?_
  simpa [Context.leave, hidle] using hreg

end Cpu

variable [DecidableEq P] [DecidableEq S]

/-- In a run from boot the saved contexts are fresh in every state if and only if every resumed timer
handler comes in time. -/
theorem fresh_iff_timely {p : P} {memory : Kernel Θ P S}
    (hstate : ∀ t, (memory.thread t).state ≠ .sleep) (es : List (Cpu.Event Θ P S)) :
    Machine.Throughout (Cpu.step idle) Cpu.Fresh (Cpu.boot idle p memory) es ↔
      Machine.Along (Cpu.step idle) Cpu.Timely (Cpu.boot idle p memory) es := by
  refine Machine.throughout_iff_along (I := fun u => ∃ q, u.Inv idle q) ?_ ?_
    ⟨_, Cpu.Inv.boot hstate⟩ ?_
  · rintro u e u' ⟨q, h⟩ hf hp hs
    obtain ⟨h', he⟩ := h.step hs
    exact ⟨h', hf.effect hp he⟩
  · rintro u e ⟨q, h⟩ hf hp
    cases e with
    | resume now => exact Cpu.not_fresh_of_resume h hp
    | _ => exact absurd trivial hp
  · intro t ht hne
    exact absurd (List.mem_singleton.mp ht) hne

/-- A kernel thread sleeps, is woken out of a timer interrupt of the idle thread, and gives way to the
idle thread again. -/
def wokenRun : List (Cpu.Event ℕ ℕ ℕ) :=
  [.call (.create 1 1 ⟨0, 0x1000, 0x2000, 0x1000, 0⟩),
    .tick Registers.kernelRegs 5000000 ⟨trapAt 0 1, trapAt 0 2⟩ 6000000,
    .call (.nsleepUntil 20000000 7000000 (trapAt 8000000 3)),
    .tick Registers.kernelRegs 30000000 ⟨trapAt 30000000 4, trapAt 30000000 5⟩ 30000000,
    .call (.block .ready (trapAt 31000000 6))]

/-- The idle thread finds its slice over, and leaves its timer handler a second time. -/
theorem not_fresh_after_resume :
    ¬ Machine.Throughout (Cpu.step 0) Cpu.Fresh (Cpu.boot 0 0 zeroedMemory : Cpu ℕ ℕ ℕ)
      (wokenRun ++ [.resume 32000000]) := by
  intro h
  have hrun : (Machine.run (Cpu.step 0) (Cpu.boot 0 0 zeroedMemory : Cpu ℕ ℕ ℕ)
      (wokenRun ++ [.resume 32000000])).any (fun u => ¬ u.Fresh) = true := by decide +kernel
  obtain ⟨u, hu, hf⟩ := (Option.any_eq_true _ _).mp hrun
  exact of_decide_eq_true hf (h _ [] u (List.append_nil _) hu)

/-- Up to the moment at which the idle thread goes on every context is fresh. -/
theorem fresh_iff_timely_woken :
    Machine.Throughout (Cpu.step 0) Cpu.Fresh (Cpu.boot 0 0 zeroedMemory : Cpu ℕ ℕ ℕ) wokenRun :=
  (fresh_iff_timely zeroedMemory_state wokenRun).mpr (by
    refine ⟨trivial, fun _ _ => ⟨trivial, fun _ _ => ⟨trivial, fun _ _ => ⟨trivial, fun _ _ =>
      ⟨trivial, fun _ _ => trivial⟩⟩⟩⟩⟩)

end EpochKernel.Sched
