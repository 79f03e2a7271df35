import EpochKernel.Sched.Fresh

/-! The kernel stack of a user thread across switches. The words `kernel_rsp` and `call_save_rsp` of a
frame are set by `c_int_handler` only for interrupts from user mode, to what `thread::regs` holds,
and `syscall_entry` does not write them there. -/
namespace EpochKernel.Sched
open EpochKernel.Util EpochKernel.Util.LinkedList EpochKernel.Library

variable {Θ P S : Type*}
  {idle : Θ} {u u' : Cpu Θ P S} {q : Place S → List Θ} {r : Registers} {t : Θ}

namespace Cpu

/-- `rsp` is the stack pointer of the thread `t` at its last system call, if there was one. -/
def CalledWith (u : Cpu Θ P S) (t : Θ) (rsp : UInt64) : Prop :=
  u.lastCall t = none ∨ u.lastCall t = some rsp

instance (u : Cpu Θ P S) (t : Θ) (rsp : UInt64) : Decidable (u.CalledWith t rsp) :=
  inferInstanceAs (Decidable (_ ∨ _))

/-- The two words of a frame are right for the thread `t`. -/
def Words (u : Cpu Θ P S) (t : Θ) (r : Registers) : Prop :=
  r.kernelRsp = (u.born t).kstackTop ∧ u.CalledWith t r.callSaveRsp

instance (u : Cpu Θ P S) (t : Θ) (r : Registers) : Decidable (u.Words t r) :=
  inferInstanceAs (Decidable (_ ∧ _))

/-- `kdata::data` and `tss.rsp0` belong to the running thread, if that is a user thread. -/
def OwnStack (u : Cpu Θ P S) : Prop :=
  u.IsUser u.kernel.threadC →
    u.kernel.context.callRsp = (u.born u.kernel.threadC).kstackTop ∧
    u.kernel.context.rsp0 = (u.born u.kernel.threadC).kstackTop ∧
    u.CalledWith u.kernel.threadC u.kernel.context.callSaveRsp

instance (u : Cpu Θ P S) : Decidable u.OwnStack := inferInstanceAs (Decidable (_ → _))

/-- The running thread has its own stack, and the others will get theirs. -/
structure Stacks (idle : Θ) (u : Cpu Θ P S) : Prop where
  own : u.OwnStack
  others : ∀ t ∈ u.kernel.alive, t ≠ u.kernel.threadC → u.IsUser t →
    u.Words t (u.kernel.context.regs t)

lemma Same.words (hs : u.Same u') : u'.Words t r ↔ u.Words t r := by
  rw [Words, Words, CalledWith, CalledWith, hs.born, hs.lastCall]

lemma Same.isUser (hs : u.Same u') : u'.IsUser t ↔ u.IsUser t := by
  rw [IsUser, IsUser, hs.born]

variable [DecidableEq Θ]

/-- The idle thread is no user thread. -/
lemma Inv.not_isUser_idle (h : u.Inv idle q) : ¬ u.IsUser idle := fun hu => hu h.idle_born

/-- Whoever is loaded finds its own stack. -/
lemma ownStack_of_leave {c : Context Θ} (hs : u.Same u')
    (hctx : u'.kernel.context = c.leave u.kernel.threadC r u'.kernel.threadC)
    (hw : u.IsUser u'.kernel.threadC → u.Words u'.kernel.threadC (c.regs u'.kernel.threadC)) :
    u'.OwnStack := by
  intro hu
  obtain ⟨h1, h2⟩ := hw (hs.isUser.mp hu)
  rw [hctx, CalledWith, hs.born, hs.lastCall]
  exact ⟨h1, h1, h2⟩

section Departs
variable [DecidableEq P]

/-- Where the running thread is a user thread, and the event switches away from it, the frame has the
right words: by chance, for an interrupt taken in the kernel, and from `thread::regs` otherwise. -/
def RightWords (u : Cpu Θ P S) : Event Θ P S → Prop
  | .call c => u.IsUser u.kernel.threadC → ∀ i ∈ c.raises u.kernel,
      u.Words u.kernel.threadC i.frame
  | .tick frame nsec _ _ => u.IsUser u.kernel.threadC →
      threadTimeSlice ≤ nsec - u.kernel.nsecLast →
      u.Words u.kernel.threadC (u.timerFrame frame)
  | _ => True

instance (u : Cpu Θ P S) (e : Event Θ P S) : Decidable (u.RightWords e) := by
  cases e <;> unfold RightWords <;> infer_instance

/-- The frame with which a user thread is left has the right words. -/
lemma words_of_departs {e : Event Θ P S} (h : u.Inv idle q) (hp : u.RightWords e)
    (hr : u.Departs idle r e) (hu : u.IsUser u.kernel.threadC) : u.Words u.kernel.threadC r := by
  cases e with
  | call c =>
    obtain ⟨i, hi, rfl⟩ := hr
    exact hp hu i hi
  | tick frame nsec i now =>
    rcases hr with ⟨rfl, hslice⟩ | ⟨-, hidle⟩
    · exact hp hu hslice
    · exact absurd (hidle ▸ hu) h.not_isUser_idle
  | _ => exact hr.elim

end Departs

variable [DecidableEq S]

lemma create_threadC {p : P} {n : NewThread} :
    (u.create t p n).kernel.threadC = u.kernel.threadC := rfl

lemma create_context {p : P} {n : NewThread} :
    (u.create t p n).kernel.context = u.kernel.context.create t n := rfl

variable [DecidableEq P]

lemma Stacks.effect {e : Event Θ P S} (h : Stacks idle u) (hi : u.Inv idle q) (hi' : ∃ q, u'.Inv idle q)
    (hp : u.RightWords e) (he : u.Effect idle u' e) : Stacks idle u' := by
  cases he with
  | stay hs hc hctx =>
    refine ⟨?_, fun t ht hne hu => ?_⟩
    · rw [OwnStack, hc, hctx, CalledWith, hs.born, hs.lastCall, hs.isUser]
      exact h.own
    · rw [hctx, hs.words]
      exact h.others t (hs.alive t ht) (hc ▸ hne) (hs.isUser.mp hu)
  | save r hs hc hctx =>
    refine ⟨?_, fun t ht hne hu => ?_⟩
    · rw [OwnStack, hc, hctx, CalledWith, hs.born, hs.lastCall, hs.isUser]
      exact h.own
    · rw [hc] at hne
      rw [hctx, hs.words]
      simpa [Context.save, hne] using h.others t (hs.alive t ht) hne (hs.isUser.mp hu)
  | switch r hs hr hctx =>
    have hregs : ∀ t ∈ u'.kernel.alive, u.IsUser t →
        u.Words t ((u.kernel.context.save u.kernel.threadC r).regs t) := by
      intro t ht hu
      by_cases hc : t = u.kernel.threadC
      · subst hc
        simpa [Context.save] using words_of_departs hi hp hr hu
      · simpa [Context.save, hc] using h.others t (hs.alive t ht) hc hu
    obtain ⟨q', hi'⟩ := hi'
    refine ⟨ownStack_of_leave hs hctx (hregs _ hi'.kernel.threadC_alive), fun t ht _ hu => ?_⟩
    rw [hctx, hs.words]
    exact hregs t ht (hs.isUser.mp hu)
  | resume c hs ht _ hne hctx =>
    -- it is the idle thread that is left
    have hidle := (hi.timer _ c ht).1
    have hregs : ∀ t ∈ u'.kernel.alive, u.IsUser t → u.Words t (u.kernel.context.regs t) := by
      intro t ht hu
      have hc : t ≠ u.kernel.threadC := by
        rintro rfl
        exact hi.not_isUser_idle (hidle ▸ hu)
      exact h.others t (hs.alive t ht) hc hu
    obtain ⟨q', hi'⟩ := hi'
    refine ⟨ownStack_of_leave hs hctx (hregs _ hi'.kernel.threadC_alive), fun t ht _ hu => ?_⟩
    rw [hctx, hs.words]
    exact hregs t ht (hs.isUser.mp hu)
  | @create t p n ht hu =>
    subst hu
    have hc : u.kernel.threadC ≠ t := fun he => ht (he ▸ hi.kernel.threadC_alive)
    have hown : u.create t p n |>.OwnStack := by
      have hb : (u.create t p n).born u.kernel.threadC = u.born u.kernel.threadC := by
        simp [create, hc]
      have hl : (u.create t p n).lastCall u.kernel.threadC = u.lastCall u.kernel.threadC := by
        simp [create, hc]
      intro hu
      rw [create_threadC] at hu ⊢
      rw [IsUser, hb] at hu
      rw [CalledWith, hb, hl]
      exact h.own hu
    refine ⟨hown, fun t' ht' hne hu => ?_⟩
    rw [create_context]
    by_cases he : t' = t
    · subst he
      have hb : (u.create t' p n).born t' = n := by simp [create]
      have hl : (u.create t' p n).lastCall t' = none := by simp [create]
      rw [IsUser, hb] at hu
      rw [Words, CalledWith, hb, hl]
      simpa [Context.create] using NewThread.kernelRsp_regs hu
    · have hal : t' ∈ u.kernel.alive ++ [t] := ht'
      simp only [List.mem_append, List.mem_singleton, he, or_false] at hal
      have hb : (u.create t p n).born t' = u.born t' := by simp [create, he]
      have hl : (u.create t p n).lastCall t' = u.lastCall t' := by simp [create, he]
      rw [IsUser, hb] at hu
      rw [Words, CalledWith, hb, hl]
      have hr : (u.kernel.context.create t n).regs t' = u.kernel.context.regs t' := by
        simp [Context.create, he]
      rw [hr]
      exact h.others t' hal hne hu
  | @syscall rsp hm hu =>
    subst hu
    refine ⟨fun hu => ?_, fun t ht hne hu => ?_⟩
    · obtain ⟨h1, h2, -⟩ := h.own hu
      exact ⟨h1, h2, Or.inr (by simp [syscallEntry])⟩
    · have hl : (u.syscallEntry rsp).lastCall t = u.lastCall t := by
        have hc : t ≠ u.kernel.threadC := hne
        simp [syscallEntry, hc]
      rw [Words, CalledWith, hl]
      exact h.others t ht hne hu

end Cpu

variable [DecidableEq Θ] [DecidableEq P] [DecidableEq S]

/-- In every run from boot in which no event leaves a user thread with wrong words in its frame, the
running thread has its own kernel stack and its own stack pointer in every state. -/
theorem ownStack_of_rightWords {p : P} {memory : Kernel Θ P S}
    (hstate : ∀ t, (memory.thread t).state ≠ .sleep) {es : List (Cpu.Event Θ P S)}
    (hp : Machine.Along (Cpu.step idle) Cpu.RightWords (Cpu.boot idle p memory) es) :
    Machine.Throughout (Cpu.step idle) Cpu.OwnStack (Cpu.boot idle p memory) es := by
  have hI : Machine.Throughout (Cpu.step idle) (fun u => (∃ q, u.Inv idle q) ∧ Cpu.Stacks idle u)
      (Cpu.boot idle p memory) es := by
    refine Machine.throughout_of_along (fun u e u' h hp hs => ?_)
      ⟨⟨_, Cpu.Inv.boot hstate⟩, fun hu => absurd rfl hu, fun t _ _ hu => absurd rfl hu⟩ hp
    obtain ⟨⟨q, h⟩, hst⟩ := h
    obtain ⟨h', he⟩ := h.step hs
    exact ⟨h', hst.effect h h' hp he⟩
  exact fun as bs u he hr => (hI as bs u he hr).2.own

/-- A user thread runs, gives way in a system call, and is resumed. -/
def blockingRun (frame : Trap) : List (Cpu.Event ℕ ℕ ℕ) :=
  [.call (.create 1 1 (userThread 0x1000000)),
    .tick Registers.kernelRegs 5000000 ⟨trapAt 0 1, trapAt 0 2⟩ 6000000,
    .syscall 0x7fff00,
    .call (.block .ready frame),
    .tick Registers.kernelRegs 20000000 ⟨trapAt 0 3, trapAt 0 4⟩ 21000000]

/-- With zeros on the stack it is resumed with the stack pointer 0. -/
theorem not_ownStack_after_block :
    ¬ Machine.Throughout (Cpu.step 0) Cpu.OwnStack (Cpu.boot 0 0 zeroedMemory : Cpu ℕ ℕ ℕ)
      (blockingRun (trapAt 7000000 0x103ff00)) := by
  intro h
  have hrun : (Machine.run (Cpu.step 0) (Cpu.boot 0 0 zeroedMemory : Cpu ℕ ℕ ℕ)
      (blockingRun (trapAt 7000000 0x103ff00))).any (fun u => ¬ u.OwnStack) = true := by
    decide +kernel
  obtain ⟨u, hu, hf⟩ := (Option.any_eq_true _ _).mp hrun
  exact of_decide_eq_true hf (h _ [] u (List.append_nil _) hu)

/-- With the right words on the stack, left over from an earlier frame, it gets its own. -/
theorem ownStack_of_rightWords_block :
    Machine.Throughout (Cpu.step 0) Cpu.OwnStack (Cpu.boot 0 0 zeroedMemory : Cpu ℕ ℕ ℕ)
      (blockingRun ⟨{ Registers.kernelRegs with kernelRsp := 0x1040000, callSaveRsp := 0x7fff00 },
        7000000, show ¬ Registers.kernelRegs.IsUser by decide⟩) :=
  ownStack_of_rightWords zeroedMemory_state (by decide +kernel)

end EpochKernel.Sched
