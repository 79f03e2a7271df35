import EpochKernel.Library.Run

/-! The nesting of `lock ()` and `unlock ()` (`cli_safe` and `sti_safe` of `arch/x64/common.cpp`)
across switches of threads: one counter for all threads, one interrupt flag for each. -/
namespace EpochKernel.Sched
open EpochKernel.Library

/-- `irqC` counts the open locks and `flag` is the interrupt flag of the CPU; `saved` are the flags in
the saved `rflags` of the threads that do not run, and `inHandler` says who was interrupted by the
timer and has not returned. `opened` and `closed` are not part of the program: who opened the locks
that are open, and whether the last event closed the last lock of a thread outside of handlers. -/
structure Irq (Θ : Type*) where
  irqC : UInt32
  flag : Bool
  threadC : Θ
  threads : List Θ
  saved : Θ → Bool
  inHandler : Θ → Bool
  opened : List Θ
  closed : Bool

inductive Irq.Event (Θ : Type*)
  | create (t : Θ)
  | lock
  | unlock
  | irq
  | irqReturn (out : Option Θ)
  | intSched (out : Option Θ)

namespace Irq
variable {Θ : Type*} [DecidableEq Θ]

/-- `cli_safe`. -/
def cliSafe (s : Irq Θ) : Irq Θ := { s with irqC := s.irqC + 1, flag := false }

/-- `sti_safe`. -/
def stiSafe (s : Irq Θ) : Irq Θ :=
  let irqC := (if s.irqC > 1 then s.irqC else 1) - 1
  { s with irqC := irqC, flag := if irqC = 0 then true else s.flag }

/-- The running thread opens one more lock. -/
def lock (s : Irq Θ) : Irq Θ :=
  { s.cliSafe with opened := s.threadC :: s.opened, closed := false }

/-- The running thread closes a lock of its own. -/
def unlock (s : Irq Θ) : Irq Θ :=
  let opened := s.opened.erase s.threadC
  { s.stiSafe with
    opened := opened
    closed := !s.inHandler s.threadC && decide (s.threadC ∉ opened) }

/-- A new thread, with the interrupt flag set. -/
def create (s : Irq Θ) (t : Θ) : Irq Θ :=
  { s with
    threads := t :: s.threads
    saved := Function.update s.saved t true
    inHandler := Function.update s.inHandler t false
    closed := false }

/-- The running thread is left with the flag `f` in its saved registers. -/
def switch (s : Irq Θ) (f : Bool) (t : Θ) : Irq Θ :=
  { s with
    threadC := t
    flag := s.saved t
    saved := Function.update s.saved s.threadC f
    closed := false }

/-- A handler that is entered by an interrupt gate, with interrupts disabled. -/
def irq (s : Irq Θ) : Irq Θ :=
  { s with flag := false, inHandler := Function.update s.inHandler s.threadC true, closed := false }

/-- The end of the timer handler. It has closed all its locks, and it was entered with interrupts
enabled. -/
def irqReturn (s : Irq Θ) (out : Option Θ) : Irq Θ :=
  let s := { s with
    flag := true, inHandler := Function.update s.inHandler s.threadC false, closed := false }
  match out with
  | none => s
  | some t => s.switch true t

/-- A switch is to another thread that there is. -/
def Switchable (s : Irq Θ) (out : Option Θ) : Prop := ∀ t ∈ out.toList, t ∈ s.threads ∧ t ≠ s.threadC

instance (s : Irq Θ) (out : Option Θ) : Decidable (s.Switchable out) :=
  inferInstanceAs (Decidable (∀ _ ∈ _, _))

def step : Machine (Irq Θ) (Event Θ)
  | s, .create t => if t ∉ s.threads then some (s.create t) else none
  | s, .lock => some s.lock
  | s, .unlock => if s.threadC ∈ s.opened then some s.unlock else none
  | s, .irq => if s.flag = true ∧ s.inHandler s.threadC = false then some s.irq else none
  | s, .irqReturn out =>
    if s.inHandler s.threadC = true ∧ s.threadC ∉ s.opened ∧ s.Switchable out then
      some (s.irqReturn out)
    else none
  | s, .intSched out =>
    if s.Switchable out then
      match out with
      | none => some { s with closed := false }
      | some t => some (s.switch s.flag t)
    else none

/-- At boot interrupts are disabled, which counts as a lock of the idle thread. -/
def boot (idle : Θ) : Irq Θ where
  irqC := 1
  flag := false
  threadC := idle
  threads := [idle]
  saved := fun _ => false
  inHandler := fun _ => false
  opened := [idle]
  closed := false

/-- After an `unlock ()` that closes the last lock of a thread interrupts are enabled. -/
def Enabled (s : Irq Θ) : Prop := s.closed = true → s.flag = true ∧ s.irqC = 0

instance (s : Irq Θ) : Decidable s.Enabled := inferInstanceAs (Decidable (_ → _))

/-- The counter has room for one more open lock. -/
def NoWrap (s : Irq Θ) : Event Θ → Prop
  | .lock => s.opened.length + 1 < 2 ^ 32
  | _ => True

/-- A thread that closes its last lock outside of handlers finds no other thread in a lock. -/
def Alone (s : Irq Θ) : Event Θ → Prop
  | .unlock => s.inHandler s.threadC = false → s.opened.count s.threadC = 1 →
      ∀ t ∈ s.opened, t = s.threadC
  | _ => True

instance (s : Irq Θ) (e : Event Θ) : Decidable (s.NoWrap e) := by
  cases e <;> unfold NoWrap <;> infer_instance

instance (s : Irq Θ) (e : Event Θ) : Decidable (s.Alone e) := by
  cases e <;> unfold Alone <;> infer_instance

/-- The counter is the number of open locks, and a thread with the flag set has none. -/
structure Counted (s : Irq Θ) : Prop where
  irqC : s.irqC.toNat = s.opened.length
  small : s.opened.length < 2 ^ 32
  flag : s.flag = true → s.threadC ∉ s.opened
  saved : ∀ t ∈ s.threads, t ≠ s.threadC → s.saved t = true → t ∉ s.opened
  opened : ∀ t ∈ s.opened, t ∈ s.threads

variable {s s' : Irq Θ} {e : Event Θ} {t : Θ}

lemma Counted.stiSafe (h : s.Counted) (ht : s.threadC ∈ s.opened) :
    s.stiSafe.irqC.toNat = (s.opened.erase s.threadC).length := by
  have hpos := List.length_pos_of_mem ht
  have hirq := h.irqC
  rw [List.length_erase_of_mem ht, ← hirq]
  change ((if s.irqC > 1 then s.irqC else 1) - 1).toNat = _
  split_ifs with hgt
  · have hlt : (1 : UInt32).toNat < s.irqC.toNat := UInt32.lt_iff_toNat_lt.mp hgt
    rw [UInt32.toNat_sub_of_le _ _ (UInt32.le_iff_toNat_le.mpr hlt.le)]
    rfl
  · have hle : s.irqC.toNat ≤ 1 := by simpa [UInt32.lt_iff_toNat_lt] using hgt
    have : s.irqC.toNat = 1 := by omega
    rw [this]
    rfl

lemma Counted.unlock (h : s.Counted) (ht : s.threadC ∈ s.opened) : s.unlock.Counted := by
  have hirq := h.stiSafe ht
  have hsub : ∀ t ∈ s.opened.erase s.threadC, t ∈ s.opened := fun t => List.mem_of_mem_erase
  refine ⟨hirq, ?_, fun hf => ?_, fun t hal hne hs => ?_, fun t hop => h.opened t (hsub t hop)⟩
  · have := h.small
    have := List.length_erase_of_mem ht
    change (s.opened.erase s.threadC).length < _
    omega
  · -- the flag was off in the lock, so `sti` has been executed
    change (if s.stiSafe.irqC = 0 then true else s.flag) = true at hf
    split_ifs at hf with h0
    · rw [h0] at hirq
      change s.threadC ∉ s.opened.erase s.threadC
      rw [List.length_eq_zero_iff.mp hirq.symm]
      exact List.not_mem_nil
    · exact absurd ht (h.flag hf)
  · exact fun hop => h.saved t hal hne hs (hsub t hop)

/-- An `unlock ()` that closes the last lock of a thread leaves interrupts enabled exactly when no
other lock is open. -/
lemma Counted.enabled_iff (h : s.Counted) (ht : s.threadC ∈ s.opened) :
    s.unlock.Enabled ↔ s.Alone .unlock := by
  have hirq := h.stiSafe ht
  have hoff : s.flag = false := by
    by_contra hf
    exact h.flag (by simpa using hf) ht
  have hzero : s.stiSafe.irqC = 0 ↔ s.opened.erase s.threadC = [] := by
    rw [← List.length_eq_zero_iff, ← hirq, ← UInt32.toNat_inj]
    rfl
  have hflag : s.stiSafe.flag = true ↔ s.stiSafe.irqC = 0 := by
    change (if s.stiSafe.irqC = 0 then true else s.flag) = true ↔ _
    rw [hoff]
    split_ifs with h0 <;> simp [h0]
  have hcount := List.count_pos_iff.mpr ht
  have hclosed : s.unlock.closed = true ↔
      s.inHandler s.threadC = false ∧ s.opened.count s.threadC = 1 := by
    have hmem : s.threadC ∉ s.opened.erase s.threadC ↔ s.opened.count s.threadC = 1 := by
      rw [← List.count_eq_zero, List.count_erase_self]
      omega
    rw [← hmem]
    simp [Irq.unlock]
  have halone : s.opened.count s.threadC = 1 →
      (s.opened.erase s.threadC = [] ↔ ∀ t ∈ s.opened, t = s.threadC) := by
    intro h1
    rw [← List.length_eq_zero_iff, List.length_erase_of_mem ht]
    have hlen : (∀ t ∈ s.opened, s.threadC = t) ↔ s.opened.count s.threadC = s.opened.length :=
      List.count_eq_length.symm
    simp only [eq_comm (b := s.threadC), hlen, h1]
    have := List.length_pos_of_mem ht
    omega
  change (s.unlock.closed = true → s.stiSafe.flag = true ∧ s.stiSafe.irqC = 0) ↔ _
  rw [hclosed, hflag, hzero, Alone, and_self, and_imp]
  exact imp_congr_right fun _ => imp_congr_right halone

omit [DecidableEq Θ] in
lemma Counted.lock (h : s.Counted) (hc : s.threadC ∈ s.threads) (hn : s.NoWrap .lock) :
    s.lock.Counted := by
  have hn : s.opened.length + 1 < 2 ^ 32 := hn
  refine ⟨?_, by simpa [Irq.lock] using hn, nofun, fun t hal hne hs => ?_, fun t hop => ?_⟩
  · change (s.irqC + 1).toNat = s.opened.length + 1
    rw [UInt32.toNat_add, h.irqC, UInt32.toNat_one, Nat.mod_eq_of_lt hn]
  · simp only [Irq.lock, List.mem_cons, not_or]
    exact ⟨hne, h.saved t hal hne hs⟩
  · rcases List.mem_cons.mp hop with rfl | hop
    · exact hc
    · exact h.opened t hop

/-- The thread that is left takes its flag with it. -/
lemma Counted.switch {f : Bool} (h : s.Counted) (hf : f = true → s.threadC ∉ s.opened)
    (ht : t ∈ s.threads) (hne : t ≠ s.threadC) : (s.switch f t).Counted := by
  refine ⟨h.irqC, h.small, fun hs => h.saved t ht hne hs, fun t' hal hne' hs => ?_, h.opened⟩
  by_cases hc : t' = s.threadC
  · subst hc
    exact hf (by simpa [Irq.switch] using hs)
  · exact h.saved t' hal hc (by simpa [Irq.switch, hc] using hs)

theorem Counted.step (h : s.Counted) (hc : s.threadC ∈ s.threads) (hn : s.NoWrap e)
    (hs : Irq.step s e = some s') :
    s'.Counted ∧ s'.threadC ∈ s'.threads ∧ (e ≠ .unlock → s'.closed = false) := by
  cases e with
  | create t =>
    obtain ⟨hnew, hs⟩ := Option.ite_none_right_eq_some.mp hs
    obtain rfl := Option.some.inj hs
    refine ⟨⟨h.irqC, h.small, h.flag, fun t' hal hne hsv => ?_, fun t' hop =>
      List.mem_cons_of_mem t (h.opened t' hop)⟩, List.mem_cons_of_mem t hc, fun _ => rfl⟩
    by_cases he : t' = t
    · subst he
      exact fun hop => hnew (h.opened t' hop)
    · have hal' : t' ∈ s.threads := (List.mem_cons.mp hal).resolve_left he
      exact h.saved t' hal' hne (by simpa [Irq.create, he] using hsv)
  | lock =>
    obtain rfl := Option.some.inj hs
    exact ⟨h.lock hc hn, hc, fun _ => rfl⟩
  | unlock =>
    obtain ⟨ht, hs⟩ := Option.ite_none_right_eq_some.mp hs
    obtain rfl := Option.some.inj hs
    exact ⟨h.unlock ht, hc, fun hne => absurd rfl hne⟩
  | irq =>
    obtain ⟨-, hs⟩ := Option.ite_none_right_eq_some.mp hs
    obtain rfl := Option.some.inj hs
    exact ⟨⟨h.irqC, h.small, nofun, h.saved, h.opened⟩, hc, fun _ => rfl⟩
  | irqReturn out =>
    obtain ⟨⟨-, hop, hsw⟩, hs⟩ := Option.ite_none_right_eq_some.mp hs
    obtain rfl := Option.some.inj hs
    have h₁ : Counted { s with
        flag := true, inHandler := Function.update s.inHandler s.threadC false, closed := false } :=
      ⟨h.irqC, h.small, fun _ => hop, h.saved, h.opened⟩
    cases out with
    | none => exact ⟨h₁, hc, fun _ => rfl⟩
    | some t =>
      obtain ⟨ht, hne⟩ := hsw t (by simp)
      exact ⟨h₁.switch (fun _ => hop) ht hne, ht, fun _ => rfl⟩
  | intSched out =>
    obtain ⟨hsw, hs⟩ := Option.ite_none_right_eq_some.mp hs
    cases out with
    | none =>
      obtain rfl := Option.some.inj hs
      exact ⟨⟨h.irqC, h.small, h.flag, h.saved, h.opened⟩, hc, fun _ => rfl⟩
    | some t =>
      obtain rfl := Option.some.inj hs
      obtain ⟨ht, hne⟩ := hsw t (by simp)
      exact ⟨h.switch h.flag ht hne, ht, fun _ => rfl⟩

/-- In a run from boot in which the counter does not wrap, every thread that closes its last lock
finds interrupts enabled if and only if nobody else is in a lock each time. -/
theorem enabled_iff_alone (idle : Θ) {es : List (Event Θ)}
    (hn : Machine.Along step NoWrap (boot idle) es) :
    Machine.Throughout step Enabled (boot idle) es ↔ Machine.Along step Alone (boot idle) es := by
  refine Machine.throughout_iff_along_of (I := fun s => s.Counted ∧ s.threadC ∈ s.threads) ?_ ?_
    ⟨⟨rfl, by simp [boot], nofun, fun t _ _ hs => ?_, fun t ht => ht⟩, by simp [boot]⟩ nofun hn
  · rintro s e s' ⟨h, hc⟩ - hn hp hs
    obtain ⟨h', hc', hcl⟩ := h.step hc hn hs
    refine ⟨⟨h', hc'⟩, fun hclosed => ?_⟩
    by_cases he : e = .unlock
    · subst he
      obtain ⟨ht, hs⟩ := Option.ite_none_right_eq_some.mp hs
      obtain rfl := Option.some.inj hs
      exact (h.enabled_iff ht).mpr hp hclosed
    · simp [hcl he] at hclosed
  · rintro s e ⟨h, hc⟩ - - hp
    cases e with
    | unlock =>
      have ht : s.threadC ∈ s.opened := by
        by_contra ht
        refine hp fun _ hcount => absurd (List.count_pos_iff.mp ?_) ht
        omega
      exact ⟨_, if_pos ht, fun hen => hp ((h.enabled_iff ht).mp hen)⟩
    | _ => exact absurd trivial hp
  · exact absurd hs (by simp [boot])

/-- A thread blocks in its lock, and the next one opens and closes a lock. -/
def blockedRun : List (Event ℕ) :=
  [.create 1, .create 2, .unlock, .irq, .irqReturn (some 1), .lock, .intSched (some 2), .lock,
    .unlock]

theorem not_enabled_after_block :
    ¬ Machine.Throughout step Enabled (boot 0) blockedRun := by
  intro h
  have hrun : (Machine.run step (boot 0) blockedRun).any (fun s => ¬ s.Enabled) = true := by
    decide +kernel
  obtain ⟨s, hs, hf⟩ := (Option.any_eq_true _ _).mp hrun
  exact of_decide_eq_true hf (h _ [] s (List.append_nil _) hs)

/-- Without a switch inside of a lock interrupts are enabled after each of them. -/
theorem enabled_iff_alone_balanced :
    Machine.Throughout step Enabled (boot 0)
      [.create 1, .unlock, .lock, .lock, .unlock, .unlock, .irq, .lock, .unlock,
        .irqReturn (some 1), .lock, .unlock] :=
  (enabled_iff_alone 0 (by decide +kernel)).mpr (by decide +kernel)

end Irq
end EpochKernel.Sched
