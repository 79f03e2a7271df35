import EpochKernel.Library.Run

/-! The clock of `time/pit.cpp`: a count of timer interrupts plus the counter of PIT channel 0, which
runs down. -/
namespace EpochKernel.Time
open Library

def nanosecPerClock : UInt64 := 838

/-- `set_pit_reset (0xffff)`. -/
def pitReset : UInt16 := 0xffff

/-- `NANOSEC_PER_CLOCK * reset`. -/
def nanoReset : UInt64 := nanosecPerClock * pitReset.toUInt64

/-- The counter as `time_nsec` puts it together from the two bytes of the latch. -/
def readCounter (latch : UInt16) : UInt64 :=
  let low := latch.toUInt8
  let high := (latch >>> 8).toUInt8
  high.toUInt64 <<< 8 ||| low.toUInt64

/-- The timer chip, `elapsed_time` of `pit_data`, and what `thread::update_time` works on. `handled`,
the interrupts handled so far, and `last`, the latest result of `time_nsec` with the count of
interrupts and the counter it was made from, are not part of the program. -/
structure Clock (Θ : Type*) where
  counter : UInt16 := pitReset
  raised : Bool := false
  latch : Option UInt16 := none
  elapsedTime : UInt64 := 0
  nsecLast : UInt64 := 0
  time : Θ → UInt64
  handled : ℕ := 0
  last : UInt64 := 0
  lastHandled : ℕ := 0
  lastCounter : UInt16 := 0

/-- A pulse of the chip, a timer interrupt, and the two halves of `time_nsec`: the latch command, and
the rest of it, called for its result or by `update_time` of the running thread. -/
inductive Event (Θ : Type*)
  | pulse
  | timerIrq
  | latch
  | timeNsec
  | updateTime (thread : Θ)

namespace Clock
variable {Θ : Type*}

/-- The counter runs down to 0, is reloaded, and the interrupt is raised. -/
def pulse (s : Clock Θ) : Clock Θ :=
  if s.counter = 0 then { s with counter := pitReset, raised := true }
  else { s with counter := s.counter - 1 }

/-- `timer_irq_handler`. -/
def timerIrqHandler (s : Clock Θ) : Clock Θ :=
  { s with
    raised := false
    elapsedTime := s.elapsedTime + nanoReset
    handled := s.handled + 1 }

/-- What `time_nsec` returns after it has latched the counter. -/
def timeNsec (s : Clock Θ) (latch : UInt16) : UInt64 :=
  s.elapsedTime + nanosecPerClock * readCounter latch

/-- The return of `time_nsec`. -/
def record (s : Clock Θ) (latch : UInt16) : Clock Θ :=
  { s with
    latch := none
    last := s.timeNsec latch
    lastHandled := s.handled
    lastCounter := latch }

/-- `update_time`, after `time_nsec` has returned. -/
def updateTime [DecidableEq Θ] (s : Clock Θ) (thread : Θ) (nsecCurrent : UInt64) : Clock Θ :=
  { s with
    time := Function.update s.time thread (s.time thread + (nsecCurrent - s.nsecLast))
    nsecLast := nsecCurrent }

def step [DecidableEq Θ] : Machine (Clock Θ) (Event Θ)
  | s, .pulse => some s.pulse
  | s, .timerIrq => if s.raised then some s.timerIrqHandler else none
  | s, .latch => if s.latch = none then some { s with latch := some s.counter } else none
  | s, .timeNsec => s.latch.map s.record
  | s, .updateTime thread =>
    s.latch.map fun latch => (s.record latch).updateTime thread (s.timeNsec latch)

/-- The result of `time_nsec` is at least the one before, and the difference that `update_time` adds
does not wrap. -/
def Rises (s : Clock Θ) : Event Θ → Prop
  | .timeNsec => ∀ latch ∈ s.latch, s.last ≤ s.timeNsec latch
  | .updateTime _ => ∀ latch ∈ s.latch, s.last ≤ s.timeNsec latch ∧
      (s.timeNsec latch - s.nsecLast).toNat + s.nsecLast.toNat = (s.timeNsec latch).toNat
  | _ => True

/-- Since the result before, a timer interrupt was handled, or the counter was not seen to fall. -/
def Fresh (s : Clock Θ) : Event Θ → Prop
  | .timeNsec | .updateTime _ =>
    ∀ latch ∈ s.latch, s.lastHandled < s.handled ∨ s.lastCounter ≤ latch
  | _ => True

/-- The time fits into 64 bits. -/
def Fits (s : Clock Θ) : Event Θ → Prop
  | .timeNsec | .updateTime _ => s.handled * nanoReset.toNat + nanoReset.toNat < 2 ^ 64
  | _ => True

instance (s : Clock Θ) : (e : Event Θ) → Decidable (s.Fits e)
  | .timeNsec | .updateTime _ => inferInstanceAs (Decidable (_ < _))
  | .pulse | .timerIrq | .latch => isTrue trivial

lemma readCounter_toNat (latch : UInt16) : (readCounter latch).toNat = latch.toNat := by
  have hlt := latch.toNat_lt
  have hlow : latch.toNat % 2 ^ 8 < 2 ^ 8 := Nat.mod_lt _ (by decide)
  have hshift : (latch.toNat / 2 ^ 8) <<< 8 % 2 ^ 64 = (latch.toNat / 2 ^ 8) <<< 8 := by
    rw [Nat.shiftLeft_eq]
    omega
  have hhigh : latch.toNat / 2 ^ 8 % 2 ^ 8 = latch.toNat / 2 ^ 8 := by omega
  simp only [readCounter, UInt64.toNat_or, UInt64.toNat_shiftLeft, UInt8.toNat_toUInt64,
    UInt16.toNat_toUInt8, UInt16.toNat_shiftRight]
  simp only [UInt64.reduceToNat, UInt16.reduceToNat, Nat.reduceMod, Nat.shiftRight_eq_div_pow]
  rw [hhigh, hshift, ← Nat.shiftLeft_add_eq_or_of_lt hlow, Nat.shiftLeft_eq]
  omega

lemma nanoReset_toNat : nanoReset.toNat = 838 * 65535 := by decide

/-- The software count agrees with the interrupts handled, and the latest result with what it was
made from; `update_time` has used that result or an earlier one. -/
structure Inv (s : Clock Θ) : Prop where
  elapsed : s.elapsedTime.toNat = s.handled * nanoReset.toNat % 2 ^ 64
  last : s.last.toNat = s.lastHandled * nanoReset.toNat + 838 * s.lastCounter.toNat
  handled : s.lastHandled ≤ s.handled
  used : s.nsecLast ≤ s.last

variable {s s' : Clock Θ} {e : Event Θ} {latch : UInt16}

lemma Inv.timeNsec (h : s.Inv) (hfit : s.handled * nanoReset.toNat + nanoReset.toNat < 2 ^ 64)
    (latch : UInt16) :
    (s.timeNsec latch).toNat = s.handled * nanoReset.toNat + 838 * latch.toNat := by
  have hlt := latch.toNat_lt
  have hmul : (nanosecPerClock * readCounter latch).toNat = 838 * latch.toNat := by
    rw [UInt64.toNat_mul, readCounter_toNat]
    change 838 * latch.toNat % 2 ^ 64 = _
    omega
  rw [Clock.timeNsec, UInt64.toNat_add, h.elapsed, hmul]
  rw [nanoReset_toNat] at *
  omega

/-- One interrupt outweighs every fall of the counter. -/
lemma Inv.le_timeNsec_iff (h : s.Inv)
    (hfit : s.handled * nanoReset.toNat + nanoReset.toNat < 2 ^ 64) :
    s.last ≤ s.timeNsec latch ↔ s.lastHandled < s.handled ∨ s.lastCounter ≤ latch := by
  have hlt := latch.toNat_lt
  have hlt' := s.lastCounter.toNat_lt
  have hhandled := h.handled
  have hlast := h.last
  have hnow := h.timeNsec hfit latch
  simp only [nanoReset_toNat] at hlast hnow
  constructor
  · intro hle
    have hle' := UInt64.le_iff_toNat_le.mp hle
    by_contra hn
    rw [not_or, UInt16.le_iff_toNat_le] at hn
    have : s.handled = s.lastHandled := by omega
    rw [this] at hnow
    omega
  · intro hor
    apply UInt64.le_iff_toNat_le.mpr
    rcases hor with hmore | hle
    · omega
    · have := UInt16.le_iff_toNat_le.mp hle
      omega

theorem rises_iff (h : s.Inv) (hfit : s.Fits e) : s.Rises e ↔ s.Fresh e := by
  cases e with
  | timeNsec => exact forall₂_congr fun latch _ => h.le_timeNsec_iff hfit
  | updateTime thread =>
    refine forall₂_congr fun latch _ => (and_iff_left_of_imp fun hle => ?_).trans
      (h.le_timeNsec_iff hfit)
    have hused : s.nsecLast ≤ s.timeNsec latch := by
      have hle' := h.used
      rw [UInt64.le_iff_toNat_le] at *
      omega
    rw [UInt64.toNat_sub_of_le _ _ hused]
    exact Nat.sub_add_cancel (UInt64.le_iff_toNat_le.mp hused)
  | pulse => exact Iff.rfl
  | timerIrq => exact Iff.rfl
  | latch => exact Iff.rfl

lemma Inv.record (h : s.Inv) (hfit : s.handled * nanoReset.toNat + nanoReset.toNat < 2 ^ 64)
    (hle : s.last ≤ s.timeNsec latch) : (s.record latch).Inv := by
  refine ⟨h.elapsed, h.timeNsec hfit latch, le_rfl, ?_⟩
  have hle' := h.used
  rw [UInt64.le_iff_toNat_le] at *
  exact hle'.trans hle

variable [DecidableEq Θ]

lemma Inv.step (h : s.Inv) (hfit : s.Fits e) (hr : s.Rises e) (hs : step s e = some s') :
    s'.Inv := by
  cases e with
  | pulse =>
    obtain rfl := Option.some.inj hs
    rw [pulse]
    split_ifs <;> exact ⟨h.elapsed, h.last, h.handled, h.used⟩
  | timerIrq =>
    rw [Clock.step] at hs
    split_ifs at hs
    obtain rfl := Option.some.inj hs
    refine ⟨?_, h.last, Nat.le_succ_of_le h.handled, h.used⟩
    change (s.elapsedTime + nanoReset).toNat = (s.handled + 1) * nanoReset.toNat % 2 ^ 64
    rw [UInt64.toNat_add, h.elapsed, Nat.succ_mul, Nat.mod_add_mod]
  | latch =>
    rw [Clock.step] at hs
    split_ifs at hs
    obtain rfl := Option.some.inj hs
    exact ⟨h.elapsed, h.last, h.handled, h.used⟩
  | timeNsec =>
    obtain ⟨latch, hl, rfl⟩ := Option.map_eq_some_iff.mp hs
    exact h.record hfit (hr latch hl)
  | updateTime thread =>
    obtain ⟨latch, hl, rfl⟩ := Option.map_eq_some_iff.mp hs
    obtain ⟨h1, h2, h3, -⟩ := h.record hfit (hr latch hl).1
    exact ⟨h1, h2, h3, UInt64.le_refl _⟩

/-- In a run from the boot on, of fewer interrupts than fill 64 bits with nanoseconds, the results
of `time_nsec` rise exactly if between any two of them an interrupt is handled or the counter is not
seen to fall. -/
theorem rises_iff_fresh (time : Θ → UInt64) (events : List (Event Θ))
    (hfit : Machine.Along step Fits { time := time } events) :
    Machine.Along step Rises { time := time } events ↔
      Machine.Along step Fresh { time := time } events := by
  have hboot : Inv ({ time := time } : Clock Θ) :=
    ⟨by simp, by simp, le_rfl, UInt64.le_refl _⟩
  refine Machine.along_iff_along (I := Inv) (fun s e s' h hfit hfresh hs => ?_)
    (fun s e h hfit => rises_iff h hfit) hboot hfit
  exact h.step hfit ((rises_iff h hfit).mpr hfresh) hs

theorem rises_iff_fresh_pulse :
    Machine.Along step Rises ({ time := fun _ => 0 } : Clock Unit)
        [.pulse, .latch, .timeNsec, .latch, .updateTime ()] ↔
      Machine.Along step Fresh { time := fun _ => 0 }
        [.pulse, .latch, .timeNsec, .latch, .updateTime ()] :=
  rises_iff_fresh (fun _ => 0) _ (by decide +kernel)

/-- Two results with one pulse of the chip in between: the second is smaller. -/
theorem not_rises_pulse : ¬ Machine.Along step Rises ({ time := fun _ => 0 } : Clock Unit)
    [.latch, .timeNsec, .pulse, .latch, .timeNsec] := by
  intro h
  have hrun : (Machine.run step ({ time := fun _ => 0 } : Clock Unit)
      [.latch, .timeNsec, .pulse, .latch]).any (fun s =>
        s.latch.any fun latch => ¬ s.last ≤ s.timeNsec latch) = true := by
    decide +kernel
  obtain ⟨s, hs, hbad⟩ := (Option.any_eq_true _ _).mp hrun
  obtain ⟨latch, hl, hlt⟩ := (Option.any_eq_true _ _).mp hbad
  exact of_decide_eq_true hlt (h.of_run [_, _, _, _] hs latch hl)

end Clock
end EpochKernel.Time
