import EpochKernel.Library.Run

/-! The spinlock of `arch/x64/sync/spinlock.asm` and `sync/spinlock.cpp`: any number of processors
that execute one instruction at a time on one lock byte. -/
namespace EpochKernel.Sync
open Library

/-- The instructions of the two routines. Jumps go to an index of the routine; memory operands are
the lock byte. -/
inductive Instr
  | cmpZero
  | jnz (target : ℕ)
  | movAl (value : UInt8)
  | xchgAl
  | testAl
  | pause
  | jmp (target : ℕ)
  | ret
  deriving DecidableEq, Repr

inductive Routine
  | spinLock
  | spinTryLock
  deriving DecidableEq, Repr

/-- `.retry` is index 3, `.spin_loop` and `.end_fail` are index 7. -/
def Routine.code : Routine → List Instr
  | .spinLock =>
    [.cmpZero, .jnz 7, .movAl 1, .xchgAl, .testAl, .jnz 7, .ret, .pause, .cmpZero, .jnz 7, .jmp 3]
  | .spinTryLock =>
    [.cmpZero, .jnz 7, .movAl 1, .xchgAl, .testAl, .jnz 7, .ret, .movAl 0, .ret]

/-- `holds` is set by the return of an acquisition and cleared by `unlock`; it is not part of the
program. -/
structure Cpu where
  routine : Option Routine := none
  pc : ℕ := 0
  al : UInt8 := 0
  zf : Bool := false
  holds : Bool := false
  deriving DecidableEq, Repr

/-- One instruction: the lock byte and the processor after it. -/
def Instr.exec (byte : UInt8) (r : Cpu) : Instr → UInt8 × Cpu
  | .cmpZero => (byte, { r with zf := byte = 0, pc := r.pc + 1 })
  | .jnz target => (byte, { r with pc := if r.zf then r.pc + 1 else target })
  | .movAl value => (byte, { r with al := value, pc := r.pc + 1 })
  | .xchgAl => (r.al, { r with al := byte, pc := r.pc + 1 })
  | .testAl => (byte, { r with zf := r.al = 0, pc := r.pc + 1 })
  | .pause => (byte, { r with pc := r.pc + 1 })
  | .jmp target => (byte, { r with pc := target })
  | .ret => (byte, { r with
      routine := none
      holds := r.holds || r.routine = some .spinLock || r.al ≠ 0 })

/-- What a processor does next: a call with arbitrary registers, an instruction of the routine it is
in, or `unlock` by the holder. -/
inductive Action
  | call (routine : Routine) (al : UInt8) (zf : Bool)
  | exec
  | unlock

/-- The lock byte and the processors. -/
structure Spinlock (C : Type*) where
  locked : UInt8 := 0
  cpu : C → Cpu := fun _ => {}

namespace Cpu

/-- The instruction that the processor executes next. -/
def fetch (r : Cpu) : Option Instr := r.routine.bind fun routine => routine.code[r.pc]?

/-- `spin_lock` has exchanged the byte against a zero and is about to return. -/
def Entering (r : Cpu) : Prop :=
  r.routine = some .spinLock ∧
    ((r.pc = 4 ∧ r.al = 0) ∨ (r.pc = 5 ∧ r.zf = true) ∨ r.pc = 6)

/-- The processor holds the lock, from the exchange on. -/
def Acquired (r : Cpu) : Prop := r.holds = true ∨ r.Entering

/-- `spin_lock` does not exchange a zero into the byte, and `spin_try_lock` does not exchange when the
byte is zero. -/
def Careful (byte : UInt8) (r : Cpu) : Prop :=
  r.pc = 3 → (r.routine = some .spinLock → r.al ≠ 0) ∧
    (r.routine = some .spinTryLock → byte ≠ 0)

/-- What holds of the registers of a `spin_try_lock` that is always careful. -/
def Ok (r : Cpu) : Prop :=
  (r.routine = some .spinLock → r.pc ≤ 10) ∧
  (r.routine = some .spinTryLock → r.pc ≤ 8 ∧ r.pc ≠ 6 ∧ (r.pc = 3 ∨ r.pc = 4 → r.al ≠ 0) ∧
    (r.pc = 5 → r.zf = false) ∧ (r.pc = 8 → r.al = 0))

variable {r : Cpu} {byte : UInt8} {i : Instr}

/-- What one careful instruction does: it leaves the lock alone, or takes it when it is free. -/
structure Moves (byte byte' : UInt8) (r r' : Cpu) : Prop where
  ok : r'.Ok
  holds : (byte' ≠ 0 ↔ byte ≠ 0) ∧ (r'.Acquired ↔ r.Acquired) ∨
    byte = 0 ∧ byte' ≠ 0 ∧ r'.Acquired

lemma spinLock_moves (hroutine : r.routine = some .spinLock) (hok : r.Ok) (hc : r.Careful byte)
    (hi : r.fetch = some i) : Moves byte (i.exec byte r).1 r (i.exec byte r).2 := by
  obtain ⟨routine, pc, al, zf, holds⟩ := r
  obtain rfl : routine = some .spinLock := hroutine
  have hpc : pc ≤ 10 := hok.1 rfl
  by_cases hx : pc = 3
  · subst hx
    obtain rfl := Option.some.inj hi
    have hal : al ≠ 0 := (hc rfl).1 rfl
    constructor
    · simp [Ok, Instr.exec]
    · by_cases hb : byte = 0 <;> simp [Acquired, Entering, Instr.exec, hal, hb]
  · interval_cases pc
    all_goals
      obtain rfl := Option.some.inj hi
      constructor
      · cases zf <;> simp [Ok, Instr.exec]
      · cases zf <;> simp_all [Acquired, Entering, Instr.exec]

/-- `spin_try_lock` never takes the lock; where it finds it free, it leaves the byte set. -/
lemma spinTryLock_moves (hroutine : r.routine = some .spinTryLock) (hok : r.Ok)
    (hc : r.Careful byte) (hi : r.fetch = some i) :
    Moves byte (i.exec byte r).1 r (i.exec byte r).2 := by
  obtain ⟨routine, pc, al, zf, holds⟩ := r
  obtain rfl : routine = some .spinTryLock := hroutine
  obtain ⟨hpc, hsix, hal, hzf, hend⟩ := hok.2 rfl
  by_cases hx : pc = 3
  · subst hx
    obtain rfl := Option.some.inj hi
    have hbyte : byte ≠ 0 := (hc rfl).2 rfl
    constructor
    · simp_all [Ok, Instr.exec]
    · simp_all [Acquired, Entering, Instr.exec]
  · interval_cases pc
    all_goals
      obtain rfl := Option.some.inj hi
      constructor
      · cases zf <;> simp_all [Ok, Instr.exec]
      · cases zf <;> simp_all [Acquired, Entering, Instr.exec]

lemma exec_moves (hok : r.Ok) (hc : r.Careful byte) (hi : r.fetch = some i) :
    Moves byte (i.exec byte r).1 r (i.exec byte r).2 := by
  cases hroutine : r.routine with
  | none =>
    rw [fetch, hroutine] at hi
    cases hi
  | some routine =>
    cases routine with
    | spinLock => exact spinLock_moves hroutine hok hc hi
    | spinTryLock => exact spinTryLock_moves hroutine hok hc hi

/-- A careless exchange: a zero goes into the byte although the lock was free and is taken now, or
is held; or the byte is set although the lock stays free. -/
lemma exec_careless (hok : r.Ok) (hc : ¬ r.Careful byte) :
    ∃ i, r.fetch = some i ∧
      ((i.exec byte r).1 = 0 ∧ (byte = 0 ∨ r.Acquired → (i.exec byte r).2.Acquired) ∨
        (i.exec byte r).1 ≠ 0 ∧ byte = 0 ∧ ((i.exec byte r).2.Acquired → r.Acquired)) := by
  obtain ⟨routine, pc, al, zf, holds⟩ := r
  obtain ⟨hpc, hboth⟩ : pc = 3 ∧ ¬ ((routine = some .spinLock → al ≠ 0) ∧
      (routine = some .spinTryLock → byte ≠ 0)) := Classical.not_imp.mp hc
  subst hpc
  cases routine with
  | none => exact absurd ⟨nofun, nofun⟩ hboth
  | some routine =>
    refine ⟨.xchgAl, by cases routine <;> rfl, ?_⟩
    cases routine with
    | spinLock =>
      have hal : al = 0 := by simpa using hboth
      left
      simp [Acquired, Entering, Instr.exec, hal, or_comm]
    | spinTryLock =>
      have hbyte : byte = 0 := by simpa using hboth
      have hal : al ≠ 0 := (hok.2 rfl).2.2.1 (.inl rfl)
      right
      simp [Acquired, Entering, Instr.exec, hal, hbyte]

end Cpu

namespace Spinlock
variable {C : Type*}

/-- At most one processor holds the lock, and the byte is non-zero exactly while one does. -/
def Safe (s : Spinlock C) : Prop :=
  (∀ c d, (s.cpu c).Acquired → (s.cpu d).Acquired → c = d) ∧
    (s.locked ≠ 0 ↔ ∃ c, (s.cpu c).Acquired)

/-- The next step of the processor is a careful one. -/
def Careful (s : Spinlock C) : C × Action → Prop
  | (c, .exec) => (s.cpu c).Careful s.locked
  | _ => True

variable [DecidableEq C]

/-- A step of one processor. -/
def step : Machine (Spinlock C) (C × Action)
  | s, (c, .call routine al zf) =>
    if (s.cpu c).routine = none then some { s with
      cpu := Function.update s.cpu c { s.cpu c with routine := routine, pc := 0, al := al, zf := zf } }
    else none
  | s, (c, .exec) => (s.cpu c).fetch.map fun i =>
    ⟨(i.exec s.locked (s.cpu c)).1, Function.update s.cpu c (i.exec s.locked (s.cpu c)).2⟩
  | s, (c, .unlock) =>
    if (s.cpu c).routine = none ∧ (s.cpu c).holds then
      some ⟨0, Function.update s.cpu c { s.cpu c with holds := false }⟩
    else none

variable {s s' : Spinlock C} {e : C × Action} {c d : C}

/-- The invariant of the runs whose steps are careful. -/
def Inv (s : Spinlock C) : Prop := ∀ c, (s.cpu c).Ok

/-- A step that changes one processor and neither the byte nor what is held. -/
lemma Safe.quiet (h : s.Safe) {r : Cpu} {byte : UInt8} (hbyte : byte ≠ 0 ↔ s.locked ≠ 0)
    (hr : r.Acquired ↔ (s.cpu c).Acquired) :
    Safe { locked := byte, cpu := Function.update s.cpu c r } := by
  have hacq (d : C) : (Function.update s.cpu c r d).Acquired ↔ (s.cpu d).Acquired := by
    by_cases hd : d = c
    · subst hd
      rw [Function.update_self]
      exact hr
    · rw [Function.update_of_ne hd]
  refine ⟨fun d e hd he => h.1 d e ((hacq d).mp hd) ((hacq e).mp he), ?_⟩
  simp only [hbyte, hacq]
  exact h.2

/-- Taking the free lock. -/
lemma Safe.take (h : s.Safe) {r : Cpu} {byte : UInt8} (hfree : s.locked = 0) (hbyte : byte ≠ 0)
    (hr : r.Acquired) : Safe { locked := byte, cpu := Function.update s.cpu c r } := by
  have hnone (d : C) : ¬ (s.cpu d).Acquired := fun hd => h.2.mpr ⟨d, hd⟩ hfree
  have hacq (d : C) (hd : (Function.update s.cpu c r d).Acquired) : d = c := by
    by_contra hne
    rw [Function.update_of_ne hne] at hd
    exact hnone d hd
  refine ⟨fun d e hd he => (hacq d hd).trans (hacq e he).symm, iff_of_true hbyte ⟨c, ?_⟩⟩
  change (Function.update s.cpu c r c).Acquired
  rwa [Function.update_self]

/-- `unlock` by the processor that holds the lock. -/
lemma Safe.unlock (h : s.Safe) (hroutine : (s.cpu c).routine = none) (hholds : (s.cpu c).holds) :
    Safe { locked := 0, cpu := Function.update s.cpu c { s.cpu c with holds := false } } := by
  have hnone (d : C) : ¬ (Function.update s.cpu c { s.cpu c with holds := false } d).Acquired := by
    by_cases hd : d = c
    · subst hd
      rw [Function.update_self]
      simp [Cpu.Acquired, Cpu.Entering, hroutine]
    · rw [Function.update_of_ne hd]
      exact fun ha => hd (h.1 d c ha (.inl hholds))
  exact ⟨fun d e hd _ => absurd hd (hnone d), iff_of_false (by simp) fun ⟨d, hd⟩ => hnone d hd⟩

lemma Inv.update {r : Cpu} {byte : UInt8} (h : s.Inv) (hr : r.Ok) :
    Inv { locked := byte, cpu := Function.update s.cpu c r } := by
  intro d
  by_cases hd : d = c
  · subst hd
    simpa using hr
  · simpa [Function.update_of_ne hd] using h d

lemma Safe.step (hI : s.Inv) (h : s.Safe) (hc : s.Careful e) (hs : Spinlock.step s e = some s') :
    s'.Inv ∧ s'.Safe := by
  obtain ⟨c, action⟩ := e
  cases action with
  | call routine al zf =>
    rw [Spinlock.step] at hs
    split_ifs at hs with hidle
    obtain rfl := Option.some.inj hs
    refine ⟨hI.update ?_, h.quiet Iff.rfl ?_⟩
    · cases routine <;> simp [Cpu.Ok]
    · simp [Cpu.Acquired, Cpu.Entering, hidle]
  | exec =>
    obtain ⟨i, hi, rfl⟩ := Option.map_eq_some_iff.mp hs
    obtain ⟨hok, hmove⟩ := Cpu.exec_moves (hI c) hc hi
    refine ⟨hI.update hok, ?_⟩
    rcases hmove with ⟨hbyte, hr⟩ | ⟨hfree, hbyte, hr⟩
    · exact h.quiet hbyte hr
    · exact h.take hfree hbyte hr
  | unlock =>
    rw [Spinlock.step] at hs
    split_ifs at hs with hidle
    obtain rfl := Option.some.inj hs
    refine ⟨hI.update ?_, h.unlock hidle.1 hidle.2⟩
    exact hI c

lemma Safe.careless (hI : s.Inv) (h : s.Safe) (hc : ¬ s.Careful e) :
    ∃ s', Spinlock.step s e = some s' ∧ ¬ s'.Safe := by
  obtain ⟨c, action⟩ := e
  cases action with
  | call routine al zf => exact absurd trivial hc
  | unlock => exact absurd trivial hc
  | exec =>
    obtain ⟨i, hi, hbad⟩ := Cpu.exec_careless (hI c) hc
    refine ⟨_, Option.map_eq_some_iff.mpr ⟨i, hi, rfl⟩, fun hsafe => ?_⟩
    rcases hbad with ⟨hzero, hr⟩ | ⟨hset, hfree, hr⟩
    · have hnone (d : C) : ¬ (Function.update s.cpu c (i.exec s.locked (s.cpu c)).2 d).Acquired :=
        fun hd => hsafe.2.mpr ⟨d, hd⟩ hzero
      have hself := hnone c
      rw [Function.update_self] at hself
      have hlocked : s.locked ≠ 0 := fun he => hself (hr (.inl he))
      obtain ⟨d, hd⟩ := h.2.mp hlocked
      by_cases hdc : d = c
      · exact hself (hr (.inr (hdc ▸ hd)))
      · have := hnone d
        rw [Function.update_of_ne hdc] at this
        exact this hd
    · obtain ⟨d, hd⟩ : ∃ d, (Function.update s.cpu c (i.exec s.locked (s.cpu c)).2 d).Acquired :=
        hsafe.2.mp hset
      have hnone : ¬ (s.cpu d).Acquired := fun ha => h.2.mpr ⟨d, ha⟩ hfree
      by_cases hdc : d = c
      · subst hdc
        rw [Function.update_self] at hd
        exact hnone (hr hd)
      · rw [Function.update_of_ne hdc] at hd
        exact hnone hd

/-- In every state of a run the lock excludes, and the byte tells whether it is held, exactly if
every exchange of the run is careful. -/
theorem safe_iff_careful (steps : List (C × Action)) :
    Machine.Throughout step Safe {} steps ↔ Machine.Along step Careful {} steps := by
  have hfree (c : C) : ¬ (({} : Spinlock C).cpu c).Acquired := by
    simp [Cpu.Acquired, Cpu.Entering]
  have hboot : Safe ({} : Spinlock C) :=
    ⟨fun c _ hc _ => absurd hc (hfree c), iff_of_false (by simp) fun ⟨c, hc⟩ => hfree c hc⟩
  exact Machine.throughout_iff_along (I := Inv) (fun s e s' hI h hc hs => Safe.step hI h hc hs)
    (fun s e hI h hc => Safe.careless hI h hc) (fun c => ⟨nofun, nofun⟩) hboot

/-- A processor that comes with `al` 0 to a taken lock acquires it with a zero in the byte, after which
another one acquires it too. -/
theorem not_safe_contended : ∃ s : Spinlock (Fin 2),
    Machine.run step {} ([(0, .call .spinLock 7 false)] ++ List.replicate 7 (0, .exec) ++
      [(1, .call .spinLock 0 false), (1, .exec), (1, .exec), (0, .unlock)] ++
      List.replicate 8 (1, .exec) ++ [(0, .call .spinLock 7 false)] ++
      List.replicate 7 (0, .exec)) = some s ∧
    (s.cpu 0).holds = true ∧ (s.cpu 1).holds = true ∧ ¬ s.Safe := by
  have hunsafe (o : Option (Spinlock (Fin 2)))
      (ho : o.any (fun s => (s.cpu 0).holds ∧ (s.cpu 1).holds) = true) :
      ∃ s, o = some s ∧ (s.cpu 0).holds = true ∧ (s.cpu 1).holds = true ∧ ¬ s.Safe := by
    obtain ⟨s, hs, hboth⟩ := (Option.any_eq_true _ _).mp ho
    obtain ⟨h0, h1⟩ := of_decide_eq_true hboth
    exact ⟨s, hs, h0, h1, fun h => absurd (h.1 0 1 (.inl h0) (.inl h1)) (by decide)⟩
  exact hunsafe _ (by decide +kernel)

end Spinlock
end EpochKernel.Sync
