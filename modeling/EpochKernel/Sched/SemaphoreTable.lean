import EpochKernel.Sched.Run
import EpochKernel.Util.ArrayList

/-! The semaphore ids of `sched/process.cpp` and the system calls that take one. Ids come from user
space and are not checked before the table is read. -/
namespace EpochKernel.Sched
open EpochKernel.Util EpochKernel.Library

/-- `free_id` and `semaphores` of a process. -/
structure SemaphoreTable (S : Type*) where
  freeId : UInt64
  semaphores : ArrayList S

namespace SemaphoreTable
variable {S : Type*}

/-- `j` at the end of the loop of `create_semaphore`, which looks for the next `NULL` entry. -/
def nextNull (l : ArrayList S) : ℕ → UInt64 → UInt64
  | 0, j => j
  | n + 1, j => if j.toNat < l.len ∧ l.get j.toNat ≠ none then nextNull l n (j + 1) else j

/-- The `free_id` that `create_semaphore` leaves behind. -/
def nextFreeId (t : SemaphoreTable S) : UInt64 :=
  if t.freeId.toNat = t.semaphores.len then t.freeId + 1
  else
    let j := nextNull t.semaphores t.semaphores.len (t.freeId + 1)
    if j.toNat ≤ t.semaphores.len then j else t.freeId

/-- `process::create_semaphore` after `new` has returned `sem`; the id -1 stands for a failure. The
constructor writes its fields before the test for `NULL`, so that the call comes back only where the
heap has an object. -/
def createSemaphore (t : SemaphoreTable S) (sem : S) : UInt64 × SemaphoreTable S :=
  let i := t.freeId
  let t := { t with freeId := t.nextFreeId }
  match t.semaphores.set i.toNat (some sem) with
  | none => (-1, t)
  | some l => (i, { t with semaphores := l })

/-- `process::get_semaphore`. -/
def getSemaphore (t : SemaphoreTable S) (id : UInt64) : Option S := t.semaphores.get id.toNat

/-- `process::delete_semaphore` but for `reset_ready`. -/
def deleteSemaphore (t : SemaphoreTable S) (id : UInt64) : SemaphoreTable S :=
  let t := if id < t.freeId then { t with freeId := id } else t
  { t with semaphores := (t.semaphores.set id.toNat none).getD t.semaphores }

end SemaphoreTable

/-- The tables of all processes beside the scheduler. `live` are the ids handed out and not deleted
since, with their semaphores; it is not part of the program. -/
structure Processes (Θ P S : Type*) where
  kernel : Kernel Θ P S
  table : P → SemaphoreTable S
  live : P → List (UInt64 × S)

/-- The system calls on semaphores, made by the process of the running thread; `sem` is the object
that the kernel heap returns. Whatever happens between two of them is `elapse`. -/
inductive Syscall (Θ P S : Type*)
  | create (n : UInt64) (sem : S)
  | delete (id : UInt64) (i : Trap)
  | lock (id : UInt64) (i : Trap)
  | tryLock (id : UInt64)
  | unlock (id : UInt64) (i : Trap)
  | elapse (k : Kernel Θ P S)

namespace Processes
variable {Θ P S : Type*}

section Model
variable [DecidableEq Θ] [DecidableEq P] [DecidableEq S]

/-- Every process starts with `free_id` 0 and an empty array. -/
def init (k : Kernel Θ P S) (memory : P → ℕ → Option S) : Processes Θ P S :=
  ⟨k, fun p => ⟨0, { list := memory p }⟩, fun _ => []⟩

def procC (s : Processes Θ P S) : P := s.kernel.procC

def getSemaphore (s : Processes Θ P S) (id : UInt64) : Option S :=
  (s.table s.procC).getSemaphore id

def setTable (s : Processes Θ P S) (t : SemaphoreTable S) : Processes Θ P S :=
  { s with table := Function.update s.table s.procC t }

def setLive (s : Processes Θ P S) (l : List (UInt64 × S)) : Processes Θ P S :=
  { s with live := Function.update s.live s.procC l }

/-- `sys_create_semaphore`: the id and the state after the call. -/
def create (s : Processes Θ P S) (n : UInt64) (sem : S) : UInt64 × Processes Θ P S :=
  let (id, t) := (s.table s.procC).createSemaphore sem
  let s' := { s.setTable t with kernel := s.kernel.createSemaphore sem n.toNat s.procC }
  (id, if id = -1 then s' else s'.setLive ((id, sem) :: s.live s.procC))

/-- `sys_delete_semaphore`. -/
def delete (s : Processes Θ P S) (id : UInt64) (i : Trap) : Bool × Processes Θ P S :=
  match s.getSemaphore id with
  | none => (false, s)
  | some m =>
    let s' := s.setTable ((s.table s.procC).deleteSemaphore id)
    (true, { s'.setLive ((s.live s.procC).filter fun e => e.1 ≠ id) with
      kernel := s.kernel.resetReady m i })

/-- `proc_c ().get_semaphore (id)->f ()`: a call through `NULL` has no successor. -/
def onSemaphore (s : Processes Θ P S) (id : UInt64) (f : Kernel Θ P S → S → Kernel Θ P S) :
    Option (Processes Θ P S) :=
  (s.getSemaphore id).map fun m => { s with kernel := f s.kernel m }

def step : Machine (Processes Θ P S) (Syscall Θ P S)
  | s, .create n sem => some (s.create n sem).2
  | s, .delete id i => some (s.delete id i).2
  | s, .lock id i => s.onSemaphore id fun k m => k.semLock m i
  | s, .tryLock id => s.onSemaphore id fun k m => (k.semTryLock m).2
  | s, .unlock id i => s.onSemaphore id fun k m => k.semUnlock m i
  | s, .elapse k => some { s with kernel := k }

/-- The ids handed out name their semaphores. -/
def Named (s : Processes Θ P S) : Prop :=
  ∀ p, ∀ e ∈ s.live p, (s.table p).getSemaphore e.1 = some e.2

/-- A call with an id that names no live semaphore changes nothing. -/
def Ignores (s : Processes Θ P S) (id : UInt64) (c : Syscall Θ P S) : Prop :=
  (∀ e ∈ s.live s.procC, e.1 ≠ id) → step s c = some s

/-- What a call promises: a new id that names the new semaphore, and no effect for dead ids. -/
def Promise (s : Processes Θ P S) : Syscall Θ P S → Prop
  | .create n sem => (∀ e ∈ s.live s.procC, e.1 ≠ (s.create n sem).1) ∧
      ((s.create n sem).2.table s.procC).getSemaphore (s.create n sem).1 = some sem
  | .delete id i => s.Ignores id (.delete id i)
  | .lock id i => s.Ignores id (.lock id i)
  | .tryLock id => s.Ignores id (.tryLock id)
  | .unlock id i => s.Ignores id (.unlock id i)
  | .elapse _ => True

/-- The call keeps its promise, and afterwards every live id still names its semaphore. -/
def Meets (s : Processes Θ P S) (c : Syscall Θ P S) : Prop :=
  s.Promise c ∧ ∀ s', step s c = some s' → s'.Named

/-- No table has room for an id, and no id is live. -/
def Empty (s : Processes Θ P S) : Prop :=
  ∀ p, (s.table p).semaphores.len = 0 ∧ s.live p = []

end Model

lemma empty_init (k : Kernel Θ P S) (memory : P → ℕ → Option S) : (init k memory).Empty :=
  fun _ => ⟨rfl, rfl⟩

variable {s s' : Processes Θ P S}

lemma Empty.named (h : s.Empty) : s.Named := by
  intro p e he
  rw [(h p).2] at he
  cases he

lemma Empty.getSemaphore (h : s.Empty) (id : UInt64) : s.getSemaphore id = none :=
  ArrayList.get_of_len_le (by simp [(h s.procC).1])

lemma Empty.onSemaphore (h : s.Empty) (id : UInt64) (f : Kernel Θ P S → S → Kernel Θ P S) :
    s.onSemaphore id f = none := by
  rw [Processes.onSemaphore, h.getSemaphore]
  rfl

/-- The array has no entry at the id that `create_semaphore` computes, and is not extended. -/
lemma createSemaphore_of_len_eq_zero {t : SemaphoreTable S} (ht : t.semaphores.len = 0)
    (sem : S) :
    (t.createSemaphore sem).1 = -1 ∧ (t.createSemaphore sem).2.semaphores.len = 0 := by
  have hset : t.semaphores.set t.freeId.toNat (some sem) = none :=
    ArrayList.set_of_len_le (by simp [ht])
  rw [SemaphoreTable.createSemaphore]
  dsimp only
  rw [hset]
  exact ⟨rfl, ht⟩

variable [DecidableEq P]

lemma Empty.setTable (h : s.Empty) {t : SemaphoreTable S} (ht : t.semaphores.len = 0) :
    (s.setTable t).Empty := by
  intro p
  refine ⟨?_, (h p).2⟩
  change (Function.update s.table s.procC t p).semaphores.len = 0
  by_cases hp : p = s.procC
  · rw [hp, Function.update_self]
    exact ht
  · rw [Function.update_of_ne hp]
    exact (h p).1

variable [DecidableEq S]

lemma Empty.create (h : s.Empty) (n : UInt64) (sem : S) :
    (s.create n sem).1 = -1 ∧ (s.create n sem).2.Empty := by
  obtain ⟨hid, hlen⟩ := createSemaphore_of_len_eq_zero (h s.procC).1 sem
  refine ⟨hid, ?_⟩
  rw [Processes.create]
  dsimp only
  rw [if_pos hid]
  exact h.setTable hlen

variable [DecidableEq Θ]

lemma Empty.delete (h : s.Empty) (id : UInt64) (i : Trap) : s.delete id i = (false, s) := by
  rw [Processes.delete, h.getSemaphore]

lemma Empty.of_step (h : s.Empty) {c : Syscall Θ P S} (hs : step s c = some s') : s'.Empty := by
  cases c with
  | create n sem =>
    cases hs
    exact (h.create n sem).2
  | delete id i =>
    cases hs
    rw [h.delete]
    exact h
  | lock id i =>
    have hnone : Processes.step s (.lock id i) = none :=
      h.onSemaphore id fun k m => k.semLock m i
    cases hnone.symm.trans hs
  | tryLock id =>
    have hnone : Processes.step s (.tryLock id) = none :=
      h.onSemaphore id fun k m => (k.semTryLock m).2
    cases hnone.symm.trans hs
  | unlock id i =>
    have hnone : Processes.step s (.unlock id i) = none :=
      h.onSemaphore id fun k m => k.semUnlock m i
    cases hnone.symm.trans hs
  | elapse k =>
    cases hs
    exact h

end Processes

/-- The calls that need no semaphore: any deletion. -/
def Syscall.Harmless {Θ P S : Type*} : Syscall Θ P S → Prop
  | .delete _ _ | .elapse _ => True
  | .create _ _ | .lock _ _ | .tryLock _ | .unlock _ _ => False

namespace Processes
variable {Θ P S : Type*} [DecidableEq Θ] [DecidableEq P] [DecidableEq S] {s : Processes Θ P S}

/-- A call through an id dereferences `NULL`: it has no successor at all. -/
lemma Empty.not_ignores (h : s.Empty) (id : UInt64) {c : Syscall Θ P S} (hc : step s c = none) :
    ¬ s.Ignores id c := by
  intro hi
  have hlive : ∀ e ∈ s.live s.procC, e.1 ≠ id := by simp [(h s.procC).2]
  cases hc.symm.trans (hi hlive)

lemma Empty.meets_iff (h : s.Empty) (c : Syscall Θ P S) : s.Meets c ↔ c.Harmless := by
  have hn : ∀ s', step s c = some s' → s'.Named := fun s' hs => (h.of_step hs).named
  rw [Meets, and_iff_left hn]
  cases c with
  | create n sem =>
    obtain ⟨hid, hem⟩ := h.create n sem
    refine iff_of_false (fun hm => ?_) not_false
    have hnone : ((s.create n sem).2.table s.procC).getSemaphore (s.create n sem).1 = none :=
      ArrayList.get_of_len_le (by simp [(hem s.procC).1])
    cases hnone.symm.trans hm.2
  | delete id i =>
    refine iff_of_true (fun _ => ?_) trivial
    change some (s.delete id i).2 = some s
    rw [h.delete]
  | lock id i =>
    have hnone : Processes.step s (.lock id i) = none :=
      h.onSemaphore id fun k m => k.semLock m i
    exact iff_of_false (h.not_ignores id hnone) not_false
  | tryLock id =>
    have hnone : Processes.step s (.tryLock id) = none :=
      h.onSemaphore id fun k m => (k.semTryLock m).2
    exact iff_of_false (h.not_ignores id hnone) not_false
  | unlock id i =>
    have hnone : Processes.step s (.unlock id i) = none :=
      h.onSemaphore id fun k m => k.semUnlock m i
    exact iff_of_false (h.not_ignores id hnone) not_false
  | elapse k => exact iff_of_true trivial trivial

/-- The table is never extended, so a run keeps its promises only as long as it neither creates a
semaphore nor uses one. -/
theorem meets_iff_harmless (k : Kernel Θ P S) (memory : P → ℕ → Option S)
    (calls : List (Syscall Θ P S)) :
    Machine.Along step Meets (init k memory) calls ↔ ∀ c ∈ calls, c.Harmless := by
  refine Machine.along_iff_forall (I := Empty) (fun s c h => h.meets_iff c)
    (fun s c s' h hs => h.of_step hs) (fun s c _ hc => ?_) (empty_init k memory)
  cases c with
  | create n sem => exact False.elim hc
  | delete id i => exact ⟨_, rfl⟩
  | lock id i => exact False.elim hc
  | tryLock id => exact False.elim hc
  | unlock id i => exact False.elim hc
  | elapse k => exact ⟨_, rfl⟩

/-- The first creation of a semaphore fails although the heap has returned one. -/
theorem not_meets_create :
    ((init zeroedBoot fun _ _ => none).create 1 1).1 = -1 ∧
    ¬ Machine.Along step Meets (init zeroedBoot fun _ _ => none) [.create 1 1] := by
  have h : (init zeroedBoot fun _ _ => none).Empty := empty_init _ _
  refine ⟨(h.create 1 1).1, fun hrun => ?_⟩
  cases (h.meets_iff _).mp hrun.1

end Processes
end EpochKernel.Sched
