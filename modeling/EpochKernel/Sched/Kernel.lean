import EpochKernel.Library.Fifo
import EpochKernel.Sched.Registers
import EpochKernel.Util.ListFamily

/-! The scheduler of `sched/thread.cpp` and the thread bookkeeping of `sched/process.cpp`. Threads,
processes and semaphores are the addresses of their objects. Every function runs with interrupts
disabled; `int_sched` re-enters `schedule` through the handler of `INT_SCHED`. -/
namespace EpochKernel.Sched
open EpochKernel.Util EpochKernel.Library

/-- The values of `thread::state`; all but the last are indices of `t_list`. -/
inductive TState
  | running | ready | destroy | sleep | semaphoreWait
  deriving DecidableEq, Repr

/-- The lists a thread can be linked into: `t_list[state]` and `t_waiting` of a semaphore. -/
inductive Place (S : Type*)
  | tList (state : TState)
  | waiting (s : S)
  deriving DecidableEq

structure ThreadData (P : Type*) where
  state : TState
  sleepTime : UInt64
  time : UInt64
  proc : P

/-- The counters of a semaphore, and the process whose table it is in. -/
structure SemaphoreData (P : Type*) where
  maxThrC : ℕ
  thrC : ℕ
  owner : P

/-- The globals of the scheduler and the objects it works on. `alive` are the threads created and
not yet taken by the cleaner, `sems` the semaphores not yet deleted, both in creation order. `log`
is the history of the ready list; it is not part of the program. -/
structure Kernel (Θ P S : Type*) where
  links : Links Θ
  lists : Place S → LinkedList Θ
  thread : Θ → ThreadData P
  threadC : Θ
  threadPostC : UInt32
  threadPostFlag : Bool
  nsecLast : UInt64
  cr3 : P
  context : Context Θ
  semaphore : S → SemaphoreData P
  alive : List Θ
  sems : List S
  log : List (Fifo.Event Θ)

namespace Kernel
variable {Θ P S : Type*} [DecidableEq Θ] [DecidableEq P] [DecidableEq S]

/-- `proc_c ()`. -/
def procC (k : Kernel Θ P S) : P := (k.thread k.threadC).proc

def len (k : Kernel Θ P S) (l : Place S) : ℕ := (k.lists l).len

def append (k : Kernel Θ P S) (l : Place S) (t : Θ) : Kernel Θ P S :=
  let (list, links) := (k.lists l).append t k.links
  { k with lists := Function.update k.lists l list, links := links }

def removeP (k : Kernel Θ P S) (l : Place S) (t : Θ) : Kernel Θ P S :=
  let (list, links) := (k.lists l).removeP t k.links
  { k with lists := Function.update k.lists l list, links := links }

def popStart (k : Kernel Θ P S) (l : Place S) : Option Θ × Kernel Θ P S :=
  let (t, list) := (k.lists l).popStart k.links
  (t, { k with lists := Function.update k.lists l list })

def setThread (k : Kernel Θ P S) (t : Θ) (d : ThreadData P) : Kernel Θ P S :=
  { k with thread := Function.update k.thread t d }

def setState (k : Kernel Θ P S) (t : Θ) (st : TState) : Kernel Θ P S :=
  k.setThread t { k.thread t with state := st }

def setSemaphore (k : Kernel Θ P S) (s : S) (d : SemaphoreData P) : Kernel Θ P S :=
  { k with semaphore := Function.update k.semaphore s d }

def record (k : Kernel Θ P S) (e : Fifo.Event Θ) : Kernel Θ P S := { k with log := k.log ++ [e] }

/-- The object of a new thread, in a block that `kalloc` has cleared; `T_RUNNING` is 0. -/
def construct (k : Kernel Θ P S) (t : Θ) (p : P) : Kernel Θ P S :=
  k.setThread t { state := .running, sleepTime := 0, time := 0, proc := p }

/-- `thread::move_to`. -/
def moveTo (k : Kernel Θ P S) (t : Θ) (st : TState) : Kernel Θ P S :=
  let old := (k.thread t).state
  if old = st then k
  else
    let k := if old ≠ .semaphoreWait then k.removeP (.tList old) t else k
    let k := if old = .ready then k.record (.left t) else k
    let k := k.setState t st
    let k := if st ≠ .semaphoreWait then k.append (.tList st) t else k
    if st = .ready then k.record (.ready t) else k

/-- `thread::update_time`, at the time `now`. -/
def updateTime (k : Kernel Θ P S) (now : UInt64) : Kernel Θ P S :=
  let d := k.thread k.threadC
  { k.setThread k.threadC { d with time := d.time + (now - k.nsecLast) } with nsecLast := now }

/-- `sched::schedule`: the thread switched to, if any. -/
def schedule (k : Kernel Θ P S) (now : UInt64) : Option Θ × Kernel Θ P S :=
  if k.threadPostC ≠ 0 then (none, { k with threadPostFlag := true })
  else if k.len (.tList .ready) ≠ 0 then
    let k := k.updateTime now
    let procSave := k.procC
    let k := if (k.thread k.threadC).state = .running then k.moveTo k.threadC .ready else k
    match k.popStart (.tList .ready) with
    | (none, k) => (none, k)
    | (some t, k) =>
      let k := { k.record (.dispatch t) with threadC := t }
      let k := k.append (.tList .running) t
      let k := k.setState t .running
      let k := if k.procC ≠ procSave then { k with cr3 := k.procC } else k
      (some t, k)
  else (none, k)

/-- The end of `c_int_handler`, for the frame `regs` of the thread `t`. -/
def handlerReturns (t : Θ) (regs : Registers) : Option Θ × Kernel Θ P S → Kernel Θ P S
  | (none, k) => k
  | (some out, k) => { k with context := k.context.leave t regs out }

/-- `c_int_handler` around the handler of the scheduler; the handlers called before it leave the
threads alone. -/
def cIntHandler (k : Kernel Θ P S) (regs : Registers)
    (handler : Kernel Θ P S → Registers → Option Θ × Kernel Θ P S) : Kernel Θ P S :=
  let regs := k.context.complete k.threadC regs
  handlerReturns k.threadC regs (handler k regs)

def saveRegs (k : Kernel Θ P S) (regs : Registers) : Kernel Θ P S :=
  { k with context := k.context.save k.threadC regs }

/-- `sched_int_handler`. -/
def schedIntHandler (now : UInt64) (k : Kernel Θ P S) (regs : Registers) :
    Option Θ × Kernel Θ P S :=
  if regs.IsUser then (none, k) else (k.saveRegs regs).schedule now

/-- `int_sched`, raised in the kernel. -/
def intSched (k : Kernel Θ P S) (i : Trap) : Kernel Θ P S :=
  k.cIntHandler i.frame (schedIntHandler i.now)

/-- `thread::block`. -/
def block (k : Kernel Θ P S) (t : Θ) (st : TState) (i : Trap) : Kernel Θ P S :=
  let k := k.moveTo t st
  if t = k.threadC then k.intSched i else k

/-- `thread::unblock`. -/
def unblock (k : Kernel Θ P S) (t : Θ) (i : Trap) : Kernel Θ P S :=
  let k := k.moveTo t .ready
  if k.len (.tList .ready) = 1 then k.intSched i else k

/-- `thread::nsleep_until`, at the time `now`. -/
def nsleepUntil (k : Kernel Θ P S) (t : Θ) (time now : UInt64) (i : Trap) : Kernel Θ P S :=
  if time ≤ now then k
  else (k.setThread t { k.thread t with sleepTime := time }).block t .sleep i

/-- `lock_all` and `unlock_all`. -/
def lockAll (k : Kernel Θ P S) : Kernel Θ P S := { k with threadPostC := k.threadPostC + 1 }

def unlockAll (k : Kernel Θ P S) (i : Trap) : Kernel Θ P S :=
  let k := { k with threadPostC := (if k.threadPostC > 1 then k.threadPostC else 1) - 1 }
  if k.threadPostC = 0 ∧ k.threadPostFlag = true then
    { k with threadPostFlag := false }.intSched i
  else k

/-- `list[i]`, which may fail an assertion or walk for ever. -/
def get (k : Kernel Θ P S) (l : Place S) (i : ℕ) : Option (Option Θ × Kernel Θ P S) :=
  ((k.lists l).get i k.links).map fun (t, list) =>
    (t, { k with lists := Function.update k.lists l list })

/-- The loop of `sched_time_handler` over the sleeping threads. An iteration advances `i` or takes
a thread out of the list; `fuel` iterations without reaching the end mean that it never ends. At
most one iteration, the first that makes a thread ready, can raise `INT_SCHED`. -/
def wakeLoop (nsec : UInt64) (trap : Trap) : ℕ → ℕ → Kernel Θ P S → Option (Kernel Θ P S)
  | 0, _, _ => none
  | fuel + 1, i, k =>
    if i < k.len (.tList .sleep) then
      match k.get (.tList .sleep) i with
      | some (some temp, k) =>
        if (k.thread temp).sleepTime ≤ nsec then
          match k.get (.tList .sleep) i with
          | some (some temp, k) => wakeLoop nsec trap fuel i (k.unblock temp trap)
          | _ => none
        else wakeLoop nsec trap fuel (i + 1) k
      | _ => none
    else some k

/-- `sched_time_handler` up to the check of the time slice, at the time `nsec`. -/
def wakeSleepers (k : Kernel Θ P S) (regs : Registers) (nsec : UInt64) (i : Nested) :
    Option (Kernel Θ P S) :=
  (wakeLoop nsec i.unblock (k.len (.tList .sleep) + 1) 0 (k.saveRegs regs).lockAll).map
    (·.unlockAll i.unlockAll)

/-- `proc_init`: the globals as they are initialised and the end of `thread::init` for the idle
thread, over memory with arbitrary contents. -/
def boot (idle : Θ) (p : P) (memory : Kernel Θ P S) : Kernel Θ P S :=
  let k : Kernel Θ P S :=
    { memory with
      lists := fun _ => {}
      threadC := idle
      threadPostC := 0
      threadPostFlag := false
      nsecLast := 0
      cr3 := p
      context := memory.context.save idle Registers.kernelRegs
      alive := [idle]
      sems := []
      log := [] }
  let k := k.construct idle p
  (k.append (.tList .running) idle).setState idle .running

/-- The end of `thread::init` for every thread but the idle thread. -/
def create (k : Kernel Θ P S) (t : Θ) (p : P) (n : NewThread) : Kernel Θ P S :=
  let k := k.construct t p
  let k := { k with context := k.context.create t n }
  let k := (k.append (.tList .ready) t).setState t .ready
  { k.record (.ready t) with alive := k.alive ++ [t] }

/-- One pass of `thread_cleaner`: the thread taken from `T_DESTROY`. -/
def clean (k : Kernel Θ P S) : Kernel Θ P S :=
  match k.popStart (.tList .destroy) with
  | (none, k) => k
  | (some t, k) => { k with alive := k.alive.erase t }

/-- `semaphore::semaphore`, entered in the table of a process. -/
def createSemaphore (k : Kernel Θ P S) (s : S) (n : ℕ) (p : P) : Kernel Θ P S :=
  let k := k.setSemaphore s ⟨n, 0, p⟩
  { k with lists := Function.update k.lists (.waiting s) {}, sems := k.sems ++ [s] }

/-- The loop `while (t_waiting.get_len () != 0)`, which pops one thread in each iteration. -/
def drain (f : Kernel Θ P S → Θ → Kernel Θ P S) (s : S) : ℕ → Kernel Θ P S → Kernel Θ P S
  | 0, k => k
  | n + 1, k =>
    match k.popStart (.waiting s) with
    | (none, k) => k
    | (some t, k) => drain f s n (f k t)

/-- `delete this`. -/
def deleteSemaphore (k : Kernel Θ P S) (s : S) : Kernel Θ P S := { k with sems := k.sems.erase s }

/-- `semaphore::reset_ready`. -/
def resetReady (k : Kernel Θ P S) (s : S) (i : Trap) : Kernel Θ P S :=
  (drain (fun k t => k.unblock t i) s (k.len (.waiting s)) k).deleteSemaphore s

/-- `semaphore::reset_destroy`. -/
def resetDestroy (k : Kernel Θ P S) (s : S) : Kernel Θ P S :=
  (drain (fun k t => k.moveTo t .destroy) s (k.len (.waiting s)) k).deleteSemaphore s

/-- `semaphore::lock`. -/
def semLock (k : Kernel Θ P S) (s : S) (i : Trap) : Kernel Θ P S :=
  let d := k.semaphore s
  if d.thrC < d.maxThrC then k.setSemaphore s { d with thrC := d.thrC + 1 }
  else
    let k := k.moveTo k.threadC .semaphoreWait
    (k.append (.waiting s) k.threadC).intSched i

/-- `semaphore::try_lock`. -/
def semTryLock (k : Kernel Θ P S) (s : S) : Bool × Kernel Θ P S :=
  let d := k.semaphore s
  if d.thrC < d.maxThrC then (true, k.setSemaphore s { d with thrC := d.thrC + 1 }) else (false, k)

/-- `semaphore::unlock`. -/
def semUnlock (k : Kernel Θ P S) (s : S) (i : Trap) : Kernel Θ P S :=
  if k.len (.waiting s) ≠ 0 then
    match k.popStart (.waiting s) with
    | (none, k) => k
    | (some t, k) => k.unblock t i
  else
    let d := k.semaphore s
    if d.thrC ≠ 0 then k.setSemaphore s { d with thrC := d.thrC - 1 } else k

/-- `process::~process`, for the threads and semaphores of `p`. -/
def teardown (k : Kernel Θ P S) (p : P) (i : Trap) : Kernel Θ P S :=
  let k := (k.sems.filter fun s => (k.semaphore s).owner = p).foldl (fun k s => k.resetDestroy s) k
  let threads := k.alive.filter fun t => (k.thread t).proc = p
  let k := threads.foldl (fun k t => if t ≠ k.threadC then k.block t .destroy i else k) k
  if p = k.procC then k.block k.threadC .destroy i else k

end Kernel
end EpochKernel.Sched
