import Mathlib

/-! The registers of a thread, and what interrupts do to them. -/
namespace EpochKernel.Sched

structure Registers where
  rax : UInt64
  rbx : UInt64
  rcx : UInt64
  rdx : UInt64
  rbp : UInt64
  rsp : UInt64
  kernelRsp : UInt64
  callSaveRsp : UInt64
  rdi : UInt64
  rsi : UInt64
  r8 : UInt64
  r9 : UInt64
  r10 : UInt64
  r11 : UInt64
  r12 : UInt64
  r13 : UInt64
  r14 : UInt64
  r15 : UInt64
  rflags : UInt64
  rip : UInt64
  cs : UInt16
  ss : UInt16
  deriving DecidableEq, Repr

namespace Registers

/-- `cs & 0b11`: the frame of an interrupt that was taken in user mode. -/
def IsUser (r : Registers) : Prop := r.cs &&& 3 ≠ 0

instance (r : Registers) : Decidable r.IsUser := inferInstanceAs (Decidable (_ ≠ _))

def userRegs : Registers :=
  ⟨0, 0, 0, 0, 0, 0, 0, 0, 0, 0, 0, 0, 0, 0, 0, 0, 0, 0, 0x3202, 0, 0x23, 0x1b⟩

def superuserRegs : Registers :=
  ⟨0, 0, 0, 0, 0, 0, 0, 0, 0, 0, 0, 0, 0, 0, 0, 0, 0, 0, 0x202, 0, 0x23, 0x1b⟩

def kernelRegs : Registers :=
  ⟨0, 0, 0, 0, 0, 0, 0, 0, 0, 0, 0, 0, 0, 0, 0, 0, 0, 0, 0x202, 0, 0x08, 0x10⟩

end Registers

def kstackSize : UInt64 := 1 <<< (18 : UInt64)

/-- What `thread::init` reads of the process and of the stacks it has allocated. -/
structure NewThread where
  uid : UInt8
  func : UInt64
  stackStart : UInt64
  stackSize : UInt64
  kstackStart : UInt64

namespace NewThread

/-- The top of the kernel stack. -/
def kstackTop (n : NewThread) : UInt64 := n.kstackStart + kstackSize

/-- The registers `thread::init` gives to a thread that is not the idle thread. -/
def regs (n : NewThread) : Registers :=
  let r := if n.uid = 0 then Registers.kernelRegs else if n.uid = 1 then Registers.superuserRegs
    else Registers.userRegs
  let r := if n.uid ≠ 0 then { r with kernelRsp := n.kstackTop } else r
  { r with rsp := n.stackStart + n.stackSize - 8, rip := n.func }

lemma kernelRsp_regs {n : NewThread} (h : n.uid ≠ 0) : n.regs.kernelRsp = n.kstackTop := by
  simp [regs, h]

end NewThread

/-- `thread::regs` of every thread, and what is set for the running one: `kdata::data` and
`tss.rsp0`. `interruptedAt` is where each thread has to go on; it is not part of the program. -/
structure Context (Θ : Type*) where
  regs : Θ → Registers
  callRsp : UInt64
  callSaveRsp : UInt64
  rsp0 : UInt64
  interruptedAt : Θ → Registers

namespace Context
variable {Θ : Type*} [DecidableEq Θ]

/-- The first lines of `c_int_handler`, for the frame that `save_regs` has built. -/
def complete (c : Context Θ) (t : Θ) (r : Registers) : Registers :=
  if r.IsUser then
    { r with kernelRsp := (c.regs t).kernelRsp, callSaveRsp := (c.regs t).callSaveRsp }
  else r

/-- `thread_c->regs = *regs`. -/
def save (c : Context Θ) (t : Θ) (r : Registers) : Context Θ :=
  { c with regs := Function.update c.regs t r }

/-- The last lines of `c_int_handler`, when the handler with the frame `r` of the thread `t` returns
the registers of `out`. -/
def leave (c : Context Θ) (t : Θ) (r : Registers) (out : Θ) : Context Θ :=
  { c with
    callRsp := (c.regs out).kernelRsp
    callSaveRsp := (c.regs out).callSaveRsp
    rsp0 := (c.regs out).kernelRsp
    interruptedAt := Function.update c.interruptedAt t r }

/-- The thread `t`, interrupted with the frame `r`, gives way to `out`. -/
def switch (c : Context Θ) (t : Θ) (r : Registers) (out : Θ) : Context Θ :=
  (c.save t r).leave t r out

/-- The registers of a new thread. -/
def create (c : Context Θ) (t : Θ) (n : NewThread) : Context Θ :=
  { c with
    regs := Function.update c.regs t n.regs
    interruptedAt := Function.update c.interruptedAt t n.regs }

@[simp] lemma save_save (c : Context Θ) (t : Θ) (r r' : Registers) :
    (c.save t r).save t r' = c.save t r' := by
  simp [save]

end Context

/-- `INT_SCHED` raised in the kernel: the frame built for it, with arbitrary stack contents in
`kernel_rsp` and `call_save_rsp`, and the time at which it is handled. -/
structure Trap where
  frame : Registers
  now : UInt64
  kernel : ¬ frame.IsUser

lemma kernelRegs_not_isUser : ¬ Registers.kernelRegs.IsUser := by decide

instance : Inhabited Trap := ⟨⟨Registers.kernelRegs, 0, kernelRegs_not_isUser⟩⟩

/-- The nested interrupts of a timer handler: one raised by `unblock`, one by `unlock_all`. -/
structure Nested where
  unblock : Trap
  unlockAll : Trap

end EpochKernel.Sched
