import EpochKernel.Library.X64

/-! The system call path: `syscall` of libcpp and `syscall_entry` of the kernel, which shuffle the
eleven values of a call between the System V convention and the registers of
`epoch_kernel_syscalls`. -/
namespace EpochKernel.Syscall
open Library.X64

/-- Addresses that the linker fixes, and the return addresses and flags that `syscall` and `call`
save. -/
structure Image where
  syscalls : UInt64
  threadC : UInt64
  rip : UInt64
  rflags : UInt64
  returnAddress : UInt64

/-- `gs_data.call_rsp`, `gs_data.call_save_rsp` and `registers.call_save_rsp`. -/
def callRsp : UInt64 := 0
def callSaveRsp : UInt64 := 8
def registersCallSaveRsp : UInt64 := 56

/-- `syscall` of libcpp, up to its jump. -/
def stubMoves : List Instr := [
  .push .rbx,
  .mov .rbx .rdx,
  .mov .rdx .rsi,
  .mov .rsi .rdi,
  .mov .rdi .r9,
  .mov .r9 .r8,
  .mov .r8 .rcx,
  .movImm .rax 0x100000000,
  .test .rsi .rax]

/-- The extended arguments, up to the `syscall` instruction. -/
def stubEargs : List Instr := [
  .push .r12,
  .push .r13,
  .push .r14,
  .push .r15,
  .load .r15 .rsp 0x30,
  .load .r14 .rsp 0x38,
  .load .r13 .rsp 0x40,
  .load .r12 .rsp 0x48,
  .load .rax .rsp 0x50]

/-- `.no_eargs`, up to the `syscall` instruction. -/
def stubNoEargs : List Instr := [.load .rax .rsp 0x10]

def stubRestore : List Instr := [.pop .r15, .pop .r14, .pop .r13, .pop .r12]

/-- `.end`, up to `ret`. -/
def stubEnd : List Instr := [.pop .rbx]

/-- `syscall_entry`, up to its jump. -/
def entryCode (P : Image) : List Instr := [
  .swapgs,
  .storeGs callSaveRsp .rsp,
  .loadGs .rsp callRsp,
  .push .r11,
  .push .r10,
  .loadGs .r11 callSaveRsp,
  .movImm .r10 P.threadC,
  .addImm .r10 registersCallSaveRsp,
  .store .r10 0 .r11,
  .swapgs,
  .sti,
  .push .rcx,
  .subImm .rsp 8,
  .push .r15,
  .push .r14,
  .push .r13,
  .push .r12,
  .push .rax,
  .push .rdi,
  .mov .rax .rsi,
  .shlImm .rax 32,
  .shrImm .rax 32,
  .cmpImm .rax 10]

/-- Up to `call rax`. -/
def callCode (P : Image) : List Instr := [
  .mov .rcx .rbx,
  .shrImm .rsi 32,
  .lea .rdi .rsp 48,
  .movImm .r10 P.syscalls,
  .loadIndex .rax .r10 .rax 8]

/-- `.invalid_syscall`. -/
def invalidCode : List Instr := [.movImm .rax (-1)]

/-- `.valid_syscall`, up to `sysret`. -/
def exitCode : List Instr := [
  .addImm .rsp 16,
  .pop .r12,
  .pop .r13,
  .pop .r14,
  .pop .r15,
  .addImm .rsp 8,
  .pop .rcx,
  .pop .r10,
  .pop .r11,
  .cli,
  .swapgs,
  .loadGs .rsp callSaveRsp,
  .swapgs]

/-- Whether `jz` jumps to `.no_eargs`. -/
def jumps (s : State) : Bool := (block stubMoves s).zf

/-- The state at the `syscall` instruction of the stub, for the state at its first instruction. -/
def stub (s : State) : State :=
  let t := block stubMoves s
  if jumps s then block stubNoEargs t else block stubEargs t

/-- What the stub does after the `syscall` instruction. -/
def stubReturn (noEargs : Bool) (s : State) : State :=
  (block stubEnd (if noEargs then s else block stubRestore s)).ret

/-- `syscall_entry` at its jump, for the state at the `syscall` instruction. -/
def entry (P : Image) (t : State) : State := block (entryCode P) (t.syscall P.rip P.rflags)

/-- The function that `call rax` reaches and the state at its first instruction, unless the number is
invalid. -/
def dispatch (P : Image) (t : State) : Option (UInt64 × State) :=
  if t.gt then none
  else
    let t := block (callCode P) t
    some (t.reg .rax, t.call P.returnAddress)

/-- The call that `syscall` leads to in the kernel. -/
def called (P : Image) (s : State) : Option (UInt64 × State) := dispatch P (entry P (stub s))

/-- `[a, a + m)` and `[b, b + n)` do not meet. -/
def Apart (a m b n : ℕ) : Prop := a + m ≤ b ∨ b + n ≤ a

/-- The user stack lies in the lower half of the address space, and in the upper half, apart from each
other, the words of the kernel: the frame of the entry on the kernel stack, `gs_data`, the word that
the entry writes to beside `thread_c`, and the table. -/
structure Layout (P : Image) (s : State) : Prop where
  stack : 40 ≤ (s.reg .rsp).toNat ∧ (s.reg .rsp).toNat + 48 ≤ 2 ^ 63
  frame : 2 ^ 63 + 88 ≤ (s.mem s.kernelGs).toNat
  data : 2 ^ 63 ≤ s.kernelGs.toNat ∧ s.kernelGs.toNat + 16 ≤ 2 ^ 64
  thread : 2 ^ 63 ≤ P.threadC.toNat ∧ P.threadC.toNat + 64 ≤ 2 ^ 64
  table : 2 ^ 63 ≤ P.syscalls.toNat ∧ P.syscalls.toNat + 128 ≤ 2 ^ 64
  data_frame : Apart s.kernelGs.toNat 16 ((s.mem s.kernelGs).toNat - 88) 88
  thread_frame : Apart (P.threadC.toNat + 56) 8 ((s.mem s.kernelGs).toNat - 88) 88
  table_frame : Apart P.syscalls.toNat 128 ((s.mem s.kernelGs).toNat - 88) 88
  table_data : Apart P.syscalls.toNat 128 s.kernelGs.toNat 16
  table_thread : Apart P.syscalls.toNat 128 (P.threadC.toNat + 56) 8

/-- Bit 32 of `num`. -/
def extended (s : State) : Prop := s.reg .rdi &&& 0x100000000 ≠ 0

instance (s : State) : Decidable (extended s) := inferInstanceAs (Decidable (_ ≠ _))

/-- The low half of `num`. -/
def number (s : State) : UInt64 := s.reg .rdi &&& 0xffffffff

/-- The handler that the number selects: an entry of `syscalls`, 10 at most, that is not `NULL`. -/
def selected (P : Image) (s : State) : Option UInt64 :=
  if 10 < number s then none
  else
    let f := s.mem (P.syscalls + number s * 8)
    if f = 0 then none else some f

/-- The words that a handler leaves alone: the frame of the stub, the saved stack pointer as there is
no context switch, and the frame of the entry but for the stack arguments of the handler. Those are
`a5` and `a6`, and with extended arguments all up to `a10`. -/
def kept (s : State) : List UInt64 :=
  let u := s.reg .rsp
  let k := s.mem s.kernelGs
  [u, u - 8, u - 16, u - 24, u - 32, u - 40, s.kernelGs + callSaveRsp, k - 8, k - 16, k - 24] ++
    if extended s then [] else [k - 40, k - 48, k - 56, k - 64]

/-- A call of `syscall` from `s` may return with a state. -/
inductive Outcome (P : Image) (s : State) : State → Prop
  | invalid : called P s = none →
      Outcome P s (stubReturn (jumps s) (block (invalidCode ++ exitCode) (entry P (stub s))))
  | handled {f : UInt64} {e r : State} : called P s = some (f, e) → Returns (kept s) e r →
      Outcome P s (stubReturn (jumps s) (block exitCode r))

/-- The selected handler is called with the arguments of `syscall` in their order, after the pointer
to `syscall_vals_t` and the options. -/
def Delivers (P : Image) (s : State) : Prop :=
  ∀ f, selected P s = some f → ∃ e, called P s = some (f, e) ∧
    e.argument 1 = s.argument 0 >>> 32 ∧
    ∀ i, 1 ≤ i → i ≤ (if extended s then 10 else 6) → e.argument (i + 1) = s.argument i

/-- After the return address is popped the stack pointer is as before the call. -/
def Restores (P : Image) (s : State) : Prop :=
  ∀ x, Outcome P s x → x.reg .rsp = s.reg .rsp + 8 ∧ ∀ r ∈ calleeSaved, x.reg r = s.reg r

def Agrees (P : Image) (s : State) : Prop := Delivers P s ∧ Restores P s

end EpochKernel.Syscall
