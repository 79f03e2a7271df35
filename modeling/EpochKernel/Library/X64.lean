import Mathlib

/-! A part of the x86-64 instruction set: straight-line code over the general registers, aligned
64-bit words of memory and the two GS bases. -/
namespace EpochKernel.Library.X64

inductive Reg
  | rax | rbx | rcx | rdx | rbp | rsp | rdi | rsi | r8 | r9 | r10 | r11 | r12 | r13 | r14 | r15
  deriving DecidableEq, Repr

/-- `mem` holds the 64-bit words at aligned addresses. `gs` and `kernelGs` are the GS bases that
`swapgs` exchanges; `zf` and `gt` are the conditions that `jz` and `jg` test. -/
structure State where
  reg : Reg → UInt64
  mem : UInt64 → UInt64
  gs : UInt64
  kernelGs : UInt64
  zf : Bool := false
  gt : Bool := false

inductive Instr
  | mov (dst src : Reg)
  | movImm (dst : Reg) (value : UInt64)
  | load (dst base : Reg) (offset : UInt64)
  | loadIndex (dst base index : Reg) (scale : UInt64)
  | store (base : Reg) (offset : UInt64) (src : Reg)
  | loadGs (dst : Reg) (offset : UInt64)
  | storeGs (offset : UInt64) (src : Reg)
  | lea (dst base : Reg) (offset : UInt64)
  | push (src : Reg)
  | pop (dst : Reg)
  | addImm (dst : Reg) (value : UInt64)
  | subImm (dst : Reg) (value : UInt64)
  | shlImm (dst : Reg) (value : UInt64)
  | shrImm (dst : Reg) (value : UInt64)
  | test (a b : Reg)
  | cmpImm (a : Reg) (value : UInt64)
  | swapgs
  | cli
  | sti
  deriving DecidableEq, Repr

namespace State

def set (s : State) (r : Reg) (v : UInt64) : State := { s with reg := Function.update s.reg r v }

def store (s : State) (a v : UInt64) : State := { s with mem := Function.update s.mem a v }

/-- The word pushed lies at the new stack pointer. -/
def push (s : State) (v : UInt64) : State :=
  (s.set .rsp (s.reg .rsp - 8)).store (s.reg .rsp - 8) v

variable (s : State) (r r' : Reg) (a a' v : UInt64)

@[simp] lemma reg_set : (s.set r v).reg r' = if r' = r then v else s.reg r' := by
  simp [set, Function.update_apply]

@[simp] lemma mem_set : (s.set r v).mem = s.mem := by simp only [set]

@[simp] lemma reg_store : (s.store a v).reg = s.reg := by simp only [store]

@[simp] lemma mem_store : (s.store a v).mem a' = if a' = a then v else s.mem a' := by
  simp [store, Function.update_apply]

@[simp] lemma gs_set : (s.set r v).gs = s.gs ∧ (s.set r v).kernelGs = s.kernelGs := by
  simp only [set, and_self]

@[simp] lemma gs_store : (s.store a v).gs = s.gs ∧ (s.store a v).kernelGs = s.kernelGs := by
  simp only [store, and_self]

@[simp] lemma reg_push :
    (s.push v).reg r = if r = .rsp then s.reg .rsp - 8 else s.reg r := by
  simp [push]

@[simp] lemma mem_push :
    (s.push v).mem a = if a = s.reg .rsp - 8 then v else s.mem a := by
  simp [push]

@[simp] lemma gs_push : (s.push v).gs = s.gs ∧ (s.push v).kernelGs = s.kernelGs := by
  simp [push]

end State

/-- The effect of one instruction. The interrupt flag is left out. -/
def Instr.exec (s : State) : Instr → State
  | .mov dst src => s.set dst (s.reg src)
  | .movImm dst value => s.set dst value
  | .load dst base offset => s.set dst (s.mem (s.reg base + offset))
  | .loadIndex dst base index scale => s.set dst (s.mem (s.reg base + s.reg index * scale))
  | .store base offset src => s.store (s.reg base + offset) (s.reg src)
  | .loadGs dst offset => s.set dst (s.mem (s.gs + offset))
  | .storeGs offset src => s.store (s.gs + offset) (s.reg src)
  | .lea dst base offset => s.set dst (s.reg base + offset)
  | .push src => s.push (s.reg src)
  | .pop dst => (s.set .rsp (s.reg .rsp + 8)).set dst (s.mem (s.reg .rsp))
  | .addImm dst value => s.set dst (s.reg dst + value)
  | .subImm dst value => s.set dst (s.reg dst - value)
  | .shlImm dst value => s.set dst (s.reg dst <<< value)
  | .shrImm dst value => s.set dst (s.reg dst >>> value)
  | .test a b => { s with zf := s.reg a &&& s.reg b = 0, gt := false }
  | .cmpImm a value =>
    { s with zf := s.reg a = value, gt := value.toInt64 < (s.reg a).toInt64 }
  | .swapgs => { s with gs := s.kernelGs, kernelGs := s.gs }
  | .cli | .sti => s

def block (is : List Instr) (s : State) : State := is.foldl Instr.exec s

@[simp] lemma block_nil (s : State) : block [] s = s := rfl

@[simp] lemma block_cons (i : Instr) (is : List Instr) (s : State) :
    block (i :: is) s = block is (i.exec s) := by
  simp only [block, List.foldl_cons]

lemma block_append (is js : List Instr) (s : State) :
    block (is ++ js) s = block js (block is s) := by
  simp only [block, List.foldl_append]

/-- The words that a block stores to. -/
def written : List Instr → State → List UInt64
  | [], _ => []
  | .store base offset src :: is, s =>
    (s.reg base + offset) :: written is ((Instr.store base offset src).exec s)
  | .storeGs offset src :: is, s =>
    (s.gs + offset) :: written is ((Instr.storeGs offset src).exec s)
  | .push src :: is, s => (s.reg .rsp - 8) :: written is ((Instr.push src).exec s)
  | i :: is, s => written is (i.exec s)

/-- The frame rule of a block. -/
lemma block_mem {is : List Instr} {s : State} {a : UInt64} (h : a ∉ written is s) :
    (block is s).mem a = s.mem a := by
  induction is generalizing s with
  | nil => rfl
  | cons i is ih =>
    rw [block_cons]
    cases i <;> simp only [written, List.mem_cons, not_or] at h
    case store => rw [ih h.2]; simp [Instr.exec, h.1]
    case storeGs => rw [ih h.2]; simp [Instr.exec, h.1]
    case push => rw [ih h.2]; simp [Instr.exec, h.1]
    all_goals rw [ih h]; simp [Instr.exec]

/-- `call` and `ret`, without the jump. -/
def State.call (s : State) (returnAddress : UInt64) : State := s.push returnAddress

def State.ret (s : State) : State := s.set .rsp (s.reg .rsp + 8)

/-- `syscall`, without the jump: the return address and the flags go to registers. -/
def State.syscall (s : State) (rip rflags : UInt64) : State := (s.set .rcx rip).set .r11 rflags

/-- The integer arguments of a function at its first instruction, by the System V calling
convention: six registers, then the words above the return address. -/
def State.argument (s : State) : ℕ → UInt64
  | 0 => s.reg .rdi
  | 1 => s.reg .rsi
  | 2 => s.reg .rdx
  | 3 => s.reg .rcx
  | 4 => s.reg .r8
  | 5 => s.reg .r9
  | n + 6 => s.mem (s.reg .rsp + 8 * (UInt64.ofNat n + 1))

/-- The registers that a function keeps by that convention, besides `rsp`. -/
def calleeSaved : List Reg := [.rbx, .rbp, .r12, .r13, .r14, .r15]

/-- A function entered with `e` may return with `r`. `kept` are words that are not its own: it may
write to the argument words above its return address, not to the rest of its callers' frames. -/
structure Returns (kept : List UInt64) (e r : State) : Prop where
  rsp : r.reg .rsp = e.reg .rsp + 8
  saved : ∀ x ∈ calleeSaved, r.reg x = e.reg x
  gs : r.gs = e.gs
  kernelGs : r.kernelGs = e.kernelGs
  mem : ∀ a ∈ kept, r.mem a = e.mem a

end EpochKernel.Library.X64
