import EpochKernel.Syscall.Abi

/-! Where the two sides of the system call path agree, one lemma for each block of instructions. `simp`
writes an offset below a base as the machine adds it, modulo 2 ^ 64. -/
namespace EpochKernel.Syscall
open Library.X64
variable {P : Image} {s t : State}

lemma jumps_eq (s : State) : jumps s = !decide (extended s) := by
  simp -implicitDefEqProofs [jumps, stubMoves, Instr.exec, extended]

lemma stub_of_not_extended (h : ¬ extended s) :
    stub s = block (stubMoves ++ stubNoEargs) s := by
  simp only [stub, jumps_eq, h, decide_false, Bool.not_false, if_true, block_append]

lemma stub_of_extended (h : extended s) : stub s = block (stubMoves ++ stubEargs) s := by
  simp only [stub, jumps_eq, h, decide_true, Bool.not_true, Bool.false_eq_true, if_false,
    block_append]

lemma stub_reg (h : ¬ extended s) (r : Reg) : (stub s).reg r = match r with
    | .rax => s.mem (s.reg .rsp + 8)
    | .rbx => s.reg .rdx
    | .rdx => s.reg .rsi
    | .rsi => s.reg .rdi
    | .rdi => s.reg .r9
    | .r8 => s.reg .rcx
    | .r9 => s.reg .r8
    | .rsp => s.reg .rsp - 8
    | r => s.reg r := by
  rw [stub_of_not_extended h]
  cases r <;> simp -implicitDefEqProofs [stubMoves, stubNoEargs, Instr.exec,
    UInt64.sub_eq_add_mul, UInt64.add_assoc]

lemma stub_reg_of_extended (h : extended s) (r : Reg) : (stub s).reg r = match r with
    | .rax => s.mem (s.reg .rsp + 40)
    | .rbx => s.reg .rdx
    | .rdx => s.reg .rsi
    | .rsi => s.reg .rdi
    | .rdi => s.reg .r9
    | .r8 => s.reg .rcx
    | .r9 => s.reg .r8
    | .r15 => s.mem (s.reg .rsp + 8)
    | .r14 => s.mem (s.reg .rsp + 16)
    | .r13 => s.mem (s.reg .rsp + 24)
    | .r12 => s.mem (s.reg .rsp + 32)
    | .rsp => s.reg .rsp - 40
    | r => s.reg r := by
  rw [stub_of_extended h]
  cases r <;> simp -implicitDefEqProofs [stubMoves, stubEargs, Instr.exec,
    UInt64.sub_eq_add_mul, UInt64.add_assoc]

/-- The registers at the jump of `syscall_entry`, but for `r11`. -/
lemma entry_reg (r : Reg) : r ≠ .r11 → (entry P t).reg r = match r with
    | .rsp => t.mem t.kernelGs - 80
    | .r10 => P.threadC + 56
    | .rax => t.reg .rsi <<< 32 >>> 32
    | .rcx => P.rip
    | r => t.reg r := by
  intro hr
  cases r <;> simp -implicitDefEqProofs [entry, entryCode, Instr.exec, State.syscall, callRsp,
    callSaveRsp, registersCallSaveRsp, UInt64.sub_eq_add_mul, UInt64.add_assoc] at hr ⊢

lemma entry_gs : (entry P t).gs = t.gs ∧ (entry P t).kernelGs = t.kernelGs := by
  simp -implicitDefEqProofs [entry, entryCode, Instr.exec, State.syscall]

lemma entry_frame : (entry P t).mem (t.mem t.kernelGs - 80) = t.reg .rdi ∧
    (entry P t).mem (t.mem t.kernelGs - 72) = t.reg .rax ∧
    (entry P t).mem (t.mem t.kernelGs - 64) = t.reg .r12 ∧
    (entry P t).mem (t.mem t.kernelGs - 56) = t.reg .r13 ∧
    (entry P t).mem (t.mem t.kernelGs - 48) = t.reg .r14 ∧
    (entry P t).mem (t.mem t.kernelGs - 40) = t.reg .r15 ∧
    (entry P t).mem (t.mem t.kernelGs - 24) = P.rip := by
  simp -implicitDefEqProofs [entry, entryCode, Instr.exec, State.syscall, callRsp,
    callSaveRsp, registersCallSaveRsp, UInt64.sub_eq_add_mul, UInt64.add_assoc]

lemma written_entryCode : written (entryCode P) (t.syscall P.rip P.rflags) =
    [t.kernelGs + 8, t.mem t.kernelGs - 8, t.mem t.kernelGs - 16, P.threadC + 56,
      t.mem t.kernelGs - 24, t.mem t.kernelGs - 40, t.mem t.kernelGs - 48, t.mem t.kernelGs - 56,
      t.mem t.kernelGs - 64, t.mem t.kernelGs - 72, t.mem t.kernelGs - 80] := by
  simp -implicitDefEqProofs [written, entryCode, Instr.exec, State.syscall, callRsp,
    callSaveRsp, registersCallSaveRsp, UInt64.sub_eq_add_mul, UInt64.add_assoc]

lemma exit_reg (r : Reg) : (block exitCode t).reg r = match r with
    | .rsp => t.mem (t.kernelGs + 8)
    | .r12 => t.mem (t.reg .rsp + 16)
    | .r13 => t.mem (t.reg .rsp + 24)
    | .r14 => t.mem (t.reg .rsp + 32)
    | .r15 => t.mem (t.reg .rsp + 40)
    | .rcx => t.mem (t.reg .rsp + 56)
    | .r10 => t.mem (t.reg .rsp + 64)
    | .r11 => t.mem (t.reg .rsp + 72)
    | r => t.reg r := by
  cases r <;> simp -implicitDefEqProofs [exitCode, Instr.exec, callSaveRsp, UInt64.add_assoc]

lemma exit_mem : (block exitCode t).mem = t.mem := by
  simp -implicitDefEqProofs [exitCode, Instr.exec]

lemma stubReturn_reg (r : Reg) : (stubReturn true t).reg r = match r with
    | .rsp => t.reg .rsp + 16
    | .rbx => t.mem (t.reg .rsp)
    | r => t.reg r := by
  cases r <;> simp -implicitDefEqProofs [stubReturn, stubEnd, Instr.exec, State.ret,
    UInt64.add_assoc]

lemma stubReturn_reg_of_extended (r : Reg) : (stubReturn false t).reg r = match r with
    | .rsp => t.reg .rsp + 48
    | .r15 => t.mem (t.reg .rsp)
    | .r14 => t.mem (t.reg .rsp + 8)
    | .r13 => t.mem (t.reg .rsp + 16)
    | .r12 => t.mem (t.reg .rsp + 24)
    | .rbx => t.mem (t.reg .rsp + 32)
    | r => t.reg r := by
  cases r <;> simp -implicitDefEqProofs [stubReturn, stubRestore, stubEnd, Instr.exec, State.ret,
    UInt64.add_assoc]

lemma and_mask_toNat (x : UInt64) : (x &&& 0xffffffff).toNat = x.toNat % 2 ^ 32 := by
  rw [UInt64.toNat_and]
  exact Nat.and_two_pow_sub_one_eq_mod x.toNat 32

lemma shl_shr_eq (x : UInt64) : x <<< 32 >>> 32 = x &&& 0xffffffff := by
  have h : (32 : UInt64).toNat % 64 = 32 := by decide
  apply UInt64.toNat_inj.mp
  rw [and_mask_toNat, UInt64.toNat_shiftRight, UInt64.toNat_shiftLeft, h, Nat.shiftLeft_eq,
    Nat.shiftRight_eq_div_pow]
  omega

lemma gt_iff (x : UInt64) :
    (10 : UInt64).toInt64 < (x &&& 0xffffffff).toInt64 ↔ 10 < x &&& 0xffffffff := by
  have hx : (x &&& 0xffffffff).toInt64.toInt = (x &&& 0xffffffff).toNat := by
    change (x &&& 0xffffffff).toBitVec.toInt = _
    rw [BitVec.toInt_eq_toNat_of_lt]
    · rfl
    · change 2 * (x &&& 0xffffffff).toNat < 2 ^ 64
      rw [and_mask_toNat]
      omega
  rw [Int64.lt_iff_toInt_lt, UInt64.lt_iff_toNat_lt, hx]
  change (10 : ℤ) < _ ↔ _
  simp

/-- An offset below a base, as the machine adds it. -/
lemma add_toNat_of_neg {b c : UInt64} (h : 2 ^ 64 ≤ b.toNat + c.toNat) :
    (b + c).toNat = b.toNat + c.toNat - 2 ^ 64 := by
  have hb := b.toNat_lt
  have hc := c.toNat_lt
  rw [UInt64.toNat_add]
  omega

/-- A word of the upper half is none of the frame of the stub. -/
lemma stub_mem (hu : 40 ≤ (s.reg .rsp).toNat ∧ (s.reg .rsp).toNat + 48 ≤ 2 ^ 63) {a : UInt64}
    (ha : 2 ^ 63 ≤ a.toNat) : (stub s).mem a = s.mem a := by
  have hne : ∀ c : UInt64, 18446744073709551576 ≤ c → a ≠ s.reg .rsp + c := by
    intro c hc he
    have hc := UInt64.le_iff_toNat_le.mp hc
    simp only [UInt64.reduceToNat] at hc
    have := add_toNat_of_neg (b := s.reg .rsp) (c := c) (by omega)
    have := c.toNat_lt
    rw [he] at ha
    omega
  by_cases h : extended s
  · rw [stub_of_extended h]
    simp -implicitDefEqProofs [stubMoves, stubEargs, Instr.exec, hne, UInt64.sub_eq_add_mul,
      UInt64.add_assoc]
  · rw [stub_of_not_extended h]
    simp -implicitDefEqProofs [stubMoves, stubNoEargs, Instr.exec, hne, UInt64.sub_eq_add_mul,
      UInt64.add_assoc]

lemma stub_frame : (stub s).mem (s.reg .rsp - 8) = s.reg .rbx := by
  by_cases h : extended s
  · rw [stub_of_extended h]
    simp -implicitDefEqProofs [stubMoves, stubEargs, Instr.exec, UInt64.sub_eq_add_mul,
      UInt64.add_assoc]
  · rw [stub_of_not_extended h]
    simp -implicitDefEqProofs [stubMoves, stubNoEargs, Instr.exec, UInt64.sub_eq_add_mul,
      UInt64.add_assoc]

lemma stub_frame_of_extended (h : extended s) : (stub s).mem (s.reg .rsp - 16) = s.reg .r12 ∧
    (stub s).mem (s.reg .rsp - 24) = s.reg .r13 ∧
    (stub s).mem (s.reg .rsp - 32) = s.reg .r14 ∧
    (stub s).mem (s.reg .rsp - 40) = s.reg .r15 := by
  rw [stub_of_extended h]
  simp -implicitDefEqProofs [stubMoves, stubEargs, Instr.exec, UInt64.sub_eq_add_mul,
    UInt64.add_assoc]

lemma stub_gs : (stub s).gs = s.gs ∧ (stub s).kernelGs = s.kernelGs := by
  by_cases h : extended s
  · rw [stub_of_extended h]
    simp -implicitDefEqProofs [stubMoves, stubEargs, Instr.exec]
  · rw [stub_of_not_extended h]
    simp -implicitDefEqProofs [stubMoves, stubNoEargs, Instr.exec]

lemma Layout.stub_mem (h : Layout P s) {a : UInt64} (ha : 2 ^ 63 ≤ a.toNat) :
    (stub s).mem a = s.mem a := Syscall.stub_mem h.stack ha

/-- The kernel stack pointer that the entry loads. -/
lemma Layout.stub_callRsp (h : Layout P s) :
    (stub s).mem (stub s).kernelGs = s.mem s.kernelGs := by
  rw [stub_gs.2, h.stub_mem h.data.1]

/-- A word that is none of the frame of the entry. -/
lemma Layout.ne_frame (h : Layout P s) {a : UInt64}
    (ha : Apart a.toNat 8 ((s.mem s.kernelGs).toNat - 88) 88) (c : UInt64)
    (h0 : 18446744073709551528 ≤ c) (hc : c ≤ 18446744073709551608) :
    a ≠ s.mem s.kernelGs + c := by
  intro he
  have h0 := UInt64.le_iff_toNat_le.mp h0
  have hc := UInt64.le_iff_toNat_le.mp hc
  have hk := h.frame
  simp only [UInt64.reduceToNat] at h0 hc
  have := add_toNat_of_neg (b := s.mem s.kernelGs) (c := c) (by omega)
  rw [he] at ha
  unfold Apart at ha
  omega

lemma Layout.data_toNat (h : Layout P s) : (s.kernelGs + 8).toNat = s.kernelGs.toNat + 8 := by
  have := h.data
  have h8 : (8 : UInt64).toNat = 8 := rfl
  rw [UInt64.toNat_add, h8]
  omega

lemma Layout.thread_toNat (h : Layout P s) : (P.threadC + 56).toNat = P.threadC.toNat + 56 := by
  have := h.thread
  have h56 : (56 : UInt64).toNat = 56 := rfl
  rw [UInt64.toNat_add, h56]
  omega

/-- The entry leaves alone what is none of its words. -/
lemma Layout.entry_mem (h : Layout P s) {a : UInt64}
    (hf : Apart a.toNat 8 ((s.mem s.kernelGs).toNat - 88) 88)
    (hd : Apart a.toNat 8 s.kernelGs.toNat 16)
    (ht : Apart a.toNat 8 (P.threadC.toNat + 56) 8) :
    (entry P (stub s)).mem a = (stub s).mem a := by
  have hd : a ≠ s.kernelGs + 8 := by
    intro he
    have := h.data_toNat
    unfold Apart at hd
    rw [he] at hd
    omega
  have ht : a ≠ P.threadC + 56 := by
    intro he
    have := h.thread_toNat
    unfold Apart at ht
    rw [he] at ht
    omega
  have hk := h.stub_callRsp
  rw [stub_gs.2] at hk
  apply block_mem
  rw [written_entryCode, stub_gs.2, hk]
  simp [hd, ht, h.ne_frame hf, UInt64.sub_eq_add_mul]

/-- The saved stack pointer. -/
lemma Layout.entry_data (h : Layout P s) :
    (entry P (stub s)).mem (s.kernelGs + 8) = (stub s).reg .rsp := by
  have hd : Apart (s.kernelGs + 8).toNat 8 ((s.mem s.kernelGs).toNat - 88) 88 := by
    have := h.data_toNat
    have := h.data_frame
    unfold Apart at *
    omega
  have hk := h.stub_callRsp
  rw [stub_gs.2] at hk
  simp -implicitDefEqProofs [entry, entryCode, Instr.exec, State.syscall, callRsp, callSaveRsp,
    registersCallSaveRsp, UInt64.sub_eq_add_mul, UInt64.add_assoc, stub_gs.2, hk, h.ne_frame hd]

lemma entry_gt : (entry P t).gt = decide (10 < t.reg .rsi &&& 0xffffffff) := by
  have h : (entry P t).gt = decide ((10 : UInt64).toInt64 < (t.reg .rsi <<< 32 >>> 32).toInt64) := by
    simp -implicitDefEqProofs [entry, entryCode, Instr.exec, State.syscall]
  rw [h, shl_shr_eq]
  exact decide_eq_decide.mpr (gt_iff _)

/-- The registers that hold the same argument on both paths. -/
lemma stub_common : (stub s).reg .rsi = s.reg .rdi ∧ (stub s).reg .rdx = s.reg .rsi ∧
    (stub s).reg .rbx = s.reg .rdx ∧ (stub s).reg .r8 = s.reg .rcx ∧
    (stub s).reg .r9 = s.reg .r8 ∧ (stub s).reg .rdi = s.reg .r9 ∧
    (stub s).reg .rbp = s.reg .rbp := by
  by_cases h : extended s
  · simp only [stub_reg_of_extended h, and_self]
  · simp only [stub_reg h, and_self]

/-- The state in which the entry calls a handler. -/
def handlerState (P : Image) (s : State) : State :=
  (block (callCode P) (entry P (stub s))).call P.returnAddress

lemma called_eq_none_iff : called P s = none ↔ 10 < number s := by
  unfold called dispatch
  rw [entry_gt, stub_common.1]
  simp [number]

lemma callCode_reg (r : Reg) : r ≠ .rax → (block (callCode P) t).reg r = match r with
    | .rcx => t.reg .rbx
    | .rsi => t.reg .rsi >>> 32
    | .rdi => t.reg .rsp + 48
    | .r10 => P.syscalls
    | r => t.reg r := by
  intro hr
  cases r <;> simp -implicitDefEqProofs [callCode, Instr.exec] at hr ⊢

lemma callCode_mem : (block (callCode P) t).mem = t.mem := by
  simp -implicitDefEqProofs [callCode, Instr.exec]

lemma callCode_gs :
    (block (callCode P) t).gs = t.gs ∧ (block (callCode P) t).kernelGs = t.kernelGs := by
  simp -implicitDefEqProofs [callCode, Instr.exec]

lemma callCode_rax :
    (block (callCode P) t).reg .rax = t.mem (P.syscalls + t.reg .rax * 8) := by
  simp -implicitDefEqProofs [callCode, Instr.exec]

/-- An entry of the table. -/
lemma Layout.entry_table (h : Layout P s) {n : UInt64} (hn : n ≤ 10) :
    (entry P (stub s)).mem (P.syscalls + n * 8) = s.mem (P.syscalls + n * 8) := by
  have hn := UInt64.le_iff_toNat_le.mp hn
  have h8 : (8 : UInt64).toNat = 8 := rfl
  have ht := h.table
  have ha : (P.syscalls + n * 8).toNat = P.syscalls.toNat + n.toNat * 8 := by
    rw [UInt64.toNat_add, UInt64.toNat_mul, h8]
    simp only [UInt64.reduceToNat] at hn
    omega
  simp only [UInt64.reduceToNat] at hn
  have hf := h.table_frame
  have hd := h.table_data
  have hc := h.table_thread
  unfold Apart at hf hd hc
  rw [h.entry_mem, h.stub_mem]
  all_goals
    first
    | unfold Apart
      omega
    | omega

lemma Layout.called_eq_some (h : Layout P s) (hn : ¬ 10 < number s) :
    called P s = some (s.mem (P.syscalls + number s * 8), handlerState P s) := by
  have hg : (entry P (stub s)).gt = false := by
    rw [entry_gt, stub_common.1]
    exact decide_eq_false hn
  have hle : number s ≤ 10 := UInt64.not_lt.mp hn
  unfold called dispatch handlerState
  simp only [hg, Bool.false_eq_true, if_false]
  rw [callCode_rax, entry_reg _ (by decide)]
  simp only
  rw [stub_common.1, shl_shr_eq]
  change some ((entry P (stub s)).mem (P.syscalls + number s * 8), _) = _
  rw [h.entry_table hle]

lemma Layout.handler_rsp (h : Layout P s) :
    (handlerState P s).reg .rsp = s.mem s.kernelGs - 88 := by
  have hk := h.stub_callRsp
  unfold handlerState State.call
  rw [State.reg_push, if_pos rfl, callCode_reg _ (by decide)]
  simp only
  rw [entry_reg _ (by decide), hk]
  simp [UInt64.sub_eq_add_mul, UInt64.add_assoc]

lemma handler_reg (r : Reg) (hr : r ≠ .rsp) :
    (handlerState P s).reg r = (block (callCode P) (entry P (stub s))).reg r := by
  unfold handlerState State.call
  rw [State.reg_push, if_neg hr]

/-- The call pushes one word of the frame. -/
lemma Layout.handler_mem (h : Layout P s) {a : UInt64} (ha : a ≠ s.mem s.kernelGs - 88) :
    (handlerState P s).mem a = (entry P (stub s)).mem a := by
  have hr := h.handler_rsp
  unfold handlerState State.call at hr ⊢
  rw [State.reg_push, if_pos rfl] at hr
  rw [State.mem_push, hr, if_neg ha, callCode_mem]


/-- The register arguments of the handler. -/
lemma handler_registers :
    (handlerState P s).reg .rsi = s.reg .rdi >>> 32 ∧ (handlerState P s).reg .rdx = s.reg .rsi ∧
    (handlerState P s).reg .rcx = s.reg .rdx ∧ (handlerState P s).reg .r8 = s.reg .rcx ∧
    (handlerState P s).reg .r9 = s.reg .r8 := by
  have hreg : ∀ r, r ≠ .rsp → (handlerState P s).reg r =
      (block (callCode P) (entry P (stub s))).reg r := handler_reg
  have hs := stub_common (s := s)
  refine ⟨?_, ?_, ?_, ?_, ?_⟩
  all_goals
    rw [hreg _ (by decide), callCode_reg _ (by decide)]
    simp only
    rw [entry_reg _ (by decide)]
    simp only [hs]

/-- The frame that the handler sees above its return address. -/
lemma Layout.handler_frame (h : Layout P s) :
    (handlerState P s).mem (s.mem s.kernelGs - 80) = (stub s).reg .rdi ∧
    (handlerState P s).mem (s.mem s.kernelGs - 72) = (stub s).reg .rax ∧
    (handlerState P s).mem (s.mem s.kernelGs - 64) = (stub s).reg .r12 ∧
    (handlerState P s).mem (s.mem s.kernelGs - 56) = (stub s).reg .r13 ∧
    (handlerState P s).mem (s.mem s.kernelGs - 48) = (stub s).reg .r14 ∧
    (handlerState P s).mem (s.mem s.kernelGs - 40) = (stub s).reg .r15 := by
  have hf := entry_frame (P := P) (t := stub s)
  rw [h.stub_callRsp] at hf
  refine ⟨?_, ?_, ?_, ?_, ?_, ?_⟩
  all_goals
    rw [h.handler_mem (by simp)]
    simp only [hf]

/-- The stack arguments of the handler. -/
lemma Layout.handler_stack (h : Layout P s) :
    (handlerState P s).argument 6 = (stub s).reg .rdi ∧
    (handlerState P s).argument 7 = (stub s).reg .rax ∧
    (handlerState P s).argument 8 = (stub s).reg .r12 ∧
    (handlerState P s).argument 9 = (stub s).reg .r13 ∧
    (handlerState P s).argument 10 = (stub s).reg .r14 ∧
    (handlerState P s).argument 11 = (stub s).reg .r15 := by
  have hf := h.handler_frame
  simp only [State.argument, h.handler_rsp]
  simpa [UInt64.sub_eq_add_mul, UInt64.add_assoc] using hf

/-- The stack arguments of `syscall` and where the stub leaves them. -/
lemma stub_stack_of_extended (h : extended s) : (stub s).reg .rax = s.argument 10 ∧
    (stub s).reg .r12 = s.argument 9 ∧ (stub s).reg .r13 = s.argument 8 ∧
    (stub s).reg .r14 = s.argument 7 ∧ (stub s).reg .r15 = s.argument 6 := by
  simp only [stub_reg_of_extended h, State.argument]
  simp

lemma stub_stack (h : ¬ extended s) : (stub s).reg .rax = s.argument 6 := by
  simp only [stub_reg h, State.argument]
  simp

lemma Layout.called_of_selected (h : Layout P s) {f : UInt64} (hf : selected P s = some f) :
    called P s = some (f, handlerState P s) := by
  unfold selected at hf
  split at hf
  · cases hf
  next hn =>
    rw [h.called_eq_some hn]
    simp only [Option.ite_none_left_eq_some, Option.some.injEq] at hf
    rw [hf.2]

/-- The first five arguments always arrive. -/
lemma Layout.delivers_registers (h : Layout P s) {i : ℕ} (h1 : 1 ≤ i) (h5 : i ≤ 5) :
    (handlerState P s).argument (i + 1) = s.argument i := by
  obtain ⟨-, h2, h3, h4, h5'⟩ := handler_registers (P := P) (s := s)
  have h6 := h.handler_stack.1.trans stub_common.2.2.2.2.2.1
  interval_cases i
  · exact h2
  · exact h3
  · exact h4
  · exact h5'
  · exact h6

/-- With extended arguments `a6` to `a10` arrive in the opposite order. -/
lemma Layout.delivers_reversed (h : Layout P s) (he : extended s) {i : ℕ} (h6 : 6 ≤ i)
    (h10 : i ≤ 10) : (handlerState P s).argument (i + 1) = s.argument (16 - i) := by
  obtain ⟨-, h7, h8, h9, ha, hb⟩ := h.handler_stack
  obtain ⟨e7, e8, e9, ea, eb⟩ := stub_stack_of_extended he
  interval_cases i
  · exact h7.trans e7
  · exact h8.trans e8
  · exact h9.trans e9
  · exact ha.trans ea
  · exact hb.trans eb

lemma Layout.delivers_iff (h : Layout P s) :
    Delivers P s ↔ selected P s = none ∨ ¬ extended s ∨
      s.argument 6 = s.argument 10 ∧ s.argument 7 = s.argument 9 := by
  cases hs : selected P s with
  | none => simp [Delivers, hs]
  | some f =>
    have hc := h.called_of_selected hs
    have h1 : (handlerState P s).argument 1 = s.argument 0 >>> 32 := handler_registers.1
    have hd : Delivers P s ↔ ∀ i, 1 ≤ i → i ≤ (if extended s then 10 else 6) →
        (handlerState P s).argument (i + 1) = s.argument i := by
      simp [Delivers, hs, hc, h1]
    rw [hd]
    by_cases he : extended s
    · simp only [he, if_true, reduceCtorEq, not_true_eq_false, false_or]
      constructor
      · intro ha
        have h7 := ha 6 (by omega) (by omega)
        have h8 := ha 7 (by omega) (by omega)
        rw [h.delivers_reversed he (by omega) (by omega)] at h7 h8
        exact ⟨h7.symm, h8.symm⟩
      · rintro ⟨h6, h7⟩ i hi h10
        by_cases h5 : i ≤ 5
        · exact h.delivers_registers hi h5
        · rw [h.delivers_reversed he (by omega) h10]
          interval_cases i
          · exact h6.symm
          · exact h7.symm
          · rfl
          · exact h7
          · exact h6
    · simp only [he, if_false, not_false_eq_true, true_or, or_true, iff_true]
      intro i hi h6
      by_cases h5 : i ≤ 5
      · exact h.delivers_registers hi h5
      · obtain rfl : i = 6 := by omega
        exact h.handler_stack.2.1.trans (stub_stack he)

/-- What the way back needs of the state in which it starts. -/
structure Resumes (s r : State) : Prop where
  rsp : r.reg .rsp = s.mem s.kernelGs - 80
  rbp : r.reg .rbp = s.reg .rbp
  kernelGs : r.kernelGs = s.kernelGs
  data : r.mem (s.kernelGs + 8) = (stub s).reg .rsp
  rbx : r.mem (s.reg .rsp - 8) = s.reg .rbx
  pushed : extended s → r.mem (s.reg .rsp - 16) = s.reg .r12 ∧
    r.mem (s.reg .rsp - 24) = s.reg .r13 ∧ r.mem (s.reg .rsp - 32) = s.reg .r14 ∧
    r.mem (s.reg .rsp - 40) = s.reg .r15
  frame : ¬ extended s → r.mem (s.mem s.kernelGs - 64) = s.reg .r12 ∧
    r.mem (s.mem s.kernelGs - 56) = s.reg .r13 ∧ r.mem (s.mem s.kernelGs - 48) = s.reg .r14 ∧
    r.mem (s.mem s.kernelGs - 40) = s.reg .r15

lemma Resumes.restores {r : State} (h : Resumes s r) :
    (stubReturn (jumps s) (block exitCode r)).reg .rsp = s.reg .rsp + 8 ∧
    ∀ x ∈ calleeSaved, (stubReturn (jumps s) (block exitCode r)).reg x = s.reg x := by
  have hs := h.data
  rw [jumps_eq]
  by_cases he : extended s
  · have hp := h.pushed he
    rw [stub_reg_of_extended he] at hs
    simp only [he, decide_true, Bool.not_true, calleeSaved, List.forall_mem_cons,
      stubReturn_reg_of_extended, exit_reg, exit_mem, h.kernelGs, hs, h.rbp]
    have hb := h.rbx
    simp only [UInt64.sub_eq_add_mul, UInt64.add_assoc] at hp hb ⊢
    simpa using ⟨hb, hp⟩
  · have hf := h.frame he
    rw [stub_reg he] at hs
    simp only [he, decide_false, Bool.not_false, calleeSaved, List.forall_mem_cons,
      stubReturn_reg, exit_reg, exit_mem, h.kernelGs, hs, h.rsp, h.rbp]
    have hb := h.rbx
    simp only [UInt64.sub_eq_add_mul, UInt64.add_assoc] at hf hb ⊢
    simpa using ⟨hb, hf⟩

/-- A word of the stub's frame. -/
lemma Layout.user_toNat (h : Layout P s) (c : UInt64) (hc : c ≤ 40) :
    (s.reg .rsp - c).toNat < 2 ^ 63 - 8 := by
  have hu := h.stack
  have hc := UInt64.le_iff_toNat_le.mp hc
  simp only [UInt64.reduceToNat] at hc
  rw [UInt64.toNat_sub_of_le _ _ (UInt64.le_iff_toNat_le.mpr (by omega))]
  omega

/-- The entry leaves the lower half alone. -/
lemma Layout.entry_user (h : Layout P s) {a : UInt64} (ha : a.toNat < 2 ^ 63 - 8) :
    (entry P (stub s)).mem a = (stub s).mem a := by
  have hk := h.frame
  have hd := h.data
  have ht := h.thread
  apply h.entry_mem
  all_goals
    unfold Apart
    omega

/-- After the entry, if nothing is called. -/
lemma Layout.entry_resumes (h : Layout P s) :
    Resumes s (block invalidCode (entry P (stub s))) := by
  have hf := entry_frame (P := P) (t := stub s)
  have hreg : ∀ r, r ≠ .rax → (block invalidCode (entry P (stub s))).reg r =
      (entry P (stub s)).reg r := by
    intro r hr
    simp [invalidCode, Instr.exec, hr]
  have hmem : (block invalidCode (entry P (stub s))).mem = (entry P (stub s)).mem := by
    simp [invalidCode, Instr.exec]
  rw [h.stub_callRsp] at hf
  constructor
  case rsp =>
    rw [hreg _ (by decide), entry_reg _ (by decide)]
    simp only [h.stub_callRsp]
  case rbp =>
    rw [hreg _ (by decide), entry_reg _ (by decide)]
    simp only [stub_common]
  case kernelGs =>
    have : (block invalidCode (entry P (stub s))).kernelGs = (entry P (stub s)).kernelGs := by
      simp [invalidCode, Instr.exec]
    rw [this, entry_gs.2, stub_gs.2]
  case data => rw [hmem, h.entry_data]
  case rbx => rw [hmem, h.entry_user (h.user_toNat 8 (by decide)), stub_frame]
  case pushed =>
    intro he
    rw [hmem, h.entry_user (h.user_toNat 16 (by decide)),
      h.entry_user (h.user_toNat 24 (by decide)), h.entry_user (h.user_toNat 32 (by decide)),
      h.entry_user (h.user_toNat 40 (by decide))]
    exact stub_frame_of_extended he
  case frame =>
    intro he
    simp only [hmem, hf, stub_reg he, and_self]

/-- A word that the call does not push over. -/
lemma Layout.handler_user (h : Layout P s) {a : UInt64} (ha : a.toNat < 2 ^ 63 - 8) :
    (handlerState P s).mem a = (stub s).mem a := by
  have hk := h.frame
  rw [h.handler_mem, h.entry_user ha]
  intro he
  rw [he, UInt64.toNat_sub_of_le _ _ (UInt64.le_iff_toNat_le.mpr (by
    simp only [UInt64.reduceToNat]; omega))] at ha
  simp only [UInt64.reduceToNat] at ha
  omega

lemma Layout.handler_data (h : Layout P s) :
    (handlerState P s).mem (s.kernelGs + 8) = (stub s).reg .rsp := by
  have hd : Apart (s.kernelGs + 8).toNat 8 ((s.mem s.kernelGs).toNat - 88) 88 := by
    have := h.data_toNat
    have := h.data_frame
    unfold Apart at *
    omega
  rw [h.handler_mem, h.entry_data]
  have := h.ne_frame hd 18446744073709551528 (by decide) (by decide)
  simpa [UInt64.sub_eq_add_mul] using this

/-- After a handler that keeps to the convention. -/
lemma Layout.handler_resumes (h : Layout P s) {r : State}
    (hr : Returns (kept s) (handlerState P s) r) : Resumes s r := by
  have hmem : ∀ a ∈ kept s, r.mem a = (handlerState P s).mem a := hr.mem
  have hf := h.handler_frame
  constructor
  case rsp =>
    rw [hr.rsp, h.handler_rsp]
    simp [UInt64.sub_eq_add_mul, UInt64.add_assoc]
  case rbp =>
    rw [hr.saved .rbp (by decide), handler_reg _ (by decide), callCode_reg _ (by decide)]
    simp only
    rw [entry_reg _ (by decide)]
    simp only [stub_common]
  case kernelGs =>
    rw [hr.kernelGs]
    unfold handlerState State.call
    rw [(State.gs_push _ _).2, callCode_gs.2, entry_gs.2, stub_gs.2]
  case data => rw [hmem _ (by simp [kept, callSaveRsp]), h.handler_data]
  case rbx =>
    rw [hmem _ (by simp [kept]), h.handler_user (h.user_toNat 8 (by decide)), stub_frame]
  case pushed =>
    intro he
    rw [hmem _ (by simp [kept]), hmem _ (by simp [kept]), hmem _ (by simp [kept]),
      hmem _ (by simp [kept]), h.handler_user (h.user_toNat 16 (by decide)),
      h.handler_user (h.user_toNat 24 (by decide)), h.handler_user (h.user_toNat 32 (by decide)),
      h.handler_user (h.user_toNat 40 (by decide))]
    exact stub_frame_of_extended he
  case frame =>
    intro he
    rw [hmem _ (by simp [kept, he]), hmem _ (by simp [kept, he]), hmem _ (by simp [kept, he]),
      hmem _ (by simp [kept, he])]
    simp only [hf, stub_reg he, and_self]

theorem Layout.restores (h : Layout P s) : Restores P s := by
  intro x hx
  cases hx with
  | invalid _ =>
    rw [block_append]
    exact h.entry_resumes.restores
  | handled hc hr =>
    have hn : ¬ 10 < number s := by
      intro hn
      rw [called_eq_none_iff.mpr hn] at hc
      cases hc
    rw [h.called_eq_some hn] at hc
    obtain ⟨-, rfl⟩ := Prod.mk.inj (Option.some.inj hc)
    exact (h.handler_resumes hr).restores

/-- `sysret` returns to the instruction after `syscall`. -/
theorem Layout.exit_rip (h : Layout P s) {r : State} (hs : Resumes s r)
    (hr : r.mem (s.mem s.kernelGs - 24) = (entry P (stub s)).mem (s.mem s.kernelGs - 24)) :
    (block exitCode r).reg .rcx = P.rip := by
  have hf := entry_frame (P := P) (t := stub s)
  rw [h.stub_callRsp] at hf
  rw [exit_reg]
  simp only [hs.rsp]
  rw [← hf.2.2.2.2.2.2, ← hr]
  simp [UInt64.sub_eq_add_mul, UInt64.add_assoc]

/-- The two sides agree except on `a6` to `a10` of an extended call, which arrive reversed. -/
theorem agrees_iff (h : Layout P s) : Agrees P s ↔ selected P s = none ∨ ¬ extended s ∨
    s.argument 6 = s.argument 10 ∧ s.argument 7 = s.argument 9 := by
  rw [← h.delivers_iff]
  exact and_iff_left h.restores

/-- An extended call of number 3 with the arguments 1 to 10. -/
def sampleImage : Image where
  syscalls := 0xffffff8000002000
  threadC := 0xffffff8000003000
  rip := 0x401000
  rflags := 0x202
  returnAddress := 0xffffff8000001000

def sampleCall : State where
  reg
    | .rdi => 0x100000003
    | .rsi => 1
    | .rdx => 2
    | .rcx => 3
    | .r8 => 4
    | .r9 => 5
    | .rsp => 0x7ffff000
    | _ => 0
  mem a :=
    if a = 0xffffff8000004000 then 0xffffff8000100000
    else if a = 0xffffff8000002018 then 0xffffff8000001800
    else if a < 0x7ffff008 then 0
    else (a - 0x7ffff008) / 8 + 6
  gs := 0
  kernelGs := 0xffffff8000004000

lemma sampleCall_layout : Layout sampleImage sampleCall where
  stack := by decide
  frame := by decide
  data := by decide
  thread := by decide
  table := by decide
  data_frame := Or.inl (by decide)
  thread_frame := Or.inl (by decide)
  table_frame := Or.inl (by decide)
  table_data := Or.inl (by decide)
  table_thread := Or.inl (by decide)

theorem agrees_iff_sample : Layout sampleImage sampleCall ∧
    (Agrees sampleImage sampleCall ↔
      selected sampleImage sampleCall = none ∨ ¬ extended sampleCall ∨
        sampleCall.argument 6 = sampleCall.argument 10 ∧
          sampleCall.argument 7 = sampleCall.argument 9) :=
  ⟨sampleCall_layout, agrees_iff sampleCall_layout⟩

/-- The handler gets 10 as `a6`. -/
theorem not_agrees_sample : Layout sampleImage sampleCall ∧ ¬ Agrees sampleImage sampleCall := by
  refine ⟨sampleCall_layout, fun h => ?_⟩
  have hd := sampleCall_layout.delivers_iff.mp h.1
  revert hd
  decide

end EpochKernel.Syscall
