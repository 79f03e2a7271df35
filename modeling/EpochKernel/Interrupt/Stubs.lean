import EpochKernel.Library.X64Frames

/-! The assembly stubs of `int.asm` for the timer interrupt and `INT_SCHED`: they save the registers
for the C handler, which may return a structure with those of another thread. -/
namespace EpochKernel.Interrupt
open Library Library.Bytes Library.X64Frames
open Library.X64 (Reg calleeSaved)

/-! `registers` and `int_data`. -/
def registersSize : UInt64 := 164
def cs : ℕ := 160
def ss : ℕ := 162
def rflags : ℕ := 144
def rip : ℕ := 152

def offset : Reg → ℕ
  | .rax => 0
  | .rbx => 8
  | .rcx => 16
  | .rdx => 24
  | .rbp => 32
  | .rsp => 40
  | .rdi => 64
  | .rsi => 72
  | .r8 => 80
  | .r9 => 88
  | .r10 => 96
  | .r11 => 104
  | .r12 => 112
  | .r13 => 120
  | .r14 => 128
  | .r15 => 136

namespace IntData
def rip : ℕ := 0
def cs : ℕ := 8
def rflags : ℕ := 16
def rsp : ℕ := 24
def ss : ℕ := 32
end IntData

/-- The registers that `save_regs` saves; the others are in the interrupt frame. -/
def savedRegs : List Reg :=
  [.rax, .rbx, .rcx, .rdx, .rbp, .rdi, .rsi, .r8, .r9, .r10, .r11, .r12, .r13, .r14, .r15]

/-- `save_regs`. -/
def saveRegs : List Instr :=
  .subImm .rsp registersSize :: savedRegs.map fun r => .store .rsp (offset r) r

/-- `save_int_data_regs`. -/
def saveIntDataRegs (p : Reg) : List Instr := [
  .load .rax p IntData.rip,
  .store .rsp rip .rax,
  .load .rax p IntData.cs,
  .store16 .rsp cs .rax,
  .load .rax p IntData.rflags,
  .store .rsp rflags .rax,
  .load .rax p IntData.rsp,
  .store .rsp (offset .rsp) .rax,
  .load .rax p IntData.ss,
  .store16 .rsp ss .rax]

/-- The first part of `load_new_regs`: the interrupt frame. -/
def loadNewFrame : List Instr := [
  .load .rax .r14 (offset .rsp),
  .store .r15 IntData.rsp .rax,
  .load .rax .r14 rip,
  .store .r15 IntData.rip .rax,
  .load .rax .r14 rflags,
  .store .r15 IntData.rflags .rax,
  .movImm .rax 0,
  .load16 .rax .r14 ss,
  .store .r15 IntData.ss .rax,
  .load16 .rax .r14 cs,
  .store .r15 IntData.cs .rax]

/-- `load_new_regs`; `r14`, which holds the pointer, is loaded last. -/
def loadNewRegs : List Instr :=
  loadNewFrame ++
  ([.rax, .rbx, .rcx, .rdx, .rbp, .rdi, .rsi, .r8, .r9, .r10, .r11, .r12, .r13, .r15].map
    fun r => .load r .r14 (offset r)) ++
  [.load .r14 .r14 (offset .r14)]

/-- `load_old_regs`. -/
def loadOldRegs : List Instr :=
  [.rax, .rcx, .rdx, .rdi, .rsi, .r8, .r9, .r10, .r11, .r14, .r15].map
    fun r => .load r .rsp (offset r)

/-- `make_asm_irq_handler IRQ_TIMER` and `make_asm_int_handler INT_SCHED`. -/
inductive Stub
  | irqTimer | intSched
  deriving DecidableEq

/-- What the linker fixes: the functions called, and the return addresses of the calls. -/
structure Image where
  handler : UInt64
  picEoi : UInt64
  handlerReturn : UInt64
  picEoiReturn : UInt64

variable (P : Image)

/-- A stub up to `call rax`. -/
def prologue : List Instr :=
  saveRegs ++ [.mov .r15 .rsp, .addImm .r15 registersSize] ++ saveIntDataRegs .r15 ++
    [.mov .rdi .r15, .movImm .rsi 0, .mov .rdx .rsp, .movImm .rax P.handler]

/-- The state at the first instruction of the C handler. -/
def handlerEntry (s : State) : State := (block (prologue P) s).call P.handlerReturn

/-- The state at the first instruction of `pic_eoi`, when the C handler has returned with `r`. -/
def picEoiEntry (r : State) : State :=
  (block [.mov .r14 .rax, .movImm .rdi 32, .movImm .rcx P.picEoi] r).call P.picEoiReturn

/-- The state at `cmp r14, 0`; `pic_eoi` keeps the bytes in `kept`. -/
def Continues (kept : UInt64 → Prop) : Stub → State → State → Prop
  | .intSched, r, s => s = block [.mov .r14 .rax] r
  | .irqTimer, r, s => Returns kept (picEoiEntry P r) s

/-- The rest of a stub. -/
def finish (s : State) : Context :=
  if s.reg .r14 = 0 then (block (loadOldRegs ++ [.addImm .rsp registersSize]) s).iretq
  else (block (loadNewRegs ++ [.addImm .rsp registersSize]) s).iretq

/-- The structure `registers` at an address. -/
def readRegisters (m : Memory) (p : UInt64) : Context where
  reg x := UInt64.ofNat (load m (p + UInt64.ofNat (offset x)) 8)
  rip := UInt64.ofNat (load m (p + UInt64.ofNat rip) 8)
  rflags := UInt64.ofNat (load m (p + UInt64.ofNat rflags) 8)
  cs := UInt16.ofNat (load m (p + UInt64.ofNat cs) 2)
  ss := UInt16.ofNat (load m (p + UInt64.ofNat ss) 2)

lemma readRegisters_congr {m m' : Memory} {p : UInt64} (h : ∀ a, Within p 164 a → m a = m' a) :
    readRegisters m p = readRegisters m' p := by
  have hload {o k : ℕ} (ho : o + k ≤ 164) :
      load m (p + UInt64.ofNat o) k = load m' (p + UInt64.ofNat o) k :=
    load_congr (by omega) fun a ha => h a (by
      rw [within_offset (by omega)] at ha
      unfold Within
      omega)
  have hfit (x : Reg) : offset x + 8 ≤ 164 := by cases x <;> decide
  refine Context.ext (funext fun x => ?_) ?_ ?_ ?_ ?_ <;> unfold readRegisters <;> dsimp only
  · rw [hload (hfit x)]
  · rw [hload (o := rip) (by decide)]
  · rw [hload (o := rflags) (by decide)]
  · rw [hload (o := cs) (by decide)]
  · rw [hload (o := ss) (by decide)]

/-- The bytes that a C function must not write: the interrupt frame at `f` and the saved registers
below it, up to `kernel_rsp` and `call_save_rsp`, which the handler sets itself. -/
def FrameKept (f a : UInt64) : Prop :=
  Within f 40 a ∨ (Within (f - registersSize) 164 a ∧ ¬ Within (f - registersSize + 48) 16 a)

/-- What the stub has saved. -/
def savedFields (c : Context) : List ((ℕ × ℕ) × ℕ) :=
  (savedRegs.map fun r => ((offset r, 8), (c.reg r).toNat)) ++
    [((rip, 8), c.rip.toNat), ((cs, 2), c.cs.toNat), ((rflags, 8), c.rflags.toNat),
      ((offset .rsp, 8), (c.reg .rsp).toNat), ((ss, 2), c.ss.toNat)]

variable {P} {c : Context} {f : UInt64} {m : Memory}

lemma block_saveRegs (s : State) : block saveRegs s =
    ⟨Function.update s.reg .rsp (s.reg .rsp - registersSize),
      stores s.mem (s.reg .rsp - registersSize)
        (savedRegs.map fun r => ((offset r, 8), (s.reg r).toNat))⟩ := by
  unfold saveRegs
  rw [block_cons, block_stores]
  simp only [Instr.exec, State.set, Function.update_self]
  congr 1

lemma saveIntDataRegs_eq (p : Reg) : saveIntDataRegs p = transfer p .rsp
    [(IntData.rip, rip, 8), (IntData.cs, cs, 2), (IntData.rflags, rflags, 8),
      (IntData.rsp, offset .rsp, 8), (IntData.ss, ss, 2)] := rfl

lemma frame_address (f : UInt64) : f - registersSize + UInt64.ofNat 164 = f :=
  UInt64.sub_add_cancel f _

/-- The interrupt frame lies above the saved registers. -/
lemma frame_apart (f : UInt64) : Apart f 40 (f - registersSize) 164 := by
  have h : Apart (f - registersSize + UInt64.ofNat 164) 40 (f - registersSize + UInt64.ofNat 0) 164 :=
    apart_offset (by norm_num) (by norm_num) (by norm_num)
  rwa [frame_address, show UInt64.ofNat 0 = 0 from rfl, UInt64.add_zero] at h

lemma apart_field {a b : UInt64} {o k n m : ℕ} (h : Apart a m b n) (hm : m ≤ 2 ^ 64) (ho : o + k ≤ m) :
    Apart (a + UInt64.ofNat o) k b n := by
  intro x hx
  rw [within_offset (by omega)] at hx
  exact h x (by unfold Within; omega)

lemma frame_spread : Spread 40 (c.frame.map Prod.fst) := by
  change Spread 40 [(0, 8), (8, 8), (16, 8), (24, 8), (32, 8)]
  decide

lemma frame_lt : ∀ e ∈ c.frame, e.2 < 256 ^ 8 := by
  have hlt (x : UInt64) : x.toNat < 256 ^ 8 := x.toNat_lt
  have hlt' (x : UInt16) : x.toNat < 256 ^ 8 := x.toNat_lt.trans (by norm_num)
  simp only [Context.frame, List.forall_mem_cons, List.not_mem_nil, false_imp_iff, implies_true,
    and_true]
  exact ⟨hlt _, hlt' _, hlt _, hlt _, hlt' _⟩

/-- A field of the interrupt frame, whatever is written to the saved registers. -/
lemma load_frame {o v : ℕ} (he : ((o, 8), v) ∈ c.frame) {l : List ((ℕ × ℕ) × ℕ)}
    (hl : ∀ e ∈ l, e.1.1 + e.1.2 ≤ 164) :
    load (stores (stores m f c.frame) (f - registersSize) l) (f + UInt64.ofNat o) 8 = v := by
  have hfit := frame_spread.1 _ (List.mem_map_of_mem he)
  rw [load_stores_of_apart (by norm_num) hl (by norm_num)
    (apart_field (frame_apart f) (by norm_num) hfit),
    load_stores (by norm_num) frame_spread he, Nat.mod_eq_of_lt (frame_lt _ he)]

lemma savedFields_spread : Spread 164 ((savedFields c).map Prod.fst) := by
  change Spread 164 [(0, 8), (8, 8), (16, 8), (24, 8), (32, 8), (64, 8), (72, 8), (80, 8), (88, 8),
    (96, 8), (104, 8), (112, 8), (120, 8), (128, 8), (136, 8), (152, 8), (160, 2), (144, 8), (40, 8),
    (162, 2)]
  decide

lemma savedFields_fit : ∀ e ∈ savedFields c, e.1.1 + e.1.2 ≤ 164 :=
  fun _ he => savedFields_spread.1 _ (List.mem_map_of_mem he)

lemma block_saveRegs_enter (c : Context) (f : UInt64) (m : Memory) :
    block saveRegs (enter c f m) = ⟨Function.update c.reg .rsp (f - registersSize),
      stores (stores m f c.frame) (f - registersSize)
        (savedRegs.map fun r => ((offset r, 8), (c.reg r).toNat))⟩ := by
  have hmap : (savedRegs.map fun r => ((offset r, 8), ((enter c f m).reg r).toNat)) =
      savedRegs.map fun r => ((offset r, 8), (c.reg r).toNat) :=
    List.map_congr_left fun r hr => by
      have hne : r ≠ .rsp := by
        rintro rfl
        revert hr
        decide
      have hreg : (enter c f m).reg r = c.reg r := Function.update_of_ne hne ..
      rw [hreg]
  have hrsp : (enter c f m).reg .rsp = f := by simp [enter]
  rw [block_saveRegs, hmap, hrsp]
  unfold enter
  dsimp only
  rw [Function.update_idem]

/-- What the stub has done when it calls the C handler. -/
lemma block_prologue (P : Image) (c : Context) (f : UInt64) (m : Memory) :
    ∃ reg, block (prologue P) (enter c f m) =
        ⟨reg, stores (stores m f c.frame) (f - registersSize) (savedFields c)⟩ ∧
      reg .rsp = f - registersSize ∧ reg .rdi = f ∧ reg .rsi = 0 ∧ reg .rdx = f - registersSize ∧
      reg .r15 = f ∧ ∀ x ∈ [Reg.rbx, .rbp, .r12, .r13], reg x = c.reg x := by
  set saved := savedRegs.map fun r => ((offset r, 8), (c.reg r).toNat) with hsaved
  have hfit : ∀ e ∈ saved, e.1.1 + e.1.2 ≤ 164 := fun e he =>
    savedFields_fit (c := c) e (List.mem_append_left _ he)
  have hpointer : block [.mov .r15 .rsp, .addImm .r15 registersSize]
      ⟨Function.update c.reg .rsp (f - registersSize),
        stores (stores m f c.frame) (f - registersSize) saved⟩ =
      ⟨Function.update (Function.update c.reg .rsp (f - registersSize)) .r15 f,
        stores (stores m f c.frame) (f - registersSize) saved⟩ := by
    simp [Instr.exec, State.set]
  set s2 : State := ⟨Function.update (Function.update c.reg .rsp (f - registersSize)) .r15 f,
    stores (stores m f c.frame) (f - registersSize) saved⟩ with hs2
  have hr15 : s2.reg .r15 = f := by simp [hs2]
  have hrsp : s2.reg .rsp = f - registersSize := by simp [hs2]
  have hpeek {o v : ℕ} (he : ((o, 8), v) ∈ c.frame) : s2.peek .r15 o 8 = v := by
    unfold State.peek
    rw [hr15]
    exact load_frame he hfit
  have hapart : Apart (s2.reg .r15) 40 (s2.reg .rsp) 164 := by
    rw [hr15, hrsp]
    exact frame_apart f
  have hfields : ∀ g ∈ [(IntData.rip, rip, 8), (IntData.cs, cs, 2), (IntData.rflags, rflags, 8),
      (IntData.rsp, offset .rsp, 8), (IntData.ss, ss, 2)],
      g.1 + 8 ≤ 40 ∧ g.2.1 + g.2.2 ≤ 164 ∧ (g.2.2 = 2 ∨ g.2.2 = 8) := by decide
  obtain ⟨v, hv⟩ := block_transfer (by decide) (by decide) (by norm_num) (by norm_num) hfields hapart
  simp only [List.map_cons, List.map_nil] at hv
  rw [hpeek (o := IntData.rip) (v := c.rip.toNat) (by simp [Context.frame, IntData.rip]),
    hpeek (o := IntData.cs) (v := c.cs.toNat) (by simp [Context.frame, IntData.cs]),
    hpeek (o := IntData.rflags) (v := c.rflags.toNat) (by simp [Context.frame, IntData.rflags]),
    hpeek (o := IntData.rsp) (v := (c.reg .rsp).toNat) (by simp [Context.frame, IntData.rsp]),
    hpeek (o := IntData.ss) (v := c.ss.toNat) (by simp [Context.frame, IntData.ss]), hrsp, hs2,
    ← stores_append] at hv
  set reg := Function.update (Function.update (Function.update c.reg .rsp (f - registersSize)) .r15 f)
    .rax v with hreg
  have hargs (mem : Memory) : block [.mov .rdi .r15, .movImm .rsi 0, .mov .rdx .rsp,
      .movImm .rax P.handler] ⟨reg, mem⟩ = ⟨Function.update (Function.update (Function.update
        (Function.update reg .rdi f) .rsi 0) .rdx (f - registersSize)) .rax P.handler, mem⟩ := by
    simp [Instr.exec, State.set, hreg]
  refine ⟨Function.update (Function.update (Function.update (Function.update reg .rdi f) .rsi 0) .rdx
    (f - registersSize)) .rax P.handler, ?_, ?_⟩
  · unfold prologue
    rw [block_append, block_append, block_append, block_saveRegs_enter, hpointer, saveIntDataRegs_eq,
      hs2, hv, hargs]
    rfl
  · simp [hreg]

/-- The return address is pushed below both frames. -/
lemma call_apart (f : UInt64) :
    Apart (f - registersSize) 164 (f - registersSize - 8) 8 ∧ Apart f 40 (f - registersSize - 8) 8 := by
  have hapart {o n : ℕ} (ho : 8 ≤ o) (hn : o + n ≤ 2 ^ 64) : Apart (f - registersSize - 8 +
      UInt64.ofNat o) n (f - registersSize - 8 + UInt64.ofNat 0) 8 :=
    apart_offset hn (by norm_num) (.inr ho)
  have hsaved := hapart (o := 8) (n := 164) (by norm_num) (by norm_num)
  have hframe := hapart (o := 172) (n := 40) (by norm_num) (by norm_num)
  have h0 : f - registersSize - 8 + UInt64.ofNat 0 = f - registersSize - 8 := UInt64.add_zero _
  have h8 : f - registersSize - 8 + UInt64.ofNat 8 = f - registersSize := UInt64.sub_add_cancel ..
  have h172 : f - registersSize - 8 + UInt64.ofNat 172 = f := by
    have hsum : UInt64.ofNat 172 = 8 + registersSize := rfl
    rw [hsum, ← UInt64.add_assoc, UInt64.sub_add_cancel, UInt64.sub_add_cancel]
  rw [h0, h8] at hsaved
  rw [h0, h172] at hframe
  exact ⟨hsaved, hframe⟩

/-- The state at the first instruction of the C handler. -/
structure Entered (c : Context) (f : UInt64) (e : State) : Prop where
  rsp : e.reg .rsp = f - registersSize - 8
  rdi : e.reg .rdi = f
  rsi : e.reg .rsi = 0
  rdx : e.reg .rdx = f - registersSize
  r15 : e.reg .r15 = f
  saved : ∀ x ∈ [Reg.rbx, .rbp, .r12, .r13], e.reg x = c.reg x
  frame : ∀ {o v : ℕ}, ((o, 8), v) ∈ c.frame → load e.mem (f + UInt64.ofNat o) 8 = v
  regs : ∀ {o k v : ℕ}, ((o, k), v) ∈ savedFields c →
    load e.mem (f - registersSize + UInt64.ofNat o) k = v % 256 ^ k

lemma handlerEntry_entered (P : Image) (c : Context) (f : UInt64) (m : Memory) :
    Entered c f (handlerEntry P (enter c f m)) := by
  obtain ⟨reg, hblock, hrsp, hrdi, hrsi, hrdx, hr15, hsaved⟩ := block_prologue P c f m
  have hentry : handlerEntry P (enter c f m) =
      ⟨Function.update reg .rsp (f - registersSize - 8),
        store (stores (stores m f c.frame) (f - registersSize) (savedFields c))
          (f - registersSize - 8) 8 P.handlerReturn.toNat⟩ := by
    rw [handlerEntry, hblock, State.call]
    dsimp only
    rw [hrsp]
  obtain ⟨hcall, hcall'⟩ := call_apart f
  rw [hentry]
  constructor
  case rsp => simp
  case rdi => simpa using hrdi
  case rsi => simpa using hrsi
  case rdx => simpa using hrdx
  case r15 => simpa using hr15
  case saved =>
    simp only [List.forall_mem_cons, List.not_mem_nil, false_imp_iff, implies_true, and_true] at hsaved ⊢
    simpa using hsaved
  case frame =>
    intro o v he
    have hfit := frame_spread.1 _ (List.mem_map_of_mem he)
    have hout := apart_field (o := o) (k := 8) hcall' (by norm_num) hfit
    rw [load_congr (by norm_num) fun x hx => store_of_not_within (by norm_num) (hout x hx)]
    exact load_frame he savedFields_fit
  case regs =>
    intro o k v he
    have hfit := savedFields_fit _ he
    have hout := apart_field (o := o) (k := k) hcall (by norm_num) hfit
    dsimp only at hfit
    rw [load_congr (by omega) fun x hx => store_of_not_within (by norm_num) (hout x hx)]
    exact load_stores (by norm_num) savedFields_spread he

lemma mem_savedFields (c : Context) (x : Reg) : ((offset x, 8), (c.reg x).toNat) ∈ savedFields c := by
  cases x <;> simp [savedFields, savedRegs]

/-- The frame that the C handler gets holds the interrupted registers. -/
lemma Entered.readRegisters {e : State} (h : Entered c f e) :
    readRegisters e.mem (e.reg .rdx) = c := by
  have hreg (x : UInt64) : UInt64.ofNat (x.toNat % 256 ^ 8) = x := by
    have hlt : x.toNat < 256 ^ 8 := x.toNat_lt
    rw [Nat.mod_eq_of_lt hlt, UInt64.ofNat_toNat]
  have hsel (x : UInt16) : UInt16.ofNat (x.toNat % 256 ^ 2) = x := by
    have hlt : x.toNat < 256 ^ 2 := x.toNat_lt
    rw [Nat.mod_eq_of_lt hlt, UInt16.ofNat_toNat]
  rw [h.rdx]
  refine Context.ext (funext fun x => ?_) ?_ ?_ ?_ ?_ <;> unfold Interrupt.readRegisters <;> dsimp only
  · rw [h.regs (mem_savedFields c x), hreg]
  · rw [h.regs (o := rip) (k := 8) (v := c.rip.toNat) (by simp [savedFields]), hreg]
  · rw [h.regs (o := rflags) (k := 8) (v := c.rflags.toNat) (by simp [savedFields]), hreg]
  · rw [h.regs (o := cs) (k := 2) (v := c.cs.toNat) (by simp [savedFields]), hsel]
  · rw [h.regs (o := ss) (k := 2) (v := c.ss.toNat) (by simp [savedFields]), hsel]

/-- What is not the C functions' own lies beside the return address. -/
lemma not_within_call {a : UInt64} (h : FrameKept f a) :
    ¬ Within (f - registersSize - 8) 8 a := by
  obtain ⟨hsaved, hframe⟩ := call_apart f
  exact h.elim (hframe a) fun h => hsaved a h.1

/-- The stub between the return of the C handler and the comparison. -/
lemma continues_spec {kept : UInt64 → Prop} {k : Stub} {r s : State}
    (hkept : ∀ a, kept a → ¬ Within (f - registersSize - 8) 8 a)
    (hrsp : r.reg .rsp = f - registersSize) (h : Continues P kept k r s) :
    s.reg .rsp = f - registersSize ∧ s.reg .r14 = r.reg .rax ∧
      (∀ x ∈ [Reg.rbx, .rbp, .r12, .r13, .r15], s.reg x = r.reg x) ∧
      ∀ a, kept a → s.mem a = r.mem a := by
  cases k with
  | intSched =>
    change s = _ at h
    subst h
    simp [Instr.exec, State.set, hrsp]
  | irqTimer =>
    change Returns kept (picEoiEntry P r) s at h
    have hentry : picEoiEntry P r = ⟨Function.update (Function.update (Function.update
        (Function.update r.reg .r14 (r.reg .rax)) .rdi 32) .rcx P.picEoi) .rsp (f - registersSize - 8),
        store r.mem (f - registersSize - 8) 8 P.picEoiReturn.toNat⟩ := by
      simp [picEoiEntry, State.call, Instr.exec, State.set, hrsp]
    have hsaved := h.saved
    rw [hentry] at h hsaved
    refine ⟨?_, ?_, ?_, fun a ha => ?_⟩
    · have := h.rsp
      simpa using this
    · have := hsaved .r14 (by decide)
      simpa using this
    · simp only [List.forall_mem_cons, List.not_mem_nil, false_imp_iff, implies_true, and_true]
      simp only [calleeSaved, List.forall_mem_cons, List.not_mem_nil, false_imp_iff, implies_true,
        and_true] at hsaved
      simpa using ⟨hsaved.1, hsaved.2.1, hsaved.2.2.1, hsaved.2.2.2.1, hsaved.2.2.2.2.2⟩
    · rw [h.mem a ha]
      exact store_of_not_within (by norm_num) (hkept a ha)

lemma frameKept_frame {o : ℕ} {a : UInt64} (ho : o + 8 ≤ 40) (h : Within (f + UInt64.ofNat o) 8 a) :
    FrameKept f a := by
  rw [within_offset (by omega)] at h
  exact Or.inl (by unfold Within; omega)

lemma frameKept_regs {o : ℕ} {a : UInt64} (ho : o + 8 ≤ 164) (hbeside : o + 8 ≤ 48 ∨ 64 ≤ o)
    (h : Within (f - registersSize + UInt64.ofNat o) 8 a) : FrameKept f a := by
  rw [within_offset (by omega)] at h
  refine Or.inr ⟨by unfold Within; omega, ?_⟩
  have h48 : (48 : UInt64) = UInt64.ofNat 48 := rfl
  rw [h48, within_offset (by norm_num)]
  omega

/-- The C handler has returned `NULL`. -/
lemma finish_null {e s : State} (h : Entered c f e) (hrsp : s.reg .rsp = f - registersSize)
    (hr14 : s.reg .r14 = 0) (hsaved : ∀ x ∈ [Reg.rbx, .rbp, .r12, .r13], s.reg x = c.reg x)
    (hmem : ∀ a, FrameKept f a → s.mem a = e.mem a) : finish s = c := by
  have hregs (x : Reg) : UInt64.ofNat (s.peek .rsp (offset x) 8) = c.reg x := by
    have hfit := savedFields_fit _ (mem_savedFields c x)
    have hbeside : offset x + 8 ≤ 48 ∨ 64 ≤ offset x := by cases x <;> decide
    have hlt : (c.reg x).toNat < 256 ^ 8 := (c.reg x).toNat_lt
    unfold State.peek
    rw [hrsp, load_congr (by norm_num) fun a ha => hmem a (frameKept_regs hfit hbeside ha),
      h.regs (mem_savedFields c x), Nat.mod_eq_of_lt hlt, UInt64.ofNat_toNat]
  have hframe : ∀ e' ∈ c.frame, load s.mem (f + UInt64.ofNat e'.1.1) 8 = e'.2 := by
    intro e' he
    have hwidth : e'.1.2 = 8 := by
      revert e'
      simp [Context.frame]
    have he' : ((e'.1.1, 8), e'.2) ∈ c.frame := by rwa [← hwidth]
    have hfit := frame_spread.1 _ (List.mem_map_of_mem he')
    rw [load_congr (by norm_num) fun a ha => hmem a (frameKept_frame hfit ha)]
    exact h.frame he'
  have hadd : s.reg .rsp + registersSize = f := by rw [hrsp, UInt64.sub_add_cancel]
  unfold finish
  rw [if_pos hr14, block_append, loadOldRegs, block_loads offset (by decide)]
  refine State.iretq_eq (fun x hx => ?_) fun e' he => ?_
  · simp only [block_cons, block_nil, Instr.exec, State.set, hregs, Function.update_of_ne hx]
    split_ifs with hold
    · rfl
    · refine hsaved x ?_
      cases x <;> simp at hx hold ⊢
  · simp only [block_cons, block_nil, Instr.exec, State.set, State.peek, Function.update_self]
    rw [if_neg (by decide), hadd]
    exact hframe e' he

/-- The interrupt frame that `load_new_regs` writes, from the structure in memory `m` at `p`. -/
def newFrame (m : Memory) (p : UInt64) : List ((ℕ × ℕ) × ℕ) :=
  [((IntData.rsp, 8), load m (p + UInt64.ofNat (offset .rsp)) 8),
    ((IntData.rip, 8), load m (p + UInt64.ofNat rip) 8),
    ((IntData.rflags, 8), load m (p + UInt64.ofNat rflags) 8),
    ((IntData.ss, 8), load m (p + UInt64.ofNat ss) 2),
    ((IntData.cs, 8), load m (p + UInt64.ofNat cs) 2)]

lemma newFrame_spread {p : UInt64} : Spread 40 ((newFrame m p).map Prod.fst) := by
  change Spread 40 [(24, 8), (0, 8), (16, 8), (32, 8), (8, 8)]
  decide

/-- What `iretq` finds there. -/
lemma frame_subset {p : UInt64} : (readRegisters m p).frame ⊆ newFrame m p := by
  have hreg (a : UInt64) : (UInt64.ofNat (load m a 8)).toNat = load m a 8 := by
    have hlt : load m a 8 < 256 ^ 8 := load_lt
    rw [UInt64.toNat_ofNat']
    exact Nat.mod_eq_of_lt hlt
  have hsel (a : UInt64) : (UInt16.ofNat (load m a 2)).toNat = load m a 2 := by
    have hlt : load m a 2 < 256 ^ 2 := load_lt
    rw [UInt16.toNat_ofNat']
    exact Nat.mod_eq_of_lt hlt
  unfold Context.frame readRegisters
  dsimp only
  rw [hreg, hreg, hreg, hsel, hsel]
  intro e he
  simp only [List.mem_cons, List.not_mem_nil, or_false] at he
  unfold newFrame
  obtain rfl | rfl | rfl | rfl | rfl := he <;> simp [IntData.rip, IntData.cs, IntData.rflags,
    IntData.rsp, IntData.ss]

/-- `ss` and `cs` go through the low 16 bits of `rax`, which is cleared before. -/
lemma block_selectors (t : State) : ∃ v, block [.movImm .rax 0, .load16 .rax .r14 ss,
      .store .r15 IntData.ss .rax, .load16 .rax .r14 cs, .store .r15 IntData.cs .rax] t =
    ⟨Function.update t.reg .rax v, stores t.mem (t.reg .r15)
      [((IntData.ss, 8), load t.mem (t.reg .r14 + UInt64.ofNat ss) 2),
        ((IntData.cs, 8), load (stores t.mem (t.reg .r15)
          [((IntData.ss, 8), load t.mem (t.reg .r14 + UInt64.ofNat ss) 2)])
          (t.reg .r14 + UInt64.ofNat cs) 2)]⟩ := by
  have hval (m : Memory) (a : UInt64) : (UInt64.ofNat (load m a 2)).toNat = load m a 2 := by
    have hlt : load m a 2 < 256 ^ 2 := load_lt
    rw [UInt64.toNat_ofNat']
    omega
  have hlow (m : Memory) (a : UInt64) : load m a 2 / 65536 = 0 :=
    Nat.div_eq_of_lt (load_lt (k := 2))
  refine ⟨UInt64.ofNat (load (stores t.mem (t.reg .r15)
    [((IntData.ss, 8), load t.mem (t.reg .r14 + UInt64.ofNat ss) 2)])
    (t.reg .r14 + UInt64.ofNat cs) 2), ?_⟩
  simp [Instr.exec, State.set, State.poke, State.peek, hval, hlow, stores]

lemma block_loadNewFrame {s : State} (ha : Apart (s.reg .r14) 164 (s.reg .r15) 40) :
    ∃ v, block loadNewFrame s = ⟨Function.update s.reg .rax v,
      stores s.mem (s.reg .r15) (newFrame s.mem (s.reg .r14))⟩ := by
  have hsplit : loadNewFrame = transfer .r14 .r15 [(offset .rsp, IntData.rsp, 8),
      (rip, IntData.rip, 8), (rflags, IntData.rflags, 8)] ++ ([.movImm .rax 0,
      .load16 .rax .r14 ss, .store .r15 IntData.ss .rax, .load16 .rax .r14 cs,
      .store .r15 IntData.cs .rax] : List Instr) := rfl
  have hfields : ∀ g ∈ [(offset .rsp, IntData.rsp, 8), (rip, IntData.rip, 8),
      (rflags, IntData.rflags, 8)],
      g.1 + 8 ≤ 164 ∧ g.2.1 + g.2.2 ≤ 40 ∧ (g.2.2 = 2 ∨ g.2.2 = 8) := by decide
  obtain ⟨v, hv⟩ := block_transfer (by decide) (by decide) (by norm_num) (by norm_num) hfields ha
  simp only [List.map_cons, List.map_nil] at hv
  have hload {o : ℕ} (ho : o + 2 ≤ 164) {l : List ((ℕ × ℕ) × ℕ)}
      (hl : ∀ e ∈ l, e.1.1 + e.1.2 ≤ 40) :
      load (stores s.mem (s.reg .r15) l) (s.reg .r14 + UInt64.ofNat o) 2 =
        load s.mem (s.reg .r14 + UInt64.ofNat o) 2 :=
    load_stores_of_apart (by norm_num) hl (by norm_num) (apart_field ha (by norm_num) ho)
  have hr14 : Function.update s.reg .rax v .r14 = s.reg .r14 := by simp
  have hr15 : Function.update s.reg .rax v .r15 = s.reg .r15 := by simp
  set moved : List ((ℕ × ℕ) × ℕ) := [((IntData.rsp, 8), s.peek .r14 (offset .rsp) 8),
    ((IntData.rip, 8), s.peek .r14 rip 8), ((IntData.rflags, 8), s.peek .r14 rflags 8)] with hmoved
  have hmovedFit : ∀ e ∈ moved, e.1.1 + e.1.2 ≤ 40 := by
    simp [hmoved, IntData.rsp, IntData.rip, IntData.rflags]
  have hss := hload (o := ss) (by decide) hmovedFit
  set value := load s.mem (s.reg .r14 + UInt64.ofNat ss) 2 with hvalue
  have hcsFit : ∀ e ∈ moved ++ [((IntData.ss, 8), value)], e.1.1 + e.1.2 ≤ 40 := by
    simp [hmoved, IntData.rsp, IntData.rip, IntData.rflags, IntData.ss]
  have hcs := hload (o := cs) (by decide) hcsFit
  obtain ⟨w, hw⟩ := block_selectors ⟨Function.update s.reg .rax v, stores s.mem (s.reg .r15) moved⟩
  dsimp only at hw
  rw [hr14, hr15, Function.update_idem, hss, ← stores_append moved [((IntData.ss, 8), value)], hcs,
    ← stores_append moved] at hw
  refine ⟨w, ?_⟩
  rw [hsplit, block_append, hv, hw]
  rfl

/-- `r14` is loaded last, through itself. -/
lemma block_newRegs (t : State) :
    block ((([.rax, .rbx, .rcx, .rdx, .rbp, .rdi, .rsi, .r8, .r9, .r10, .r11, .r12, .r13, .r15] :
      List Reg).map fun r => Instr.load r .r14 (offset r)) ++ [.load .r14 .r14 (offset .r14)]) t =
    ⟨fun x => if x = .rsp then t.reg .rsp else UInt64.ofNat (t.peek .r14 (offset x) 8), t.mem⟩ := by
  rw [block_append, block_loads offset (by decide), block_cons, block_nil]
  unfold Instr.exec State.set State.peek
  dsimp only
  congr 1
  funext x
  cases x <;> simp [Function.update]

/-- The C handler has returned a pointer. -/
lemma finish_new {s : State} (hrsp : s.reg .rsp = f - registersSize) (hr14 : s.reg .r14 ≠ 0)
    (hr15 : s.reg .r15 = f) (ha : Apart (s.reg .r14) 164 f 40) :
    finish s = readRegisters s.mem (s.reg .r14) := by
  have ha' : Apart (s.reg .r14) 164 (s.reg .r15) 40 := by rwa [hr15]
  obtain ⟨v, hv⟩ := block_loadNewFrame ha'
  have hadd : s.reg .rsp + registersSize = f := by rw [hrsp, UInt64.sub_add_cancel]
  have hload {o : ℕ} (ho : o + 8 ≤ 164) :
      load (stores s.mem f (newFrame s.mem (s.reg .r14))) (s.reg .r14 + UInt64.ofNat o) 8 =
        load s.mem (s.reg .r14 + UInt64.ofNat o) 8 :=
    load_stores_of_apart (by norm_num) (fun _ he => newFrame_spread.1 _ (List.mem_map_of_mem he))
      (by norm_num) (apart_field ha (by norm_num) ho)
  have hr14eq : Function.update s.reg .rax v .r14 = s.reg .r14 := by simp
  have hrspeq : Function.update s.reg .rax v .rsp = s.reg .rsp := by simp
  unfold finish
  rw [if_neg hr14, loadNewRegs, List.append_assoc, List.append_assoc, ← List.append_assoc _ _
    [Instr.addImm .rsp registersSize], block_append, block_append, hv, block_newRegs, hr15,
    block_cons, block_nil]
  dsimp only
  rw [hrspeq]
  refine State.iretq_eq (fun x hx => ?_) fun e he => ?_
  · have hfit : offset x + 8 ≤ 164 := by cases x <;> decide
    simp only [Instr.exec, State.set, Function.update_of_ne hx, State.peek, if_neg hx, hr14eq,
      hload hfit, readRegisters]
  · simp only [Instr.exec, State.set, State.peek, Function.update_self, if_true, hadd]
    have hwidth : e.1.2 = 8 := by
      revert e
      simp [Context.frame]
    have he' : ((e.1.1, 8), e.2) ∈ (readRegisters s.mem (s.reg .r14)).frame := by rwa [← hwidth]
    rw [load_stores (by norm_num) newFrame_spread (frame_subset he'), Nat.mod_eq_of_lt (frame_lt _ he)]

/-- The whole context is preserved or switched. A handler that returns `NULL` and `pic_eoi` do not
write what is saved; a handler that returns a pointer may write everywhere. -/
theorem stub_spec (P : Image) (k : Stub) (c : Context) (f : UInt64) (m : Memory) :
    let e := handlerEntry P (enter c f m)
    (e.reg .rdi = f ∧ e.reg .rsi = 0 ∧ readRegisters e.mem (e.reg .rdx) = c) ∧
      (∀ r s, Returns (FrameKept f) e r → Continues P (FrameKept f) k r s →
        r.reg .rax = 0 → finish s = c) ∧
      ∀ r s, Returns (fun _ => False) e r → Continues P (fun _ => False) k r s →
        r.reg .rax ≠ 0 → Apart (r.reg .rax) 164 f 40 →
        finish s = readRegisters s.mem (r.reg .rax) ∧
          ((∀ a, Within (r.reg .rax) 164 a → s.mem a = r.mem a) →
            finish s = readRegisters r.mem (r.reg .rax)) := by
  intro e
  have he : Entered c f e := handlerEntry_entered P c f m
  have hret {kept : UInt64 → Prop} {r : State} (h : Returns kept e r) :
      r.reg .rsp = f - registersSize := by rw [h.rsp, he.rsp, UInt64.sub_add_cancel]
  refine ⟨⟨he.rdi, he.rsi, he.readRegisters⟩, fun r s hr hs hnull => ?_, fun r s hr hs hnew ha => ?_⟩
  · obtain ⟨hrsp, hr14, hsaved, hmem⟩ := continues_spec (fun _ => not_within_call) (hret hr) hs
    refine finish_null he hrsp (hr14.trans hnull) (fun x hx => ?_) fun a hk => ?_
    · rw [hsaved x (List.mem_append_left [Reg.r15] hx), ← he.saved x hx]
      refine hr.saved x ?_
      revert x
      decide
    · rw [hmem a hk, hr.mem a hk]
  · obtain ⟨hrsp, hr14, hsaved, -⟩ := continues_spec (fun _ h => h.elim) (hret hr) hs
    have hr15 : s.reg .r15 = f := by
      rw [hsaved .r15 (by simp), hr.saved .r15 (by decide), he.r15]
    rw [← hr14] at hnew ha ⊢
    have hfinish := finish_new hrsp hnew hr15 ha
    exact ⟨hfinish, fun hkept => by rw [hfinish, readRegisters_congr hkept]⟩

/-- A function that returns `v` at once. -/
def answer (e : State) (v : UInt64) : State :=
  ⟨Function.update (Function.update e.reg .rsp (e.reg .rsp + 8)) .rax v, e.mem⟩

lemma answer_returns (kept : UInt64 → Prop) (e : State) (v : UInt64) : Returns kept e (answer e v) where
  rsp := by simp [answer]
  saved x hx := by
    have hne : x ≠ .rax ∧ x ≠ .rsp := by
      revert x
      decide
    unfold answer
    dsimp only
    rw [Function.update_of_ne hne.1, Function.update_of_ne hne.2]
  mem _ _ := rfl

/-- A context with an interrupt frame at `0x1000`, and a structure at `0x2000`. -/
theorem stub_spec_answer :
    let P : Image := ⟨0x8000, 0x9000, 0x100, 0x200⟩
    let c : Context := ⟨fun _ => 1, 2, 3, 8, 16⟩
    let e := handlerEntry P (enter c 0x1000 fun a => UInt8.ofNat a.toNat)
    let eoi (v : UInt64) := answer (picEoiEntry P (answer e v)) 7
    (finish (block [.mov .r14 .rax] (answer e 0)) = c ∧
      finish (block [.mov .r14 .rax] (answer e 0x2000)) = readRegisters (answer e 0x2000).mem 0x2000) ∧
      finish (eoi 0) = c ∧ finish (eoi 0x2000) = readRegisters (eoi 0x2000).mem 0x2000 := by
  intro P c e eoi
  have hrax (v : UInt64) : (answer e v).reg .rax = v := by simp [answer]
  have hapart : Apart 0x2000 164 0x1000 40 := by
    intro x hx hx'
    unfold Within at hx hx'
    rw [UInt64.toNat_sub] at hx hx'
    have := x.toNat_lt
    simp at hx hx'
    omega
  have hne : (answer e 0x2000).reg .rax ≠ 0 := by
    rw [hrax]
    decide
  obtain ⟨-, hnull, hnew⟩ := stub_spec P .intSched c 0x1000 fun a => UInt8.ofNat a.toNat
  obtain ⟨-, hnull', hnew'⟩ := stub_spec P .irqTimer c 0x1000 fun a => UInt8.ofNat a.toNat
  refine ⟨⟨?_, ?_⟩, ?_, ?_⟩
  · exact hnull _ _ (answer_returns _ e 0) rfl (hrax 0)
  · have h := (hnew _ _ (answer_returns _ e 0x2000) rfl hne (by rwa [hrax])).2 fun _ _ => rfl
    rwa [hrax] at h
  · exact hnull' _ (eoi 0) (answer_returns _ e 0) (answer_returns _ _ 7) (hrax 0)
  · have h := (hnew' _ (eoi 0x2000) (answer_returns _ e 0x2000) (answer_returns _ _ 7) hne
      (by rwa [hrax])).1
    rwa [hrax] at h

end EpochKernel.Interrupt
