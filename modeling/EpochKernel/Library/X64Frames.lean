import EpochKernel.Library.Bytes
import EpochKernel.Library.X64

/-! A part of the x86-64 instruction set over byte memory: moves of 64 and 16 bits at any address, and
what the processor does at an interrupt and at `iretq`. -/
namespace EpochKernel.Library.X64Frames
open Bytes
open X64 (Reg calleeSaved)

structure State where
  reg : Reg → UInt64
  mem : Memory

inductive Instr
  | mov (dst src : Reg)
  | movImm (dst : Reg) (value : UInt64)
  | load (dst base : Reg) (offset : ℕ)
  | load16 (dst base : Reg) (offset : ℕ)
  | store (base : Reg) (offset : ℕ) (src : Reg)
  | store16 (base : Reg) (offset : ℕ) (src : Reg)
  | addImm (dst : Reg) (value : UInt64)
  | subImm (dst : Reg) (value : UInt64)

namespace State

def set (s : State) (r : Reg) (v : UInt64) : State := { s with reg := Function.update s.reg r v }

/-- The number in `k` bytes at an offset from what a register holds. -/
def peek (s : State) (base : Reg) (offset k : ℕ) : ℕ := load s.mem (s.reg base + UInt64.ofNat offset) k

def poke (s : State) (base : Reg) (offset k v : ℕ) : State :=
  { s with mem := store s.mem (s.reg base + UInt64.ofNat offset) k v }

end State

/-- The effect of one instruction; the flags are left out. A move to the low 16 bits of a register
keeps the others. -/
def Instr.exec (s : State) : Instr → State
  | .mov dst src => s.set dst (s.reg src)
  | .movImm dst value => s.set dst value
  | .load dst base offset => s.set dst (UInt64.ofNat (s.peek base offset 8))
  | .load16 dst base offset =>
    s.set dst (UInt64.ofNat ((s.reg dst).toNat / 2 ^ 16 * 2 ^ 16 + s.peek base offset 2))
  | .store base offset src => s.poke base offset 8 (s.reg src).toNat
  | .store16 base offset src => s.poke base offset 2 (s.reg src).toNat
  | .addImm dst value => s.set dst (s.reg dst + value)
  | .subImm dst value => s.set dst (s.reg dst - value)

def block (is : List Instr) (s : State) : State := is.foldl Instr.exec s

lemma block_append (is js : List Instr) (s : State) :
    block (is ++ js) s = block js (block is s) := List.foldl_append

@[simp] lemma block_nil (s : State) : block [] s = s := rfl

@[simp] lemma block_cons (i : Instr) (is : List Instr) (s : State) :
    block (i :: is) s = block is (i.exec s) := by
  simp only [block, List.foldl_cons]

/-- `call`, without the jump: the return address lies at the new stack pointer. -/
def State.call (s : State) (returnAddress : UInt64) : State where
  reg := Function.update s.reg .rsp (s.reg .rsp - 8)
  mem := store s.mem (s.reg .rsp - 8) 8 returnAddress.toNat

/-- A function entered with `e` may return with `r`: it keeps the registers of the System V convention,
and the bytes in `kept` are not its own. -/
structure Returns (kept : UInt64 → Prop) (e r : State) : Prop where
  rsp : r.reg .rsp = e.reg .rsp + 8
  saved : ∀ x ∈ calleeSaved, r.reg x = e.reg x
  mem : ∀ a, kept a → r.mem a = e.mem a

/-- Where a thread is: its general registers, `rsp` among them, and what an interrupt saves besides. -/
@[ext] structure Context where
  reg : Reg → UInt64
  rip : UInt64
  rflags : UInt64
  cs : UInt16
  ss : UInt16

/-- The interrupt frame as the processor pushes it: `rip`, `cs`, `rflags`, `rsp` and `ss`. -/
def Context.frame (c : Context) : List ((ℕ × ℕ) × ℕ) :=
  [((0, 8), c.rip.toNat), ((8, 8), c.cs.toNat), ((16, 8), c.rflags.toNat),
    ((24, 8), (c.reg .rsp).toNat), ((32, 8), c.ss.toNat)]

/-- An interrupt, with its frame at `f`. -/
def enter (c : Context) (f : UInt64) (m : Memory) : State where
  reg := Function.update c.reg .rsp f
  mem := stores m f c.frame

/-- `iretq`. -/
def State.iretq (s : State) : Context where
  reg := Function.update s.reg .rsp (UInt64.ofNat (s.peek .rsp 24 8))
  rip := UInt64.ofNat (s.peek .rsp 0 8)
  rflags := UInt64.ofNat (s.peek .rsp 16 8)
  cs := UInt16.ofNat (s.peek .rsp 8 8)
  ss := UInt16.ofNat (s.peek .rsp 32 8)

/-- `iretq` resumes where the frame that it finds says. -/
lemma State.iretq_eq {s : State} {c : Context} (hreg : ∀ x, x ≠ .rsp → s.reg x = c.reg x)
    (hframe : ∀ e ∈ c.frame, s.peek .rsp e.1.1 8 = e.2) : s.iretq = c := by
  simp only [Context.frame, List.forall_mem_cons, List.not_mem_nil, false_imp_iff, implies_true,
    and_true] at hframe
  obtain ⟨hrip, hcs, hrflags, hrsp, hss⟩ := hframe
  unfold State.iretq
  rw [hrip, hcs, hrflags, hrsp, hss]
  refine Context.ext (funext fun x => ?_) ?_ ?_ ?_ ?_
  · by_cases hx : x = .rsp
    · subst hx
      simp
    · simp [hx, hreg x hx]
  · exact UInt64.ofNat_toNat
  · exact UInt64.ofNat_toNat
  · exact UInt16.ofNat_toNat
  · exact UInt16.ofNat_toNat

/-- `mov rax, [src + o]` and a store of `w` bytes to `[dst + o']`, for each `(o, o', w)`. -/
def transfer (src dst : Reg) (l : List (ℕ × ℕ × ℕ)) : List Instr :=
  l.flatMap fun f => [.load .rax src f.1,
    if f.2.2 = 2 then .store16 dst f.2.1 .rax else .store dst f.2.1 .rax]

variable {s : State} {src dst b x : Reg} {m n : ℕ}

/-- A structure is copied field by field through `rax` to another one apart from it. -/
lemma block_transfer {l : List (ℕ × ℕ × ℕ)} (hsrc : src ≠ .rax) (hdst : dst ≠ .rax) (hm : m ≤ 2 ^ 64)
    (hn : n ≤ 2 ^ 64) (hl : ∀ f ∈ l, f.1 + 8 ≤ m ∧ f.2.1 + f.2.2 ≤ n ∧ (f.2.2 = 2 ∨ f.2.2 = 8))
    (ha : Apart (s.reg src) m (s.reg dst) n) :
    ∃ v, block (transfer src dst l) s = ⟨Function.update s.reg .rax v,
      stores s.mem (s.reg dst) (l.map fun f => ((f.2.1, f.2.2), s.peek src f.1 8))⟩ := by
  induction l generalizing s with
  | nil => exact ⟨s.reg .rax, by rw [Function.update_eq_self]; rfl⟩
  | cons f l ih =>
    obtain ⟨hf, hf', hw⟩ := hl f List.mem_cons_self
    have hlt : s.peek src f.1 8 < 2 ^ 64 := load_lt
    have hval : (UInt64.ofNat (s.peek src f.1 8)).toNat = s.peek src f.1 8 := by
      rw [UInt64.toNat_ofNat']
      exact Nat.mod_eq_of_lt hlt
    have hfirst : block (transfer src dst (f :: l)) s = block (transfer src dst l)
        ⟨Function.update s.reg .rax (UInt64.ofNat (s.peek src f.1 8)),
          stores s.mem (s.reg dst) [((f.2.1, f.2.2), s.peek src f.1 8)]⟩ := by
      unfold transfer
      rw [List.flatMap_cons, List.cons_append, List.cons_append, List.nil_append, block_cons,
        block_cons]
      refine congrArg (block _) ?_
      rcases hw with hw | hw <;>
        simp [hw, Instr.exec, State.set, State.poke, Function.update_of_ne hdst, hval, stores]
    have hpeek (g : ℕ) (hg : g + 8 ≤ m) : State.peek
        ⟨Function.update s.reg .rax (UInt64.ofNat (s.peek src f.1 8)),
          stores s.mem (s.reg dst) [((f.2.1, f.2.2), s.peek src f.1 8)]⟩ src g 8 =
        s.peek src g 8 := by
      unfold State.peek
      dsimp only
      rw [Function.update_of_ne hsrc]
      refine load_stores_of_apart hn (by simpa using hf') (by omega) fun x hx => ha x ?_
      rw [within_offset (by omega)] at hx
      have hlt : (x - s.reg src).toNat < m := by omega
      exact hlt
    have hsrc' : Function.update s.reg .rax (UInt64.ofNat (s.peek src f.1 8)) src = s.reg src :=
      Function.update_of_ne hsrc ..
    have hdst' : Function.update s.reg .rax (UInt64.ofNat (s.peek src f.1 8)) dst = s.reg dst :=
      Function.update_of_ne hdst ..
    obtain ⟨v, hv⟩ := ih (s := ⟨Function.update s.reg .rax (UInt64.ofNat (s.peek src f.1 8)),
        stores s.mem (s.reg dst) [((f.2.1, f.2.2), s.peek src f.1 8)]⟩)
      (fun g hg => hl g (List.mem_cons_of_mem f hg)) (by dsimp only; rw [hsrc', hdst']; exact ha)
    have hmap : (l.map fun g => ((g.2.1, g.2.2), State.peek
        ⟨Function.update s.reg .rax (UInt64.ofNat (s.peek src f.1 8)),
          stores s.mem (s.reg dst) [((f.2.1, f.2.2), s.peek src f.1 8)]⟩ src g.1 8)) =
        l.map fun g => ((g.2.1, g.2.2), s.peek src g.1 8) :=
      List.map_congr_left fun g hg => by rw [hpeek g.1 (hl g (List.mem_cons_of_mem f hg)).1]
    refine ⟨v, ?_⟩
    rw [hfirst, hv, hmap]
    dsimp only
    rw [Function.update_idem, hdst', ← stores_append, List.map_cons, List.singleton_append]

/-- Registers are loaded from a structure whose address is in a register that is not one of them. -/
lemma block_loads {rs : List Reg} (offset : Reg → ℕ) (hb : b ∉ rs) :
    block (rs.map fun r => .load r b (offset r)) s =
      ⟨fun x => if x ∈ rs then UInt64.ofNat (s.peek b (offset x) 8) else s.reg x, s.mem⟩ := by
  induction rs generalizing s with
  | nil => simp
  | cons r rs ih =>
    rw [List.mem_cons, not_or] at hb
    rw [List.map_cons, block_cons, ih hb.2]
    simp only [Instr.exec, State.set, State.peek, Function.update_of_ne hb.1]
    congr 1
    funext x
    by_cases hr : x = r
    · subst hr
      simp
    · simp [hr]

/-- Registers are stored to a structure. -/
lemma block_stores (rs : List Reg) (offset : Reg → ℕ) :
    block (rs.map fun r => .store b (offset r) r) s =
      ⟨s.reg, stores s.mem (s.reg b) (rs.map fun r => ((offset r, 8), (s.reg r).toNat))⟩ := by
  induction rs generalizing s with
  | nil => rfl
  | cons r rs ih =>
    rw [List.map_cons, block_cons, ih, List.map_cons, stores]
    simp only [Instr.exec, State.poke]

end EpochKernel.Library.X64Frames
