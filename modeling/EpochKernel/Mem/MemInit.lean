import EpochKernel.Mem.PallocatorInit

/-! `mem::init` of `mem/mem.cpp`: the memory map of the boot loader is handed to the allocators, without
the part where the kernel lies. -/
namespace EpochKernel.Mem
open EpochKernel.Util

def maxMemNodes : ℕ := 4
def buddyAllocMinSize : UInt64 := 65536

/-- `pallocator::init` on an object that may have been initialised before: `lists` and `max_order` are
kept. -/
def Pallocator.initOn (p : Pallocator) (startAddr endAddr firstOrderSize : UInt64) :
    Option Pallocator :=
  let p := { initFields startAddr endAddr firstOrderSize p.links p.n p.metadata with
    lists := p.lists
    maxOrder := p.maxOrder }
  if p.endMeta > p.startAddr then
    initLoop ((p.endAddr.toNat - p.startAddr.toNat) / 4096 + 1) p.startAddr p
  else none

/-- An entry of the memory map. -/
structure MmapEntry where
  addr : UInt64
  len : UInt64
  type : UInt32

/-- `text_start` and `kernel_end`, the latter behind the copy of the boot loader's table. -/
structure Kernel where
  textStart : UInt64
  kernelEnd : UInt64

/-- `allocators` and `allocator_len`, and memory: the links, sizes and metadata bytes that the objects
refer to, in place of what the objects say. `inits` counts the calls of `init` on each object and is
not part of the program. -/
structure Boot where
  allocators : ℕ → Pallocator
  allocatorLen : ℕ := 0
  links : Links UInt64
  n : UInt64 → UInt64
  metadata : UInt64 → Metadata
  inits : ℕ → ℕ := fun _ => 0

/-- The entry with its address in the kernel's address space. -/
def MmapEntry.shifted (e : MmapEntry) : MmapEntry := { e with addr := e.addr + kernelVma }

/-- The tests of `init_allocator`, for an entry with a shifted address. -/
def MmapEntry.hasText (e : MmapEntry) (K : Kernel) : Prop :=
  K.textStart ≥ e.addr ∧ K.textStart < e.addr + e.len

def MmapEntry.hasEnd (e : MmapEntry) (K : Kernel) : Prop :=
  K.kernelEnd ≥ e.addr ∧ K.kernelEnd < e.addr + e.len

/-- What remains before and behind the kernel is large enough. -/
def MmapEntry.roomBefore (e : MmapEntry) (K : Kernel) : Prop :=
  K.textStart - e.addr ≥ buddyAllocMinSize

def MmapEntry.roomBehind (e : MmapEntry) (K : Kernel) : Prop :=
  e.addr + e.len - 1 - K.kernelEnd ≥ buddyAllocMinSize

instance (e : MmapEntry) (K : Kernel) : Decidable (e.hasText K) := inferInstanceAs (Decidable (_ ∧ _))
instance (e : MmapEntry) (K : Kernel) : Decidable (e.hasEnd K) := inferInstanceAs (Decidable (_ ∧ _))
instance (e : MmapEntry) (K : Kernel) : Decidable (e.roomBefore K) :=
  inferInstanceAs (Decidable (_ ≥ _))
instance (e : MmapEntry) (K : Kernel) : Decidable (e.roomBehind K) :=
  inferInstanceAs (Decidable (_ ≥ _))

/-- Regular memory of sufficient size. -/
def MmapEntry.usable (e : MmapEntry) : Prop := ¬ (e.type ≠ 1 ∨ e.len < buddyAllocMinSize)

instance (e : MmapEntry) : Decidable e.usable := inferInstanceAs (Decidable (¬ _))

namespace Boot

/-- The object `allocators[i]` with the memory it refers to. -/
def pallocator (s : Boot) (i : ℕ) : Pallocator :=
  { s.allocators i with links := s.links, n := s.n, metadata := s.metadata }

/-- `allocators[i].init (startAddr, endAddr, PAGE_SIZE)`. -/
def init (s : Boot) (i : ℕ) (startAddr endAddr : UInt64) : Option Boot :=
  ((s.pallocator i).initOn startAddr endAddr pageSize).map fun p => { s with
    allocators := Function.update s.allocators i p
    links := p.links
    n := p.n
    metadata := p.metadata
    inits := Function.update s.inits i (s.inits i + 1) }

/-- `init_allocator`, for an entry with a shifted address. -/
def initAllocator (s : Boot) (K : Kernel) (i : ℕ) (e : MmapEntry) : Option (Boot × ℕ) :=
  (if e.hasText K ∧ e.roomBefore K then s.init i e.addr (K.textStart - 1) else some s).bind fun s =>
    (if e.hasEnd K ∧ e.roomBehind K then s.init i (K.kernelEnd + 1) (e.addr + e.len - 1)
      else some s).bind fun s =>
      if ¬ e.hasText K ∧ ¬ e.hasEnd K then
        (s.init i e.addr (e.addr + e.len - 1)).map fun s => (s, 1)
      else
        some (s, (if e.hasText K ∧ e.roomBefore K then 1 else 0) +
          if e.hasEnd K ∧ e.roomBehind K then 1 else 0)

/-- The loop of `mem::init` over the memory map; `none` if it panics or does not return. -/
def memInit (K : Kernel) : List MmapEntry → Boot → Option Boot
  | [], s => some s
  | e :: es, s =>
    if s.allocatorLen < maxMemNodes then
      if ¬ e.usable then memInit K es s
      else
        (s.initAllocator K s.allocatorLen e.shifted).bind fun (s, out) =>
          let s := { s with allocatorLen := s.allocatorLen + out }
          if s.allocatorLen > maxMemNodes then none else memInit K es s
    else some s

/-- The objects at boot are zeroed globals, and memory is arbitrary. -/
structure Fresh (s : Boot) : Prop where
  len : s.allocatorLen = 0
  lists : ∀ i, (s.allocators i).lists = fun _ => {}
  maxOrder : ∀ i, (s.allocators i).maxOrder = 0
  inits : ∀ i, s.inits i = 0

/-- What `mem::init` is for. A zone of order `k` has `2 ^ (fo_bits + k)` bytes. -/
structure Partitioned (K : Kernel) (es : List MmapEntry) (s : Boot) : Prop where
  once : ∀ i < s.allocatorLen, s.inits i = 1
  disjoint : ∀ i < s.allocatorLen, ∀ j < s.allocatorLen, i ≠ j →
    (s.allocators i).endMeta ≤ (s.allocators j).startAddr ∨
      (s.allocators j).endMeta ≤ (s.allocators i).startAddr
  usable : ∀ i < s.allocatorLen, ∃ e ∈ es, e.usable ∧
    e.shifted.addr.toNat ≤ (s.allocators i).startAddr.toNat ∧
    (s.allocators i).endMeta.toNat ≤ e.shifted.addr.toNat + e.len.toNat
  apart : ∀ i < s.allocatorLen,
    (s.allocators i).endMeta ≤ K.textStart ∨ K.kernelEnd < (s.allocators i).startAddr
  own : ∀ i < s.allocatorLen, ∀ k, ∀ a ∈ (s.pallocator i).zones k,
    (s.allocators i).startAddr ≤ a ∧
    a.toNat + 2 ^ ((s.allocators i).foBits.toNat + k) ≤ (s.allocators i).endMeta.toNat

end Boot

/-- A memory map: regions of regular memory do not overlap and have physical addresses of at most 52
bits, and the allocators suffice for those that are used. -/
structure ValidMap (es : List MmapEntry) : Prop where
  disjoint : es.Pairwise fun e e' => e.type = 1 → e'.type = 1 →
    e.addr.toNat + e.len.toNat ≤ e'.addr.toNat ∨ e'.addr.toNat + e'.len.toNat ≤ e.addr.toNat
  physical : ∀ e ∈ es, e.type = 1 → e.addr.toNat + e.len.toNat ≤ 2 ^ 52
  few : (es.filter fun e => e.usable).length ≤ maxMemNodes

/-- The kernel lies where it is linked, from `kernel_vma` on. -/
def Kernel.Valid (K : Kernel) : Prop := kernelVma ≤ K.textStart ∧ K.textStart ≤ K.kernelEnd

/-- The region, shifted, does not have the whole kernel inside with enough room on both sides. If it
has neither end of it, it neither begins nor goes on at the address where the shift begins at 0
again, and its pages do not meet the kernel: they would if it lies inside the kernel, or if it ends at
that address, as the tests then find nothing in it. -/
def MmapEntry.Sound (K : Kernel) (e : MmapEntry) : Prop :=
  ¬ (e.hasText K ∧ e.roomBefore K ∧ e.hasEnd K ∧ e.roomBehind K) ∧
    (¬ e.hasText K → ¬ e.hasEnd K → e.addr ≠ 0 ∧ e.addr.toNat + e.len.toNat ≤ 2 ^ 64 ∧
      (alignDown (e.addr + e.len - 1) pageSize ≤ K.textStart ∨
        K.kernelEnd < alignUp e.addr pageSize))

instance (K : Kernel) : Decidable K.Valid := inferInstanceAs (Decidable (_ ∧ _))
instance (K : Kernel) (e : MmapEntry) : Decidable (e.Sound K) :=
  inferInstanceAs (Decidable (_ ∧ _))

end EpochKernel.Mem
