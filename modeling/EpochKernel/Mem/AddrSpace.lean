import EpochKernel.Library.Run
import EpochKernel.Mem.Pallocator
import EpochKernel.Util.ListOps

/-! The virtual zones of an address space, `mem/vmem.cpp`, over any implementation of its list and
over any physical memory with its page tables. A zone is the address of its object. -/
namespace EpochKernel.Mem
open EpochKernel.Util EpochKernel.Library

def maxMem : UInt64 := 0x1000000000000

structure PhysAllocation where
  addr : UInt64
  len : UInt64
  deriving DecidableEq, Repr

inductive AllocType
  | valloc | map | reserve | kernel
  deriving DecidableEq, Repr

/-- `struct virt_zone`, without its list links. -/
structure VirtZone where
  virtAddr : UInt64
  len : UInt64
  type : AllocType
  allocations : List PhysAllocation
  flags : UInt64
  physAddr : UInt64
  deriving DecidableEq, Repr

/-- What an address space uses of the rest of the kernel: the physical allocators, the room for one
more entry in an array of `n`, and its page tables. `pages` is more than the number of pages of
physical memory. -/
structure Memory (π : Type*) where
  pages : ℕ
  layout : Layout
  getFreeSpace : π → UInt64
  alloc : UInt64 → π → Option UInt64 × π
  free : UInt64 → π → π
  room : ℕ → π → Bool × π
  mapInternal : UInt64 → UInt64 → UInt64 → UInt64 → π → Bool × π
  unmapInternal : UInt64 → UInt64 → π → π

/-- An address space: `virt_allocs`, the zone objects, the rest of the kernel, and whether it is the
address space of the running process. `objs` are the zone objects in use, `freed` what `free` has
handed to `mem::free`, and `stale` the pages that were unmapped and not flushed since; these three
are not part of the program. -/
structure AddrSpace (σ π : Type*) where
  virtAllocs : σ
  zone : UInt64 → VirtZone
  world : π
  isCurrent : Bool
  objs : List UInt64
  freed : List UInt64
  stale : UInt64 → Bool

/-- The page `p` is one of the pages of the `n` bytes from `virtAddr` on. -/
def InPages (virtAddr n p : UInt64) : Prop :=
  (p - virtAddr).toNat < n.toNat ∧ (p - virtAddr).toNat % 4096 = 0

instance (virtAddr n p : UInt64) : Decidable (InPages virtAddr n p) :=
  inferInstanceAs (Decidable (_ ∧ _))

namespace AddrSpace
variable {σ π : Type*} (L : ListOps σ UInt64) (m : Memory π)

section Objects
variable (s : AddrSpace σ π)

def setZone (z : UInt64) (d : VirtZone) : AddrSpace σ π :=
  { s with zone := Function.update s.zone z d }

/-- `new`, which writes the zone `d`. -/
def new (z : UInt64) (d : VirtZone) : AddrSpace σ π :=
  { s.setZone z d with objs := z :: s.objs }

def delete (z : UInt64) : AddrSpace σ π := { s with objs := s.objs.erase z }

def memFree (addr : UInt64) : AddrSpace σ π :=
  { s with world := m.free addr s.world, freed := s.freed ++ [addr] }

def unmapInternal (virtAddr n : UInt64) : AddrSpace σ π :=
  { s with
    world := m.unmapInternal virtAddr n s.world
    stale := fun p => s.stale p || decide (InPages virtAddr n p) }

end Objects

/-- `virt_allocs[i]`. -/
def get (i : ℕ) (s : AddrSpace σ π) : Option (Option UInt64 × AddrSpace σ π) :=
  (L.get i s.virtAllocs).map fun r => (r.1, { s with virtAllocs := r.2 })

def insert (i : ℕ) (z : UInt64) (s : AddrSpace σ π) : Option (AddrSpace σ π) :=
  (L.insert i z s.virtAllocs).map fun l => { s with virtAllocs := l }

def remove (i : ℕ) (s : AddrSpace σ π) : Option (AddrSpace σ π) :=
  (L.remove i s.virtAllocs).map fun l => { s with virtAllocs := l }

def prepend (z : UInt64) (s : AddrSpace σ π) : AddrSpace σ π :=
  { s with virtAllocs := L.prepend z s.virtAllocs }

def append (z : UInt64) (s : AddrSpace σ π) : AddrSpace σ π :=
  { s with virtAllocs := L.append z s.virtAllocs }

def removeP (z : UInt64) (s : AddrSpace σ π) : AddrSpace σ π :=
  { s with virtAllocs := L.removeP z s.virtAllocs }

def len (s : AddrSpace σ π) : ℕ := L.len s.virtAllocs

/-- The loop of `sync_tlb_raw` up to the address `e`. -/
def syncRaw (e : UInt64) : ℕ → UInt64 → (UInt64 → Bool) → UInt64 → Bool
  | 0, _, stale => stale
  | fuel + 1, addr, stale =>
    if addr < e then syncRaw e fuel (addr + 4096) (Function.update stale addr false) else stale

/-- `sync_tlb_raw`; the addresses grow up to `virtAddr + n`, so it takes at most 2^52 iterations. -/
def syncTlbRaw (virtAddr n : UInt64) (s : AddrSpace σ π) : AddrSpace σ π :=
  { s with stale := syncRaw (virtAddr + n) (2 ^ 52) virtAddr s.stale }

def syncLoop (virtAddr : UInt64) : ℕ → ℕ → AddrSpace σ π → Option (AddrSpace σ π)
  | 0, _, _ => none
  | fuel + 1, i, s =>
    if i < s.len L then
      match s.get L i with
      | some (some z, s) =>
        let zone := s.zone z
        if (zone.type = .valloc ∨ zone.type = .map) ∧ zone.virtAddr = virtAddr then
          syncLoop virtAddr fuel (i + 1) (s.syncTlbRaw zone.virtAddr zone.len)
        else syncLoop virtAddr fuel (i + 1) s
      | _ => none
    else some s

/-- `sync_tlb`. -/
def syncTlb (virtAddr : UInt64) (s : AddrSpace σ π) : Option (AddrSpace σ π) :=
  syncLoop L (alignDown virtAddr pageSize) (s.len L + 1) 0 s

/-- `if (&sched::proc_c ().addr_space == this) sync_tlb (virt_addr)`. -/
def syncIfCurrent (virtAddr : UInt64) (s : AddrSpace σ π) : Option (AddrSpace σ π) :=
  if s.isCurrent then s.syncTlb L virtAddr else some s

section Insertion

/-- The loop of `insert_virt_zone`: its result if it returns, or else the last zone it has seen. -/
def insertLoop (z : UInt64) : ℕ → ℕ → Option UInt64 → AddrSpace σ π →
    Option ((Bool ⊕ Option UInt64) × AddrSpace σ π)
  | 0, _, _, _ => none
  | fuel + 1, i, last, s =>
    if i < s.len L then
      match s.get L i with
      | some (some current, s) =>
        let a := s.zone z
        let c := s.zone current
        if c.virtAddr ≤ a.virtAddr ∧ a.virtAddr < c.virtAddr + c.len then some (.inl false, s)
        else if (last.all fun l => (s.zone l).virtAddr + (s.zone l).len ≤ a.virtAddr) ∧
            a.virtAddr + a.len < c.virtAddr then
          (s.insert L i z).map fun s => (.inl true, s)
        else insertLoop z fuel (i + 1) (some current) s
      | _ => none
    else some (.inr last, s)

/-- The end of `insert_virt_zone`, for the result of the loop. -/
def insertEnd (z : UInt64) :
    (Bool ⊕ Option UInt64) × AddrSpace σ π → Bool × AddrSpace σ π
  | (.inl b, s) => (b, s)
  | (.inr current, s) =>
    let a := s.zone z
    if (current.all fun c => (s.zone c).virtAddr + (s.zone c).len ≤ a.virtAddr) ∧
        a.virtAddr + a.len ≤ maxMem then
      (true, s.append L z)
    else (false, s)

/-- `insert_virt_zone`. -/
def insertVirtZone (z : UInt64) (s : AddrSpace σ π) : Option (Bool × AddrSpace σ π) :=
  (insertLoop L z (s.len L + 1) 0 none s).map (insertEnd L z)

/-- The loop of `find_address` over the first `i` zones, downwards from `last`: the address found
or 0, and the zone reached. -/
def findLoop (z : UInt64) : ℕ → UInt64 → AddrSpace σ π →
    Option (UInt64 × UInt64 × AddrSpace σ π)
  | 0, last, s => some (0, last, s)
  | i + 1, last, s =>
    match s.get L i with
    | some (some current, s) =>
      let currentEnd := (s.zone current).virtAddr + (s.zone current).len
      if (s.zone z).len ≤ (s.zone last).virtAddr - currentEnd then
        (s.insert L (i + 1) z).map fun s => (currentEnd, current, s)
      else findLoop z i current s
    | _ => none

/-- `find_address`: the address, or 0. It fails an assertion if the last zone is not the kernel's. -/
def findAddress (z : UInt64) (s : AddrSpace σ π) : Option (UInt64 × AddrSpace σ π) :=
  match s.get L (s.len L - 1) with
  | some (some current, s) =>
    if (s.zone current).type ≠ .kernel then none
    else
      let found :=
        if s.len L = 1 then
          if (s.zone z).len ≤ (s.zone current).virtAddr - pageSize then
            some (pageSize, s.prepend L z)
          else some (0, s)
        else
          (findLoop L z (s.len L - 1) current s).map fun (addr, current, s) =>
            if addr = 0 ∧ (s.zone z).len ≤ current - pageSize then (pageSize, s.prepend L z)
            else (addr, s)
      found.map fun (addr, s) =>
        if addr = 0 then (0, s) else (addr, s.setZone z { s.zone z with virtAddr := addr })
  | _ => none

end Insertion

section Allocation

/-- `list.push (palloc)`, whose result is ignored. -/
def push (l : List PhysAllocation) (a : PhysAllocation) (w : π) : List PhysAllocation × π :=
  ((if (m.room l.length w).1 then l ++ [a] else l), (m.room l.length w).2)

/-- The loop of `collect_phys_zones`; `none` if it does not end. -/
def collectLoop : ℕ → UInt64 → UInt64 → List PhysAllocation → π →
    Option (UInt64 × List PhysAllocation × π)
  | 0, _, _, _, _ => none
  | fuel + 1, allocSize, n, l, w =>
    if n = 0 ∨ allocSize < pageSize then some (n, l, w)
    else
      match m.alloc allocSize w with
      | (none, w) => collectLoop fuel (allocSize >>> 1) n l w
      | (some addr, w) =>
        let (l, w) := push m l ⟨addr, allocSize⟩ w
        collectLoop fuel allocSize (n - allocSize) l w

/-- `collect_phys_zones` into an empty list. -/
def collectPhysZones (n : UInt64) (w : π) : Option (Bool × List PhysAllocation × π) :=
  if n = 0 then some (true, [], w)
  else
    (collectLoop m (m.pages + 64) (m.layout.getOrderSize (m.layout.getOrder n)) n [] w).map
      fun (n, l, w) =>
        if n = 0 then (true, l, w)
        else (false, [], l.reverse.foldl (fun w a => m.free a.addr w) w)

/-- The loop of `map_alloc_data`: the index of the zone that could not be mapped, if any. -/
def mapZones (flags : UInt64) : ℕ → List PhysAllocation → UInt64 → π → Option ℕ × π
  | _, [], _, w => (none, w)
  | i, a :: as, virtAddr, w =>
    match m.mapInternal a.addr virtAddr a.len flags w with
    | (false, w) => (some i, w)
    | (true, w) => mapZones flags (i + 1) as (virtAddr + a.len) w

/-- `map_alloc_data`: the address or 0. When the zone `i` cannot be mapped, the lengths of the zones
1 to `i - 1` are unmapped. -/
def mapAllocData (z : UInt64) (s : AddrSpace σ π) : Option (UInt64 × AddrSpace σ π) :=
  match s.findAddress L z with
  | none => none
  | some (virtAddr, s) =>
    if virtAddr = 0 then some (0, s)
    else
      let l := (s.zone z).allocations
      match mapZones m (s.zone z).flags 0 l virtAddr s.world with
      | (none, w) => some (virtAddr, { s with world := w })
      | (some 0, w) => some (0, { s with world := w })
      | (some (i + 1), w) =>
        let unmapLen := (((l.take (i + 1)).drop 1).map (·.len)).sum
        some (0, { s with world := w }.unmapInternal m virtAddr unmapLen)

/-- `alloc`, for the object that `new` returns. Where there is none, its constructor writes through the
null pointer and the call does not come back; the test for NULL behind it is never reached. -/
def alloc (z : Option UInt64) (n flags : UInt64) (s : AddrSpace σ π) :
    Option (UInt64 × AddrSpace σ π) :=
  if n = 0 ∨ m.getFreeSpace s.world < n then some (0, s)
  else
    match z with
    | none => none
    | some z =>
      let n := alignUp n pageSize
      let d := s.zone z
      let s := s.new z { d with type := .valloc, allocations := [], len := n, flags := flags }
      match collectPhysZones m n s.world with
      | none => none
      | some (false, _, w) => some (0, { s with world := w }.delete z)
      | some (true, l, w) =>
        let s := { s with world := w }.setZone z { s.zone z with allocations := l }
        match s.mapAllocData L m z with
        | none => none
        | some (out, s) =>
          if out = 0 then some (0, (s.removeP L z).delete z)
          else (s.syncIfCurrent L out).map fun s => (out, s)

end Allocation

/-- The body of `free` for the physical zones of an allocation. -/
def release (virtAddr : UInt64) : List PhysAllocation → UInt64 → AddrSpace σ π → AddrSpace σ π
  | [], _, s => s
  | a :: as, offset, s =>
    release virtAddr as (offset + a.len)
      ((s.unmapInternal m (virtAddr + offset) a.len).memFree m a.addr)

/-- The loop of `free`, which goes on after a removal. -/
def freeLoop (virtAddr : UInt64) : ℕ → ℕ → AddrSpace σ π → Option (AddrSpace σ π)
  | 0, _, _ => none
  | fuel + 1, i, s =>
    if i < s.len L then
      match s.get L i with
      | some (some z, s) =>
        if (s.zone z).virtAddr = virtAddr ∧ (s.zone z).type = .valloc then
          ((release m virtAddr (s.zone z).allocations 0 s).remove L i).bind fun s =>
            freeLoop virtAddr fuel (i + 1) (s.delete z)
        else freeLoop virtAddr fuel (i + 1) s
      | _ => none
    else some s

/-- `free`. -/
def free (mem : UInt64) (s : AddrSpace σ π) : Option (AddrSpace σ π) :=
  (freeLoop L m (alignDown mem pageSize) (s.len L + 1) 0 s).bind fun s =>
    s.syncIfCurrent L (alignDown mem pageSize)

/-- `map`, for the object that `new` returns. -/
def map (z : Option UInt64) (physAddr n flags : UInt64) (s : AddrSpace σ π) :
    Option (UInt64 × AddrSpace σ π) :=
  if n = 0 then some (0, s)
  else
    match z with
    | none => none
    | some z =>
      let physAddr := alignDown physAddr pageSize
      let n := alignUp n pageSize
      let d := s.zone z
      let s := s.new z { d with type := .map, allocations := [], physAddr := physAddr, len := n }
      match s.findAddress L z with
      | none => none
      | some (virtAddr, s) =>
        if virtAddr = 0 then some (0, s.delete z)
        else
          match m.mapInternal physAddr virtAddr (s.zone z).len flags s.world with
          | (false, w) => some (0, ({ s with world := w }.removeP L z).delete z)
          | (true, w) =>
            ({ s with world := w }.syncIfCurrent L virtAddr).map fun s => (virtAddr, s)

/-- `map_at`. -/
def mapAt (z : Option UInt64) (physAddr virtAddr n flags : UInt64) (s : AddrSpace σ π) :
    Option (Bool × AddrSpace σ π) :=
  if n = 0 then some (false, s)
  else
    match z with
    | none => none
    | some z =>
      let physAddr := alignDown physAddr pageSize
      let virtAddr := alignDown virtAddr pageSize
      let n := alignUp n pageSize
      let d := s.zone z
      let s := s.new z { d with
        type := .map, allocations := [], physAddr := physAddr, len := n, virtAddr := virtAddr }
      match s.insertVirtZone L z with
      | none => none
      | some (false, s) => some (false, s.delete z)
      | some (true, s) =>
        match m.mapInternal physAddr virtAddr n flags s.world with
        | (false, w) => some (false, ({ s with world := w }.removeP L z).delete z)
        | (true, w) =>
          ({ s with world := w }.syncIfCurrent L virtAddr).map fun s => (true, s)

/-- The loop of `unmap`, which returns at the first zone it finds. -/
def unmapLoop (virtAddr : UInt64) : ℕ → ℕ → AddrSpace σ π →
    Option (Option UInt64 × AddrSpace σ π)
  | 0, _, _ => none
  | fuel + 1, i, s =>
    if i < s.len L then
      match s.get L i with
      | some (some z, s) =>
        let d := s.zone z
        if d.virtAddr = virtAddr ∧ d.type = .map then
          ((s.unmapInternal m d.virtAddr d.len).remove L i).map fun s =>
            (some d.physAddr, s.delete z)
        else unmapLoop virtAddr fuel (i + 1) s
      | _ => none
    else some (none, s)

/-- `unmap`. -/
def unmap (virtAddr : UInt64) (s : AddrSpace σ π) : Option (Option UInt64 × AddrSpace σ π) :=
  let virtAddr := alignDown virtAddr pageSize
  match unmapLoop L m virtAddr (s.len L + 1) 0 s with
  | none => none
  | some (some out, s) => some (some out, s)
  | some (none, s) => (s.syncIfCurrent L virtAddr).map fun s => (none, s)

/-- `reserve`, for the object that `new` returns. -/
def reserve (z : Option UInt64) (n : UInt64) (s : AddrSpace σ π) :
    Option (UInt64 × AddrSpace σ π) :=
  if n = 0 then some (0, s)
  else
    match z with
    | none => none
    | some z =>
      let d := s.zone z
      let s := s.new z { d with type := .reserve, allocations := [], len := alignUp n pageSize }
      match s.findAddress L z with
      | none => none
      | some (virtAddr, s) =>
        if virtAddr = 0 then some (0, s.delete z) else some (virtAddr, s)

/-- `reserve_at`. -/
def reserveAt (z : Option UInt64) (virtAddr n : UInt64) (s : AddrSpace σ π) :
    Option (Bool × AddrSpace σ π) :=
  match z with
  | none => none
  | some z =>
    let d := s.zone z
    let s := s.new z { d with
      type := .reserve, allocations := [], virtAddr := alignDown virtAddr pageSize,
      len := alignUp n pageSize }
    match s.insertVirtZone L z with
    | none => none
    | some (false, s) => some (false, s.delete z)
    | some (true, s) => some (true, s)

def unreserveLoop (virtAddr : UInt64) : ℕ → ℕ → AddrSpace σ π → Option (AddrSpace σ π)
  | 0, _, _ => none
  | fuel + 1, i, s =>
    if i < s.len L then
      match s.get L i with
      | some (some z, s) =>
        if (s.zone z).virtAddr = virtAddr ∧ (s.zone z).type = .reserve then
          (s.remove L i).map fun s => s.delete z
        else unreserveLoop virtAddr fuel (i + 1) s
      | _ => none
    else some s

/-- `unreserve`. -/
def unreserve (virtAddr : UInt64) (s : AddrSpace σ π) : Option (AddrSpace σ π) :=
  unreserveLoop L (alignDown virtAddr pageSize) (s.len L + 1) 0 s

/-- The kernel zone as its constructor sets it. -/
def kernelZone : VirtZone where
  virtAddr := kernelVma
  len := maxMem - kernelVma
  type := .kernel
  allocations := []
  flags := 0
  physAddr := kernelVma

/-- The constructor of an address space with the kernel zone `kernelZ`, over the memory `zone` of
the other zone objects; `w` is the kernel after the page table of the highest level is made. -/
def init (kernelZ : UInt64) (zone : UInt64 → VirtZone) (w : π) : Option (AddrSpace σ π) :=
  let s : AddrSpace σ π :=
    ⟨L.empty, Function.update zone kernelZ kernelZone, w, false, [kernelZ], [], fun _ => false⟩
  (s.insertVirtZone L kernelZ).map fun r => r.2

end AddrSpace

/-- The calls on an address space, with the objects that `new` returns in them. Whatever the rest of
the kernel does between two of them is `elapse`. -/
inductive Call (π : Type*)
  | alloc (z : Option UInt64) (n flags : UInt64)
  | free (mem : UInt64)
  | map (z : Option UInt64) (physAddr n flags : UInt64)
  | mapAt (z : Option UInt64) (physAddr virtAddr n flags : UInt64)
  | unmap (virtAddr : UInt64)
  | reserve (z : Option UInt64) (n : UInt64)
  | reserveAt (z : Option UInt64) (virtAddr n : UInt64)
  | unreserve (virtAddr : UInt64)
  | elapse (w : π) (isCurrent : Bool)

/-- The object that `new` returns in a call. -/
def Call.object {π : Type*} : Call π → Option UInt64
  | alloc z _ _ | map z _ _ _ | mapAt z _ _ _ _ | reserve z _ | reserveAt z _ _ => z
  | _ => none

namespace AddrSpace
variable {σ π : Type*} (L : ListOps σ UInt64) (m : Memory π)

/-- A call on its own. -/
def call (s : AddrSpace σ π) : Call π → Option (AddrSpace σ π)
  | .alloc z n flags => (s.alloc L m z n flags).map fun r => r.2
  | .free mem => s.free L m mem
  | .map z physAddr n flags => (s.map L m z physAddr n flags).map fun r => r.2
  | .mapAt z physAddr virtAddr n flags => (s.mapAt L m z physAddr virtAddr n flags).map fun r => r.2
  | .unmap virtAddr => (s.unmap L m virtAddr).map fun r => r.2
  | .reserve z n => (s.reserve L z n).map fun r => r.2
  | .reserveAt z virtAddr n => (s.reserveAt L z virtAddr n).map fun r => r.2
  | .unreserve virtAddr => s.unreserve L virtAddr
  | .elapse w isCurrent => some { s with world := w, isCurrent := isCurrent }

/-- A call, in which `new` returns no object that is in use. -/
def step (s : AddrSpace σ π) (c : Call π) : Option (AddrSpace σ π) :=
  if c.object.all fun z => z ∉ s.objs then s.call L m c else none

end AddrSpace

/-- A kernel with plenty of memory: the pages from `w` on are free, and every mapping succeeds. -/
def Memory.plenty : Memory UInt64 where
  pages := 1024
  layout := {
    startAddr := kernelVma, endAddr := kernelVma + 0x400000, endMeta := kernelVma + 0x401000
    firstOrderSize := 4096, foBits := 12, maxOrder := 10 }
  getFreeSpace w := kernelVma + 0x400000 - w
  alloc n w := if n ≤ kernelVma + 0x400000 - w then (some w, w + n) else (none, w)
  free _ w := w
  room _ w := (true, w)
  mapInternal _ _ _ _ w := (true, w)
  unmapInternal _ _ w := w

end EpochKernel.Mem
