import EpochKernel.Mem.AddrSpaceFree
import EpochKernel.Mem.PageTablesRelease

/-! The destructor of an address space. It looks at the zones by index and removes the one that it comes
to, so that it comes to every second one only. -/
namespace EpochKernel.Mem
open EpochKernel.Util EpochKernel.Library

/-- Every second entry of a list, from the first one on. -/
def everySecond {α : Type*} : List α → List α
  | [] => []
  | [x] => [x]
  | x :: _ :: xs => x :: everySecond xs

/-- The physical zones of an allocation. -/
def VirtZone.physical (z : VirtZone) : List UInt64 :=
  match z.type with
  | .valloc => z.allocations.map (·.addr)
  | .map | .reserve | .kernel => []

/-- The regions of the physical zones of an allocation. -/
def VirtZone.pieces (virtAddr : UInt64) : List PhysAllocation → UInt64 → List (UInt64 × UInt64)
  | [], _ => []
  | a :: as, offset => (virtAddr + offset, a.len) :: pieces virtAddr as (offset + a.len)

/-- The regions that are mapped for a zone, each with its address and its length. -/
def VirtZone.regions (z : VirtZone) : List (UInt64 × UInt64) :=
  match z.type with
  | .valloc => pieces z.virtAddr z.allocations 0
  | .map => [(z.virtAddr, z.len)]
  | .reserve | .kernel => []

/-- The regions of a zone as the destructor unmaps them, each with the physical zones that it gives back
then. -/
def VirtZone.steps (z : VirtZone) : List ((UInt64 × UInt64) × List UInt64) :=
  match z.type with
  | .valloc => List.zipWith (fun r a => (r, [a.addr])) (pieces z.virtAddr z.allocations 0) z.allocations
  | .map => [((z.virtAddr, z.len), [])]
  | .reserve | .kernel => []

/-- The rest of the kernel with the page tables of an address space. -/
def Memory.withTables (M : Memory PageTables) (pml4Table : UInt64) : Memory PageTables := { M with
  free := fun addr w => w.free addr
  mapInternal := fun physAddr virtAddr n flags w => w.mapInternal pml4Table physAddr virtAddr n flags
  unmapInternal := fun virtAddr n w => w.unmapInternal pml4Table virtAddr n }

namespace AddrSpace

section Model
variable {σ π : Type*} (L : ListOps σ UInt64) (m : Memory π)

/-- The body of the loop of `~addr_space`. -/
def destroyZone (z : UInt64) (s : AddrSpace σ π) : Option (AddrSpace σ π) :=
  let zone := s.zone z
  if zone.type = .valloc then s.free L m zone.virtAddr
  else if zone.type = .map then (s.unmap L m zone.virtAddr).map fun r => r.2
  else if zone.type = .reserve then s.unreserve L zone.virtAddr
  else some s

def destroyLoop : ℕ → ℕ → AddrSpace σ π → Option (AddrSpace σ π)
  | 0, _, _ => none
  | fuel + 1, i, s =>
    if i < s.len L then
      match s.get L i with
      | some (some z, s) => (s.destroyZone L m z).bind (destroyLoop fuel (i + 1))
      | _ => none
    else some s

/-- `~addr_space`. -/
def destroy (pml4Table : UInt64) (s : AddrSpace σ π) : Option (AddrSpace σ π) :=
  (destroyLoop L m (s.len L + 1) 0 s).map fun s => s.memFree m pml4Table

/-- What the destructor does for a zone that it comes to, but for the list. -/
def dismiss (s : AddrSpace σ π) (z : UInt64) : AddrSpace σ π :=
  match (s.zone z).type with
  | .valloc => release m (s.zone z).virtAddr (s.zone z).allocations 0 s
  | .map => s.unmapInternal m (s.zone z).virtAddr (s.zone z).len
  | .reserve | .kernel => s

end Model

section Agreement
variable {σ τ π : Type*} {m : Memory π} {s : AddrSpace σ π} {t : AddrSpace τ π} {z : UInt64}

/-- The zones, the rest of the kernel and what was given back are the same. -/
structure Agrees (s : AddrSpace σ π) (t : AddrSpace τ π) : Prop where
  zone : s.zone = t.zone
  world : s.world = t.world
  freed : s.freed = t.freed

lemma Agrees.release {v o : UInt64} {l : List PhysAllocation} (h : Agrees s t) :
    Agrees (release m v l o s) (release m v l o t) := by
  induction l generalizing s t o with
  | nil => exact h
  | cons a l ih =>
    refine ih ⟨h.zone, ?_, ?_⟩
    · change m.free _ (m.unmapInternal _ _ s.world) = m.free _ (m.unmapInternal _ _ t.world)
      rw [h.world]
    · change s.freed ++ _ = t.freed ++ _
      rw [h.freed]

lemma Agrees.dismiss (h : Agrees s t) (z : UInt64) : Agrees (dismiss m s z) (dismiss m t z) := by
  unfold AddrSpace.dismiss
  rw [h.zone]
  cases (t.zone z).type with
  | valloc => exact h.release
  | map =>
    refine ⟨h.zone, ?_, h.freed⟩
    change m.unmapInternal _ _ s.world = m.unmapInternal _ _ t.world
    rw [h.world]
  | reserve => exact h
  | kernel => exact h

lemma Agrees.foldl (h : Agrees s t) (zs : List UInt64) :
    Agrees (zs.foldl (AddrSpace.dismiss m) s) (zs.foldl (AddrSpace.dismiss m) t) := by
  induction zs generalizing s t with
  | nil => exact h
  | cons z zs ih => exact ih (h.dismiss z)

lemma Agrees.trans {υ : Type*} {u : AddrSpace υ π} (h : Agrees s t) (h' : Agrees t u) : Agrees s u :=
  ⟨h.zone.trans h'.zone, h.world.trans h'.world, h.freed.trans h'.freed⟩

end Agreement

variable {π : Type*} {m : Memory π} {K : Links UInt64}
  {s s' : AddrSpace (LinkedList UInt64 × Links UInt64) π} {t t' : AddrSpace (List UInt64) π}
  {z y : UInt64} {as bs xs : List UInt64}

lemma Shows.agrees (h : Shows s t) : Agrees s t := ⟨h.zone, h.world, h.freed⟩

/-- All zones have pages, and only the kernel zone is of its type. -/
structure Filled (t : AddrSpace (List UInt64) π) : Prop where
  pages : ∀ z ∈ t.virtAllocs, (t.zone z).len ≠ 0
  kernel : ∀ z ∈ t.virtAllocs, (t.zone z).type = .kernel → t.zone z = kernelZone

lemma Filled.without (h : Filled t) (hlist : t.virtAllocs = as ++ z :: bs) (hzone : t'.zone = t.zone)
    (hlist' : t'.virtAllocs = as ++ bs) : Filled t' := by
  have hsub : ∀ c ∈ t'.virtAllocs, c ∈ t.virtAllocs := by
    intro c hc
    rw [hlist'] at hc
    rw [hlist]
    exact (List.mem_append.mp hc).elim (List.mem_append_left _)
      fun hc => List.mem_append_right _ (List.mem_cons_of_mem _ hc)
  refine ⟨fun c hc => ?_, fun c hc htype => ?_⟩
  · rw [hzone]
    exact h.pages c (hsub c hc)
  · rw [hzone] at htype ⊢
    exact h.kernel c (hsub c hc) htype

section Effects
variable {σ : Type*} {u : AddrSpace σ π} {zs : List UInt64}

end Effects

/-- All regions that are mapped. -/
def regions (t : AddrSpace (List UInt64) π) : List (UInt64 × UInt64) :=
  t.virtAllocs.flatMap fun z => (t.zone z).regions

/-- What the destructor has to give back: the physical zones and the page tables. -/
def held (t : AddrSpace (List UInt64) PageTables) (pml4Table : UInt64) : Set UInt64 :=
  {a | (∃ z ∈ t.virtAllocs, a ∈ (t.zone z).physical) ∨ a ∈ t.world.below pml4Table 0 0}

section World
variable {σ : Type*} {M : Memory PageTables} {pml4Table : UInt64} {u : AddrSpace σ PageTables}

end World

variable {s : AddrSpace (LinkedList UInt64 × Links UInt64) PageTables}
  {t : AddrSpace (List UInt64) PageTables} {K : Links UInt64} {M : Memory PageTables}
  {m₀ : PageTables} {kernelPdpTable pml4Table : UInt64} {kernel : ℕ → Set UInt64}
  {rs : List (UInt64 × UInt64)}

/-- The steps of the destructor. -/
def walk (t : AddrSpace (List UInt64) PageTables) : List ((UInt64 × UInt64) × List UInt64) :=
  (everySecond t.virtAllocs).flatMap fun z => (t.zone z).steps

section Sample

/-- Physical memory that hands out the pages of the supply. -/
def suppliedMemory : Memory PageTables where
  pages := 16
  layout := Memory.plenty.layout
  getFreeSpace _ := 0x10000
  alloc _ w := match w.supply with
    | [] => (none, w)
    | p :: ps => (some p, { w with supply := ps })
  free p w := w.free p
  room _ w := (true, w)
  mapInternal physAddr virtAddr n flags w :=
    w.mapInternal 0xffffff8000001000 physAddr virtAddr n flags
  unmapInternal virtAddr n w := w.unmapInternal 0xffffff8000001000 virtAddr n

/-- What the destructor gives back after an allocation, a reservation and another allocation, of a page each.
The walk comes to both allocations, but the tables of the first one go back with the page of the second
one in them. -/
def reservedBetween (left : UInt64 → ℕ → UInt64) : Option (List UInt64) :=
  ((init (.linked fun _ => ⟨none, none⟩) 0x100 (fun _ => kernelZone) PageTables.sampleTables).bind fun s =>
    Machine.run (step (.linked fun _ => ⟨none, none⟩) (suppliedMemory.withTables 0xffffff8000001000)) s
      [.elapse { PageTables.sampleTables with
          supply := [0xffffff8000002000, 0xffffff8000003000, 0xffffff8000004000, 0xffffff8000005000,
            0xffffff8000006000, 0xffffff8000007000]
          left := left } true,
        .alloc (some 0x200) 0x1000 6, .reserve (some 0x280) 0x1000, .alloc (some 0x300) 0x1000 6]).bind
    fun s => (s.destroy (.linked fun _ => ⟨none, none⟩) (suppliedMemory.withTables 0xffffff8000001000)
      0xffffff8000001000).map fun s' => s'.world.freed.map Prod.fst

-- a pointer of a free list in the first entry ends the second walk, zeros give a table back again
example : (reservedBetween fun _ _ => 0xffffff8000005000) = some [0xffffff8000005000, 0xffffff8000004000,
    0xffffff8000003000, 0xffffff8000002000, 0xffffff8000006000, 0xffffff8000001000] := by decide +kernel

example : (reservedBetween fun _ _ => 0) = some [0xffffff8000005000, 0xffffff8000004000,
    0xffffff8000003000, 0xffffff8000002000, 0xffffff8000003000, 0xffffff8000006000,
    0xffffff8000001000] := by decide +kernel

end Sample

end AddrSpace
end EpochKernel.Mem
