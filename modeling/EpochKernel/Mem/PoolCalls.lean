import EpochKernel.Library.Heap
import EpochKernel.Mem.PallocatorReallocated

/-! The calls of `mem/mem.cpp` on the array of allocators, with the stores and loads of their
clients. -/
namespace EpochKernel.Mem
open EpochKernel.Util EpochKernel.Library

namespace PhysMemory
variable (w : PhysMemory)

/-- A new value for a word that is read as a pointer. -/
def setPointer (l : Option UInt64) (f : UInt64 → UInt64) : Option UInt64 :=
  if f (l.getD 0) = l.getD 0 then l else if f (l.getD 0) = 0 then none else some (f (l.getD 0))

/-- Every word `v` at an address `a` becomes `f a v`. -/
def edit (f : UInt64 → UInt64 → UInt64) : PhysMemory where
  allocators := w.allocators.map fun p => { p with
    links := fun a => ⟨setPointer (p.links a).prev (f a), setPointer (p.links a).next (f (a + 8))⟩
    n := fun a => f (a + 16) (p.n a) }
  data a := f a (w.data a)

/-- `memset (s, n, 0)`, for `s` at the start of a word. The last word can be cleared in part. -/
def memset (s n : UInt64) : PhysMemory :=
  w.edit fun a v =>
    if a - s < n then
      if n - (a - s) ≥ 8 then 0 else (v >>> (8 * (n - (a - s)))) <<< (8 * (n - (a - s)))
    else v

/-- `allocators[i].alloc (n)`. -/
def alloc (n : UInt64) (i : ℕ) : Option UInt64 × PhysMemory :=
  match w.allocators[i]? with
  | none => (none, w)
  | some p => ((p.alloc n).1, { w with allocators := w.allocators.set i (p.alloc n).2 })

/-- `allocators[i].oalloc (order)`. -/
def oalloc (order : UInt8) (i : ℕ) : Option UInt64 × PhysMemory :=
  match w.allocators[i]? with
  | none => (none, w)
  | some p => ((p.oalloc order).1, { w with allocators := w.allocators.set i (p.oalloc order).2 })

/-- `allocators[i].allocz (n)`. -/
def allocz (n : UInt64) (i : ℕ) : Option UInt64 × PhysMemory :=
  match ((w.alloc n i).1.filter (· ≠ 0), (w.alloc n i).2) with
  | (none, w) => (none, w)
  | (some out, w) => (some out, w.memset out n)

/-- `allocators[i].oallocz (order)`. -/
def oallocz (order : UInt8) (i : ℕ) : Option UInt64 × PhysMemory :=
  match ((w.oalloc order i).1.filter (· ≠ 0), (w.oalloc order i).2) with
  | (none, w) => (none, w)
  | (some out, w) =>
    (some out, (w.allocators[i]?).elim w fun p => w.memset out (p.getOrderSize order))

/-- `allocators[i].orealloc (mem, order)`. -/
def orealloc (i : ℕ) (mem : UInt64) (order : UInt8) : Option (Option UInt64 × PhysMemory) :=
  (w.allocators[i]?).bind fun p =>
    if order > p.maxOrder then some (none, w) else w.realloc i mem (p.getOrderSize order)

/-- The loop over the array in `mem::alloc` and its variants, from the allocator `i`. -/
def first (call : PhysMemory → ℕ → Option UInt64 × PhysMemory) :
    ℕ → ℕ → PhysMemory → Option UInt64 × PhysMemory
  | 0, _, w => (none, w)
  | k + 1, i, w =>
    match ((call w i).1.filter (· ≠ 0), (call w i).2) with
    | (some out, w) => (some out, w)
    | (none, w) => first call k (i + 1) w

def memAlloc (n : UInt64) : Option UInt64 × PhysMemory :=
  first (fun w => w.alloc n) w.allocators.length 0 w

def memAllocz (n : UInt64) : Option UInt64 × PhysMemory :=
  first (fun w => w.allocz n) w.allocators.length 0 w

def memOalloc (order : UInt8) : Option UInt64 × PhysMemory :=
  first (fun w => w.oalloc order) w.allocators.length 0 w

def memOallocz (order : UInt8) : Option UInt64 × PhysMemory :=
  first (fun w => w.oallocz order) w.allocators.length 0 w

/-- The allocator that manages an address. -/
def manager (mem : UInt64) : Option ℕ :=
  w.allocators.findIdx? fun p => mem ≥ p.startAddr ∧ mem < p.endAddr

def memRealloc (mem n : UInt64) : Option (Option UInt64 × PhysMemory) :=
  (w.manager mem).elim (some (none, w)) fun i => w.realloc i mem n

def memOrealloc (mem : UInt64) (order : UInt8) : Option (Option UInt64 × PhysMemory) :=
  (w.manager mem).elim (some (none, w)) fun i => w.orealloc i mem order

def memFree (mem : UInt64) : PhysMemory :=
  { w with allocators := Pallocator.memFree mem w.allocators }

/-- `*(usize *) a = v`. -/
def put (a v : UInt64) : PhysMemory := w.edit fun x u => if x = a then v else u

/-- `*(usize *) a`. -/
def get (a : UInt64) : UInt64 := (w.word a).getD 0

end PhysMemory

/-- The calls of clients, with what they return. -/
inductive MemEvent
  | alloc (n : UInt64) (ret : Option UInt64)
  | allocz (n : UInt64) (ret : Option UInt64)
  | oalloc (order : UInt8) (ret : Option UInt64)
  | oallocz (order : UInt8) (ret : Option UInt64)
  | realloc (mem n : UInt64) (ret : Option UInt64)
  | orealloc (mem : UInt64) (order : UInt8) (ret : Option UInt64)
  | free (mem : UInt64)
  | store (a v : UInt64)
  | load (a v : UInt64)

namespace Pool

/-- A block that was handed out is recorded with the allocator that manages it. -/
def grant (t : Pool) : Option UInt64 × PhysMemory → Pool
  | (none, w) => { t with toPhysMemory := w }
  | (some out, w) =>
    { toPhysMemory := w
      live := fun j =>
        (match w.allocators[j]? with
          | some p =>
            if p.startAddr ≤ out ∧ out < p.endAddr then
              [(out, (p.metadata (p.getMeta out)).order)]
            else []
          | none => []) ++ t.live j }

/-- The word at `a` is in a block of a client. -/
def Owned (t : Pool) (a : UInt64) : Prop :=
  8 ∣ a.toNat ∧ ∃ i : Fin t.allocators.length, Session.Owns ⟨t.allocators.get i, t.live i⟩ a

instance (t : Pool) (a : UInt64) : Decidable (t.Owned a) := inferInstanceAs (Decidable (_ ∧ _))

/-- The blocks after a call of `mem::realloc`. -/
def resettle (t : Pool) (mem : UInt64) (r : Option UInt64 × PhysMemory) : Pool :=
  (t.toPhysMemory.manager mem).elim { t with toPhysMemory := r.2 } fun i => t.settle i mem r

/-- The calls of clients that keep to their blocks. -/
def memStep : Machine Pool MemEvent
  | t, .alloc n ret => if (t.memAlloc n).1 = ret then some (t.grant (t.memAlloc n)) else none
  | t, .allocz n ret => if (t.memAllocz n).1 = ret then some (t.grant (t.memAllocz n)) else none
  | t, .oalloc order ret =>
    if (t.memOalloc order).1 = ret then some (t.grant (t.memOalloc order)) else none
  | t, .oallocz order ret =>
    if (t.memOallocz order).1 = ret then some (t.grant (t.memOallocz order)) else none
  | t, .realloc mem n ret =>
    (t.memRealloc mem n).bind fun r => if r.1 = ret then some (t.resettle mem r) else none
  | t, .orealloc mem order ret =>
    (t.memOrealloc mem order).bind fun r => if r.1 = ret then some (t.resettle mem r) else none
  | t, .free mem =>
    some ⟨t.memFree mem, fun j =>
      (t.allocators[j]?).elim (t.live j) fun p => p.release (t.live j) mem⟩
  | t, .store a v => if t.Owned a then some { t with toPhysMemory := t.put a v } else none
  | t, .load a v => if t.Owned a ∧ t.get a = v then some t else none

/-- The calls of `mem::realloc` and `mem::orealloc` that do not edit the zone of a block in use. -/
def Gentle (t : Pool) : MemEvent → Prop
  | .realloc mem n _ => ∀ i ∈ t.toPhysMemory.manager mem, t.Careful (.realloc i mem n)
  | .orealloc mem order _ => ∀ i ∈ t.toPhysMemory.manager mem, ∀ p ∈ t.allocators[i]?,
      t.Careful (.realloc i mem (p.getOrderSize order))
  | _ => True

instance (t : Pool) : DecidablePred t.Gentle
  | .realloc mem n _ =>
    inferInstanceAs (Decidable (∀ i ∈ t.toPhysMemory.manager mem, t.Careful (.realloc i mem n)))
  | .orealloc mem order _ =>
    inferInstanceAs (Decidable (∀ i ∈ t.toPhysMemory.manager mem, ∀ p ∈ t.allocators[i]?,
      t.Careful (.realloc i mem (p.getOrderSize order))))
  | .alloc _ _ => isTrue trivial
  | .allocz _ _ => isTrue trivial
  | .oalloc _ _ => isTrue trivial
  | .oallocz _ _ => isTrue trivial
  | .free _ => isTrue trivial
  | .store _ _ => isTrue trivial
  | .load _ _ => isTrue trivial

end Pool

namespace MemEvent

/-- What the call is to a heap, for allocators of pages. -/
def call : MemEvent → BlockHeap.Call UInt64
  | .alloc n ret => .request n.toNat none (ret.map (·.toNat))
  | .allocz n ret => .request n.toNat (some 0) (ret.map (·.toNat))
  | .oalloc order ret => .request (2 ^ (12 + order.toNat)) none (ret.map (·.toNat))
  | .oallocz order ret => .request (2 ^ (12 + order.toNat)) (some 0) (ret.map (·.toNat))
  | .realloc mem n ret => .resize mem.toNat n.toNat (ret.map (·.toNat))
  | .orealloc mem order ret => .resize mem.toNat (2 ^ (12 + order.toNat)) (ret.map (·.toNat))
  | .free mem => .release mem.toNat
  | .store a v => .store a.toNat v
  | .load a v => .load a.toNat v

end MemEvent
end EpochKernel.Mem
