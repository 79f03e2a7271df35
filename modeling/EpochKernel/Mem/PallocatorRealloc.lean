import EpochKernel.Mem.Allocators

/-! `pallocator::realloc`. It shrinks an allocation in place, lets it grow into the free zones behind
it, or moves it, to memory of any allocator if its own one has none left. -/
namespace EpochKernel.Mem
open EpochKernel.Util EpochKernel.Util.LinkedList EpochKernel.Library EpochKernel.Library.Block

namespace Pallocator
variable (p : Pallocator)

/-- The loop of `get_space`. A metadata byte that is not the first one of a zone counts as well. -/
def getSpaceLoop : ℕ → UInt64 → UInt64 → Option UInt64
  | 0, _, _ => none
  | fuel + 1, addr, out =>
    let data := p.metadata (p.getMeta addr)
    if data.alloced then some out
    else
      let len := p.getOrderSize data.order
      let out := out + len
      let addr := addr + len
      if addr ≥ p.endAddr then some out else getSpaceLoop fuel addr out

/-- `get_space`; a page at least is passed in every round. -/
def getSpace (addr : UInt64) : Option UInt64 :=
  if addr < p.startAddr ∨ addr ≥ p.endAddr then some 0 else p.getSpaceLoop (2 ^ 52) addr 0

/-- The loop that splits the zone at `m` down to `nOrder`. -/
def reallocSplit (m : UInt64) (nOrder : UInt8) : ℕ → UInt8 → Pallocator → Pallocator
  | 0, _, p => p
  | fuel + 1, order, p =>
    if order > nOrder then
      let p := p.setN m (p.n m >>> 1)
      let zone2 := m ^^^ p.n m
      let p := p.setN zone2 (p.n m)
      let order := order - 1
      let p := p.append order zone2
      reallocSplit m nOrder fuel order (p.setMeta zone2 ⟨false, order⟩)
    else p

/-- The loop that takes the buddies of `m` from the lists, up to `nOrder`. -/
def reallocAbsorb (m : UInt64) (nOrder : UInt8) : ℕ → UInt8 → UInt64 → Pallocator →
    UInt64 × Pallocator
  | 0, _, len, p => (len, p)
  | fuel + 1, order, len, p =>
    if order < nOrder then
      reallocAbsorb m nOrder fuel (order + 1) (len <<< 1) (p.removeP order (m ^^^ len))
    else (len, p)

/-- `meta->order = order`. -/
def setOrder (mem : UInt64) (order : UInt8) : Pallocator :=
  p.setMeta mem { p.metadata (p.getMeta mem) with order := order }

end Pallocator

/-- Physical memory: the array `allocators`, and the words that no allocator reads. The words at the
start of a page are the fields `links` and `n` of the allocator that manages the page. -/
structure PhysMemory where
  allocators : List Pallocator
  data : UInt64 → UInt64

namespace PhysMemory
variable (w : PhysMemory)

/-- `memcpy (dest, src, n)`, where `p` manages the source. -/
def memcpy (p : Pallocator) (dest src n : UInt64) : PhysMemory where
  allocators := w.allocators.map fun a => { a with
    links := fun x => if x - dest < n then p.links (src + (x - dest)) else a.links x
    n := fun x => if x - dest < n then p.n (src + (x - dest)) else a.n x }
  data x := if x - dest < n then w.data (src + (x - dest)) else w.data x

/-- The call of `alloc`, and that of `mem::alloc` if it returns `NULL`. -/
def reallocTake (i : ℕ) (p : Pallocator) (n : UInt64) : Option UInt64 × PhysMemory :=
  let r := p.alloc n
  let w := { w with allocators := w.allocators.set i r.2 }
  match r.1.filter (· ≠ 0) with
  | some out => (some out, w)
  | none =>
    let r := Pallocator.memAlloc n w.allocators
    (r.1, { w with allocators := r.2 })

/-- The branch of `realloc` that moves the allocation. -/
def reallocMove (i : ℕ) (p : Pallocator) (m len n : UInt64) : Option (Option UInt64 × PhysMemory) :=
  match w.reallocTake i p n with
  | (none, w) => some (none, w)
  | (some out, w) =>
    (w.allocators[i]?).bind fun p =>
      let w := w.memcpy p out m len
      (w.allocators[i]?).map fun p =>
        (some out, { w with allocators := w.allocators.set i (p.free m) })

/-- `allocators[i].realloc (mem, n)`. -/
def realloc (i : ℕ) (mem n : UInt64) : Option (Option UInt64 × PhysMemory) :=
  (w.allocators[i]?).bind fun p =>
    if mem < p.startAddr ∨ mem ≥ p.endAddr then some (none, w)
    else
      let data := p.metadata (p.getMeta mem)
      if !data.alloced then some (none, w)
      else
        let order := data.order
        let nOrder := p.getOrder n
        if nOrder > p.maxOrder then some (none, w)
        else
          let len := p.getOrderSize order
          let m := alignDown mem len
          if nOrder = order then some (some m, w)
          else if nOrder < order then
            let p := (p.removeP order m).reallocSplit m nOrder 128 order
            some (some m, { w with allocators := w.allocators.set i (p.setOrder mem nOrder) })
          else
            (p.getSpace (m + len)).bind fun space =>
              if n ≤ space ∧ alignOf m ≥ p.getOrderSize nOrder then
                let r := p.reallocAbsorb m nOrder 128 order len
                let p := (r.2.setN m r.1).setOrder mem nOrder
                some (some m, { w with allocators := w.allocators.set i p })
              else w.reallocMove i p m len n

/-- The word at an address that `p` manages; `NULL` is `none`. -/
def wordAt (p : Pallocator) (data : UInt64 → UInt64) (a : UInt64) : Option UInt64 :=
  let page := alignDown a pageSize
  if a = page then (p.links page).prev
  else if a = page + 8 then (p.links page).next
  else if a = page + 16 then some (p.n page)
  else some (data a)

/-- The word at an address. -/
def word (a : UInt64) : Option UInt64 :=
  match w.allocators.find? fun p => p.startAddr ≤ a ∧ a < p.endAddr with
  | some p => wordAt p w.data a
  | none => some (w.data a)

end PhysMemory

/-- Physical memory with the blocks that clients hold, for each allocator. -/
structure Pool extends PhysMemory where
  live : ℕ → List Allocation

inductive PoolOp
  | call (i : ℕ) (op : Op)
  | store (i : ℕ) (a v : UInt64)
  | realloc (i : ℕ) (mem n : UInt64)

namespace Pool

/-- The blocks of the clients after a call of `realloc` on the allocator `i`. -/
def settle (t : Pool) (i : ℕ) (mem : UInt64) : Option UInt64 × PhysMemory → Pool
  | (none, w) => { t with toPhysMemory := w }
  | (some out, w) =>
    { toPhysMemory := w
      live := fun j =>
        (match w.allocators[j]? with
          | some p =>
            if p.startAddr ≤ out ∧ out < p.endAddr then
              [(out, (p.metadata (p.getMeta out)).order)]
            else []
          | none => []) ++
        if j = i then
          match t.allocators[i]? with
          | some p => p.release (t.live i) mem
          | none => t.live i
        else t.live j }

def step (t : Pool) : PoolOp → Option Pool
  | .call i op =>
    (t.allocators[i]?).bind fun p =>
      (Session.step ⟨p, t.live i⟩ op).map fun s =>
        { t with allocators := t.allocators.set i s.p, live := Function.update t.live i s.live }
  | .store i a v =>
    (t.allocators[i]?).bind fun p =>
      if Session.Owns ⟨p, t.live i⟩ a then some { t with data := Function.update t.data a v }
      else none
  | .realloc i mem n => (t.toPhysMemory.realloc i mem n).map fun r => t.settle i mem r

/-- The client `c` of the allocator `i`. -/
def Live (t : Pool) (i : ℕ) (c : Allocation) : Prop :=
  ∃ p, t.allocators[i]? = some p ∧ c ∈ t.live i

/-- The tiling of every allocator. -/
def Tiled (t : Pool) : Prop :=
  ∀ i p, t.allocators[i]? = some p → Session.Tiled ⟨p, t.live i⟩

/-- The block `b` of the allocator `p` grows into the zones behind it. -/
def GrowsInPlace (p : Pallocator) (b : Allocation) (n : UInt64) : Prop :=
  ∃ space, p.getSpace (b.1 + p.getOrderSize b.2) = some space ∧ n ≤ space ∧
    alignOf b.1 ≥ p.getOrderSize (p.getOrder n)

instance (p : Pallocator) (b : Allocation) (n : UInt64) : Decidable (GrowsInPlace p b n) :=
  inferInstanceAs (Decidable (∃ space ∈ p.getSpace (b.1 + p.getOrderSize b.2), n ≤ space ∧ _))

/-- A request for an order beyond the highest one, or for at most 1 GiB and then for the order that
the block `b` has, or for a higher one that has to be found elsewhere. -/
def Unedited (p : Pallocator) (b : Allocation) (n : UInt64) : Prop :=
  p.maxOrder < p.getOrder n ∨
  n.toNat ≤ 2 ^ 30 ∧ (p.getOrder n = b.2 ∨
    0 < n.toNat ∧ b.2 < p.getOrder n ∧ ¬ GrowsInPlace p b n)

instance (p : Pallocator) (b : Allocation) (n : UInt64) : Decidable (Unedited p b n) :=
  inferInstanceAs (Decidable (_ ∨ _))

/-- The calls of `realloc` that do not edit the zone of a block in use. -/
def Careful (t : Pool) : PoolOp → Prop
  | .realloc i mem n => ∀ p, t.allocators[i]? = some p → ∀ b ∈ t.live i, p.InFirstUnit b mem →
      Unedited p b n
  | _ => True

instance (t : Pool) : DecidablePred t.Careful
  | .call _ _ => isTrue trivial
  | .store _ _ _ => isTrue trivial
  | .realloc i mem n =>
    have (p : Pallocator) : Decidable (∀ b ∈ t.live i, p.InFirstUnit b mem → Unedited p b n) :=
      List.decidableBAll _ _
    inferInstanceAs (Decidable (∀ p ∈ t.allocators[i]?, ∀ b ∈ t.live i, p.InFirstUnit b mem →
      Unedited p b n))

/-- The block `out` of `n` bytes stands in the place of the block `b` of the allocator `i`. -/
structure Reallocated (t : Pool) (i : ℕ) (p : Pallocator) (b : Allocation) (n out : UInt64)
    (t' : Pool) : Prop where
  tiled : t'.Tiled
  block : ∃ k p' o, t'.allocators[k]? = some p' ∧ n.toNat ≤ 2 ^ (p'.fo + o.toNat) ∧
    ∀ j c, t'.Live j c ↔ (j = k ∧ c = (out, o)) ∨ (t.Live j c ∧ ¬ (j = i ∧ c = b))
  contents : ∀ x : UInt64, 8 ∣ x.toNat → x.toNat < min (2 ^ (p.fo + b.2.toNat)) n.toNat →
    t'.word (out + x) = t.word (b.1 + x)
  others : ∀ j c q, t.allocators[j]? = some q → c ∈ t.live j → ¬ (j = i ∧ c = b) →
    ∀ a : UInt64, c.1.toNat ≤ a.toNat → a.toNat < c.1.toNat + 2 ^ (q.fo + c.2.toNat) →
      t'.word a = t.word a

/-- What a call of `realloc` is meant to do for a block in use. -/
def Answers (t : Pool) : PoolOp → Prop
  | .realloc i mem n => ∀ p, t.allocators[i]? = some p → ∀ b ∈ t.live i, p.InFirstUnit b mem →
      0 < n.toNat →
      t.toPhysMemory.realloc i mem n = some (none, t.toPhysMemory) ∨
      ∃ out w, t.toPhysMemory.realloc i mem n = some (some out, w) ∧
        t.Reallocated i p b n out (t.settle i mem (some out, w))
  | _ => True

end Pool
end EpochKernel.Mem
