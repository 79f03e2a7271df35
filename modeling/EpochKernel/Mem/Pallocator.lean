import EpochKernel.Util.ListFamily

/-! The buddy allocator of `mem/pmem.cpp`. A free zone stores its list links and its size in its
own memory; one metadata byte for every unit of `first_order_size` bytes follows the managed range. -/
namespace EpochKernel.Mem
open EpochKernel.Util

def pageSize : UInt64 := 4096
def kernelVma : UInt64 := 0xffffff8000000000
def maxSupportedMemBits : ℕ := 39

/-- One bit `alloced` and seven bits `order`. -/
structure Metadata where
  alloced : Bool
  order : UInt8
  deriving DecidableEq, Repr

/-- The fields set by `init` and constant afterwards. -/
structure Layout where
  startAddr : UInt64
  endAddr : UInt64
  endMeta : UInt64
  firstOrderSize : UInt64
  foBits : UInt8
  maxOrder : UInt8

/-- The members of class `pallocator`, with the memory it manages: the `list_node` part and the
field `n` of the `free_zone` at an address, and the metadata byte at an address. -/
structure Pallocator extends Layout where
  lists : ℕ → LinkedList UInt64
  freeSpace : UInt64
  links : Links UInt64
  n : UInt64 → UInt64
  metadata : UInt64 → Metadata

namespace Layout

def getOrderSize (c : Layout) (order : UInt8) : UInt64 :=
  intShl (order.toUInt32 + c.foBits.toUInt32)

def getOrder (c : Layout) (n : UInt64) : UInt8 :=
  let temp := log2Up n
  if temp ≥ c.foBits then temp - c.foBits else 0

def getMeta (c : Layout) (addr : UInt64) : UInt64 :=
  (addr - c.startAddr) / c.firstOrderSize + c.endAddr

end Layout

namespace Pallocator

/-- `lists[order].append (zone)`. -/
def append (p : Pallocator) (order : UInt8) (zone : UInt64) : Pallocator :=
  let (l, links) := (p.lists order.toNat).append zone p.links
  { p with lists := Function.update p.lists order.toNat l, links := links }

/-- `lists[order].remove_p (zone)`. -/
def removeP (p : Pallocator) (order : UInt8) (zone : UInt64) : Pallocator :=
  let (l, links) := (p.lists order.toNat).removeP zone p.links
  { p with lists := Function.update p.lists order.toNat l, links := links }

/-- `lists[order].pop ()`. -/
def pop (p : Pallocator) (order : UInt8) : Option UInt64 × Pallocator :=
  let (out, l) := (p.lists order.toNat).pop p.links
  (out, { p with lists := Function.update p.lists order.toNat l })

/-- `zone->n = v`. -/
def setN (p : Pallocator) (zone v : UInt64) : Pallocator :=
  { p with n := Function.update p.n zone v }

def setMeta (p : Pallocator) (addr : UInt64) (m : Metadata) : Pallocator :=
  { p with metadata := Function.update p.metadata (p.getMeta addr) m }

/-- The zones recorded in `lists[k]`, in list order. -/
def zones (p : Pallocator) (k : ℕ) : List UInt64 := (p.lists k).nodes p.links

/-- The loop `while (size > limit) size >>= 1`; 64 halvings reach zero. -/
def shrink (limit : UInt64) : ℕ → UInt64 → UInt64
  | 0, size => size
  | fuel + 1, size => if size > limit then shrink limit fuel (size >>> 1) else size

/-- The loop of `init`. It does not return if `fuel` runs out or `lists` is indexed out of bounds. -/
def initLoop : ℕ → UInt64 → Pallocator → Option Pallocator
  | 0, _, _ => none
  | fuel + 1, tempS, p =>
    if tempS < p.endAddr then
      let size := shrink (p.endAddr - tempS) 64 (alignOf tempS)
      let p := { p.setN tempS size with freeSpace := p.freeSpace + size }
      let orderI := log2 size - p.foBits
      if orderI.toNat < maxSupportedMemBits then
        let p := p.append orderI tempS
        let p := if orderI > p.maxOrder then { p with maxOrder := orderI } else p
        initLoop fuel (tempS + size) p
      else none
    else some p

/-- The fields computed by `init` before its loop, over memory with arbitrary contents. The object
is a zeroed global, so the lists are empty and `max_order` is 0. -/
def initFields (startAddr endAddr firstOrderSize : UInt64) (links : Links UInt64)
    (n : UInt64 → UInt64) (metadata : UInt64 → Metadata) : Pallocator :=
  let firstOrderSize := if firstOrderSize > pageSize then firstOrderSize else pageSize
  let tempS := alignUp startAddr firstOrderSize
  let endMeta := alignDown endAddr firstOrderSize
  let diff := endMeta - tempS
  let endAddr := alignDown (endMeta - alignUp (8 * (diff / firstOrderSize)) pageSize) firstOrderSize
  { startAddr := tempS
    endAddr := endAddr
    endMeta := endMeta
    firstOrderSize := firstOrderSize
    foBits := log2 firstOrderSize
    maxOrder := 0
    lists := fun _ => {}
    freeSpace := 0
    links := links
    n := n
    metadata := fun a => if endAddr ≤ a ∧ a < endMeta then ⟨false, 0⟩ else metadata a }

/-- `pallocator::init`; `none` if `assertm` fails or the loop does not return. -/
def init (startAddr endAddr firstOrderSize : UInt64) (links : Links UInt64) (n : UInt64 → UInt64)
    (metadata : UInt64 → Metadata) : Option Pallocator :=
  let p := initFields startAddr endAddr firstOrderSize links n metadata
  if p.endMeta > p.startAddr then
    initLoop ((p.endAddr.toNat - p.startAddr.toNat) / 4096 + 1) p.startAddr p
  else none

/-- The body of `populate_order` once `lists[order]` is known to have a zone: the last zone is
split and both halves go to the list below. -/
def splitZone (p : Pallocator) (order : UInt8) : Pallocator :=
  match p.pop order with
  | (none, p) => p
  | (some zone, p) =>
    let p := p.setN zone (p.n zone >>> 1)
    let zone2 := zone ^^^ p.n zone
    let p := p.setN zone2 (p.n zone)
    let p := p.append (order - 1) zone
    p.append (order - 1) zone2

/-- Every recursive call raises `order` by one, up to `max_order`. -/
def populateOrder : ℕ → UInt8 → Pallocator → Bool × Pallocator
  | 0, _, p => (false, p)
  | fuel + 1, order, p =>
    if order > p.maxOrder then (false, p)
    else if (p.lists order.toNat).len ≠ 0 then (true, p.splitZone order)
    else
      match populateOrder fuel (order + 1) p with
      | (true, p) => (true, p.splitZone order)
      | (false, p) => (false, p)

def oalloc (p : Pallocator) (order : UInt8) : Option UInt64 × Pallocator :=
  if order > p.maxOrder then (none, p)
  else
    let p := if (p.lists order.toNat).len = 0 then (populateOrder 256 (order + 1) p).2 else p
    match p.pop order with
    | (none, p) => (none, p)
    | (some out, p) =>
      let p := p.setMeta out ⟨true, order &&& 0x7f⟩
      (some out, { p with freeSpace := p.freeSpace - p.getOrderSize order })

def alloc (p : Pallocator) (n : UInt64) : Option UInt64 × Pallocator :=
  if n = 0 then (none, p) else p.oalloc (p.getOrder n)

/-- The end of `merge_order`, once the buddy is known to be free and of the same size. -/
def mergeZones (p : Pallocator) (order : UInt8) (zFirst zSecond : UInt64) : Pallocator :=
  let p := p.removeP order zFirst
  let p := p.removeP order zSecond
  let p := p.setN zFirst (p.getOrderSize order <<< 1)
  p.append (order + 1) zFirst

/-- Every recursive call raises `order` by one, up to `mOrder + 1`. -/
def mergeOrder : ℕ → UInt64 → UInt8 → UInt8 → Pallocator → Pallocator
  | 0, _, _, _, p => p
  | fuel + 1, addr, order, mOrder, p =>
    if order > mOrder then p
    else
      let orderS := p.getOrderSize order
      let m := addr ^^^ orderS
      if m < p.startAddr ∨ m + orderS > p.endAddr then p
      else if (p.metadata (p.getMeta m)).alloced then p
      else
        let zFirst := if addr < m then addr else m
        let zSecond := if addr > m then addr else m
        if p.n zFirst ≠ p.n zSecond then p
        else mergeOrder fuel zFirst (order + 1) mOrder (p.mergeZones order zFirst zSecond)

def free (p : Pallocator) (mem : UInt64) : Pallocator :=
  if mem < p.startAddr ∨ mem ≥ p.endAddr then p
  else
    let data := p.metadata (p.getMeta mem)
    if !data.alloced then p
    else
      let p := p.setMeta mem { data with alloced := false }
      let order := data.order
      let m := alignDown mem (p.getOrderSize order)
      let p := p.setN m (p.getOrderSize order)
      let p := p.append order m
      mergeOrder 256 m order p.maxOrder p

def getFreeSpace (p : Pallocator) : UInt64 := p.freeSpace

section Fields
variable (p : Pallocator) (order : UInt8) (zone v : UInt64) (m : Metadata)

@[simp] theorem append_toLayout : (p.append order zone).toLayout = p.toLayout := rfl
@[simp] theorem append_n : (p.append order zone).n = p.n := rfl
@[simp] theorem append_metadata : (p.append order zone).metadata = p.metadata := rfl
@[simp] theorem append_freeSpace : (p.append order zone).freeSpace = p.freeSpace := rfl
@[simp] theorem removeP_toLayout : (p.removeP order zone).toLayout = p.toLayout := rfl
@[simp] theorem removeP_n : (p.removeP order zone).n = p.n := rfl
@[simp] theorem removeP_metadata : (p.removeP order zone).metadata = p.metadata := rfl
@[simp] theorem removeP_freeSpace : (p.removeP order zone).freeSpace = p.freeSpace := rfl
@[simp] theorem pop_toLayout : (p.pop order).2.toLayout = p.toLayout := rfl
@[simp] theorem pop_n : (p.pop order).2.n = p.n := rfl
@[simp] theorem pop_metadata : (p.pop order).2.metadata = p.metadata := rfl
@[simp] theorem pop_freeSpace : (p.pop order).2.freeSpace = p.freeSpace := rfl
@[simp] theorem pop_links : (p.pop order).2.links = p.links := rfl
@[simp] theorem setN_toLayout : (p.setN zone v).toLayout = p.toLayout := rfl
@[simp] theorem setN_lists : (p.setN zone v).lists = p.lists := rfl
@[simp] theorem setN_links : (p.setN zone v).links = p.links := rfl
@[simp] theorem setN_n : (p.setN zone v).n = Function.update p.n zone v := rfl
@[simp] theorem setN_metadata : (p.setN zone v).metadata = p.metadata := rfl
@[simp] theorem setN_freeSpace : (p.setN zone v).freeSpace = p.freeSpace := rfl
@[simp] theorem setMeta_toLayout : (p.setMeta zone m).toLayout = p.toLayout := rfl
@[simp] theorem setMeta_lists : (p.setMeta zone m).lists = p.lists := rfl
@[simp] theorem setMeta_links : (p.setMeta zone m).links = p.links := rfl
@[simp] theorem setMeta_n : (p.setMeta zone m).n = p.n := rfl
@[simp] theorem setMeta_freeSpace : (p.setMeta zone m).freeSpace = p.freeSpace := rfl
@[simp] theorem setMeta_metadata :
    (p.setMeta zone m).metadata = Function.update p.metadata (p.getMeta zone) m := rfl

end Fields
end Pallocator
end EpochKernel.Mem
