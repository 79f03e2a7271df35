import EpochKernel.Mem.Pallocator

/-! The page tables of an address space, `map_internal` and `unmap_internal` of `mem/vmem.cpp`, and the
walk of the processor. The first entry of a table has a counter of its present entries in bits that
the processor ignores. -/
namespace EpochKernel.Mem
open EpochKernel.Util

def pageAddrPos : UInt64 := 0x0000fffffffff000
def pageFlagsPos : UInt64 := 0x80000000000001fe
def pageDataPos : UInt64 := 0xf80ffffffffff1ff
def vPresent : UInt64 := 1
def vAllPermissions : UInt64 := 6
def pageLevels : ℕ := 4
def pageEntries : ℕ := 512
def pageTableBits : ℕ := 9

def pageCounterGet (c : UInt64) : UInt64 := (getBits c 52 58 <<< 3) ||| getBits c 9 11

/-- The new value of `c`; `n` is extended to 64 bits. -/
def pageCounterAdd (c n : UInt64) : UInt64 :=
  let temp := ((getBits c 52 58 <<< 3) ||| getBits c 9 11) + n
  let temp2 := c &&& pageDataPos
  (getBits temp 3 9 <<< 52) ||| (getBits temp 0 2 <<< 9) ||| temp2

/-- The entries of the page at an address, in the linear mapping of the kernel. `supply` is what the
next calls of `mem::allocz` return, and then `NULL`; `left p` is what `mem::free` leaves in the page
`p`, and `freed` the pages it got with their entries then, which is not part of the program. -/
structure PageTables where
  entry : UInt64 → ℕ → UInt64
  supply : List UInt64
  left : UInt64 → ℕ → UInt64
  freed : List (UInt64 × (ℕ → UInt64)) := []

namespace PageTables

/-- `table[i] = e`. -/
def set (m : PageTables) (table : UInt64) (i : ℕ) (e : UInt64) : PageTables :=
  { m with entry := Function.update m.entry table (Function.update (m.entry table) i e) }

/-- `mem::allocz (PAGE_SIZE)`. -/
def allocz (m : PageTables) : UInt64 × PageTables :=
  match m.supply with
  | [] => (0, m)
  | p :: ps =>
    (p, { m with
      entry := if p = 0 then m.entry else Function.update m.entry p fun _ => 0
      supply := ps })

def free (m : PageTables) (p : UInt64) : PageTables :=
  { m with entry := Function.update m.entry p (m.left p), freed := m.freed ++ [(p, m.entry p)] }

/-- `page_counter_add (table[0], n)`. -/
def counterAdd (m : PageTables) (table n : UInt64) : PageTables :=
  m.set table 0 (pageCounterAdd (m.entry table 0) n)

def pageSet (m : PageTables) (table : UInt64) (i : ℕ) (n flags : UInt64) : UInt64 × PageTables :=
  let n := n &&& pageAddrPos
  let flags := flags &&& pageFlagsPos
  if i = 0 then
    let cValue := m.entry table i &&& ~~~pageDataPos
    (n, m.set table i (n ||| flags ||| cValue ||| vPresent))
  else (n, m.set table i (n ||| flags ||| vPresent))

def pageUnset (m : PageTables) (table : UInt64) (i : ℕ) : PageTables :=
  if i = 0 then
    let cValue := m.entry table i &&& ~~~pageDataPos
    m.set table i (cValue &&& ~~~vPresent)
  else m.set table i 0

def present (m : PageTables) (table : UInt64) (i : ℕ) : Prop := m.entry table i &&& vPresent ≠ 0

instance (m : PageTables) (table : UInt64) (i : ℕ) : Decidable (m.present table i) :=
  inferInstanceAs (Decidable (_ ≠ _))

/-- The address of the table that an entry refers to. -/
def next (m : PageTables) (table : UInt64) (i : ℕ) : UInt64 :=
  (m.entry table i &&& pageAddrPos) + kernelVma

end PageTables

/-- The page tables with the arguments that the calls pass by reference. -/
structure Pass extends PageTables where
  virtAddr : UInt64
  pageN : ℕ

namespace Pass

/-- `i` at the start of a call. -/
def index (w : Pass) : ℕ := (getBits w.virtAddr 39 47).toNat

/-- `virt_addr <<= n`. -/
def shift (w : Pass) (n : ℕ) : Pass := { w with virtAddr := w.virtAddr <<< UInt64.ofNat n }

/-- The loop of `map_internal_recurse`, with `left` entries before the end of the table. -/
def mapLoop (atEnd : Bool) (body : ℕ → Pass → Bool × Pass) : ℕ → Pass → Bool × Pass
  | 0, w => if w.pageN = 0 then (true, w) else (atEnd, w)
  | left + 1, w =>
    if w.pageN = 0 then (true, w)
    else
      match body (pageEntries - (left + 1)) w with
      | (false, w) => (false, w)
      | (true, w) => mapLoop atEnd body left w

section Map
variable (physAddr : UInt64) (startPageN : ℕ) (flags : UInt64)

/-- The body of the loop for a table of pages. -/
def mapPage (table : UInt64) (i : ℕ) (w : Pass) : Bool × Pass :=
  let m := if ¬ w.present table i then w.counterAdd table 1 else w.toPageTables
  let page := physAddr + pageSize * UInt64.ofNat (startPageN - w.pageN) - kernelVma
  (true, { w with toPageTables := (m.pageSet table i page flags).2, pageN := w.pageN - 1 })

/-- The body of the loop for a table of tables. -/
def mapTable (recurse : UInt64 → Pass → Bool × Pass) (table : UInt64) (i : ℕ) (w : Pass) :
    Bool × Pass :=
  if ¬ w.present table i then
    let (temp, m) := w.allocz
    if temp = 0 then (false, { w with toPageTables := m })
    else
      let (pageTableP, m) := m.pageSet table i (temp - kernelVma) vAllPermissions
      recurse (pageTableP + kernelVma) { w with toPageTables := m.counterAdd table 1 }
  else recurse (w.next table i) w

def mapInternalRecurse : ℕ → UInt64 → Pass → Bool × Pass
  | 0, table, w => mapLoop true (mapPage physAddr startPageN flags table)
      (pageEntries - w.index) (w.shift pageTableBits)
  | pageLevel + 1, table, w => mapLoop (pageLevel + 1 < pageLevels - 1)
      (mapTable (mapInternalRecurse pageLevel) table)
      (pageEntries - w.index) (w.shift pageTableBits)

end Map

/-- `page_n` without the pages of `n` entries. -/
def skip (w : Pass) (n : ℕ) : Pass := { w with pageN := if n ≥ w.pageN then 0 else w.pageN - n }

/-- The loop of `unmap_internal_recurse`, with `left` entries before the end of the table. -/
def unmapLoop (table : UInt64) (body : ℕ → Pass → Pass) : ℕ → Pass → Bool × Pass
  | 0, w => (false, w)
  | left + 1, w =>
    if w.pageN = 0 then (false, w)
    else
      let i := pageEntries - (left + 1)
      let w := body i w
      if pageCounterGet (w.entry table i) = 0 then (true, w.skip (pageEntries - i - 1))
      else unmapLoop table body left w

def unmapPage (table : UInt64) (i : ℕ) (w : Pass) : Pass :=
  let m := if w.present table i then w.counterAdd table (-1) else w.toPageTables
  { w with toPageTables := m.pageUnset table i, pageN := w.pageN - 1 }

def unmapTable (recurse : UInt64 → Pass → Bool × Pass) (pageLevel : ℕ) (table : UInt64) (i : ℕ)
    (w : Pass) : Pass :=
  if ¬ w.present table i then
    (w.skip (1 <<< (pageTableBits * pageLevel))).shift (pageTableBits * pageLevel)
  else
    match recurse (w.next table i) w with
    | (false, w) => w
    | (true, w) => { w with toPageTables := (w.free (w.next table i)).counterAdd table (-1) }

def unmapInternalRecurse : ℕ → UInt64 → Pass → Bool × Pass
  | 0, table, w =>
    unmapLoop table (unmapPage table) (pageEntries - w.index) (w.shift pageTableBits)
  | pageLevel + 1, table, w =>
    unmapLoop table (unmapTable (unmapInternalRecurse pageLevel) (pageLevel + 1) table)
      (pageEntries - w.index) (w.shift pageTableBits)

end Pass

namespace PageTables

/-- The number of pages of `n` bytes. -/
def pages (n : UInt64) : ℕ := (alignUp n pageSize / pageSize).toNat

def unmapInternal (pml4Table : UInt64) (virtAddr n : UInt64) (m : PageTables) : PageTables :=
  (Pass.unmapInternalRecurse (pageLevels - 1) pml4Table
    { m with virtAddr := virtAddr &&& pageAddrPos, pageN := pages n }).2.toPageTables

def mapInternal (pml4Table : UInt64) (physAddr virtAddr n flags : UInt64) (m : PageTables) :
    Bool × PageTables :=
  let n := pages n
  let virtAddr := virtAddr &&& pageAddrPos
  match Pass.mapInternalRecurse physAddr n flags (pageLevels - 1) pml4Table
      { m with virtAddr := virtAddr, pageN := n } with
  -- `virt_addr` and `n` are what the recursion has left of them
  | (false, w) => (false, w.unmapInternal pml4Table w.virtAddr (UInt64.ofNat w.pageN))
  | (true, w) => (true, w.toPageTables)

/-- The constructor of `addr_space`, as far as it concerns the page tables. -/
def construct (kernelPdpTable : UInt64) (m : PageTables) : UInt64 × PageTables :=
  let (pml4Table, m) := m.allocz
  (pml4Table, (m.pageSet pml4Table (getBits kernelVma 39 47).toNat kernelPdpTable 2).2)

/-- An entry that the processor finds present. -/
def read (m : PageTables) (table : UInt64) (i : ℕ) : Option UInt64 :=
  if m.present table i then some (m.entry table i) else none

/-- Bit 7 of an entry for a table makes it one for a large page. -/
def large (e : UInt64) : Prop := e &&& 0x80 ≠ 0

instance (e : UInt64) : Decidable (large e) := inferInstanceAs (Decidable (_ ≠ _))

/-- The processor's walk: the address and the flags of the page of `v`, of 4 KiB or in a large one. -/
def walk (m : PageTables) (pml4Table v : UInt64) : Option (UInt64 × UInt64) :=
  (m.read pml4Table (getBits v 39 47).toNat).bind fun e =>
    (m.read ((e &&& pageAddrPos) + kernelVma) (getBits v 30 38).toNat).bind fun e =>
      if large e then
        some ((e &&& 0x0000ffffc0000000) ||| (v &&& 0x3ffff000), e &&& pageFlagsPos)
      else (m.read ((e &&& pageAddrPos) + kernelVma) (getBits v 21 29).toNat).bind fun e =>
        if large e then
          some ((e &&& 0x0000ffffffe00000) ||| (v &&& 0x1ff000), e &&& pageFlagsPos)
        else (m.read ((e &&& pageAddrPos) + kernelVma) (getBits v 12 20).toNat).map fun e =>
          (e &&& pageAddrPos, e &&& pageFlagsPos)

end PageTables
end EpochKernel.Mem
