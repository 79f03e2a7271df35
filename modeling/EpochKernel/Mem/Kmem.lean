import EpochKernel.Library.Run
import EpochKernel.Mem.Pallocator

/-! The kernel heap of `mem/kmem.cpp`: a list of free chunks in ascending order, the header of each
of them in its first 16 bytes. -/
namespace EpochKernel.Mem
open EpochKernel.Util EpochKernel.Library

/-- `sizeof (struct kmem_chunk)`. -/
def memChunkSize : UInt64 := 16

/-- `PAGE_REALLOC_COUNT`. -/
def pageReallocCount : UInt64 := 8

/-- The words of memory, by their addresses. -/
abbrev Words := UInt64 → UInt64

namespace Words
variable (w : Words)

/-- `p->next` and `p->size` of the `struct kmem_chunk` at `p`. -/
def next (p : UInt64) : UInt64 := w p
def size (p : UInt64) : UInt64 := w (p + 8)

def setNext (p v : UInt64) : Words := Function.update w p v
def setSize (p v : UInt64) : Words := Function.update w (p + 8) v

/-- `memcpy (dest, src, sizeof (struct kmem_chunk))`. -/
def copyChunk (dest src : UInt64) : Words :=
  let w := w.setNext dest (w.next src)
  w.setSize dest (w.size src)

/-- `memset (s, n, 0)`, where `s` and `n` are multiples of 8. -/
def memset (s n : UInt64) : Words := fun a => if a - s < n then 0 else w a

end Words

/-- The memory and the physical allocators. -/
structure Heap (π : Type*) where
  words : Words
  world : π

/-- What the heap uses: the address of `mem_start`, and `mem::alloc`. -/
structure HeapEnv (π : Type*) where
  memStart : UInt64
  alloc : UInt64 → π → Option UInt64 × π

namespace Heap
variable {π : Type*} (e : HeapEnv π)

/-- `grow_heap`. It writes through the null pointer if `mem::alloc` fails. -/
def growHeap (pageCount : UInt64) (h : Heap π) : Option (UInt64 × Heap π) :=
  match e.alloc pageCount h.world with
  | (none, _) => none
  | (some head, world) =>
    let w := h.words.setNext e.memStart head
    let w := w.setSize e.memStart 0
    let w := w.setNext head 0
    some (head, ⟨w.setSize head (pageCount * pageSize), world⟩)

/-- The loop of `kalloc`. It does not return from a list that ends in a cycle, and the list has at
least one chunk. -/
def kallocLoop (n : UInt64) : ℕ → UInt64 → UInt64 → Heap π → Option (UInt64 × Heap π)
  | 0, _, _, _ => none
  | fuel + 1, prev, i, h =>
    if i = 0 then none
    else if n ≤ h.words.size i then
      let w := h.words.setSize i (h.words.size i - n)
      let grown : Option (Heap π) :=
        if w.size i = 0 then
          if prev = e.memStart ∧ w.next i = 0 then
            (growHeap e pageReallocCount { h with words := w }).map fun r => r.2
          else some { h with words := w.setNext prev (w.next i) }
        else
          let newAddr := i + n
          some { h with words := (w.copyChunk newAddr i).setNext prev newAddr }
      grown.map fun h => (i, { h with words := h.words.memset i n })
    else
      let next := h.words.next i
      if next = 0 then growHeap e (max pageReallocCount n) h
      else kallocLoop n fuel i next h

/-- `kalloc`; chunks do not overlap, so there are at most 2^60 of them. -/
def kalloc (n : UInt64) (h : Heap π) : Option (UInt64 × Heap π) :=
  if n = 0 then some (0, h)
  else
    kallocLoop e (alignUp n memChunkSize) (2 ^ 60) e.memStart (h.words.next e.memStart) h

end Heap

namespace Words

/-- The loop of `kfree`. -/
def kfreeLoop (newAddr n : UInt64) : ℕ → UInt64 → UInt64 → Words → Option Words
  | 0, _, _, _ => none
  | fuel + 1, prev, i, w =>
    if newAddr < i then
      if newAddr < w.next prev + w.size prev ∨ i < newAddr + n then some w
      else
        let w :=
          if newAddr + n = i then
            let w := w.setNext newAddr (w.next i)
            w.setSize newAddr (w.size i + n)
          else (w.setNext newAddr i).setSize newAddr n
        if prev + w.size prev = newAddr then
          let w := w.setNext prev (w.next newAddr)
          some (w.setSize prev (w.size prev + w.size newAddr))
        else some (w.setNext prev newAddr)
    else if i = 0 then none
    else
      let next := w.next i
      if next = 0 then some (((w.setNext i newAddr).setNext newAddr 0).setSize newAddr n)
      else kfreeLoop newAddr n fuel i next w

end Words

namespace Heap
variable {π : Type*} (e : HeapEnv π)

/-- `kfree`. -/
def kfree (addr n : UInt64) (h : Heap π) : Option (Heap π) :=
  if n = 0 then some h
  else
    (h.words.kfreeLoop (alignDown addr memChunkSize) (alignUp n memChunkSize) (2 ^ 60) e.memStart
      (h.words.next e.memStart)).map fun w => { h with words := w }

end Heap
end EpochKernel.Mem
