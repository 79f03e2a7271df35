import EpochKernel.Mem.KmemSeparate

/-! The growth of the kernel heap. -/
namespace EpochKernel.Mem
open EpochKernel.Util EpochKernel.Library

namespace HeapUsers
variable {π : Type*} (e : HeapEnv π) (layout : Layout) (u : HeapUsers π) (n : UInt64)

/-- `kalloc (n)` takes a path on which the heap grows: no chunk fits, or the only one is used up. -/
def Grows : Prop :=
  n ≠ 0 ∧ ((∀ c ∈ u.free e, ¬ alignUp n memChunkSize ≤ c.size) ∨
    (u.free e).map (·.size) = [alignUp n memChunkSize])

/-- What `grow_heap` is called with, and passes on to `mem::alloc`. -/
def pageCount : UInt64 :=
  if (u.free e).any fun c => alignUp n memChunkSize ≤ c.size then pageReallocCount
  else max pageReallocCount (alignUp n memChunkSize)

/-- The block at `head` that `mem::alloc (n)` returns. -/
def block (head n : UInt64) : Chunk := ⟨head, layout.getOrderSize (layout.getOrder n)⟩

/-- What is meant to happen when the heap grows. -/
def GrowsRight : Prop :=
  match e.alloc (u.pageCount e n) u.heap.world with
  | (none, world) => Heap.kalloc e n u.heap = some (0, { u.heap with world := world })
  | (some head, _) => ∃ out h, Heap.kalloc e n u.heap = some (out, h) ∧
      (∀ c ∈ free e ⟨h, u.live⟩, Disjoint (⟨out, n⟩ : Chunk).rounded.bytes c.bytes) ∧
      (∀ b ∈ u.live, Disjoint (⟨out, n⟩ : Chunk).rounded.bytes b.rounded.bytes) ∧
      (∀ c ∈ u.free e, c.addr ≠ out → c ∈ free e ⟨h, u.live⟩) ∧
      (∀ c ∈ free e ⟨h, u.live⟩, c ∉ u.free e →
        c.bytes ⊆ (block layout head (u.pageCount e n)).bytes) ∧
      ∀ a : UInt64, a.toNat ∈ (⟨out, n⟩ : Chunk).rounded.bytes → h.words a = 0

/-- `mem::alloc` hands out pages in which there is no part of the heap. -/
def HandsOutPages : Prop :=
  ∀ pageCount head world, e.alloc pageCount u.heap.world = (some head, world) →
    Chunk.Proper ⟨head, pageSize⟩ ∧ ∀ a : UInt64, a.toNat ∈ (⟨head, pageSize⟩ : Chunk).bytes →
      a ≠ e.memStart ∧ a ≠ e.memStart + 8 ∧ a.toNat ∉ chunkBytes (u.free e)

variable {e layout u n} {h : Heap π} {c : Chunk} {cs : List Chunk} {p head pages : UInt64} {world : π}
  {fuel : ℕ}

/-- After `grow_heap` there is one chunk on the list. -/
lemma growHeap_spec (halloc : e.alloc pages h.world = (some head, world))
    (hproper : Chunk.Proper ⟨head, pageSize⟩)
    (hapart : head ≠ e.memStart ∧ head + 8 ≠ e.memStart ∧ head ≠ e.memStart + 8) :
    ∃ w', Heap.growHeap e pages h = some (head, ⟨w', world⟩) ∧
      w'.Linked e.memStart [⟨head, pages * pageSize⟩] := by
  have h8 : head ≠ head + 8 := hproper.size_ne.symm
  have hstart8 : e.memStart ≠ e.memStart + 8 := by simp
  refine ⟨_, by rw [Heap.growHeap, halloc], ?_, hproper.addr_ne, ?_, ?_⟩
  · rw [Words.next, Words.setSize_apply, if_neg hapart.2.1.symm, Words.setNext_apply,
      if_neg hapart.1.symm, Words.setSize_apply, if_neg hstart8, Words.setNext_apply, if_pos rfl]
  · rw [Words.size, Words.setSize_apply, if_pos rfl]
  · change Words.next _ head = 0
    rw [Words.next, Words.setSize_apply, if_neg h8, Words.setNext_apply, if_pos rfl]

/-- The loop of `kalloc` where no chunk fits. -/
lemma kallocLoop_grows (hw : h.words.Linked p (c :: cs)) (hno : ∀ d ∈ c :: cs, ¬ n ≤ d.size)
    (hfuel : cs.length < fuel) :
    Heap.kallocLoop e n fuel p c.addr h = Heap.growHeap e (max pageReallocCount n) h := by
  induction cs generalizing p c fuel with
  | nil =>
    obtain ⟨fuel, rfl⟩ := Nat.exists_eq_succ_of_ne_zero (Nat.ne_of_gt hfuel)
    obtain ⟨-, hne, hsize, hend⟩ := hw
    rw [Heap.kallocLoop, if_neg hne, hsize, if_neg (hno c List.mem_cons_self)]
    exact if_pos hend
  | cons d cs ih =>
    obtain ⟨fuel, rfl⟩ := Nat.exists_eq_succ_of_ne_zero (Nat.ne_of_gt (Nat.zero_lt_of_lt hfuel))
    obtain ⟨-, hne, hsize, hrest⟩ := hw
    have hnext : h.words.next c.addr = d.addr := hrest.1
    rw [Heap.kallocLoop, if_neg hne, hsize, if_neg (hno c List.mem_cons_self)]
    dsimp only
    rw [hnext, if_neg hrest.2.1]
    exact ih hrest (fun x hx => hno x (List.mem_cons_of_mem _ hx)) (Nat.lt_of_succ_lt_succ hfuel)

/-- `kalloc` where no chunk fits returns the new chunk itself. -/
lemma Sound.kalloc_of_nofit (h : Sound e u cs) (hn : n ≠ 0)
    (hno : ∀ c ∈ cs, ¬ alignUp n memChunkSize ≤ c.size) : Heap.kalloc e n u.heap =
      Heap.growHeap e (max pageReallocCount (alignUp n memChunkSize)) u.heap := by
  obtain ⟨c, cs0, rfl⟩ := List.exists_cons_of_ne_nil h.nonempty
  have hfuel := h.fuel
  rw [Heap.kalloc, if_neg hn, h.linked.1]
  exact kallocLoop_grows h.linked hno hfuel

/-- `kalloc` where the only chunk is used up. -/
lemma Sound.kalloc_of_last (h : Sound e u [c]) (hn : n ≠ 0)
    (hsize : c.size = alignUp n memChunkSize) : Heap.kalloc e n u.heap =
      (Heap.growHeap e pageReallocCount { u.heap with words := u.heap.words.setSize c.addr 0 }).map
        fun r => (c.addr, { r.2 with words := r.2.words.memset c.addr (alignUp n memChunkSize) }) := by
  obtain ⟨hnext, hne, hcsize, hend⟩ := h.linked
  have hc := h.ascending.head
  have hsize0 : (u.heap.words.setSize c.addr 0).size c.addr = 0 := by
    rw [Words.size, Words.setSize_apply, if_pos rfl]
  have hnext0 : (u.heap.words.setSize c.addr 0).next c.addr = 0 := by
    rw [Words.next, Words.setSize_apply, if_neg hc.size_ne.symm]
    exact hend
  rw [Heap.kalloc, if_neg hn, hnext, show 2 ^ 60 = (2 ^ 60 - 1) + 1 from rfl, Heap.kallocLoop,
    if_neg hne, hcsize, hsize,
    if_pos (show alignUp n memChunkSize ≤ alignUp n memChunkSize from
      le_refl (alignUp n memChunkSize).toNat)]
  dsimp only
  rw [sub_self, if_pos hsize0, if_pos ⟨rfl, hnext0⟩, Option.map_map]
  rfl

/-- A block for so few bytes is one page. -/
lemma block_pageReallocCount (hfo : layout.foBits = 12) :
    (block layout head pageReallocCount).size = pageSize := by
  rw [block, Layout.getOrderSize, Layout.getOrder, hfo]
  change intShl ((if log2Up pageReallocCount ≥ 12 then log2Up pageReallocCount - 12 else 0).toUInt32 +
    (12 : UInt8).toUInt32) = pageSize
  decide

lemma free_of_linked {h : Heap π} {live : List Chunk} {c : Chunk}
    (hw : h.words.Linked e.memStart [c]) : free e ⟨h, live⟩ = [c] :=
  hw.chunksFrom_eq (by rw [List.length_singleton]; decide)

/-- Where no chunk fits, the chunks that were free are lost. -/
lemma Sound.not_growsRight_of_nofit (h : Sound e u cs) (hn : n ≠ 0)
    (hno : ∀ c ∈ cs, ¬ alignUp n memChunkSize ≤ c.size) (hpages : HandsOutPages e u) :
    ¬ GrowsRight e layout u n := by
  intro hright
  have hcount : u.pageCount e n = max pageReallocCount (alignUp n memChunkSize) := by
    rw [pageCount, h.free_eq, if_neg]
    simpa using hno
  have hkalloc := h.kalloc_of_nofit hn hno
  unfold GrowsRight at hright
  rw [hcount] at hright
  split at hright
  · next world halloc =>
    rw [hright, Heap.growHeap, halloc] at hkalloc
    cases hkalloc
  · next head world halloc =>
    obtain ⟨hproper, hapart⟩ := hpages _ _ _ halloc
    have h0 := hapart head hproper.addr_mem
    have h8 := hapart (head + 8) hproper.size_mem
    obtain ⟨w', hgrow, hlinked⟩ := growHeap_spec (h := u.heap) halloc hproper ⟨h0.1, h8.1, h0.2.1⟩
    obtain ⟨out, h', hr, -, -, hkept, -⟩ := hright
    rw [hkalloc, hgrow] at hr
    obtain ⟨rfl, rfl⟩ := Prod.mk.inj (Option.some.inj hr)
    obtain ⟨c, cs0, rfl⟩ := List.exists_cons_of_ne_nil h.nonempty
    rw [h.free_eq, free_of_linked hlinked] at hkept
    have hne : c.addr ≠ head := by
      rintro rfl
      rw [h.free_eq] at h0
      exact h0.2.2 (mem_chunkBytes_cons.mpr (.inl h.ascending.head.addr_mem))
    have hmem := hkept c List.mem_cons_self hne
    exact hne (congrArg Chunk.addr (List.mem_singleton.mp hmem))

/-- Where the only chunk is used up, the new chunk is larger than the block it lies in. -/
lemma Sound.not_growsRight_of_last (h : Sound e u [c]) (hn : n ≠ 0)
    (hsize : c.size = alignUp n memChunkSize) (hfo : layout.foBits = 12)
    (hpages : HandsOutPages e u) : ¬ GrowsRight e layout u n := by
  intro hright
  have hcount : u.pageCount e n = pageReallocCount := by
    rw [pageCount, h.free_eq, if_pos]
    simp [hsize]
  have hkalloc := h.kalloc_of_last hn hsize
  unfold GrowsRight at hright
  rw [hcount] at hright
  split at hright
  · next world halloc =>
    rw [hright, Heap.growHeap, halloc] at hkalloc
    cases hkalloc
  · next head world halloc =>
    obtain ⟨hproper, hapart⟩ := hpages _ _ _ halloc
    rw [h.free_eq] at hapart
    have h0 := hapart head hproper.addr_mem
    have h8 := hapart (head + 8) hproper.size_mem
    obtain ⟨w', hgrow, hnext, hne, hhead, hend⟩ := growHeap_spec
      (h := { u.heap with words := u.heap.words.setSize c.addr 0 }) halloc hproper
      ⟨h0.1, h8.1, h0.2.1⟩
    obtain ⟨out, h', hr, -, -, -, hinside, -⟩ := hright
    rw [hkalloc, hgrow, Option.map_some] at hr
    obtain ⟨rfl, rfl⟩ := Prod.mk.inj (Option.some.inj hr)
    rw [← hsize, h.free_eq] at hinside
    have hkeep {a : UInt64} (ha : a.toNat ∉ chunkBytes [c]) : w'.memset c.addr c.size a = w' a :=
      Words.memset_of_notMem h.ascending.head.end_le fun hx => ha (mem_chunkBytes_cons.mpr (.inl hx))
    have hlinked : (w'.memset c.addr c.size).Linked e.memStart
        [⟨head, pageReallocCount * pageSize⟩] :=
      ⟨(hkeep (h.start _ (.inl rfl)).1).trans hnext, hne, (hkeep h8.2.2).trans hhead,
        (hkeep h0.2.2).trans hend⟩
    rw [free_of_linked (h := ⟨w'.memset c.addr c.size, world⟩) hlinked] at hinside
    have hnew : (⟨head, pageReallocCount * pageSize⟩ : Chunk) ∉ [c] := by
      intro hmem
      have he : head = c.addr := congrArg Chunk.addr (List.mem_singleton.mp hmem)
      exact h0.2.2 (mem_chunkBytes_cons.mpr (.inl (he ▸ h.ascending.head.addr_mem)))
    have hlarge : (pageReallocCount * pageSize).toNat = 32768 := by decide
    have hin : head.toNat + 4096 ∈ (⟨head, pageReallocCount * pageSize⟩ : Chunk).bytes := by
      rw [Chunk.mem_bytes]
      dsimp only
      omega
    have hsub := hinside _ List.mem_cons_self hnew hin
    rw [Chunk.mem_bytes, block_pageReallocCount hfo] at hsub
    exact absurd hsub.2 (lt_irrefl _)

/-- Whenever the heap grows, something goes wrong. -/
theorem not_growsRight (h : WellFormed e u) (hn : Grows e u n) (hfo : layout.foBits = 12)
    (hpages : HandsOutPages e u) : ¬ GrowsRight e layout u n := by
  obtain ⟨cs, h⟩ := h
  obtain ⟨hn, hgrows⟩ := hn
  rw [h.free_eq] at hgrows
  rcases hgrows with hno | hlast
  · exact h.not_growsRight_of_nofit hn hno hpages
  · obtain ⟨c, cs0, rfl⟩ := List.exists_cons_of_ne_nil h.nonempty
    obtain ⟨hsize, hnil⟩ := List.cons.inj hlast
    obtain rfl := List.map_eq_nil_iff.mp hnil
    exact h.not_growsRight_of_last hn hsize hfo hpages

/-- Allocators of pages. -/
def pageLayout : Layout where
  startAddr := 0x20000
  endAddr := 0x40000
  endMeta := 0x41000
  firstOrderSize := pageSize
  foBits := 12
  maxOrder := 5

lemma free_small (alloc : UInt64 → Unit → Option UInt64 × Unit) :
    small.free ⟨0x1000, alloc⟩ = [⟨0x2000, 0x100⟩, ⟨0x3000, 0x8000⟩] :=
  Words.Linked.chunksFrom_eq ⟨rfl, by decide, rfl, rfl, by decide, rfl, rfl⟩ (by decide)

lemma handsOutPages_of_low {u : HeapUsers Unit}
    (hlow : ∀ x ∈ chunkBytes (u.free ⟨0x1000, fun _ _ => (some 0x20000, ())⟩), x < 0x20000) :
    HandsOutPages ⟨0x1000, fun _ _ => (some 0x20000, ())⟩ u := by
  intro pageCount head world halloc
  obtain rfl := Option.some.inj (Prod.mk.inj halloc).1
  refine ⟨by constructor <;> decide, fun a ha => ⟨?_, ?_, fun hx => ?_⟩⟩
  · rintro rfl
    exact absurd ha (by decide)
  · rintro rfl
    exact absurd ha (by decide)
  · exact absurd (hlow _ hx) (Nat.not_lt.mpr ha.1)

theorem not_growsRight_small :
    ¬ GrowsRight ⟨0x1000, fun _ _ => (some 0x20000, ())⟩ pageLayout small 0x8001 := by
  refine not_growsRight (wellFormed_small _) ⟨by decide, .inl ?_⟩ rfl (handsOutPages_of_low ?_)
  · rw [free_small]
    decide
  · rw [free_small]
    rintro x ⟨c, hc, hx⟩
    have hlt := hx.2
    rcases List.mem_pair.mp hc with rfl | rfl
    · exact hlt.trans (by decide)
    · exact hlt.trans (by decide)

/-- The heap as `kmem_init` leaves it, with its only chunk at 0x2000. -/
def fresh : HeapUsers Unit where
  heap := {
    words a := if a = 0x1000 then 0x2000 else if a = 0x2008 then 0x8000 else 0
    world := () }
  live := []

/-- The chunk that replaces the only one is 8 pages large, but the block that holds it is one. -/
theorem not_growsRight_fresh :
    ¬ GrowsRight ⟨0x1000, fun _ _ => (some 0x20000, ())⟩ pageLayout fresh 0x8000 := by
  have hsound : Sound ⟨0x1000, fun _ _ => (some 0x20000, ())⟩ fresh [⟨0x2000, 0x8000⟩] := by
    have hproper : Chunk.Proper ⟨0x2000, 0x8000⟩ := by constructor <;> decide
    refine ⟨⟨rfl, by decide, rfl, rfl⟩, rfl, ascending_singleton hproper, nofun,
      fun a ha => ⟨?_, nofun⟩, nofun, .nil, nofun⟩
    rw [mem_chunkBytes_cons, chunkBytes_nil]
    rintro (hx | hx)
    · have : 0x2000 ≤ a.toNat := hx.1
      rcases ha with rfl | rfl <;> exact absurd this (by decide)
    · exact hx
  refine hsound.not_growsRight_of_last (by decide) (by decide) rfl (handsOutPages_of_low ?_)
  rw [hsound.free_eq]
  rintro x ⟨c, hc, hx⟩
  obtain rfl := List.mem_singleton.mp hc
  exact hx.2.trans (by decide)

end HeapUsers
end EpochKernel.Mem
