import EpochKernel.Mem.PoolHeap

/-! `mem::alloc` finds memory whenever there is any: free zones that are buddies are always merged, so a
free block that is large enough and aligned to its size lies inside one zone. -/
namespace EpochKernel.Mem
open EpochKernel.Util EpochKernel.Library EpochKernel.Library.Block

namespace Pallocator
variable {p : Pallocator} {live : List Allocation} {q : ℕ → List UInt64} {n : UInt64}

/-- A block none of whose bytes is in use lies inside a free zone. -/
lemma Holds.inside_zone (h : Holds p live q) (hB : BuddyFree (blocksOf p.fo q)) (d : Block)
    (hlo : p.lo ≤ d.base) (hhi : d.top ≤ p.hi) (hfree : ∀ x ∈ d, x ∉ heldBytes p.fo live) :
    ∃ k, q k ≠ [] ∧ d.exp ≤ p.fo + k := by
  obtain ⟨e, ⟨k, z, hz, -, hexp⟩, hin⟩ := hB.exists_inside d fun x hx => by
    obtain ⟨e, he, hxe⟩ := h.tiles.cover x (hlo.trans hx.1) (hx.2.trans_le hhi)
    rcases he with he | he
    · exact ⟨e, he, hxe⟩
    · exact absurd ⟨e, he, hxe⟩ (hfree x hx)
  exact ⟨k, List.ne_nil_of_mem hz, hexp ▸ hin.exp_le⟩

/-- One allocator refuses a request only if it has no such block. -/
lemma Kept.alloc_some (h : p.Kept live) (hn : 0 < n.toNat) (d : Block) (hlo : p.lo ≤ d.base)
    (hhi : d.top ≤ p.hi) (hfree : ∀ x ∈ d, x ∉ heldBytes p.fo live) (hfit : n.toNat ≤ d.size) :
    ∃ out, (p.alloc n).1.filter (· ≠ 0) = some out := by
  obtain ⟨q, hq, hB⟩ := h.inv
  have hne : n ≠ 0 := fun h0 => by
    rw [h0] at hn
    exact absurd hn (lt_irrefl _)
  obtain ⟨k, hk, hexp⟩ := hq.inside_zone hB d hlo hhi hfree
  obtain ⟨z, hz⟩ := List.exists_mem_of_ne_nil _ hk
  have hmax : k ≤ p.maxOrder.toNat := hq.order_le hz
  have hlt : p.startAddr.toNat < p.endAddr.toNat := hq.nonempty hz
  have hsmall : p.fo + p.maxOrder.toNat ≤ 30 := h.small hlt
  have hsize : n.toNat ≤ 2 ^ (p.fo + k) := hfit.trans (Nat.pow_le_pow_right (by norm_num) hexp)
  have hle : n.toNat ≤ 2 ^ 30 := hsize.trans (Nat.pow_le_pow_right (by norm_num) (by omega))
  -- the zone is of the order that is looked for, or above
  have horder : (p.getOrder n).toNat ≤ k := by
    by_contra hlt
    have hk8 : (UInt8.ofNat k).toNat = k := by
      rw [UInt8.toNat_ofNat']
      have := p.maxOrder.toNat_lt
      omega
    have hbelow : UInt8.ofNat k < p.getOrder n := by
      rw [UInt8.lt_iff_toNat_lt, hk8]
      omega
    have hsmaller := (Pool.getOrder_bounds p.toLayout hn hle).2 _ hbelow
    rw [hk8] at hsmaller
    exact absurd hsize (Nat.not_le.mpr hsmaller)
  rcases h.alloc hne with ⟨p', out, heq, hout, -⟩ | heq
  · exact ⟨out, by rw [heq]; simp [hout]⟩
  · rw [Pallocator.alloc, if_neg hne] at heq
    rcases hq.oalloc hB (p.getOrder n) with ⟨p', q', out, heq', -⟩ | ⟨-, hall⟩
    · rw [heq'] at heq
      cases heq
    · exact absurd (hall k horder) hk

end Pallocator

namespace Pool
open Pallocator
variable {t t' : Pool} {n : UInt64} {d : Block}

/-- A block of the range of an allocator none of whose bytes is in use. -/
def Free (t : Pool) (d : Block) : Prop :=
  (∃ p ∈ t.allocators, p.lo ≤ d.base ∧ d.top ≤ p.hi) ∧ ∀ x ∈ d, x ∉ t.held

lemma Sound.alloc_refused (h : t.Sound) (n : UInt64) (i : ℕ)
    (hi : (t.toPhysMemory.alloc n i).1.filter (· ≠ 0) = none) :
    (t.toPhysMemory.alloc n i).2 = t.toPhysMemory := by
  rcases h.alloc_answered n i with ⟨-, hsame⟩ | ⟨out, t', hsome, -⟩
  · exact hsame
  · rw [hi] at hsome
    cases hsome

lemma Sound.memAlloc_some (h : t.Sound) (hn : 0 < n.toNat) (hd : t.Free d) (hfit : n.toNat ≤ d.size) :
    (t.toPhysMemory.memAlloc n).1 ≠ none := by
  obtain ⟨⟨p, hp, hlo, hhi⟩, hfree⟩ := hd
  obtain ⟨i, hi⟩ := List.mem_iff_getElem?.mp hp
  have hk := h.kept i p hi
  have hunused : ∀ x ∈ d, x ∉ heldBytes p.fo (t.live i) := by
    rintro x hx ⟨e, ⟨c, hc, hbase, hexp⟩, hxe⟩
    refine hfree x hx ⟨_, ⟨i, p, c, hi, hc, rfl⟩, ?_⟩
    rw [mem_cells]
    dsimp only
    rw [← hbase, ← hexp]
    exact hxe
  obtain ⟨out, hout⟩ := hk.alloc_some hn d hlo hhi hunused hfit
  have hcall := h.alloc_refused n
  rcases @PhysMemory.first_cases t.toPhysMemory (fun w => w.alloc n) hcall t.allocators.length 0 with
    ⟨-, hall⟩ | ⟨j, out', -, heq⟩
  · have hnone := hall i (Nat.zero_le i) (by
      rw [Nat.zero_add]
      exact (List.getElem?_eq_some_iff.mp hi).1)
    rw [PhysMemory.alloc, hi] at hnone
    rw [hout] at hnone
    cases hnone
  · rw [PhysMemory.memAlloc, heq]
    exact Option.some_ne_none out'

/-- What is handed out was free. -/
lemma Sound.free_of_memAlloc (h : t.Sound) (hs : (t.toPhysMemory.memAlloc n).1 ≠ none) :
    n ≠ 0 ∧ ∃ d, t.Free d ∧ n.toNat ≤ d.size := by
  have hcall := h.alloc_refused n
  rcases @PhysMemory.first_cases t.toPhysMemory (fun w => w.alloc n) hcall t.allocators.length 0 with
    ⟨hnone, -⟩ | ⟨i, out, hout, -⟩
  · rw [PhysMemory.memAlloc, hnone] at hs
    exact absurd rfl hs
  · rw [PhysMemory.alloc] at hout
    cases hi : t.allocators[i]? with
    | none =>
      rw [hi] at hout
      cases hout
    | some p =>
      rw [hi] at hout
      dsimp only at hout
      by_cases hn : n = 0
      · rw [Pallocator.alloc, if_pos hn] at hout
        cases hout
      · refine ⟨hn, ?_⟩
        rw [Pallocator.alloc, if_neg hn] at hout
        rcases h.oalloc_cases hi (p.getOrder n) with hnone | ⟨p', out', heq, -⟩
        · rw [hnone] at hout
          cases hout
        · obtain ⟨h1, -, -, hl, -⟩ := h.handOut hi heq
          have hfo : p'.fo = p.fo := congrArg (·.foBits.toNat) hl
          have hk := h1.kept i p' (handOut_self hi)
          rw [handOut_live_self] at hk
          obtain ⟨q, hq, -⟩ := hk.inv
          have hbd := hk.bounds List.mem_cons_self
          have hdvd := hq.allocation _ List.mem_cons_self
          rw [hfo] at hdvd
          refine ⟨⟨out'.toNat, p.fo + (p.getOrder n).toNat, hdvd⟩, ⟨⟨p, List.mem_of_getElem? hi, ?_⟩,
            fun x hx hheld => ?_⟩, h.request_le hi hn heq⟩
          · have hlo : p'.lo = p.lo := congrArg (·.startAddr.toNat) hl
            have hhi : p'.hi = p.hi := congrArg (·.endAddr.toNat) hl
            rw [hlo, hhi, hfo] at hbd
            exact hbd
          · obtain ⟨b, hb, hxb⟩ := hheld
            exact Set.disjoint_left.mp (h.handOut_disjoint hi heq hb) hx hxb

/-- In every state that calls lead to, `mem::alloc` returns `NULL` for no bytes and where no free block,
aligned to its size, is large enough. -/
theorem memAlloc_complete {es : List MemEvent} (h : t.Booted)
    (hpage : ∀ p ∈ t.allocators, p.foBits = 12) (hgentle : Machine.Along memStep Gentle t es)
    (hrun : Machine.run memStep t es = some t') (n : UInt64) :
    (t'.toPhysMemory.memAlloc n).1 = none ↔
      n = 0 ∨ ∀ d : Block, t'.Free d → d.size < n.toNat := by
  have hsound : t'.Sound := ((h.ready hpage).run hgentle hrun).sound
  constructor
  · intro hnone
    by_cases hn : n = 0
    · exact .inl hn
    · refine .inr fun d hd => ?_
      by_contra hlt
      have hpos : 0 < n.toNat := Nat.pos_of_ne_zero fun h0 => hn (UInt64.toNat_inj.mp h0)
      exact hsound.memAlloc_some hpos hd (Nat.not_lt.mp hlt) hnone
  · intro hno
    by_contra hsome
    obtain ⟨hn, d, hd, hle⟩ := hsound.free_of_memAlloc hsome
    rcases hno with h0 | hall
    · exact hn h0
    · exact absurd hle (Nat.not_le.mpr (hall d hd))

/-- Fourteen pages hold no free block of 20000 bytes, even before the first of these calls. -/
theorem memAlloc_complete_pages : ∃ t', Machine.run memStep pages
    [.allocz 4096 (some 57344), .free 57344, .alloc 8192 (some 49152)] = some t' ∧
      ∀ d : Block, t'.Free d → d.size < 20000 := by
  have hnone : (Machine.run memStep pages
      [.allocz 4096 (some 57344), .free 57344, .alloc 8192 (some 49152)]).map
        (fun t => (t.toPhysMemory.memAlloc 20000).1) = some none := by decide +kernel
  obtain ⟨t', ht, hn⟩ := Option.map_eq_some_iff.mp hnone
  have hor := (memAlloc_complete pages_booted (by decide +kernel) (by decide +kernel) ht 20000).mp hn
  rcases hor with h0 | hall
  · exact absurd h0 (by decide)
  · exact ⟨t', ht, hall⟩

end Pool
end EpochKernel.Mem
