import EpochKernel.Library.Run
import EpochKernel.Mem.PallocatorMove

/-! What `pallocator::realloc` does when it has no reason to edit the zones of the block itself, and
the runs in which it never does. -/
namespace EpochKernel.Mem
open EpochKernel.Util EpochKernel.Util.LinkedList EpochKernel.Library EpochKernel.Library.Block

namespace Pallocator
variable {p : Pallocator} {live : List Allocation} {b : Allocation} {mem n addr out : UInt64}

/-- The loop of `get_space` passes a page in every round. -/
lemma Kept.getSpaceLoop (h : p.Kept live) (fuel : ℕ) (h1 : p.lo ≤ addr.toNat)
    (h2 : addr.toNat < p.hi) (hfuel : p.hi ≤ addr.toNat + fuel * 2 ^ 12) :
    ∃ space, p.getSpaceLoop fuel addr out = some space := by
  induction fuel generalizing addr out with
  | zero => omega
  | succ fuel ih =>
    rw [Pallocator.getSpaceLoop]
    dsimp only
    by_cases hal : (p.metadata (p.getMeta addr)).alloced = true
    · exact ⟨out, if_pos hal⟩
    rw [if_neg hal]
    have hrec := h.recorded addr h1 h2
    have hsize := p.getOrderSize_toNat hrec
    have hend : p.hi + 2 ^ 31 ≤ 2 ^ 64 := by
      obtain ⟨q, hq, -⟩ := h.inv
      exact hq.layout.end_le
    have hpage : 2 ^ 12 ≤ (p.getOrderSize (p.metadata (p.getMeta addr)).order).toNat := by
      rw [hsize]
      exact Nat.pow_le_pow_right (by norm_num) (h.page.trans (Nat.le_add_right _ _))
    have hbig : (p.getOrderSize (p.metadata (p.getMeta addr)).order).toNat ≤ 2 ^ 30 := by
      rw [hsize]
      exact Nat.pow_le_pow_right (by norm_num) hrec
    generalize p.getOrderSize (p.metadata (p.getMeta addr)).order = len at hpage hbig
    have hsum : (addr + len).toNat = addr.toNat + len.toNat := by
      rw [UInt64.toNat_add]
      omega
    by_cases hge : addr + len ≥ p.endAddr
    · exact ⟨_, if_pos hge⟩
    · rw [if_neg hge]
      have hlt : (addr + len).toNat < p.hi := by
        rwa [ge_iff_le, UInt64.le_iff_toNat_le, Nat.not_le] at hge
      exact ih (by omega) hlt (by omega)

lemma Kept.getSpace (h : p.Kept live) (addr : UInt64) : ∃ space, p.getSpace addr = some space := by
  rw [Pallocator.getSpace]
  by_cases hout : addr < p.startAddr ∨ addr ≥ p.endAddr
  · exact ⟨0, if_pos hout⟩
  · rw [if_neg hout]
    rw [not_or, UInt64.lt_iff_toNat_lt, ge_iff_le, UInt64.le_iff_toNat_le, Nat.not_lt,
      Nat.not_le] at hout
    have hhi : p.hi < 2 ^ 64 := p.endAddr.toNat_lt
    exact h.getSpaceLoop _ hout.1 hout.2 (by omega)

/-- The calls of clients other than `realloc`. -/
lemma Kept.step (h : p.Kept live) {op : Op} {s : Session}
    (hs : Session.step ⟨p, live⟩ op = some s) :
    s.p.Kept s.live ∧ s.p.toLayout = p.toLayout := by
  cases op with
  | alloc n =>
    obtain rfl := Option.some.inj hs
    by_cases hn : n = 0
    · rw [Pallocator.alloc, if_pos hn]
      exact ⟨h, rfl⟩
    · rcases h.alloc hn with ⟨p', out, heq, -, hk, hl, -⟩ | heq
      · rw [heq]
        exact ⟨hk, hl⟩
      · rw [heq]
        exact ⟨h, rfl⟩
  | oalloc order =>
    obtain rfl := Option.some.inj hs
    rcases h.oalloc order with ⟨p', out, heq, -, hk, hl, -⟩ | heq
    · rw [heq]
      exact ⟨hk, hl⟩
    · rw [heq]
      exact ⟨h, rfl⟩
  | free mem =>
    obtain rfl := Option.some.inj hs
    by_cases hm : ∃ b ∈ live, p.InFirstUnit b mem
    · obtain ⟨b, hb, hm⟩ := hm
      obtain ⟨hk, hl, -⟩ := h.free hb hm
      exact ⟨hk, hl⟩
    · have hn : ∀ b ∈ live, ¬ p.InFirstUnit b mem := fun b hb hbm => hm ⟨b, hb, hbm⟩
      have hsame : p.free mem = p := by
        obtain ⟨q, hq, -⟩ := h.inv
        exact hq.free_none hn
      dsimp only
      rw [hsame, release_of_forall hn]
      exact ⟨h, rfl⟩
  | write a node v =>
    obtain ⟨hinv, hl⟩ := h.inv.step h.small hs
    rw [Session.step, Option.ite_none_right_eq_some] at hs
    obtain ⟨-, hs⟩ := hs
    obtain rfl := Option.some.inj hs
    exact ⟨⟨hinv, h.small, h.page, h.pos, h.recorded⟩, hl⟩

/-- After `init` no block is recorded. -/
lemma kept_of_init {startAddr endAddr firstOrderSize : UInt64} {links : Links UInt64}
    {n : UInt64 → UInt64} {metadata : UInt64 → Metadata} {k : ℕ}
    (hinit : init startAddr endAddr firstOrderSize links n metadata = some p)
    (hf : firstOrderSize.toNat = 2 ^ k) (hend : endAddr.toNat + 2 ^ 31 ≤ 2 ^ 64)
    (hsize : ∀ k, ∀ z ∈ p.zones k, (p.n z).toNat ≤ 2 ^ 30) :
    p.Kept [] ∧ ∀ a : UInt64, p.lo ≤ a.toNat → a.toNat < p.hi →
      (p.metadata (p.getMeta a)).order = 0 := by
  have hsmall := small_of_init hinit hf hend hsize
  obtain ⟨q, t, hq, hB, hfill, ht, hmeta⟩ := init_holds hinit hf hend
  refine ⟨⟨⟨q, hq, hB⟩, hsmall, (init_prepared hinit hf).page_le, fun hlt => ?_, fun a h1 h2 => ?_⟩,
    fun a h1 h2 => by rw [hmeta a h1 h2]⟩
  · -- no zone begins at 0
    by_contra h0
    obtain ⟨d, ⟨k, z, hz, hbase, -⟩, hd, -⟩ := hfill.tiles.cover p.lo le_rfl (by omega)
    have hz0 : z = 0 := UInt64.toNat_inj.mp (by
      rw [UInt64.toNat_zero]
      omega)
    exact hfill.nonzero k (hz0 ▸ hz)
  · rw [hmeta a h1 h2]
    exact (Nat.le_add_right _ _).trans (hsmall (h1.trans_lt h2))

end Pallocator

namespace Pool
open Pallocator
variable {t t' : Pool} {i : ℕ} {p : Pallocator} {b : Allocation} {n mem out : UInt64} {op : PoolOp}

/-- Without a block in use at `mem`, `realloc` returns `NULL`. -/
lemma Sound.realloc_none (h : t.Sound) (hi : t.allocators[i]? = some p)
    (hno : ∀ b ∈ t.live i, ¬ p.InFirstUnit b mem) :
    t.toPhysMemory.realloc i mem n = some (none, t.toPhysMemory) := by
  rw [PhysMemory.realloc, hi, Option.bind_some]
  by_cases hout : mem < p.startAddr ∨ mem ≥ p.endAddr
  · rw [if_pos hout]
  · rw [if_neg hout]
    rw [not_or, UInt64.lt_iff_toNat_lt, ge_iff_le, UInt64.le_iff_toNat_le, Nat.not_lt,
      Nat.not_le] at hout
    have hal : ¬ (p.metadata (p.getMeta mem)).alloced = true := by
      obtain ⟨q, hq, -⟩ := (h.kept i p hi).inv
      rw [hq.alloced_iff hout.1 hout.2]
      exact fun ⟨b, hb, hm⟩ => hno b hb hm
    dsimp only
    rw [if_pos (by simpa using hal)]

/-- `realloc` of a block in use. -/
lemma Sound.realloc_eq (h : t.Sound) (hi : t.allocators[i]? = some p) (hb : b ∈ t.live i)
    (hm : p.InFirstUnit b mem) (n : UInt64) (hle : b.2 ≤ p.getOrder n) :
    t.toPhysMemory.realloc i mem n =
      if p.maxOrder < p.getOrder n then some (none, t.toPhysMemory)
      else if p.getOrder n = b.2 then some (some b.1, t.toPhysMemory)
      else (p.getSpace (b.1 + p.getOrderSize b.2)).bind fun space =>
        if n ≤ space ∧ alignOf b.1 ≥ p.getOrderSize (p.getOrder n) then
          let r := p.reallocAbsorb b.1 (p.getOrder n) 128 b.2 (p.getOrderSize b.2)
          let p := (r.2.setN b.1 r.1).setOrder mem (p.getOrder n)
          some (some b.1, { t.toPhysMemory with allocators := t.allocators.set i p })
        else t.toPhysMemory.reallocMove i p b.1 (p.getOrderSize b.2) n := by
  have hp := h.kept i p hi
  have hin : ¬ (mem < p.startAddr ∨ mem ≥ p.endAddr) := by
    obtain ⟨q, hq, -⟩ := hp.inv
    have hlo := (hq.live_bounds hb).1
    have hhi := hq.first_unit_le hb
    rw [not_or, UInt64.lt_iff_toNat_lt, ge_iff_le, UInt64.le_iff_toNat_le, Nat.not_lt, Nat.not_le]
    exact ⟨hlo.trans hm.1, hm.2.trans_le hhi⟩
  have hmeta : p.metadata (p.getMeta mem) = ⟨true, b.2⟩ := by
    obtain ⟨q, hq, -⟩ := hp.inv
    have hal : (p.metadata (p.getMeta mem)).alloced = true := by
      have hlo := (hq.live_bounds hb).1
      have hhi := hq.first_unit_le hb
      exact (hq.alloced_iff (hlo.trans hm.1) (hm.2.trans_le hhi)).mpr ⟨b, hb, hm⟩
    have hord : (p.metadata (p.getMeta mem)).order = b.2 := by
      rw [hq.getMeta_eq hb hm]
      exact hq.order b hb
    rw [← hal, ← hord]
  have hdown : alignDown mem (p.getOrderSize b.2) = b.1 := by
    obtain ⟨q, hq, -⟩ := hp.inv
    exact hq.alignDown_eq hb hm (hp.order_le hb)
  have hlt : ¬ p.getOrder n < b.2 := UInt8.not_lt.mpr hle
  rw [PhysMemory.realloc, hi, Option.bind_some, if_neg hin, hmeta]
  dsimp only
  rw [hdown, if_neg (by simp), if_neg hlt]

/-- The block stays where it is: only the order in which the clients are listed can change. -/
lemma Sound.stay (h : t.Sound) (hi : t.allocators[i]? = some p) (hb : b ∈ t.live i)
    (hm : p.InFirstUnit b mem) :
    (t.settle i mem (some b.1, t.toPhysMemory)).Sound ∧
      ∀ j, ((t.settle i mem (some b.1, t.toPhysMemory)).live j).Perm (t.live j) := by
  have hlist (j : ℕ) : ((if j = i then [(b.1, b.2)] else []) ++
      if j = i then (t.live i).erase b else t.live j).Perm (t.live j) := by
    by_cases hji : j = i
    · subst hji
      rw [if_pos rfl, if_pos rfl]
      exact (List.perm_cons_erase hb).symm
    · rw [if_neg hji, if_neg hji]
      exact List.Perm.refl _
  have hsound : Sound ⟨t.toPhysMemory, fun j => (if j = i then [(b.1, b.2)] else []) ++
      if j = i then (t.live i).erase b else t.live j⟩ :=
    ⟨fun j q hq => (h.kept j q hq).perm (hlist j), h.apart⟩
  rw [h.settle_eq hi hb hm hsound hi fun _ => rfl]
  exact ⟨hsound, hlist⟩

lemma Sound.reallocated_stay (h : t.Sound) (hi : t.allocators[i]? = some p) (hb : b ∈ t.live i)
    (hm : p.InFirstUnit b mem) (hn : n.toNat ≤ 2 ^ (p.fo + b.2.toNat)) :
    t.Reallocated i p b n b.1 (t.settle i mem (some b.1, t.toPhysMemory)) := by
  obtain ⟨h', hperm⟩ := h.stay hi hb hm
  refine ⟨h'.tiled, ⟨i, p, b.2, hi, hn, fun j c => ?_⟩, fun x _ _ => rfl, fun j c q _ _ _ a _ _ => rfl⟩
  have hlive : Live (t.settle i mem (some b.1, t.toPhysMemory)) j c ↔ t.Live j c := by
    refine exists_congr fun q => and_congr_right fun _ => (hperm j).mem_iff
  rw [hlive]
  constructor
  · intro hc
    by_cases hcb : j = i ∧ c = b
    · exact .inl hcb
    · exact .inr ⟨hc, hcb⟩
  · rintro (⟨rfl, rfl⟩ | ⟨hc, -⟩)
    · exact ⟨p, hi, hb⟩
    · exact hc

/-- A careful call of `realloc` for a block in use. -/
theorem Sound.realloc (h : t.Sound) (hi : t.allocators[i]? = some p) (hb : b ∈ t.live i)
    (hm : p.InFirstUnit b mem) (hcare : t.Careful (.realloc i mem n)) :
    t.toPhysMemory.realloc i mem n = some (none, t.toPhysMemory) ∨
    ∃ out w, t.toPhysMemory.realloc i mem n = some (some out, w) ∧
      (t.settle i mem (some out, w)).Sound ∧
      (0 < n.toNat → t.Reallocated i p b n out (t.settle i mem (some out, w))) := by
  have hp := h.kept i p hi
  have hmax : b.2 ≤ p.maxOrder := by
    obtain ⟨q, hq, -⟩ := hp.inv
    exact UInt8.le_iff_toNat_le.mpr (hq.live_order_le hb)
  rcases hcare p hi b hb hm with hbeyond | ⟨hn, hsame | ⟨hpos, hgrow, hnot⟩⟩
  · left
    rw [h.realloc_eq hi hb hm n (UInt8.le_trans hmax (UInt8.le_of_lt hbeyond)), if_pos hbeyond]
  · right
    refine ⟨b.1, t.toPhysMemory, ?_, (h.stay hi hb hm).1, fun hpos => ?_⟩
    · rw [h.realloc_eq hi hb hm n (UInt8.le_of_eq hsame.symm), if_neg, if_pos hsame]
      rw [hsame]
      exact UInt8.not_lt.mpr hmax
    · refine h.reallocated_stay hi hb hm ?_
      rw [← hsame]
      exact (getOrder_bounds p.toLayout hpos hn).1
  · rw [h.realloc_eq hi hb hm n (UInt8.le_of_lt hgrow)]
    by_cases hbeyond : p.maxOrder < p.getOrder n
    · exact .inl (if_pos hbeyond)
    rw [if_neg hbeyond, if_neg (UInt8.ne_of_lt hgrow).symm]
    -- the space behind the block is too small or the block not aligned for it
    obtain ⟨space, hspace⟩ := hp.getSpace (b.1 + p.getOrderSize b.2)
    have hno : ¬ (n ≤ space ∧ alignOf b.1 ≥ p.getOrderSize (p.getOrder n)) :=
      fun hin => hnot ⟨space, hspace, hin⟩
    rw [hspace, Option.bind_some, if_neg hno]
    rcases h.move hi hb hm hpos hn hgrow with hnone | ⟨out, t3, hmove, hsettle, h3, hre⟩
    · exact .inl hnone
    · right
      refine ⟨out, t3.toPhysMemory, hmove, ?_, fun _ => ?_⟩
      · rwa [hsettle]
      · rwa [hsettle]

/-- The allocators stay in order. -/
theorem Sound.step (h : t.Sound) (hcare : t.Careful op) (hs : t.step op = some t') : t'.Sound := by
  cases op with
  | call i op =>
    rw [Pool.step, Option.bind_eq_some_iff] at hs
    obtain ⟨p, hi, hs⟩ := hs
    obtain ⟨s, hstep, rfl⟩ := Option.map_eq_some_iff.mp hs
    obtain ⟨hk, hl⟩ := (h.kept i p hi).step hstep
    exact h.set hi hk hl t.data
  | store i a v =>
    rw [Pool.step, Option.bind_eq_some_iff] at hs
    obtain ⟨p, -, hs⟩ := hs
    rw [Option.ite_none_right_eq_some] at hs
    obtain ⟨-, hs⟩ := hs
    obtain rfl := Option.some.inj hs
    exact ⟨h.kept, h.apart⟩
  | realloc i mem n =>
    obtain ⟨⟨ret, w⟩, hre, rfl⟩ := Option.map_eq_some_iff.mp hs
    have hsome : ∃ p, t.allocators[i]? = some p := by
      rw [PhysMemory.realloc, Option.bind_eq_some_iff] at hre
      obtain ⟨p, hi, -⟩ := hre
      exact ⟨p, hi⟩
    obtain ⟨p, hi⟩ := hsome
    by_cases hm : ∃ b ∈ t.live i, p.InFirstUnit b mem
    · obtain ⟨b, hb, hm⟩ := hm
      rcases h.realloc hi hb hm hcare with hnone | ⟨out, w', hout, hsound, -⟩
      · obtain ⟨rfl, rfl⟩ := Prod.mk.inj (Option.some.inj (hnone.symm.trans hre))
        exact h
      · obtain ⟨rfl, rfl⟩ := Prod.mk.inj (Option.some.inj (hout.symm.trans hre))
        exact hsound
    · have hnone := h.realloc_none (n := n) hi fun b hb hbm => hm ⟨b, hb, hbm⟩
      obtain ⟨rfl, rfl⟩ := Prod.mk.inj (Option.some.inj (hnone.symm.trans hre))
      exact h

/-- A careful call of `realloc` answers as it is meant to. -/
lemma Sound.answers (h : t.Sound) (hcare : t.Careful op) : t.Answers op := by
  cases op with
  | call i op => trivial
  | store i a v => trivial
  | realloc i mem n =>
    intro p hi b hb hm hpos
    rcases h.realloc hi hb hm hcare with hnone | ⟨out, w, hsome, -, hre⟩
    · exact .inl hnone
    · exact .inr ⟨out, w, hsome, hre hpos⟩

/-- A pool after `init` of its allocators, for ranges below the top 2 GiB of the address space that
lie apart together with their metadata, and zones of at most 1 GiB. -/
structure Booted (t : Pool) : Prop where
  init : ∀ (i : ℕ) (p : Pallocator), t.allocators[i]? = some p →
    ∃ startAddr endAddr firstOrderSize links n metadata k,
      Pallocator.init startAddr endAddr firstOrderSize links n metadata = some p ∧
      firstOrderSize.toNat = 2 ^ k ∧ endAddr.toNat + 2 ^ 31 ≤ 2 ^ 64
  size : ∀ (i : ℕ) (p : Pallocator), t.allocators[i]? = some p →
    ∀ k, ∀ z ∈ p.zones k, (p.n z).toNat ≤ 2 ^ 30
  apart : ∀ (i j : ℕ) (p q : Pallocator), t.allocators[i]? = some p → t.allocators[j]? = some q →
    i ≠ j → ∀ x, p.lo ≤ x → x < p.endMeta.toNat → q.lo ≤ x → q.endMeta.toNat ≤ x
  live : ∀ i, t.live i = []

lemma Booted.sound (h : t.Booted) : t.Sound := by
  have hprep (i : ℕ) (p : Pallocator) (hi : t.allocators[i]? = some p) :
      p.hi ≤ p.endMeta.toNat := by
    obtain ⟨startAddr, endAddr, firstOrderSize, links, n, metadata, k, hinit, hf, -⟩ := h.init i p hi
    exact (Nat.le_add_right _ _).trans (init_prepared hinit hf).meta_le
  refine ⟨fun i p hi => ?_, fun i j p q hi hj hne x h1 h2 h3 => ?_⟩
  · obtain ⟨startAddr, endAddr, firstOrderSize, links, n, metadata, k, hinit, hf, hend⟩ :=
      h.init i p hi
    rw [h.live i]
    exact (kept_of_init hinit hf hend (h.size i p hi)).1
  · by_contra hlt
    have := h.apart i j p q hi hj hne x h1 (h2.trans_le (hprep i p hi)) h3
    have := hprep j q hj
    omega

/-- In a run whose calls of `realloc` are careful ones, each of them answers as it is meant to, and
the zones and clients of all allocators tile their ranges all the time. -/
theorem answers_of_careful (h : t.Booted) {ops : List PoolOp}
    (hcare : Machine.Along Pool.step Careful t ops) :
    Machine.Along Pool.step Answers t ops ∧ Machine.Throughout Pool.step Tiled t ops := by
  have hstep (s : Pool) (op : PoolOp) (s' : Pool) (hs : s.Sound) (hc : s.Careful op)
      (h' : s.step op = some s') : s'.Sound := hs.step hc h'
  refine ⟨Machine.along_of_along hstep (fun s op hs hc => hs.answers hc) h.sound hcare,
    fun as bs s' he hr => ?_⟩
  exact (Machine.throughout_of_along hstep h.sound hcare as bs s' he hr).tiled

/-- Fourteen pages behind the first one. -/
def pages : Pool where
  allocators := (Pallocator.init 4096 65536 4096 (fun _ => ⟨none, none⟩) (fun _ => 0)
    fun _ => ⟨false, 0⟩).toList
  data _ := 0
  live _ := []

lemma pages_booted : pages.Booted := by
  have hget (i : ℕ) (p : Pallocator) (hi : pages.allocators[i]? = some p) : i = 0 ∧
      Pallocator.init 4096 65536 4096 (fun _ => ⟨none, none⟩) (fun _ => 0) (fun _ => ⟨false, 0⟩) =
        some p := by
    rw [pages] at hi
    cases hinit : Pallocator.init 4096 65536 4096 (fun _ => ⟨none, none⟩) (fun _ => 0)
        (fun _ => ⟨false, 0⟩) with
    | none =>
      rw [hinit] at hi
      cases hi
    | some p' =>
      rw [hinit] at hi
      cases i with
      | zero => exact ⟨rfl, hi⟩
      | succ i => cases hi
  refine ⟨fun i p hi => ?_, fun i p hi => ?_, fun i j p q hi hj hne => ?_, fun _ => rfl⟩
  · exact ⟨4096, 65536, 4096, _, _, _, 12, (hget i p hi).2, rfl, by decide⟩
  · exact size_le_of_init (hget i p hi).2 (k := 12) rfl (by decide)
  · exact absurd ((hget i p hi).1.trans (hget j q hj).1.symm) hne

theorem answers_of_careful_pages :
    Machine.Along Pool.step Answers pages [.call 0 (.alloc 4096), .realloc 0 57344 8192] :=
  (answers_of_careful pages_booted (by decide +kernel)).1

/-- A block that shrinks loses what is in its third word. -/
theorem not_answers_shrink : ∃ t, Machine.run Pool.step pages [.call 0 (.alloc 8192)] = some t ∧
    ¬ t.Answers (.realloc 0 49152 4096) := by
  obtain ⟨t, ht⟩ := Option.isSome_iff_exists.mp
    (show (Machine.run Pool.step pages [.call 0 (.alloc 8192)]).isSome by decide +kernel)
  have hlive : (Machine.run Pool.step pages [.call 0 (.alloc 8192)]).map (fun t => t.live 0) =
      some [(49152, 1)] := by decide +kernel
  have hold : (Machine.run Pool.step pages [.call 0 (.alloc 8192)]).map
      (fun t => t.word 49168) = some (some 8192) := by decide +kernel
  have hnew : ((Machine.run Pool.step pages [.call 0 (.alloc 8192)]).bind fun t =>
      (t.toPhysMemory.realloc 0 49152 4096).map fun r => (r.1, (t.settle 0 49152 r).word 49168)) =
      some (some 49152, some 4096) := by decide +kernel
  have hbits : (Machine.run Pool.step pages [.call 0 (.alloc 8192)]).map
      (fun t => (t.allocators[0]?).map fun p => p.fo) = some (some 12) := by decide +kernel
  rw [ht] at hlive hold hnew hbits
  refine ⟨t, ht, fun hans => ?_⟩
  obtain ⟨p, hp, hfo⟩ := Option.map_eq_some_iff.mp (Option.some.inj hbits)
  have hlive : t.live 0 = [(49152, 1)] := Option.some.inj hlive
  have hb : ((49152, 1) : Allocation) ∈ t.live 0 := by
    rw [hlive]
    exact List.mem_cons_self
  have hm : p.InFirstUnit (49152, 1) 49152 :=
    ⟨le_rfl, Nat.lt_add_of_pos_right (Nat.two_pow_pos _)⟩
  have hword : t.word 49168 = some 8192 := Option.some.inj hold
  rw [Option.bind_some] at hnew
  obtain ⟨r, hr, hrw⟩ := Option.map_eq_some_iff.mp hnew
  rcases hans p hp (49152, 1) hb hm (by decide) with hnone | ⟨out, w, hsome, hre⟩
  · obtain rfl := Option.some.inj (hr.symm.trans hnone)
    cases (Prod.mk.inj hrw).1
  · obtain rfl := Option.some.inj (hr.symm.trans hsome)
    obtain ⟨hout, hw⟩ := Prod.mk.inj hrw
    obtain rfl := Option.some.inj hout
    have hc := hre.contents 16 (by decide) (by
      rw [hfo]
      decide)
    rw [show (49152 : UInt64) + 16 = 49168 from rfl, hw] at hc
    rw [hword] at hc
    exact absurd hc (by decide)

end Pool
end EpochKernel.Mem
