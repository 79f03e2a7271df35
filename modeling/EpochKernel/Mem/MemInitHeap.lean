import EpochKernel.Mem.MemInitRegions
import EpochKernel.Mem.PoolHeap

/-! From the memory map of the boot loader to the heap: what `mem::init` leaves are allocators that
answer as a heap, and its blocks lie in usable memory and not in the kernel. -/
namespace EpochKernel.Mem
open EpochKernel.Util EpochKernel.Util.LinkedList EpochKernel.Library EpochKernel.Library.Block

namespace Pallocator
variable {p p' : Pallocator} {q : ℕ → List UInt64} {t : UInt64} {live : List Allocation}

/-- The loop of `init` writes no links and no sizes outside of the range. -/
theorem Filling.outside (fuel : ℕ) (h : Filling p q t) (hrun : initLoop fuel t p = some p')
    (a : UInt64) (ha : ¬ (p.lo ≤ a.toNat ∧ a.toNat < p.hi)) :
    p'.links a = p.links a ∧ p'.n a = p.n a := by
  induction fuel generalizing p q t with
  | zero => cases hrun
  | succ fuel ih =>
    rw [initLoop_succ] at hrun
    by_cases hlt : t < p.endAddr
    · rw [if_pos hlt] at hrun
      rw [UInt64.lt_iff_toNat_lt] at hlt
      obtain ⟨hord, hrun⟩ := Option.ite_none_right_eq_some.mp hrun
      have hsafe : ¬ (t = 0 ∨ t.toNat = 2 ^ 63) :=
        fun ht => absurd hord (Nat.not_lt.mpr (h.order_of_zero ht))
      obtain ⟨ht0, ht63⟩ := not_or.mp hsafe
      obtain ⟨q', h', -, -⟩ := h.step hlt ht0 ht63 hord
      obtain ⟨hlinks, -, hn, -, -, hlayout⟩ := fillZone_fields p t
      have hlo : (p.fillZone t).lo = p.lo := by rw [lo, hlayout]; rfl
      have hhi : (p.fillZone t).hi = p.hi := by rw [hi, hlayout]; rfl
      obtain ⟨h1, h2⟩ := ih h' hrun (by rw [hlo, hhi]; exact ha)
      have hat : a ≠ t := by
        rintro rfl
        exact ha ⟨h.ge, hlt⟩
      -- the zones so far lie below `t`
      have hin : ∀ j, ∀ z ∈ q j, p.lo ≤ z.toNat ∧ z.toNat < t.toNat := by
        intro j z hz
        have hz' := h.tiles.inside ⟨z.toNat, p.fo + j, (h.zone j z hz).1⟩ ⟨j, z, hz, rfl, rfl⟩
        have := Nat.two_pow_pos (p.fo + j)
        simp only [top, Block.size] at hz'
        omega
      have hout : ∀ j, a ∉ q j := fun j hj => ha ⟨(hin j a hj).1, (hin j a hj).2.trans_le h.le⟩
      have htq : ∀ j, t ∉ q j := fun j hj => absurd (hin j t hj).2 (lt_irrefl _)
      rw [h1, h2, hlinks, hn]
      exact ⟨append_links_of_notMem (h.family.represents _) (htq _) (hout _) hat,
        Function.update_of_ne hat _ _⟩
    · rw [if_neg hlt] at hrun
      obtain rfl := Option.some.inj hrun
      exact ⟨rfl, rfl⟩

section Init
variable {startAddr endAddr : UInt64} {links : Links UInt64} {n : UInt64 → UInt64}
  {metadata : UInt64 → Metadata}

/-- The loop of `init` keeps what was prepared, apart from the lists and the highest order. -/
lemma init_fields (h : init startAddr endAddr pageSize links n metadata = some p) :
    p.toLayout = { (initFields startAddr endAddr pageSize links n metadata).toLayout with
      maxOrder := p.maxOrder } ∧
    p.metadata = (initFields startAddr endAddr pageSize links n metadata).metadata := by
  have hp : pageSize.toNat = 2 ^ 12 := rfl
  rw [init] at h
  obtain ⟨hgt, h⟩ := Option.ite_none_right_eq_some.mp h
  have hprep := initFields_prepared links n metadata hp hgt
  rcases (hprep.filling rfl rfl rfl).loop _ hprep.page_le (Nat.lt_succ_self _) with
    ⟨p1, q1, t1, heq, -, -, hmeta, hlay⟩ | ⟨heq, -⟩
  · obtain rfl : p1 = p := Option.some.inj (heq.symm.trans h)
    exact ⟨hlay, hmeta⟩
  · cases heq.symm.trans h

lemma init_fo (h : init startAddr endAddr pageSize links n metadata = some p) : p.fo = 12 := by
  rw [fo, (init_fields h).1]
  rfl

/-- What `init` with pages as the smallest zones writes, it writes to its region. -/
lemma init_outside (h : init startAddr endAddr pageSize links n metadata = some p) (a : UInt64)
    (ha : ¬ (p.lo ≤ a.toNat ∧ a.toNat < p.endMeta.toNat)) :
    p.links a = links a ∧ p.n a = n a ∧ p.metadata a = metadata a := by
  have hp : pageSize.toNat = 2 ^ 12 := rfl
  obtain ⟨hlay, hmeta⟩ := init_fields h
  rw [init] at h
  set p0 := initFields startAddr endAddr pageSize links n metadata with hp0
  obtain ⟨hgt, h⟩ := Option.ite_none_right_eq_some.mp h
  have hprep := initFields_prepared links n metadata hp hgt
  rw [← hp0] at hprep
  have hlo : p.lo = p0.lo := by rw [lo, hlay]; rfl
  have hend : p.endMeta = p0.endMeta := by rw [hlay]
  have hle : p0.hi ≤ p0.endMeta.toNat := (Nat.le_add_right _ _).trans hprep.meta_le
  rw [hlo, hend] at ha
  obtain ⟨h1, h2⟩ := (hprep.filling rfl rfl rfl).outside _ h a
    fun hin => ha ⟨hin.1, hin.2.trans_le hle⟩
  refine ⟨h1, h2, ?_⟩
  rw [hmeta]
  refine if_neg fun hin => ha ⟨?_, UInt64.lt_iff_toNat_lt.mp hin.2⟩
  exact hprep.start_le.trans (UInt64.le_iff_toNat_le.mp hin.1)

end Init

/-- An allocator depends on the memory of its region alone. -/
lemma Kept.congr (h : p.Kept live) (hl : p'.toLayout = p.toLayout) (hlists : p'.lists = p.lists)
    (hend : p.hi + (p.hi - p.lo) / 2 ^ p.fo ≤ p.endMeta.toNat)
    (hsame : ∀ a : UInt64, p.lo ≤ a.toNat → a.toNat < p.endMeta.toNat →
      p'.links a = p.links a ∧ p'.n a = p.n a ∧ p'.metadata a = p.metadata a) : p'.Kept live := by
  have hbounds (b : Allocation) (hb : b ∈ live) := h.bounds hb
  obtain ⟨⟨q, hq, hB⟩, hsmall, hpage, hpos, hrecorded⟩ := h
  have hq : p.Holds live q := hq
  have hlo : p'.lo = p.lo := congrArg (·.startAddr.toNat) hl
  have hhi : p'.hi = p.hi := congrArg (·.endAddr.toNat) hl
  have hfo : p'.fo = p.fo := congrArg (·.foBits.toNat) hl
  have hle : p.hi ≤ p.endMeta.toNat := (Nat.le_add_right _ _).trans hend
  have hmeta (a : UInt64) (h1 : p.lo ≤ a.toNat) (h2 : a.toNat < p.hi) :
      p'.metadata (p'.getMeta a) = p.metadata (p.getMeta a) := by
    have hget : p'.getMeta a = p.getMeta a := congrArg (·.getMeta a) hl
    have hm := hq.layout.getMeta_toNat h1 h2
    have hdvd := Nat.dvd_sub hq.layout.end_dvd hq.layout.start_dvd
    have hdiv : (a.toNat - p.lo) / 2 ^ p.fo < (p.hi - p.lo) / 2 ^ p.fo :=
      Nat.div_lt_div_of_lt_of_dvd hdvd (by omega)
    change (p.getMeta a).toNat = (a.toNat - p.lo) / 2 ^ p.fo + p.hi at hm
    rw [hget]
    generalize (a.toNat - p.lo) / 2 ^ p.fo = unit at hm hdiv
    exact (hsame _ (by omega) (by omega)).2.2
  have hzone (k : ℕ) (z : UInt64) (hz : z ∈ q k) : p'.links z = p.links z ∧ p'.n z = p.n z := by
    have hb := hq.bounds hz
    have := Nat.two_pow_pos (p.fo + k)
    obtain ⟨h1, h2, -⟩ := hsame z (by omega) (by omega)
    exact ⟨h1, h2⟩
  refine ⟨⟨q, ⟨hl ▸ hq.layout, ⟨fun k => ?_, hq.family.disjoint⟩, fun k z hz => ?_, ?_, ?_, ?_, hq.nodup,
    fun a hd h1 h2 => ?_, fun b hb => ?_⟩, ?_⟩, Session.Small.of_layout (s := ⟨p, live⟩) hsmall hl,
    hfo ▸ hpage, hlo ▸ hhi ▸ hpos, fun a h1 h2 => ?_⟩
  · rw [hlists]
    exact (hq.family.represents k).congr fun z hz => (hzone k z hz).1
  · rw [hfo, (hzone k z hz).2]
    exact hq.zone k z hz
  · rw [hfo]
    exact hq.allocation
  · rw [hfo, hlo, hhi]
    exact hq.tiles
  · rw [hfo]
    exact hq.separate
  · rw [hfo] at hd
    rw [hlo] at h1
    rw [hhi] at h2
    rw [hmeta a h1 h2]
    exact hq.alloced a hd h1 h2
  · have := Nat.two_pow_pos (p.fo + b.2.toNat)
    have hb' := hbounds b hb
    rw [hmeta b.1 (by omega) (by omega)]
    exact hq.order b hb
  · change BuddyFree (blocksOf p'.fo q)
    rw [hfo]
    exact hB
  · rw [hlo] at h1
    rw [hhi] at h2
    rw [hfo, hmeta a h1 h2]
    exact hrecorded a h1 h2

end Pallocator

/-- Every region that is used is short, and the shift leaves 2 GiB behind it. -/
def Low (es : List MmapEntry) : Prop :=
  ∀ e ∈ es, e.usable → e.addr.toNat + e.len.toNat ≤ 2 ^ 39 - 2 ^ 31 ∧ e.len.toNat < 2 ^ 31

namespace Boot
open Pallocator
variable {s s' s1 : Boot} {K : Kernel} {done es : List MmapEntry} {e : MmapEntry} {out : ℕ}

/-- The first `n` allocators have their regions, with all of it free. -/
structure Held (s : Boot) (n : ℕ) : Prop where
  kept : ∀ i < n, (s.pallocator i).Kept []
  page : ∀ i < n, (s.pallocator i).fo = 12
  ends : ∀ i < n, (s.pallocator i).hi +
    ((s.pallocator i).hi - (s.pallocator i).lo) / 2 ^ (s.pallocator i).fo ≤
      (s.pallocator i).endMeta.toNat

/-- The zones of a short region are small. -/
lemma zones_small {p : Pallocator} {startAddr endAddr : UInt64} {links : Links UInt64}
    {n : UInt64 → UInt64} {metadata : UInt64 → Metadata}
    (hinit : Pallocator.init startAddr endAddr pageSize links n metadata = some p)
    (hend : endAddr.toNat + 2 ^ 31 ≤ 2 ^ 64) (hshort : p.endMeta.toNat < p.lo + 2 ^ 31) (k : ℕ)
    (z : UInt64) (hz : z ∈ p.zones k) : (p.n z).toNat ≤ 2 ^ 30 := by
  have hp : pageSize.toNat = 2 ^ 12 := rfl
  obtain ⟨q, t, hq, -, -, -, -⟩ := init_holds hinit hp hend
  have hprep := init_prepared hinit hp
  have hzones : p.zones k = q k := (hq.family.represents k).nodes_eq
  rw [hzones] at hz
  have hle : p.hi ≤ p.endMeta.toNat := (Nat.le_add_right _ _).trans hprep.meta_le
  have hb := hq.bounds hz
  have hlt : 2 ^ (p.fo + k) < 2 ^ 31 := by omega
  rw [(hq.zone k z hz).2]
  exact Nat.pow_le_pow_right (by norm_num)
    (Nat.le_of_lt_succ ((Nat.pow_lt_pow_iff_right (by norm_num)).mp hlt))

lemma init_spec {i : ℕ} {startAddr endAddr : UInt64} (hl : (s.allocators i).lists = fun _ => {})
    (hm : (s.allocators i).maxOrder = 0) (h : s.init i startAddr endAddr = some s1) :
    ∃ p, Pallocator.init startAddr endAddr pageSize s.links s.n s.metadata = some p ∧
      s1.pallocator i = p ∧ ∀ j, j ≠ i → s1.pallocator j =
        { s.pallocator j with links := p.links, n := p.n, metadata := p.metadata } := by
  rw [init_fresh hl hm] at h
  obtain ⟨p, hp, rfl⟩ := Option.map_eq_some_iff.mp h
  refine ⟨p, hp, ?_, fun j hj => ?_⟩
  · have hself : Function.update s.allocators i p i = p := Function.update_self _ _ _
    simp only [pallocator, hself]
  · have hother : Function.update s.allocators i p j = s.allocators j := Function.update_of_ne hj _ _
    simp only [pallocator, hother]

/-- The next allocator, which writes to none of the other regions. -/
lemma Held.init {n : ℕ} (h : s.Held n) {startAddr endAddr : UInt64}
    (hl : (s.allocators n).lists = fun _ => {}) (hm : (s.allocators n).maxOrder = 0)
    (hinit : s.init n startAddr endAddr = some s1) (hend : endAddr.toNat + 2 ^ 31 ≤ 2 ^ 64)
    (hshort : (s1.pallocator n).endMeta.toNat < (s1.pallocator n).lo + 2 ^ 31)
    (hapart : ∀ i < n, (s1.pallocator i).endMeta ≤ (s1.pallocator n).startAddr ∨
      (s1.pallocator n).endMeta ≤ (s1.pallocator i).startAddr) : s1.Held (n + 1) := by
  have hp : pageSize.toNat = 2 ^ 12 := rfl
  obtain ⟨p, hpinit, hnew, hold⟩ := init_spec hl hm hinit
  have hprep := init_prepared hpinit hp
  rw [hnew] at hshort hapart
  have hkept (i : ℕ) (hi : i < n) : (s1.pallocator i).Kept [] := by
    have hdis := hapart i hi
    rw [hold i hi.ne] at hdis ⊢
    refine (h.kept i hi).congr rfl rfl (h.ends i hi) fun a h1 h2 => init_outside hpinit a fun hin => ?_
    rw [UInt64.le_iff_toNat_le, UInt64.le_iff_toNat_le] at hdis
    have hlo : p.lo = p.startAddr.toNat := rfl
    have hlo' : (s.pallocator i).lo = (s.pallocator i).startAddr.toNat := rfl
    dsimp only at hdis
    omega
  refine ⟨fun i hi => ?_, fun i hi => ?_, fun i hi => ?_⟩
  · rcases Nat.lt_succ_iff_lt_or_eq.mp hi with hi | rfl
    · exact hkept i hi
    · rw [hnew]
      exact (kept_of_init hpinit hp hend (zones_small hpinit hend hshort)).1
  · rcases Nat.lt_succ_iff_lt_or_eq.mp hi with hi | rfl
    · rw [hold i hi.ne]
      exact h.page i hi
    · rw [hnew]
      exact init_fo hpinit
  · rcases Nat.lt_succ_iff_lt_or_eq.mp hi with hi | rfl
    · rw [hold i hi.ne]
      exact h.ends i hi
    · rw [hnew]
      exact hprep.meta_le

/-- The allocator that a sound region gives, if it gives one. -/
lemma Held.initAllocator (h : s.Held s.allocatorLen) (hinv : s.Inv K done) (hK : K.Valid)
    (hlow : Low (done ++ [e])) (hu : e.usable) (hi : s.initAllocator K s.allocatorLen e.shifted = some (s1, out)) (hout : out ≤ 1)
    (hinv1 : Inv K (done ++ [e]) { s1 with allocatorLen := s.allocatorLen + out }) :
    s1.Held (s.allocatorLen + out) := by
  obtain ⟨hl, hm, -⟩ := hinv.fresh s.allocatorLen le_rfl
  obtain ⟨hphys, hlen⟩ := hlow e (by simp) hu
  have hshift := e.shifted_toNat
  have hpos := (MmapEntry.usable_iff.mp hu).2
  have hlast := MmapEntry.last_toNat (e := e) (by omega) (by omega)
  have hone (startAddr endAddr : UInt64) (hinit : s.init s.allocatorLen startAddr endAddr = some s1)
      (ho : out = 1) (hend : endAddr.toNat < e.shifted.addr.toNat + e.len.toNat) :
      s1.Held (s.allocatorLen + out) := by
    subst ho
    refine h.init hl hm hinit (by omega) ?_ fun i hi => ?_
    · obtain ⟨d, hd, hdu, hd1, hd2⟩ := hinv1.usable s.allocatorLen (Nat.lt_succ_self _)
      have hdlen := (hlow d hd hdu).2
      change (s1.allocators s.allocatorLen).endMeta.toNat <
        (s1.allocators s.allocatorLen).startAddr.toNat + 2 ^ 31
      dsimp only at hd1 hd2
      omega
    · exact hinv1.disjoint i (Nat.lt_succ_of_lt hi) s.allocatorLen (Nat.lt_succ_self _) hi.ne
  unfold Boot.initAllocator at hi
  rw [MmapEntry.shifted_len] at hi
  by_cases hT : e.shifted.hasText K ∧ e.shifted.roomBefore K
  · have hf : ¬ (¬ e.shifted.hasText K ∧ ¬ e.shifted.hasEnd K) := fun hf => hf.1 hT.1
    rw [if_pos hT] at hi
    obtain ⟨s2, hinit, hi⟩ := Option.bind_eq_some_iff.mp hi
    by_cases hE : e.shifted.hasEnd K ∧ e.shifted.roomBehind K
    · -- both parts of the region would be counted
      rw [if_pos hE] at hi
      obtain ⟨s3, h3, hi⟩ := Option.bind_eq_some_iff.mp hi
      rw [if_neg hf, if_pos hT, if_pos hE] at hi
      obtain ⟨-, rfl⟩ := Prod.mk.inj (Option.some.inj hi)
      omega
    · rw [if_neg hE, Option.bind_some, if_neg hf, if_pos hT, if_neg hE] at hi
      obtain ⟨rfl, ho⟩ := Prod.mk.inj (Option.some.inj hi)
      obtain ⟨hge, htext⟩ := MmapEntry.shifted_hasText.mp hT.1
      obtain ⟨-, -, h1, h2⟩ := MmapEntry.one_piece (by omega) hK.1 hge htext
      have hbefore : (K.textStart - 1).toNat = K.textStart.toNat - 1 := by
        have hV := UInt64.le_iff_toNat_le.mp hK.1
        rw [kernelVma_toNat] at hV
        exact UInt64.toNat_sub_of_le _ _ (UInt64.le_iff_toNat_le.mpr (by rw [UInt64.toNat_one]; omega))
      exact hone _ _ hinit ho.symm (by omega)
  · rw [if_neg hT, Option.bind_some] at hi
    by_cases hE : e.shifted.hasEnd K ∧ e.shifted.roomBehind K
    · have hf : ¬ (¬ e.shifted.hasText K ∧ ¬ e.shifted.hasEnd K) := fun hf => hf.2 hE.1
      rw [if_pos hE] at hi
      obtain ⟨s2, h2, hi⟩ := Option.bind_eq_some_iff.mp hi
      rw [if_neg hf, if_neg hT, if_pos hE] at hi
      obtain ⟨rfl, ho⟩ := Prod.mk.inj (Option.some.inj hi)
      exact hone _ _ h2 ho.symm (by omega)
    · rw [if_neg hE, Option.bind_some, if_neg hT, if_neg hE] at hi
      by_cases hf : ¬ e.shifted.hasText K ∧ ¬ e.shifted.hasEnd K
      · rw [if_pos hf] at hi
        obtain ⟨s2, h2, hi⟩ := Option.map_eq_some_iff.mp hi
        obtain ⟨rfl, ho⟩ := Prod.mk.inj hi
        exact hone _ _ h2 ho.symm (by omega)
      · rw [if_neg hf] at hi
        obtain ⟨rfl, rfl⟩ := Prod.mk.inj (Option.some.inj hi)
        exact h

/-- The loop of `mem::init` on regions that are sound. -/
theorem Inv.run_held (h : s.Inv K done) (hheld : s.Held s.allocatorLen) (hK : K.Valid)
    (hrest : Rest done es s) (hs : ∀ e ∈ es, e.usable → e.shifted.Sound K) (hlow : Low (done ++ es)) :
    ∃ s', memInit K es s = some s' ∧ s'.Inv K (done ++ es) ∧ s'.Held s'.allocatorLen := by
  induction es generalizing done s with
  | nil => exact ⟨s, rfl, h.mono (List.subset_append_left _ _), hheld⟩
  | cons e es ih =>
    have htail : ∀ d ∈ es, d.usable → d.shifted.Sound K :=
      fun d hd => hs d (List.mem_cons_of_mem _ hd)
    rw [List.append_cons] at hlow ⊢
    by_cases hlen : s.allocatorLen < maxMemNodes
    · by_cases hu : e.usable
      · obtain ⟨s1, out, hi, hout, hinv⟩ := h.sound hK hu (hrest.physical e (by simp) hu)
          (fun d hd hdu => hrest.disjoint d hd e (by simp) hdu hu) (hs e (by simp) hu)
        have hl := (initAllocator_other hi).1
        have hrest' := hrest.take s1 hu hout
        have hle : ¬ s1.allocatorLen + out > maxMemNodes := by
          have hfew : s.allocatorLen + out + _ ≤ maxMemNodes := hrest'.few
          omega
        have hlow1 : Low (done ++ [e]) := fun d hd => hlow d (List.mem_append_left _ hd)
        obtain ⟨h1, h2, h3⟩ := hheld.initAllocator h hK hlow1 hu hi hout hinv
        rw [memInit_some hu hlen hi, if_neg hle, hl]
        exact ih hinv ⟨h1, h2, h3⟩ hrest' htail hlow
      · rw [memInit_skip hu hlen]
        exact ih (h.mono (List.subset_append_left _ _)) hheld (hrest.skip hu) htail hlow
    · rw [memInit_full hlen]
      exact ⟨s, rfl, h.mono (by rw [List.append_assoc]; exact List.subset_append_left _ _), hheld⟩

/-- The allocators for the calls that follow, with nothing in use. -/
def pool (s : Boot) (data : UInt64 → UInt64) : Pool where
  allocators := (List.range s.allocatorLen).map s.pallocator
  data := data
  live _ := []

lemma pool_allocators {data : UInt64 → UInt64} {i : ℕ} {p : Pallocator}
    (h : (s.pool data).allocators[i]? = some p) : i < s.allocatorLen ∧ s.pallocator i = p := by
  obtain ⟨j, hj, rfl⟩ := Option.map_eq_some_iff.mp (List.getElem?_map ▸ h)
  obtain ⟨hlt, hget⟩ := List.getElem?_eq_some_iff.mp hj
  rw [List.getElem_range] at hget
  subst hget
  rw [List.length_range] at hlt
  exact ⟨hlt, rfl⟩

lemma Held.ready (h : s.Held s.allocatorLen) (hinv : s.Inv K done) (data : UInt64 → UInt64) :
    (s.pool data).Ready := by
  have hle (i : ℕ) (hi : i < s.allocatorLen) : (s.pallocator i).hi ≤ (s.pallocator i).endMeta.toNat :=
    (Nat.le_add_right _ _).trans (h.ends i hi)
  refine ⟨⟨fun i p hi => ?_, fun i j p q hi hj hij x h1 h2 h3 => ?_⟩, fun p hp => ?_⟩
  · obtain ⟨hlt, rfl⟩ := pool_allocators hi
    exact h.kept i hlt
  · obtain ⟨hilt, rfl⟩ := pool_allocators hi
    obtain ⟨hjlt, rfl⟩ := pool_allocators hj
    have hdis : (s.pallocator i).endMeta.toNat ≤ (s.pallocator j).lo ∨
        (s.pallocator j).endMeta.toNat ≤ (s.pallocator i).lo :=
      (hinv.disjoint i hilt j hjlt hij).imp UInt64.le_iff_toNat_le.mp UInt64.le_iff_toNat_le.mp
    have := hle i hilt
    have := hle j hjlt
    omega
  · obtain ⟨i, hi, rfl⟩ := List.mem_map.mp hp
    exact h.page i (List.mem_range.mp hi)

lemma pool_represents (s : Boot) (data : UInt64 → UInt64) :
    (s.pool data).Represents BlockHeap.empty := by
  refine ⟨fun b => iff_of_false (Set.notMem_empty b) ?_, fun a _ v hv => ?_⟩
  · rintro ⟨j, p, c, -, hc, -⟩
    exact absurd hc List.not_mem_nil
  · cases hv

end Boot

namespace Boot
variable {s : Boot} {K : Kernel} {es : List MmapEntry}

/-- From the memory map to any time after: `mem::init` returns, and whatever is called after it, the
answers are those of a heap whose blocks lie in usable regions of the map and not in the kernel. -/
theorem memInit_heap (hes : ValidMap es) (hK : K.Valid) (hs : s.Fresh)
    (hsound : ∀ e ∈ es, e.usable → e.shifted.Sound K) (hlow : Low es) :
    ∃ s', memInit K es s = some s' ∧ ∀ data calls t',
      Machine.Along Pool.memStep Pool.Gentle (s'.pool data) calls →
      Machine.run Pool.memStep (s'.pool data) calls = some t' →
        ∃ g, Reaches (BlockHeap.Step 4096 8) BlockHeap.empty (calls.map MemEvent.call) g ∧
          t'.Represents g ∧ ∀ b ∈ g.blocks,
            (∃ e ∈ es, e.usable ∧ e.shifted.addr.toNat ≤ b.1 ∧
              b.1 + b.2 ≤ e.shifted.addr.toNat + e.len.toNat) ∧
            (b.1 + b.2 ≤ K.textStart.toNat ∨ K.kernelEnd.toNat < b.1) := by
  have hheld : s.Held s.allocatorLen := by
    rw [hs.len]
    exact ⟨by simp, by simp, by simp⟩
  obtain ⟨s', hinit, hinv, hheld'⟩ := (hs.inv K).run_held hheld hK (hs.rest hes) hsound hlow
  refine ⟨s', hinit, fun data calls t' hgentle hrun => ?_⟩
  have hready := hheld'.ready hinv data
  obtain ⟨g, hreach, hrep⟩ := hready.refines (s'.pool_represents data) hgentle hrun
  obtain ⟨hready', hlayouts⟩ := hready.run_layouts hgentle hrun
  refine ⟨g, hreach, hrep, fun b hb => ?_⟩
  obtain ⟨j, p, c, hj, hc, rfl⟩ := (hrep.blocks b).mp hb
  obtain ⟨hj', hl⟩ : j < s'.allocatorLen ∧ p.toLayout = (s'.pallocator j).toLayout := by
    have hmap : t'.layouts[j]? = some p.toLayout := by
      rw [PhysMemory.layouts, List.getElem?_map, hj]
      rfl
    rw [hlayouts, PhysMemory.layouts, List.getElem?_map] at hmap
    obtain ⟨p', hp', heq⟩ := Option.map_eq_some_iff.mp hmap
    obtain ⟨hlt, rfl⟩ := pool_allocators hp'
    exact ⟨hlt, heq.symm⟩
  have hbounds := (hready'.sound.kept j p hj).bounds hc
  have hlo : p.lo = (s'.allocators j).startAddr.toNat := congrArg (·.startAddr.toNat) hl
  have hhi : p.hi = (s'.pallocator j).hi := congrArg (·.endAddr.toNat) hl
  have hends : (s'.pallocator j).hi ≤ (s'.allocators j).endMeta.toNat :=
    (Nat.le_add_right _ _).trans (hheld'.ends j hj')
  obtain ⟨e, he, hu, h1, h2⟩ := hinv.usable j hj'
  have hapart := hinv.apart j hj'
  rw [UInt64.le_iff_toNat_le, UInt64.lt_iff_toNat_lt] at hapart
  exact ⟨⟨e, he, hu, by dsimp only; omega, by dsimp only; omega⟩, by dsimp only; omega⟩

/-- Two pages of low memory, handed out and returned. -/
def sampleCalls : List MemEvent := [.allocz 8192 (some 0xffffff800009c000), .free 0xffffff800009c000]

theorem memInit_heap_sample : ∃ s' t', memInit sampleKernel sampleMap sampleBoot = some s' ∧
    Machine.run Pool.memStep (s'.pool fun _ => 0) sampleCalls = some t' ∧ ∃ g, t'.Represents g := by
  have hK : sampleKernel.Valid := by decide
  have hsound : ∀ e ∈ sampleMap, e.usable → e.shifted.Sound sampleKernel := by decide +kernel
  have hlow : Low sampleMap := by
    unfold Low
    decide +kernel
  have hgentle (t : Pool) : Machine.Along Pool.memStep Pool.Gentle t sampleCalls :=
    ⟨trivial, fun _ _ => ⟨trivial, fun _ _ => trivial⟩⟩
  obtain ⟨s', hinit, hheap⟩ := memInit_heap sampleMap_valid hK sampleBoot_fresh hsound hlow
  have hsome : ((memInit sampleKernel sampleMap sampleBoot).bind fun s =>
      Machine.run Pool.memStep (s.pool fun _ => 0) sampleCalls).isSome := by decide +kernel
  rw [hinit, Option.bind_some] at hsome
  obtain ⟨t', ht⟩ := Option.isSome_iff_exists.mp hsome
  obtain ⟨g, -, hg, -⟩ := hheap (fun _ => 0) sampleCalls t' (hgentle _) ht
  exact ⟨s', t', hinit, ht, g, hg⟩

end Boot

end EpochKernel.Mem
