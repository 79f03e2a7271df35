import EpochKernel.Mem.MemInit

/-! `pallocator::init` on a region of memory: the zones fill it, unless it begins at address 0. -/
namespace EpochKernel.Mem
open EpochKernel.Util EpochKernel.Util.LinkedList EpochKernel.Library EpochKernel.Library.Block

namespace Pallocator
variable {p : Pallocator} {q : ℕ → List UInt64} {t : UInt64}

/-- The loop of `init` fills the range if it meets no address that it cannot handle, and it writes no
links outside of the range. -/
theorem Filling.fills (fuel : ℕ) (h : Filling p q t) (h12 : 12 ≤ p.fo)
    (hfuel : (p.hi - t.toNat) / 4096 < fuel)
    (hsafe : ∀ a : UInt64, p.lo ≤ a.toNat → a.toNat < p.hi → a ≠ 0 ∧ a.toNat ≠ 2 ^ 63 ∧
      (2 ^ (p.fo + 39) ∣ a.toNat → p.hi < a.toNat + 2 ^ (p.fo + 39))) :
    ∃ p' q', initLoop fuel t p = some p' ∧ Filling p' q' p'.endAddr ∧
      p'.toLayout = { p.toLayout with maxOrder := p'.maxOrder } ∧
      ∀ a : UInt64, ¬ (p.lo ≤ a.toNat ∧ a.toNat < p.hi) → p'.links a = p.links a := by
  induction fuel generalizing p q t with
  | zero => omega
  | succ fuel ih =>
    rw [initLoop_succ]
    have hhi : p.hi = p.endAddr.toNat := rfl
    by_cases hlt : t < p.endAddr
    · rw [if_pos hlt]
      rw [UInt64.lt_iff_toNat_lt] at hlt
      obtain ⟨ht0, ht63, hbig⟩ := hsafe t h.ge hlt
      have hord : (log2 (shrink (p.endAddr - t) 64 (alignOf t)) - p.foBits).toNat <
          maxSupportedMemBits := by
        obtain ⟨k, hsize, hdvd, hle, -, -⟩ := h.size hlt ht0 ht63
        rw [order_of_size hsize]
        by_contra hk
        have hk : 39 ≤ k := Nat.not_lt.mp hk
        have hpow : 2 ^ (p.fo + 39) ∣ 2 ^ (p.fo + k) := pow_dvd_pow 2 (by omega)
        have := hbig (hpow.trans hdvd)
        have := Nat.le_of_dvd (Nat.two_pow_pos _) hpow
        omega
      simp only [hord, if_true]
      obtain ⟨q', h', hge, hnext⟩ := h.step hlt ht0 ht63 hord
      obtain ⟨hlinks, -, -, -, -, hlayout⟩ := fillZone_fields p t
      have hfo : (p.fillZone t).fo = p.fo := by rw [fo, hlayout]; rfl
      have hlo : (p.fillZone t).lo = p.lo := by rw [lo, hlayout]; rfl
      have hhi' : (p.fillZone t).hi = p.hi := by rw [hi, hlayout]; rfl
      have h4096 : 4096 ≤ 2 ^ p.fo :=
        (by norm_num : 4096 = 2 ^ 12) ▸ Nat.pow_le_pow_right (by norm_num) h12
      have hle := h'.le
      rw [hhi', hnext] at hle
      obtain ⟨p', q'', heq, hfill, hlay, hframe⟩ := ih h' (by rw [hfo]; exact h12)
        (by rw [hhi', hnext]; omega) (by rw [hlo, hhi', hfo]; exact hsafe)
      refine ⟨p', q'', heq, hfill, by rw [hlay, hlayout], fun a ha => ?_⟩
      rw [hframe a (by rw [hlo, hhi']; exact ha), hlinks]
      -- the links change at the new zone and at the zones of its list
      have hout : ∀ j, a ∉ q j := by
        intro j hj
        have hin := h.tiles.inside ⟨a.toNat, p.fo + j, (h.zone j a hj).1⟩ ⟨j, a, hj, rfl, rfl⟩
        have := Nat.two_pow_pos (p.fo + j)
        have hle := h.le
        simp only [top, Block.size] at hin
        omega
      have hat : a ≠ t := by
        rintro rfl
        exact ha ⟨h.ge, hlt⟩
      have htq : ∀ j, t ∉ q j := by
        intro j hj
        have hin := (h.tiles.inside ⟨t.toNat, p.fo + j, (h.zone j t hj).1⟩ ⟨j, t, hj, rfl, rfl⟩).2
        have := Nat.two_pow_pos (p.fo + j)
        simp only [top, Block.size] at hin
        omega
      exact append_links_of_notMem (h.family.represents _) (htq _) (hout _) hat
    · rw [if_neg hlt]
      rw [UInt64.lt_iff_toNat_lt] at hlt
      have ht : t = p.endAddr := UInt64.toNat_inj.mp (by have := h.le; omega)
      exact ⟨p, q, rfl, ht ▸ h, rfl, fun _ _ => rfl⟩

lemma initOn_fresh (hl : p.lists = fun _ => {}) (hm : p.maxOrder = 0)
    (startAddr endAddr firstOrderSize : UInt64) :
    p.initOn startAddr endAddr firstOrderSize =
      init startAddr endAddr firstOrderSize p.links p.n p.metadata := by
  unfold initOn init
  rw [hl, hm]
  rfl

/-- What `init` gives on a region, with pages as the smallest zones. -/
structure Filled (links : Links UInt64) (startAddr endAddr : UInt64) (p : Pallocator)
    (q : ℕ → List UInt64) : Prop where
  start : p.startAddr = alignUp startAddr pageSize
  endMeta : p.endMeta = alignDown endAddr pageSize
  inside : startAddr.toNat ≤ p.startAddr.toNat ∧ p.startAddr.toNat < p.endMeta.toNat ∧
    p.endMeta.toNat ≤ endAddr.toNat
  family : Family p.links p.lists q
  zone : ∀ k, ∀ a ∈ q k, p.startAddr ≤ a ∧ a.toNat + 2 ^ (p.foBits.toNat + k) ≤ p.endMeta.toNat
  frame : ∀ a : UInt64, ¬ (p.startAddr ≤ a ∧ a < p.endMeta) → p.links a = links a

variable {startAddr endAddr : UInt64} (links : Links UInt64) (n : UInt64 → UInt64)
  (metadata : UInt64 → Metadata)

lemma initFields_page (startAddr endAddr : UInt64) :
    (initFields startAddr endAddr pageSize links n metadata).startAddr =
      alignUp startAddr pageSize ∧
    (initFields startAddr endAddr pageSize links n metadata).endMeta =
      alignDown endAddr pageSize ∧
    (initFields startAddr endAddr pageSize links n metadata).fo = 12 := ⟨rfl, rfl, rfl⟩

lemma kernelVma_toNat : kernelVma.toNat = 2 ^ 64 - 2 ^ 39 := by decide

theorem init_filled (hlen : startAddr.toNat + 65535 ≤ endAddr.toNat) (h0 : startAddr ≠ 0)
    (hplace : kernelVma ≤ startAddr ∨ endAddr.toNat < 2 ^ 52) :
    ∃ p q, init startAddr endAddr pageSize links n metadata = some p ∧
      Filled links startAddr endAddr p q := by
  have hp : pageSize.toNat = 2 ^ 12 := rfl
  have hend := endAddr.toNat_lt
  have hup := alignUp_toNat (x := startAddr) hp (by omega)
  have hdown := alignDown_toNat (x := endAddr) hp
  obtain ⟨hs, hm, hfo⟩ := initFields_page links n metadata startAddr endAddr
  have hlt : (initFields startAddr endAddr pageSize links n metadata).startAddr <
      (initFields startAddr endAddr pageSize links n metadata).endMeta := by
    rw [hs, hm, UInt64.lt_iff_toNat_lt, hup, hdown]
    omega
  have hprep := initFields_prepared links n metadata hp hlt
  set p0 := initFields startAddr endAddr pageSize links n metadata with hp0
  have hlo : p0.lo = (alignUp startAddr pageSize).toNat := rfl
  have hhi : p0.hi ≤ (alignDown endAddr pageSize).toNat := by
    rw [← hm]
    exact (Nat.le_add_right _ _).trans hprep.meta_le
  obtain ⟨p, q, heq, hfill, hlay, hframe⟩ := (hprep.filling rfl rfl rfl).fills _ hprep.page_le
    (Nat.lt_succ_self _) (by
      intro a h1 h2
      rw [hlo, hup] at h1
      rw [hfo]
      have h0 : startAddr.toNat ≠ 0 := fun hz => h0 (UInt64.toNat_inj.mp hz)
      refine ⟨?_, ?_, fun hdvd => ?_⟩
      · rintro rfl
        simp only [UInt64.toNat_zero] at h1
        omega
      · rcases hplace with hk | hl
        · have hk := UInt64.le_iff_toNat_le.mp hk
          rw [kernelVma_toNat] at hk
          omega
        · omega
      · have ha := Nat.le_of_dvd (by omega) hdvd
        rcases hplace with hk | hl
        · have hk := UInt64.le_iff_toNat_le.mp hk
          rw [kernelVma_toNat] at hk
          omega
        · omega)
  have hstart : p.startAddr = alignUp startAddr pageSize := by rw [hlay]; exact hs
  have hmeta : p.endMeta = alignDown endAddr pageSize := by rw [hlay]; exact hm
  have hhi' : p.hi = p0.hi := by rw [hi, hlay]; rfl
  refine ⟨p, q, ?_, hstart, hmeta, ?_, hfill.family, fun k a ha => ?_, fun a ha => hframe a ?_⟩
  · rw [init, if_pos hlt]
    exact heq
  · rw [hstart, hmeta, hup, hdown]
    omega
  · have hin := hfill.tiles.inside ⟨a.toNat, p.fo + k, (hfill.zone k a ha).1⟩ ⟨k, a, ha, rfl, rfl⟩
    simp only [top, Block.size] at hin
    refine ⟨UInt64.le_iff_toNat_le.mpr hin.1, hin.2.trans ?_⟩
    change p.hi ≤ _
    rw [hhi', hmeta]
    exact hhi
  · rw [hstart, hmeta] at ha
    intro hin
    exact ha ⟨UInt64.le_iff_toNat_le.mpr hin.1, UInt64.lt_iff_toNat_lt.mpr (hin.2.trans_le hhi)⟩

/-- The loop cannot handle address 0. -/
lemma init_zero (hs : alignUp startAddr pageSize = 0) (he : 2 ^ 14 ≤ endAddr.toNat) :
    init startAddr endAddr pageSize links n metadata = none := by
  have hp : pageSize.toNat = 2 ^ 12 := rfl
  have hend := endAddr.toNat_lt
  have hdown := alignDown_toNat (x := endAddr) hp
  obtain ⟨hs', hm, hfo⟩ := initFields_page links n metadata startAddr endAddr
  have hlt : (initFields startAddr endAddr pageSize links n metadata).startAddr <
      (initFields startAddr endAddr pageSize links n metadata).endMeta := by
    rw [hs', hm, hs, UInt64.lt_iff_toNat_lt, hdown, UInt64.toNat_zero]
    omega
  have hprep := initFields_prepared links n metadata hp hlt
  have hfill := hprep.filling rfl rfl rfl
  have hpos : 0 < (initFields startAddr endAddr pageSize links n metadata).endAddr := by
    -- the metadata takes less than the whole region
    have heq : (initFields startAddr endAddr pageSize links n metadata).endAddr =
        alignDown (alignDown endAddr pageSize - alignUp (8 * ((alignDown endAddr pageSize -
          alignUp startAddr pageSize) / pageSize)) pageSize) pageSize := rfl
    have h8 : (8 * ((alignDown endAddr pageSize - 0) / pageSize)).toNat =
        8 * (endAddr.toNat / 2 ^ 12) := by
      rw [UInt64.sub_zero, UInt64.toNat_mul, UInt64.toNat_div, hdown, hp]
      change 8 * _ % 2 ^ 64 = _
      omega
    have hup := alignUp_toNat (x := 8 * ((alignDown endAddr pageSize - 0) / pageSize)) hp (by omega)
    rw [UInt64.lt_iff_toNat_lt, heq, hs, alignDown_toNat hp, UInt64.toNat_sub_of_le, hup, h8, hdown]
    · rw [UInt64.toNat_zero]
      omega
    · rw [UInt64.le_iff_toNat_le, hup, h8, hdown]
      omega
  rw [init, if_pos hlt, initLoop_succ, hs', hs, if_pos hpos]
  have hord := hfill.order_of_zero (.inl (hs'.trans hs))
  rw [hs', hs] at hord
  simp only [Nat.not_lt.mpr hord, if_false]

/-- A region that runs around the end of the address space is refused, or begins at address 0. -/
lemma init_around (hlt : endAddr < startAddr)
    (he : 2 ^ 64 < startAddr.toNat + 2 ^ 12 → 2 ^ 14 ≤ endAddr.toNat) :
    init startAddr endAddr pageSize links n metadata = none := by
  have hp : pageSize.toNat = 2 ^ 12 := rfl
  by_cases hs : alignUp startAddr pageSize = 0
  · refine init_zero links n metadata hs (he ?_)
    by_contra hle
    have hlt := UInt64.lt_iff_toNat_lt.mp hlt
    have hup := alignUp_toNat (x := startAddr) hp (Nat.not_lt.mp hle)
    rw [hs, UInt64.toNat_zero] at hup
    omega
  · have hlt := UInt64.lt_iff_toNat_lt.mp hlt
    have hdown := alignDown_le (x := endAddr) hp
    obtain ⟨hs', hm, -⟩ := initFields_page links n metadata startAddr endAddr
    have hge : startAddr.toNat ≤ (alignUp startAddr pageSize).toNat := by
      by_cases hwrap : startAddr.toNat + 2 ^ 12 ≤ 2 ^ 64
      · rw [alignUp_toNat hp hwrap]
        omega
      · -- aligning up gives 0
        have hsum : (startAddr + pageSize - 1).toNat < 2 ^ 12 := by
          have := startAddr.toNat_lt
          rw [UInt64.toNat_sub, UInt64.toNat_add, hp, UInt64.toNat_one]
          omega
        refine absurd (UInt64.toNat_inj.mp ?_) hs
        rw [alignUp_eq_alignDown, alignDown_toNat hp, Nat.div_eq_of_lt hsum, Nat.zero_mul]
        rfl
    rw [init, if_neg]
    rw [hs', hm, gt_iff_lt, UInt64.lt_iff_toNat_lt]
    omega

end Pallocator

end EpochKernel.Mem
