import EpochKernel.Mem.PallocatorRegion

/-! What `mem::init` does with a memory map: each region gives at most one allocator if it is sound, and
the map is shared out exactly if all regions are. -/
namespace EpochKernel.Mem
open EpochKernel.Util EpochKernel.Util.LinkedList

namespace MmapEntry
variable {e d : MmapEntry} {K : Kernel}

lemma buddyAllocMinSize_toNat : buddyAllocMinSize.toNat = 65536 := by decide

lemma usable_iff : e.usable ↔ e.type = 1 ∧ 65536 ≤ e.len.toNat := by
  unfold usable
  rw [not_or, not_not, UInt64.lt_iff_toNat_lt, buddyAllocMinSize_toNat, Nat.not_lt]

lemma shifted_len (e : MmapEntry) : e.shifted.len = e.len := by
  cases e
  rfl

lemma shifted_toNat (e : MmapEntry) :
    e.shifted.addr.toNat = (e.addr.toNat + (2 ^ 64 - 2 ^ 39)) % 2 ^ 64 := by
  unfold shifted
  rw [UInt64.toNat_add, Pallocator.kernelVma_toNat]

/-- Regions that do not overlap do not do so when they are shifted. -/
lemma shifted_disjoint (hd : d.addr.toNat + d.len.toNat ≤ 2 ^ 52)
    (he : e.addr.toNat + e.len.toNat ≤ 2 ^ 52)
    (h : d.addr.toNat + d.len.toNat ≤ e.addr.toNat ∨ e.addr.toNat + e.len.toNat ≤ d.addr.toNat) :
    d.shifted.addr.toNat + d.len.toNat ≤ e.shifted.addr.toNat ∨
      e.shifted.addr.toNat + e.len.toNat ≤ d.shifted.addr.toNat := by
  have hd' := d.shifted_toNat
  have he' := e.shifted_toNat
  omega

lemma shifted_hasText : e.shifted.hasText K ↔
    K.textStart ≥ e.shifted.addr ∧ K.textStart < e.shifted.addr + e.len := by
  unfold hasText
  rw [shifted_len]

lemma shifted_hasEnd : e.shifted.hasEnd K ↔
    K.kernelEnd ≥ e.shifted.addr ∧ K.kernelEnd < e.shifted.addr + e.len := by
  unfold hasEnd
  rw [shifted_len]

lemma shifted_roomBehind : e.shifted.roomBehind K ↔
    e.shifted.addr + e.len - 1 - K.kernelEnd ≥ buddyAllocMinSize := by
  unfold roomBehind
  rw [shifted_len]

lemma last_toNat (hpos : 0 < e.len.toNat)
    (hfit : e.shifted.addr.toNat + e.len.toNat ≤ 2 ^ 64) :
    (e.shifted.addr + e.len - 1).toNat = e.shifted.addr.toNat + e.len.toNat - 1 := by
  have := e.shifted.addr.toNat_lt
  rw [UInt64.toNat_sub, UInt64.toNat_add, UInt64.toNat_one]
  omega

lemma ne_zero_of_high {x : UInt64} (h : kernelVma ≤ x) : x ≠ 0 := by
  rintro rfl
  have h := UInt64.le_iff_toNat_le.mp h
  rw [Pallocator.kernelVma_toNat, UInt64.toNat_zero] at h
  omega

/-- A region in which a test finds an end of the kernel is in one piece and lies in the upper part. -/
lemma one_piece {x : UInt64} (he : e.addr.toNat + e.len.toNat ≤ 2 ^ 52) (hx : kernelVma ≤ x)
    (hge : x ≥ e.shifted.addr) (hlt : x < e.shifted.addr + e.len) :
    e.shifted.addr.toNat + e.len.toNat < 2 ^ 64 ∧ kernelVma ≤ e.shifted.addr ∧
      e.shifted.addr.toNat ≤ x.toNat ∧ x.toNat < e.shifted.addr.toNat + e.len.toNat := by
  have hs := e.shifted_toNat
  have hv := Pallocator.kernelVma_toNat
  have hxlt := x.toNat_lt
  rw [ge_iff_le, UInt64.le_iff_toNat_le] at hge
  rw [UInt64.lt_iff_toNat_lt, UInt64.toNat_add] at hlt
  rw [UInt64.le_iff_toNat_le] at hx ⊢
  omega

end MmapEntry

namespace Boot
variable {s s' : Boot} {K : Kernel} {done es all : List MmapEntry} {e : MmapEntry}

/-- The allocators so far share out the regions in `done`. -/
structure Inv (K : Kernel) (done : List MmapEntry) (s : Boot) : Prop where
  once : ∀ i < s.allocatorLen, s.inits i = 1
  fresh : ∀ i, s.allocatorLen ≤ i → (s.allocators i).lists = (fun _ => {}) ∧
    (s.allocators i).maxOrder = 0 ∧ s.inits i = 0
  disjoint : ∀ i < s.allocatorLen, ∀ j < s.allocatorLen, i ≠ j →
    (s.allocators i).endMeta ≤ (s.allocators j).startAddr ∨
      (s.allocators j).endMeta ≤ (s.allocators i).startAddr
  usable : ∀ i < s.allocatorLen, ∃ e ∈ done, e.usable ∧
    e.shifted.addr.toNat ≤ (s.allocators i).startAddr.toNat ∧
    (s.allocators i).endMeta.toNat ≤ e.shifted.addr.toNat + e.len.toNat
  apart : ∀ i < s.allocatorLen,
    (s.allocators i).endMeta ≤ K.textStart ∨ K.kernelEnd < (s.allocators i).startAddr
  own : ∀ i < s.allocatorLen, ∃ q, Family s.links (s.allocators i).lists q ∧
    ∀ k, ∀ a ∈ q k, (s.allocators i).startAddr ≤ a ∧
      a.toNat + 2 ^ ((s.allocators i).foBits.toNat + k) ≤ (s.allocators i).endMeta.toNat

lemma Fresh.inv (h : s.Fresh) (K : Kernel) : s.Inv K [] where
  once := by simp [h.len]
  fresh := fun i _ => ⟨h.lists i, h.maxOrder i, h.inits i⟩
  disjoint := by simp [h.len]
  usable := by simp [h.len]
  apart := by simp [h.len]
  own := by simp [h.len]

lemma Inv.partitioned (h : s.Inv K done) (hsub : done ⊆ es) : s.Partitioned K es where
  once := h.once
  disjoint := h.disjoint
  usable := by
    intro i hi
    obtain ⟨e, he, hr⟩ := h.usable i hi
    exact ⟨e, hsub he, hr⟩
  apart := h.apart
  own := by
    intro i hi k a ha
    obtain ⟨q, hf, hq⟩ := h.own i hi
    have hz : (s.pallocator i).zones k = q k := (hf.represents k).nodes_eq
    exact hq k a (hz ▸ ha)

lemma Inv.mono (h : s.Inv K done) {done' : List MmapEntry} (hsub : done ⊆ done') :
    s.Inv K done' where
  once := h.once
  fresh := h.fresh
  disjoint := h.disjoint
  usable := by
    intro i hi
    obtain ⟨e, he, hr⟩ := h.usable i hi
    exact ⟨e, hsub he, hr⟩
  apart := h.apart
  own := h.own

lemma init_fresh {i : ℕ} (hl : (s.allocators i).lists = fun _ => {})
    (hm : (s.allocators i).maxOrder = 0) (startAddr endAddr : UInt64) :
    s.init i startAddr endAddr =
      (Pallocator.init startAddr endAddr pageSize s.links s.n s.metadata).map fun p => { s with
        allocators := Function.update s.allocators i p
        links := p.links
        n := p.n
        metadata := p.metadata
        inits := Function.update s.inits i (s.inits i + 1) } := by
  have h := Pallocator.initOn_fresh (p := s.pallocator i) hl hm startAddr endAddr pageSize
  unfold init
  rw [h]
  rfl

/-- The next allocator takes a part of a region that is none of those before. -/
theorem Inv.grow (h : s.Inv K done) {startAddr endAddr : UInt64} (hu : e.usable)
    (hlen : startAddr.toNat + 65535 ≤ endAddr.toNat) (h0 : startAddr ≠ 0)
    (hplace : kernelVma ≤ startAddr ∨ endAddr.toNat < 2 ^ 52)
    (hin : e.shifted.addr.toNat ≤ startAddr.toNat ∧
      endAddr.toNat ≤ e.shifted.addr.toNat + e.len.toNat)
    (hapart : alignDown endAddr pageSize ≤ K.textStart ∨ K.kernelEnd < alignUp startAddr pageSize)
    (hdone : ∀ d ∈ done, d.usable →
      d.shifted.addr.toNat + d.len.toNat ≤ e.shifted.addr.toNat ∨
        e.shifted.addr.toNat + e.len.toNat ≤ d.shifted.addr.toNat) :
    ∃ s', s.init s.allocatorLen startAddr endAddr = some s' ∧
      Inv K (done ++ [e]) { s' with allocatorLen := s.allocatorLen + 1 } := by
  obtain ⟨hl, hm, hi0⟩ := h.fresh s.allocatorLen le_rfl
  obtain ⟨p, q, hp, hfilled⟩ := Pallocator.init_filled s.links s.n s.metadata hlen h0 hplace
  have hinit := init_fresh hl hm startAddr endAddr
  rw [hp] at hinit
  have hother : ∀ i, i ≠ s.allocatorLen →
      Function.update s.allocators s.allocatorLen p i = s.allocators i :=
    fun i hne => Function.update_of_ne hne _ _
  have hself : Function.update s.allocators s.allocatorLen p s.allocatorLen = p :=
    Function.update_self _ _ _
  obtain ⟨hin1, hin2, hin3⟩ := hfilled.inside
  have hnew : ∀ i < s.allocatorLen, (s.allocators i).endMeta ≤ p.startAddr ∨
      p.endMeta ≤ (s.allocators i).startAddr := by
    intro i hi
    obtain ⟨d, hd, hdu, hd1, hd2⟩ := h.usable i hi
    rw [UInt64.le_iff_toNat_le, UInt64.le_iff_toNat_le]
    have := hdone d hd hdu
    omega
  refine ⟨_, hinit, ?_⟩
  constructor
  case once =>
    intro i hi
    change Function.update s.inits s.allocatorLen (s.inits s.allocatorLen + 1) i = 1
    by_cases hiN : i = s.allocatorLen
    · rw [hiN, Function.update_self, hi0]
    · rw [Function.update_of_ne hiN]
      exact h.once i (lt_of_le_of_ne (Nat.le_of_lt_succ hi) hiN)
  case fresh =>
    intro i hi
    have hiN : i ≠ s.allocatorLen := (Nat.lt_of_succ_le hi).ne'
    change (Function.update s.allocators s.allocatorLen p i).lists = _ ∧
      (Function.update s.allocators s.allocatorLen p i).maxOrder = 0 ∧
      Function.update s.inits s.allocatorLen (s.inits s.allocatorLen + 1) i = 0
    rw [hother i hiN, Function.update_of_ne hiN]
    exact h.fresh i (Nat.le_of_succ_le hi)
  case disjoint =>
    intro i hi j hj hij
    change (Function.update s.allocators s.allocatorLen p i).endMeta ≤
      (Function.update s.allocators s.allocatorLen p j).startAddr ∨
      (Function.update s.allocators s.allocatorLen p j).endMeta ≤
      (Function.update s.allocators s.allocatorLen p i).startAddr
    by_cases hiN : i = s.allocatorLen
    · have hjN : j ≠ s.allocatorLen := fun hj => hij (hiN.trans hj.symm)
      rw [hiN, hself, hother j hjN]
      exact (hnew j (lt_of_le_of_ne (Nat.le_of_lt_succ hj) hjN)).symm
    · by_cases hjN : j = s.allocatorLen
      · rw [hjN, hself, hother i hiN]
        exact hnew i (lt_of_le_of_ne (Nat.le_of_lt_succ hi) hiN)
      · rw [hother i hiN, hother j hjN]
        exact h.disjoint i (lt_of_le_of_ne (Nat.le_of_lt_succ hi) hiN) j
          (lt_of_le_of_ne (Nat.le_of_lt_succ hj) hjN) hij
  case usable =>
    intro i hi
    change ∃ d ∈ done ++ [e], d.usable ∧
      d.shifted.addr.toNat ≤ (Function.update s.allocators s.allocatorLen p i).startAddr.toNat ∧
      (Function.update s.allocators s.allocatorLen p i).endMeta.toNat ≤
        d.shifted.addr.toNat + d.len.toNat
    by_cases hiN : i = s.allocatorLen
    · rw [hiN, hself]
      exact ⟨e, by simp, hu, hin.1.trans hin1, hin3.trans hin.2⟩
    · rw [hother i hiN]
      obtain ⟨d, hd, hr⟩ := h.usable i (lt_of_le_of_ne (Nat.le_of_lt_succ hi) hiN)
      exact ⟨d, List.mem_append_left _ hd, hr⟩
  case apart =>
    intro i hi
    change (Function.update s.allocators s.allocatorLen p i).endMeta ≤ K.textStart ∨
      K.kernelEnd < (Function.update s.allocators s.allocatorLen p i).startAddr
    by_cases hiN : i = s.allocatorLen
    · rw [hiN, hself, hfilled.start, hfilled.endMeta]
      exact hapart
    · rw [hother i hiN]
      exact h.apart i (lt_of_le_of_ne (Nat.le_of_lt_succ hi) hiN)
  case own =>
    intro i hi
    change ∃ q, Family p.links (Function.update s.allocators s.allocatorLen p i).lists q ∧
      ∀ k, ∀ a ∈ q k, (Function.update s.allocators s.allocatorLen p i).startAddr ≤ a ∧
        a.toNat + 2 ^ ((Function.update s.allocators s.allocatorLen p i).foBits.toNat + k) ≤
          (Function.update s.allocators s.allocatorLen p i).endMeta.toNat
    by_cases hiN : i = s.allocatorLen
    · rw [hiN, hself]
      exact ⟨q, hfilled.family, hfilled.zone⟩
    · rw [hother i hiN]
      have hlt := lt_of_le_of_ne (Nat.le_of_lt_succ hi) hiN
      obtain ⟨q', hf, hq'⟩ := h.own i hlt
      refine ⟨q', ⟨fun k => (hf.represents k).congr fun a ha => ?_, hf.disjoint⟩, hq'⟩
      -- the new allocator writes no links in the range of this one
      obtain ⟨ha1, ha2⟩ := hq' k a ha
      apply hfilled.frame
      rintro ⟨hp1, hp2⟩
      have hpos := Nat.two_pow_pos ((s.allocators i).foBits.toNat + k)
      have hdis := hnew i hlt
      rw [UInt64.le_iff_toNat_le] at ha1 hp1
      rw [UInt64.lt_iff_toNat_lt] at hp2
      rw [UInt64.le_iff_toNat_le, UInt64.le_iff_toNat_le] at hdis
      omega

section Region
variable (h : s.Inv K done) (hK : K.Valid) (hu : e.usable)
  (hphys : e.addr.toNat + e.len.toNat ≤ 2 ^ 52)
  (hdone : ∀ d ∈ done, d.usable →
    d.shifted.addr.toNat + d.len.toNat ≤ e.shifted.addr.toNat ∨
      e.shifted.addr.toNat + e.len.toNat ≤ d.shifted.addr.toNat)
include h hK hu hphys hdone

/-- The part before the kernel. -/
lemma Inv.before (hT : e.shifted.hasText K) (hR : e.shifted.roomBefore K) :
    ∃ s', s.init s.allocatorLen e.shifted.addr (K.textStart - 1) = some s' ∧
      Inv K (done ++ [e]) { s' with allocatorLen := s.allocatorLen + 1 } := by
  have hp : pageSize.toNat = 2 ^ 12 := rfl
  obtain ⟨hge', hlt'⟩ := MmapEntry.shifted_hasText.mp hT
  obtain ⟨hfit, hhigh, hge, hlt⟩ := MmapEntry.one_piece hphys hK.1 hge' hlt'
  have hroom := UInt64.le_iff_toNat_le.mp hR
  rw [UInt64.toNat_sub_of_le _ _ hge', MmapEntry.buddyAllocMinSize_toNat] at hroom
  have hend : (K.textStart - 1).toNat = K.textStart.toNat - 1 :=
    UInt64.toNat_sub_of_le _ _ (UInt64.le_iff_toNat_le.mpr (by rw [UInt64.toNat_one]; omega))
  have hapart : alignDown (K.textStart - 1) pageSize ≤ K.textStart :=
    UInt64.le_iff_toNat_le.mpr ((alignDown_le hp).trans (by omega))
  exact h.grow hu (by omega) (MmapEntry.ne_zero_of_high hhigh) (.inl hhigh) ⟨le_rfl, by omega⟩
    (.inl hapart) hdone

/-- The part behind it. -/
lemma Inv.behind (hE : e.shifted.hasEnd K) (hR : e.shifted.roomBehind K) :
    ∃ s', s.init s.allocatorLen (K.kernelEnd + 1) (e.shifted.addr + e.len - 1) = some s' ∧
      Inv K (done ++ [e]) { s' with allocatorLen := s.allocatorLen + 1 } := by
  have hp : pageSize.toNat = 2 ^ 12 := rfl
  have hKend : kernelVma ≤ K.kernelEnd := UInt64.le_trans hK.1 hK.2
  obtain ⟨hge', hlt'⟩ := MmapEntry.shifted_hasEnd.mp hE
  obtain ⟨hfit, -, hge, hlt⟩ := MmapEntry.one_piece hphys hKend hge' hlt'
  have hlast := MmapEntry.last_toNat (e := e) (by omega) (by omega)
  have hroom := UInt64.le_iff_toNat_le.mp (MmapEntry.shifted_roomBehind.mp hR)
  rw [UInt64.toNat_sub_of_le _ _ (UInt64.le_iff_toNat_le.mpr (by rw [hlast]; omega)),
    hlast, MmapEntry.buddyAllocMinSize_toNat] at hroom
  have hnext : (K.kernelEnd + 1).toNat = K.kernelEnd.toNat + 1 := by
    rw [UInt64.toNat_add, UInt64.toNat_one]
    omega
  have hhigh : kernelVma ≤ K.kernelEnd + 1 :=
    UInt64.le_iff_toNat_le.mpr ((UInt64.le_iff_toNat_le.mp hKend).trans (by omega))
  have hapart : K.kernelEnd < alignUp (K.kernelEnd + 1) pageSize := by
    rw [UInt64.lt_iff_toNat_lt, alignUp_toNat hp (by omega), hnext]
    omega
  exact h.grow hu (by omega) (MmapEntry.ne_zero_of_high hhigh) (.inl hhigh)
    ⟨by omega, by omega⟩ (.inr hapart) hdone

omit hK in
/-- A region without an end of the kernel. -/
lemma Inv.whole (hne : e.shifted.addr ≠ 0) (hfit : e.shifted.addr.toNat + e.len.toNat ≤ 2 ^ 64)
    (hapart : alignDown (e.shifted.addr + e.len - 1) pageSize ≤ K.textStart ∨
      K.kernelEnd < alignUp e.shifted.addr pageSize) :
    ∃ s', s.init s.allocatorLen e.shifted.addr (e.shifted.addr + e.len - 1) = some s' ∧
      Inv K (done ++ [e]) { s' with allocatorLen := s.allocatorLen + 1 } := by
  obtain ⟨htype, hlen⟩ := MmapEntry.usable_iff.mp hu
  have hshift := e.shifted_toNat
  have hlast := MmapEntry.last_toNat (e := e) (by omega) hfit
  have hplace : kernelVma ≤ e.shifted.addr ∨ (e.shifted.addr + e.len - 1).toNat < 2 ^ 52 := by
    rw [UInt64.le_iff_toNat_le, Pallocator.kernelVma_toNat]
    omega
  exact h.grow hu (by omega) hne hplace ⟨le_rfl, by omega⟩ hapart hdone

/-- A region that is sound gives at most one allocator. -/
theorem Inv.sound (hs : e.shifted.Sound K) :
    ∃ s' out, s.initAllocator K s.allocatorLen e.shifted = some (s', out) ∧ out ≤ 1 ∧
      Inv K (done ++ [e]) { s' with allocatorLen := s.allocatorLen + out } := by
  obtain ⟨hboth, hnone⟩ := hs
  unfold initAllocator
  rw [MmapEntry.shifted_len] at hnone ⊢
  by_cases hT : e.shifted.hasText K ∧ e.shifted.roomBefore K
  · have hE : ¬ (e.shifted.hasEnd K ∧ e.shifted.roomBehind K) :=
      fun hE => hboth ⟨hT.1, hT.2, hE.1, hE.2⟩
    obtain ⟨s', hinit, hinv⟩ := h.before hK hu hphys hdone hT.1 hT.2
    refine ⟨s', 1, ?_, le_rfl, hinv⟩
    have hf : ¬ (¬ e.shifted.hasText K ∧ ¬ e.shifted.hasEnd K) := fun hf => hf.1 hT.1
    rw [if_pos hT, hinit, Option.bind_some, if_neg hE, Option.bind_some, if_neg hf, if_pos hT,
      if_neg hE]
  · by_cases hE : e.shifted.hasEnd K ∧ e.shifted.roomBehind K
    · obtain ⟨s', hinit, hinv⟩ := h.behind hK hu hphys hdone hE.1 hE.2
      refine ⟨s', 1, ?_, le_rfl, hinv⟩
      have hf : ¬ (¬ e.shifted.hasText K ∧ ¬ e.shifted.hasEnd K) := fun hf => hf.2 hE.1
      rw [if_neg hT, Option.bind_some, if_pos hE, hinit, Option.bind_some, if_neg hf, if_neg hT,
        if_pos hE]
    · by_cases hf : ¬ e.shifted.hasText K ∧ ¬ e.shifted.hasEnd K
      · obtain ⟨hne, hfit, hapart⟩ := hnone hf.1 hf.2
        obtain ⟨s', hinit, hinv⟩ := h.whole hu hphys hdone hne hfit hapart
        refine ⟨s', 1, ?_, le_rfl, hinv⟩
        rw [if_neg hT, Option.bind_some, if_neg hE, Option.bind_some, if_pos hf, hinit]
        rfl
      · refine ⟨s, 0, ?_, Nat.zero_le _, h.mono (List.subset_append_left _ _)⟩
        rw [if_neg hT, Option.bind_some, if_neg hE, Option.bind_some, if_neg hf, if_neg hT,
          if_neg hE]

end Region

/-- A call of `init` concerns one object. -/
lemma init_other {i : ℕ} {startAddr endAddr : UInt64} (h : s.init i startAddr endAddr = some s') :
    s'.allocatorLen = s.allocatorLen ∧ s'.inits i = s.inits i + 1 ∧
      ∀ j, j ≠ i → s'.inits j = s.inits j ∧ s'.allocators j = s.allocators j := by
  obtain ⟨p, -, rfl⟩ := Option.map_eq_some_iff.mp h
  refine ⟨rfl, Function.update_self _ _ _, fun j hj => ⟨?_, ?_⟩⟩
  · exact Function.update_of_ne hj _ _
  · exact Function.update_of_ne hj _ _

lemma initAllocator_other {i out : ℕ} (h : s.initAllocator K i e = some (s', out)) :
    s'.allocatorLen = s.allocatorLen ∧
      ∀ j, j ≠ i → s'.inits j = s.inits j ∧ s'.allocators j = s.allocators j := by
  have hif : ∀ {c : Prop} [Decidable c] {r r' : Boot} {a b : UInt64},
      (if c then r.init i a b else some r) = some r' → r'.allocatorLen = r.allocatorLen ∧
        ∀ j, j ≠ i → r'.inits j = r.inits j ∧ r'.allocators j = r.allocators j := by
    intro c _ r r' a b hr
    split_ifs at hr
    · exact ⟨(init_other hr).1, (init_other hr).2.2⟩
    · obtain rfl := Option.some.inj hr
      exact ⟨rfl, fun _ _ => ⟨rfl, rfl⟩⟩
  unfold initAllocator at h
  obtain ⟨s1, h1, h⟩ := Option.bind_eq_some_iff.mp h
  obtain ⟨s2, h2, h⟩ := Option.bind_eq_some_iff.mp h
  obtain ⟨hl1, ho1⟩ := hif h1
  obtain ⟨hl2, ho2⟩ := hif h2
  have hlast : s'.allocatorLen = s2.allocatorLen ∧
      ∀ j, j ≠ i → s'.inits j = s2.inits j ∧ s'.allocators j = s2.allocators j := by
    split_ifs at h
    · obtain ⟨s3, h3, heq⟩ := Option.map_eq_some_iff.mp h
      obtain ⟨rfl, -⟩ := Prod.mk.inj heq
      exact ⟨(init_other h3).1, (init_other h3).2.2⟩
    all_goals
      obtain ⟨rfl, -⟩ := Prod.mk.inj (Option.some.inj h)
      exact ⟨rfl, fun _ _ => ⟨rfl, rfl⟩⟩
  refine ⟨hlast.1.trans (hl2.trans hl1), fun j hj => ⟨?_, ?_⟩⟩
  · rw [(hlast.2 j hj).1, (ho2 j hj).1, (ho1 j hj).1]
  · rw [(hlast.2 j hj).2, (ho2 j hj).2, (ho1 j hj).2]

lemma memInit_none (hu : e.usable) (hlen : s.allocatorLen < maxMemNodes)
    (hi : s.initAllocator K s.allocatorLen e.shifted = none) : memInit K (e :: es) s = none := by
  rw [memInit, if_pos hlen, if_neg (not_not_intro hu), hi]
  rfl

lemma memInit_some {out : ℕ} (hu : e.usable) (hlen : s.allocatorLen < maxMemNodes)
    (hi : s.initAllocator K s.allocatorLen e.shifted = some (s', out)) :
    memInit K (e :: es) s =
      if s'.allocatorLen + out > maxMemNodes then none
      else memInit K es { s' with allocatorLen := s'.allocatorLen + out } := by
  rw [memInit, if_pos hlen, if_neg (not_not_intro hu), hi]
  rfl

lemma memInit_skip (hu : ¬ e.usable) (hlen : s.allocatorLen < maxMemNodes) :
    memInit K (e :: es) s = memInit K es s := by
  rw [memInit, if_pos hlen, if_pos hu]

lemma memInit_full (hlen : ¬ s.allocatorLen < maxMemNodes) : memInit K (e :: es) s = some s := by
  rw [memInit, if_neg hlen]

/-- The allocators that there are stay as they are. -/
lemma memInit_keeps (h : memInit K es s = some s') : s.allocatorLen ≤ s'.allocatorLen ∧
    ∀ j < s.allocatorLen, s'.inits j = s.inits j ∧ s'.allocators j = s.allocators j := by
  induction es generalizing s with
  | nil =>
    obtain rfl := Option.some.inj h
    exact ⟨le_rfl, fun _ _ => ⟨rfl, rfl⟩⟩
  | cons e es ih =>
    by_cases hlen : s.allocatorLen < maxMemNodes
    · by_cases hu : e.usable
      · cases hi : s.initAllocator K s.allocatorLen e.shifted with
        | none =>
          rw [memInit_none hu hlen hi] at h
          cases h
        | some r =>
          obtain ⟨s1, out⟩ := r
          obtain ⟨hl, ho⟩ := initAllocator_other hi
          rw [memInit_some hu hlen hi, hl] at h
          split_ifs at h
          obtain ⟨hle, hk⟩ := ih h
          have hle : s.allocatorLen + out ≤ s'.allocatorLen := hle
          refine ⟨(Nat.le_add_right _ _).trans hle, fun j hj => ?_⟩
          obtain ⟨h1, h2⟩ := hk j (Nat.lt_add_right out hj)
          obtain ⟨h3, h4⟩ := ho j hj.ne
          exact ⟨h1.trans h3, h2.trans h4⟩
      · rw [memInit_skip hu hlen] at h
        exact ih h
    · rw [memInit_full hlen] at h
      obtain rfl := Option.some.inj h
      exact ⟨le_rfl, fun _ _ => ⟨rfl, rfl⟩⟩

/-- A region that is not sound spoils the next allocator, if `init` returns at all. -/
theorem Inv.unsound (h : s.Inv K done) (hu : e.usable)
    (hphys : e.addr.toNat + e.len.toNat ≤ 2 ^ 52) (hs : ¬ e.shifted.Sound K) {out : ℕ}
    (hi : s.initAllocator K s.allocatorLen e.shifted = some (s', out)) :
    0 < out ∧ (s'.inits s.allocatorLen ≠ 1 ∨
      ¬ ((s'.allocators s.allocatorLen).endMeta ≤ K.textStart ∨
        K.kernelEnd < (s'.allocators s.allocatorLen).startAddr)) := by
  obtain ⟨hl, hm, hi0⟩ := h.fresh s.allocatorLen le_rfl
  unfold initAllocator at hi
  unfold MmapEntry.Sound at hs
  rw [MmapEntry.shifted_len] at hs hi
  by_cases hboth : e.shifted.hasText K ∧ e.shifted.roomBefore K ∧ e.shifted.hasEnd K ∧
      e.shifted.roomBehind K
  · -- both parts go to one object
    obtain ⟨hT, hR, hE, hR'⟩ := hboth
    have hf : ¬ (¬ e.shifted.hasText K ∧ ¬ e.shifted.hasEnd K) := fun hf => hf.1 hT
    rw [if_pos ⟨hT, hR⟩] at hi
    obtain ⟨s1, h1, hi⟩ := Option.bind_eq_some_iff.mp hi
    rw [if_pos ⟨hE, hR'⟩] at hi
    obtain ⟨s2, h2, hi⟩ := Option.bind_eq_some_iff.mp hi
    rw [if_neg hf, if_pos ⟨hT, hR⟩, if_pos ⟨hE, hR'⟩] at hi
    obtain ⟨rfl, rfl⟩ := Prod.mk.inj (Option.some.inj hi)
    refine ⟨by decide, .inl ?_⟩
    rw [(init_other h2).2.1, (init_other h1).2.1, hi0]
    decide
  · obtain ⟨hT, hE, hbad⟩ : ¬ e.shifted.hasText K ∧ ¬ e.shifted.hasEnd K ∧
        ¬ (e.shifted.addr ≠ 0 ∧ e.shifted.addr.toNat + e.len.toNat ≤ 2 ^ 64 ∧
          (alignDown (e.shifted.addr + e.len - 1) pageSize ≤ K.textStart ∨
            K.kernelEnd < alignUp e.shifted.addr pageSize)) := by
      simpa [hboth] using hs
    have hT' : ¬ (e.shifted.hasText K ∧ e.shifted.roomBefore K) := fun hx => hT hx.1
    have hE' : ¬ (e.shifted.hasEnd K ∧ e.shifted.roomBehind K) := fun hx => hE hx.1
    rw [if_neg hT', Option.bind_some, if_neg hE', Option.bind_some, if_pos ⟨hT, hE⟩] at hi
    obtain ⟨s1, h1, heq⟩ := Option.map_eq_some_iff.mp hi
    obtain ⟨rfl, rfl⟩ := Prod.mk.inj heq
    rw [init_fresh hl hm] at h1
    obtain ⟨p, hp, rfl⟩ := Option.map_eq_some_iff.mp h1
    obtain ⟨htype, hlen⟩ := MmapEntry.usable_iff.mp hu
    have hshift := e.shifted_toNat
    have hlt := e.shifted.addr.toNat_lt
    have hne : e.shifted.addr ≠ 0 := by
      intro hz
      have hlast := MmapEntry.last_toNat (e := e) (by omega) (by rw [hz, UInt64.toNat_zero]; omega)
      have hup : alignUp e.shifted.addr pageSize = 0 := by
        rw [hz]
        decide
      have hnone := Pallocator.init_zero s.links s.n s.metadata hup
        (by rw [hlast]; omega : 2 ^ 14 ≤ (e.shifted.addr + e.len - 1).toNat)
      rw [hp] at hnone
      cases hnone
    have hfit : e.shifted.addr.toNat + e.len.toNat ≤ 2 ^ 64 := by
      by_contra hwrap
      have hlast : (e.shifted.addr + e.len - 1).toNat =
          e.shifted.addr.toNat + e.len.toNat - 1 - 2 ^ 64 := by
        rw [UInt64.toNat_sub, UInt64.toNat_add, UInt64.toNat_one]
        omega
      have haround : e.shifted.addr + e.len - 1 < e.shifted.addr := by
        rw [UInt64.lt_iff_toNat_lt, hlast]
        omega
      have hnone := Pallocator.init_around s.links s.n s.metadata haround (by rw [hlast]; omega)
      rw [hp] at hnone
      cases hnone
    have hlast := MmapEntry.last_toNat (e := e) (by omega) hfit
    have hplace : kernelVma ≤ e.shifted.addr ∨ (e.shifted.addr + e.len - 1).toNat < 2 ^ 52 := by
      rw [UInt64.le_iff_toNat_le, Pallocator.kernelVma_toNat]
      omega
    have hroom : e.shifted.addr.toNat + 65535 ≤ (e.shifted.addr + e.len - 1).toNat := by omega
    obtain ⟨p', q, hp', hfilled⟩ :=
      Pallocator.init_filled s.links s.n s.metadata hroom hne hplace
    obtain rfl := Option.some.inj (hp.symm.trans hp')
    refine ⟨by decide, .inr fun hapart => hbad ⟨hne, hfit, ?_⟩⟩
    have hself : Function.update s.allocators s.allocatorLen p s.allocatorLen = p :=
      Function.update_self _ _ _
    rw [← hfilled.start, ← hfilled.endMeta, ← hself]
    exact hapart

/-- What is left of a memory map, behind the regions that are done. -/
structure Rest (done es : List MmapEntry) (s : Boot) : Prop where
  disjoint : ∀ d ∈ done, ∀ e ∈ es, d.usable → e.usable →
    d.shifted.addr.toNat + d.len.toNat ≤ e.shifted.addr.toNat ∨
      e.shifted.addr.toNat + e.len.toNat ≤ d.shifted.addr.toNat
  pairwise : es.Pairwise fun d e => d.usable → e.usable →
    d.shifted.addr.toNat + d.len.toNat ≤ e.shifted.addr.toNat ∨
      e.shifted.addr.toNat + e.len.toNat ≤ d.shifted.addr.toNat
  physical : ∀ e ∈ es, e.usable → e.addr.toNat + e.len.toNat ≤ 2 ^ 52
  few : s.allocatorLen + (es.filter fun e => e.usable).length ≤ maxMemNodes

lemma Rest.tail (h : Rest done (e :: es) s)
    (hfew : s'.allocatorLen + (es.filter fun e => e.usable).length ≤ maxMemNodes) :
    Rest (done ++ [e]) es s' where
  disjoint := by
    intro d hd e' he'
    rcases List.mem_append.mp hd with hd | hd
    · exact h.disjoint d hd e' (List.mem_cons_of_mem _ he')
    · rw [List.mem_singleton.mp hd]
      exact List.rel_of_pairwise_cons h.pairwise he'
  pairwise := List.Pairwise.of_cons h.pairwise
  physical := fun e' he' => h.physical e' (List.mem_cons_of_mem _ he')
  few := hfew

lemma Rest.skip (h : Rest done (e :: es) s) (hu : ¬ e.usable) : Rest (done ++ [e]) es s := by
  have hfew := h.few
  rw [List.filter_cons_of_neg (by simpa using hu)] at hfew
  exact h.tail hfew

lemma Rest.take (h : Rest done (e :: es) s) (s' : Boot) (hu : e.usable) {out : ℕ}
    (hout : out ≤ 1) :
    Rest (done ++ [e]) es { s' with allocatorLen := s.allocatorLen + out } := by
  have hfew := h.few
  rw [List.filter_cons_of_pos (by simpa using hu), List.length_cons] at hfew
  exact h.tail (by change s.allocatorLen + out + _ ≤ _; omega)

lemma Rest.room (h : Rest done es s) (he : e ∈ es) (hu : e.usable) : s.allocatorLen < maxMemNodes := by
  have hpos : 0 < (es.filter fun e => e.usable).length :=
    List.length_pos_of_mem (List.mem_filter.mpr ⟨he, by simpa using hu⟩)
  have := h.few
  omega

/-- The loop on regions that are sound. -/
theorem Inv.run (h : s.Inv K done) (hK : K.Valid) (hrest : Rest done es s)
    (hs : ∀ e ∈ es, e.usable → e.shifted.Sound K) :
    ∃ s', memInit K es s = some s' ∧ s'.Inv K (done ++ es) := by
  induction es generalizing done s with
  | nil => exact ⟨s, rfl, h.mono (List.subset_append_left _ _)⟩
  | cons e es ih =>
    have htail : ∀ d ∈ es, d.usable → d.shifted.Sound K :=
      fun d hd => hs d (List.mem_cons_of_mem _ hd)
    rw [List.append_cons]
    by_cases hlen : s.allocatorLen < maxMemNodes
    · by_cases hu : e.usable
      · obtain ⟨s1, out, hi, hout, hinv⟩ := h.sound hK hu (hrest.physical e (by simp) hu)
          (fun d hd hdu => hrest.disjoint d hd e (by simp) hdu hu) (hs e (by simp) hu)
        have hl := (initAllocator_other hi).1
        have hrest' := hrest.take s1 hu hout
        have hle : ¬ s1.allocatorLen + out > maxMemNodes := by
          have hfew : s.allocatorLen + out + _ ≤ maxMemNodes := hrest'.few
          omega
        rw [memInit_some hu hlen hi, if_neg hle, hl]
        exact ih hinv hrest' htail
      · rw [memInit_skip hu hlen]
        exact ih (h.mono (List.subset_append_left _ _)) (hrest.skip hu) htail
    · -- the allocators are used up, so no region to use is left
      rw [memInit_full hlen]
      exact ⟨s, rfl, h.mono (by rw [List.append_assoc]; exact List.subset_append_left _ _)⟩

/-- The loop on regions one of which is not. -/
theorem Inv.run_unsound (h : s.Inv K done) (hK : K.Valid) (hrest : Rest done es s) (he : e ∈ es)
    (hu : e.usable) (hs : ¬ e.shifted.Sound K) (hrun : memInit K es s = some s') :
    ¬ s'.Partitioned K all := by
  induction es generalizing done s with
  | nil => cases he
  | cons d es ih =>
    have hlen := hrest.room he hu
    by_cases hdu : d.usable
    · have hphys := hrest.physical d (by simp) hdu
      by_cases hds : d.shifted.Sound K
      · obtain ⟨s1, out, hi, hout, hinv⟩ := h.sound hK hdu hphys
          (fun d' hd' hdu' => hrest.disjoint d' hd' d (by simp) hdu' hdu) hds
        rw [memInit_some hdu hlen hi, (initAllocator_other hi).1] at hrun
        split_ifs at hrun
        have hmem : e ∈ es := by
          rcases List.mem_cons.mp he with rfl | he
          · exact absurd hds hs
          · exact he
        exact ih hinv (hrest.take s1 hdu hout) hmem hrun
      · cases hi : s.initAllocator K s.allocatorLen d.shifted with
        | none =>
          rw [memInit_none hdu hlen hi] at hrun
          cases hrun
        | some r =>
          obtain ⟨s1, out⟩ := r
          obtain ⟨hout, hspoilt⟩ := h.unsound hdu hphys hds hi
          rw [memInit_some hdu hlen hi, (initAllocator_other hi).1] at hrun
          split_ifs at hrun
          obtain ⟨hle, hkeep⟩ := memInit_keeps hrun
          have hle : s.allocatorLen + out ≤ s'.allocatorLen := hle
          obtain ⟨hinits, hsame⟩ := hkeep s.allocatorLen (Nat.lt_add_of_pos_right hout)
          intro hpart
          have hlt : s.allocatorLen < s'.allocatorLen := by omega
          rcases hspoilt with hinit | hapart
          · exact hinit (hinits ▸ hpart.once _ hlt)
          · exact hapart (hsame ▸ hpart.apart _ hlt)
    · have hmem : e ∈ es := by
        rcases List.mem_cons.mp he with rfl | he
        · exact absurd hu hdu
        · exact he
      rw [memInit_skip hdu hlen] at hrun
      exact ih (h.mono (List.subset_append_left _ _)) (hrest.skip hdu) hmem hrun

lemma Fresh.rest (hs : s.Fresh) (h : ValidMap es) : Rest [] es s where
  disjoint := by simp
  pairwise := by
    have hphys : ∀ e ∈ es, e.usable → e.addr.toNat + e.len.toNat ≤ 2 ^ 52 :=
      fun e he hu => h.physical e he (MmapEntry.usable_iff.mp hu).1
    refine h.disjoint.imp_of_mem fun hd he hr hdu heu => ?_
    exact MmapEntry.shifted_disjoint (hphys _ hd hdu) (hphys _ he heu)
      (hr (MmapEntry.usable_iff.mp hdu).1 (MmapEntry.usable_iff.mp heu).1)
  physical := fun e he hu => h.physical e he (MmapEntry.usable_iff.mp hu).1
  few := by
    rw [hs.len, Nat.zero_add]
    exact h.few

/-- The memory is shared out among the allocators, without the kernel, on exactly the memory maps whose
regions are sound. -/
theorem partitioned_iff_sound (hes : ValidMap es) (hK : K.Valid) (hs : s.Fresh) :
    (∃ s', memInit K es s = some s' ∧ s'.Partitioned K es) ↔
      ∀ e ∈ es, e.usable → e.shifted.Sound K := by
  constructor
  · rintro ⟨s', hrun, hpart⟩ e he hu
    by_contra hbad
    exact (hs.inv K).run_unsound hK (hs.rest hes) he hu hbad hrun hpart
  · intro hsound
    obtain ⟨s', hrun, hinv⟩ := (hs.inv K).run hK (hs.rest hes) hsound
    exact ⟨s', hrun, hinv.partitioned (List.Subset.refl _)⟩

section Sample

/-- Zeroed objects over zeroed memory. -/
def sampleBoot : Boot where
  allocators _ :=
    { startAddr := 0, endAddr := 0, endMeta := 0, firstOrderSize := 0, foBits := 0, maxOrder := 0
      lists := fun _ => {}, freeSpace := 0, links := fun _ => ⟨none, none⟩, n := fun _ => 0
      metadata := fun _ => ⟨false, 0⟩ }
  links _ := ⟨none, none⟩
  n _ := 0
  metadata _ := ⟨false, 0⟩

lemma sampleBoot_fresh : sampleBoot.Fresh :=
  ⟨rfl, fun _ => rfl, fun _ => rfl, fun _ => rfl⟩

/-- A machine with 640 KiB of low memory and 127 MiB above 1 MiB, where the kernel starts. -/
def sampleMap : List MmapEntry :=
  [⟨0, 0x9fc00, 1⟩, ⟨0x9fc00, 0x400, 2⟩, ⟨0x100000, 0x7ee0000, 1⟩, ⟨0x7fe0000, 0x20000, 2⟩]

def sampleKernel : Kernel := ⟨0xffffff8000100000, 0xffffff8000123456⟩

lemma sampleMap_valid : ValidMap sampleMap := ⟨by decide +kernel, by decide +kernel, by decide⟩

theorem partitioned_iff_sound_sample : ∃ s', memInit sampleKernel sampleMap sampleBoot = some s' ∧
    s'.Partitioned sampleKernel sampleMap :=
  (partitioned_iff_sound sampleMap_valid (by decide) sampleBoot_fresh).mpr (by decide +kernel)

/-- 16 MiB above 1 MiB, with the kernel from 2 to 3 MiB. -/
def splitMap : List MmapEntry := [⟨0x100000, 0x1000000, 1⟩]

def splitKernel : Kernel := ⟨0xffffff8000200000, 0xffffff8000300000⟩

lemma splitMap_valid : ValidMap splitMap := ⟨by decide, by decide, by decide⟩

/-- Both parts go to the first allocator, and the second counts without being initialised. -/
theorem not_partitioned_split : ValidMap splitMap ∧ splitKernel.Valid ∧ sampleBoot.Fresh ∧
    ∃ s', memInit splitKernel splitMap sampleBoot = some s' ∧ s'.allocatorLen = 2 ∧
      s'.inits 0 = 2 ∧ s'.inits 1 = 0 ∧ ¬ s'.Partitioned splitKernel splitMap := by
  refine ⟨splitMap_valid, by decide, sampleBoot_fresh, ?_⟩
  have hrun : ((memInit splitKernel splitMap sampleBoot).map fun s =>
      (s.allocatorLen, s.inits 0, s.inits 1)) = some (2, 2, 0) := by
    decide +kernel
  obtain ⟨s', hs', heq⟩ := Option.map_eq_some_iff.mp hrun
  obtain ⟨hlen, h01⟩ := Prod.mk.inj heq
  obtain ⟨h0, h1⟩ := Prod.mk.inj h01
  refine ⟨s', hs', hlen, h0, h1, fun hpart => ?_⟩
  have honce := hpart.once 0 (by rw [hlen]; decide)
  rw [h0] at honce
  exact absurd honce (by decide)

end Sample

end Boot
end EpochKernel.Mem
