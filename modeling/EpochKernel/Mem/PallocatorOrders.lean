import EpochKernel.Mem.PallocatorZones

/-! The two recursions over orders. `populate_order` splits one zone per level and leaves a single
pair of buddies at the requested order; `merge_order` removes the single pair that a freed zone can
form and never leaves the managed range. -/
namespace EpochKernel.Mem.Pallocator
open EpochKernel.Util EpochKernel.Util.LinkedList EpochKernel.Library EpochKernel.Library.Block

variable {p p' : Pallocator} {live : List Allocation} {q : ℕ → List UInt64} {order : UInt8}

/-- The fields that no move of free zones changes. -/
structure SameFields (p p' : Pallocator) : Prop where
  layout : p'.toLayout = p.toLayout
  freeSpace : p'.freeSpace = p.freeSpace
  metadata : p'.metadata = p.metadata

lemma SameFields.refl (p : Pallocator) : SameFields p p := ⟨rfl, rfl, rfl⟩

lemma SameFields.trans {p'' : Pallocator} (h : SameFields p p') (h' : SameFields p' p'') :
    SameFields p p'' :=
  ⟨h'.layout.trans h.layout, h'.freeSpace.trans h.freeSpace, h'.metadata.trans h.metadata⟩

lemma SameFields.fo_eq (h : SameFields p p') : p'.fo = p.fo := congrArg (·.foBits.toNat) h.layout
lemma SameFields.lo_eq (h : SameFields p p') : p'.lo = p.lo := congrArg (·.startAddr.toNat) h.layout
lemma SameFields.hi_eq (h : SameFields p p') : p'.hi = p.hi := congrArg (·.endAddr.toNat) h.layout

lemma mergeZones_same (p : Pallocator) (order : UInt8) (a b : UInt64) :
    SameFields p (p.mergeZones order a b) := ⟨rfl, rfl, rfl⟩

/-- Merging a lower zone with its upper buddy moves their union to the list above. -/
theorem Holds.mergeZones (h : Holds p live q) {zf zs : UInt64} (hf : zf ∈ q order.toNat)
    (hs : zs ∈ q order.toNat) (hbase : zs.toNat = zf.toNat + 2 ^ (p.fo + order.toNat))
    (hdvd : 2 ^ (p.fo + order.toNat + 1) ∣ zf.toNat) (hsmall : p.fo + order.toNat ≤ 30) :
    ∃ q', Holds (p.mergeZones order zf zs) live q' ∧ zf ∈ q' (order.toNat + 1) ∧
      (order + 1).toNat = order.toNat + 1 ∧ order.toNat + 1 ≤ p.maxOrder.toNat ∧
      Spares (heldBytes p.fo live) p (p.mergeZones order zf zs) ∧
      blocksOf p.fo q' = blocksOf p.fo q \
        {p.block order.toNat zf (h.zone _ zf hf).1, (p.block order.toNat zf (h.zone _ zf hf).1).buddy} ∪
        {(p.block order.toNat zf (h.zone _ zf hf).1).parent} := by
  have hpos := Nat.two_pow_pos (p.fo + order.toNat)
  set A := p.block order.toNat zf (h.zone _ zf hf).1 with hA
  have hAF : A ∈ blocksOf p.fo q := h.block_mem hf
  have hAdvd : 2 ^ (A.exp + 1) ∣ A.base := hdvd
  have hbuddy : A.buddy = p.block order.toNat zs (h.zone _ zs hs).1 := by
    apply Block.ext
    · simp only [buddy, hAdvd, if_true]
      exact hbase.symm
    · rfl
  have hbF : A.buddy ∈ blocksOf p.fo q := hbuddy ▸ h.block_mem hs
  have hparent : A.parent.base = zf.toNat := by
    simp only [parent, hAdvd, if_true]
    rfl
  obtain ⟨htiles, hsep⟩ := h.tiles.merge h.separate hAF hbF
  -- the union is a block of the range, so its order is at most `max_order`
  have hin := htiles.inside A.parent (Or.inl (Or.inr rfl))
  have hmax : p.fo + order.toNat + 1 ≤ p.fo + p.maxOrder.toNat :=
    h.layout.maximal A.parent hin.1 hin.2
  have hlt := h.layout.order_lt
  simp only [maxSupportedMemBits] at hlt
  have hsucc : (order + 1).toNat = order.toNat + 1 := by
    rw [UInt8.toNat_add, UInt8.toNat_one]
    omega
  have hsize := p.getOrderSize_toNat hsmall
  have hshift : (p.getOrderSize order <<< 1).toNat = 2 ^ (p.fo + (order.toNat + 1)) := by
    have hlt : 2 ^ (p.foBits.toNat + order.toNat) * 2 < 2 ^ 64 := by
      simp only [fo] at hsmall
      rw [← pow_succ]
      exact Nat.pow_lt_pow_right (by norm_num) (by omega)
    rw [UInt64.toNat_shiftLeft, hsize, UInt64.toNat_one, Nat.shiftLeft_eq]
    rw [show p.fo + (order.toNat + 1) = p.foBits.toNat + order.toNat + 1 from rfl, pow_succ]
    exact Nat.mod_eq_of_lt hlt
  have hne : zs ≠ zf := by
    rintro rfl
    omega
  -- the lists after the two removals
  have hf1 := removeP_family h.family hf
  have hB1 := blocksOf_erase p.fo (d := A) h.family (k := order.toNat) (a := zf) rfl rfl
  set q1 := Function.update q order.toNat ((q order.toNat).erase zf) with hq1
  have hs1 : zs ∈ q1 order.toNat := by
    rw [hq1, Function.update_self]
    exact (h.family.nodup _).mem_erase_iff.mpr ⟨hne, hs⟩
  have hf2 := removeP_family hf1 hs1
  have hB2 := blocksOf_erase p.fo (d := A.buddy) hf1 (k := order.toNat) (a := zs)
    (by rw [hbuddy]; rfl) rfl
  set q2 := Function.update q1 order.toNat ((q1 order.toNat).erase zs) with hq2
  have hsub1 : ∀ j, ∀ a ∈ q1 j, a ∈ q j :=
    forall_mem_update (fun _ _ ha => ha) fun _ => List.mem_of_mem_erase
  have hsub2 : ∀ j, ∀ a ∈ q2 j, a ∈ q1 j :=
    forall_mem_update (fun _ _ ha => ha) fun _ => List.mem_of_mem_erase
  have hsub : ∀ j, ∀ a ∈ q2 j, a ∈ q j ∧ a ≠ zf := by
    intro j a ha
    have h1 := hsub2 j a ha
    refine ⟨hsub1 j a h1, ?_⟩
    rintro rfl
    obtain rfl := h.family.disjoint j _ a (hsub1 j a h1) hf
    rw [hq1, Function.update_self, (h.family.nodup _).mem_erase_iff] at h1
    exact h1.1 rfl
  have hf3 := append_family (order + 1)
    (p := ((p.removeP order zf).removeP order zs).setN zf (p.getOrderSize order <<< 1)) hf2
    (fun j hj => (hsub j zf hj).2 rfl)
  have hB3 := blocksOf_append p.fo (q := q2) (k := (order + 1).toNat) (a := zf)
    (d := A.parent) hparent (by rw [hsucc]; rfl)
  set q3 := Function.update q2 (order + 1).toNat (q2 (order + 1).toNat ++ [zf]) with hq3
  have hB : blocksOf p.fo q3 = blocksOf p.fo q \ {A, A.buddy} ∪ {A.parent} := by
    rw [hB3, hB2, hB1, Set.sdiff_sdiff]
    rfl
  have hspares : Spares (heldBytes p.fo live) p (p.mergeZones order zf zs) := by
    have hfS : zf.toNat ∉ heldBytes p.fo live := h.zone_notMem_held hf
    have h1 := removeP_spares (S := heldBytes p.fo live) h.family hf fun j y hy =>
      h.zone_notMem_held hy
    have h2 := removeP_spares (S := heldBytes p.fo live) hf1 hs1 fun j y hy =>
      h.zone_notMem_held (hsub1 j y hy)
    have h3 := setN_spares (p := (p.removeP order zf).removeP order zs) hfS
      (p.getOrderSize order <<< 1)
    have h4 := append_spares (S := heldBytes p.fo live) (o := order + 1)
      (p := ((p.removeP order zf).removeP order zs).setN zf (p.getOrderSize order <<< 1)) hf2
      (fun j hj => (hsub j zf hj).2 rfl) hfS fun j y hy => h.zone_notMem_held (hsub j y hy).1
    exact ((h1.trans h2).trans h3).trans h4
  refine ⟨q3, ⟨h.layout, hf3, ?_, h.allocation, hB ▸ htiles, hB ▸ hsep, h.nodup, h.alloced,
    h.order⟩, ?_, hsucc, by omega, hspares, hB⟩
  · change ∀ k, ∀ a ∈ q3 k, 2 ^ (p.fo + k) ∣ a.toNat ∧
      (Function.update p.n zf (p.getOrderSize order <<< 1) a).toNat = 2 ^ (p.fo + k)
    have hold : ∀ j, ∀ a ∈ q2 j, 2 ^ (p.fo + j) ∣ a.toNat ∧
        (Function.update p.n zf (p.getOrderSize order <<< 1) a).toNat = 2 ^ (p.fo + j) := by
      intro j a hj
      rw [Function.update_of_ne (hsub j a hj).2]
      exact h.zone j a (hsub j a hj).1
    refine forall_mem_update hold fun a ha => ?_
    rw [List.mem_append, List.mem_singleton] at ha
    rcases ha with ha | rfl
    · exact hold _ a ha
    · rw [Function.update_self, hsucc]
      exact ⟨hdvd, hshift⟩
  · rw [← hsucc, hq3, Function.update_self]
    simp

/-- The address computed with `^` is the start of the buddy. -/
lemma xor_size (A : Block) : A.base ^^^ A.size = A.buddy.base := by
  obtain ⟨h1, h2⟩ := nat_xor_two_pow A.aligned
  by_cases h : 2 ^ (A.exp + 1) ∣ A.base
  · simp only [buddy, h, if_true]
    exact h1 h
  · have := h2 h
    simp only [buddy, h, if_false, size]
    omega

/-- A buddy address inside the range is the start of a block of the tiling: the block that covers
it cannot reach over to the zone itself. -/
lemma Holds.buddy_head (h : Holds p live q) {k : ℕ} {z m : UInt64} (hz : z ∈ q k)
    (hm : m.toNat = (p.block k z (h.zone k z hz).1).buddy.base) (hlo : p.lo ≤ m.toNat)
    (hhi : m.toNat < p.hi) :
    (∃ j, m ∈ q j) ∨ ∃ b ∈ live, b.1 = m := by
  set A := p.block k z (h.zone k z hz).1 with hA
  have hAF : A ∈ blocksOf p.fo q := h.block_mem hz
  obtain ⟨e, he, hme⟩ := h.tiles.cover m.toNat hlo hhi
  have hmB : m.toNat ∈ A.buddy := hm ▸ base_mem _
  have hbase : e.base = m.toNat := by
    rcases Nat.lt_or_ge A.exp e.exp with hlt | hge
    · have hin := inside_of_mem (d := A.buddy) hlt.le hmB hme
      have hpar := parent_inside hin (by simpa using hlt)
      have hAe : A.base ∈ e := hpar.mem (mem_parent.mpr (Or.inr (by
        rw [buddy_buddy]
        exact base_mem _)))
      have hAeq := h.tiles.disjoint A (Or.inl hAF) e he A.base (base_mem _) hAe
      rw [hAeq] at hlt
      omega
    · have hin := inside_of_mem (e := A.buddy) hge hme hmB
      have h1 := hin.1
      have h2 := hme.1
      omega
  rcases he with ⟨j, a, ha, hb, -⟩ | ⟨b, hb, hbb, -⟩
  · exact Or.inl ⟨j, UInt64.toNat_inj.mp (hbase.symm.trans hb) ▸ ha⟩
  · exact Or.inr ⟨b, hb, UInt64.toNat_inj.mp (hbb.symm.trans hbase)⟩

section Merge
variable {z : UInt64}

lemma Holds.xor_toNat (h : Holds p live q) (hz : z ∈ q order.toNat)
    (hsmall : p.fo + order.toNat ≤ 30) :
    (z ^^^ p.getOrderSize order).toNat = (p.block order.toNat z (h.zone _ z hz).1).buddy.base := by
  rw [UInt64.toNat_xor, p.getOrderSize_toNat hsmall]
  exact xor_size (p.block order.toNat z (h.zone _ z hz).1)

/-- The bounds check of `merge_order` is exact, as nothing wraps. -/
lemma Holds.bounds_check (h : Holds p live q) (hz : z ∈ q order.toNat) {m : UInt64}
    (hsmall : p.fo + order.toNat ≤ 30)
    (hm : m.toNat = (p.block order.toNat z (h.zone _ z hz).1).buddy.base) :
    (m < p.startAddr ∨ m + p.getOrderSize order > p.endAddr) ↔
    ¬ (p.lo ≤ m.toNat ∧ m.toNat + 2 ^ (p.fo + order.toNat) ≤ p.hi) := by
  have hsize := p.getOrderSize_toNat hsmall
  have hbd := (h.bounds hz).2
  have hend := h.layout.end_le
  simp only [lo, hi, fo] at hsmall hbd ⊢
  have hpow : 2 ^ (p.foBits.toNat + order.toNat) ≤ 2 ^ 30 :=
    Nat.pow_le_pow_right (by norm_num) (by omega)
  have hbuddy : m.toNat ≤ z.toNat + 2 ^ (p.foBits.toNat + order.toNat) := by
    rw [hm]
    exact buddy_base_le _
  have hsum : (m + p.getOrderSize order).toNat =
      m.toNat + 2 ^ (p.foBits.toNat + order.toNat) := by
    rw [UInt64.toNat_add, hsize, Nat.mod_eq_of_lt (by omega)]
  rw [gt_iff_lt, UInt64.lt_iff_toNat_lt, UInt64.lt_iff_toNat_lt, hsum]
  omega

/-- The two comparisons that order a zone and its buddy. -/
lemma ordered_cases {a m : UInt64} (h : a ≠ m) :
    (a < m ∧ (if a < m then a else m) = a ∧ (if a > m then a else m) = m) ∨
    (m < a ∧ (if a < m then a else m) = m ∧ (if a > m then a else m) = a) := by
  rcases UInt64.lt_or_lt_of_ne h with hlt | hlt
  · have hn : ¬ m < a := by
      rw [UInt64.lt_iff_toNat_lt] at *
      omega
    exact Or.inl ⟨hlt, if_pos hlt, if_neg hn⟩
  · have hn : ¬ a < m := by
      rw [UInt64.lt_iff_toNat_lt] at *
      omega
    exact Or.inr ⟨hlt, if_neg hn, if_pos hlt⟩

lemma Holds.ne_buddy (h : Holds p live q) (hz : z ∈ q order.toNat) {m : UInt64}
    (hm : m.toNat = (p.block order.toNat z (h.zone _ z hz).1).buddy.base) : z ≠ m := by
  intro he
  refine buddy_ne (p.block order.toNat z (h.zone _ z hz).1) (Block.ext ?_ rfl)
  rw [← hm, ← he]
  rfl

/-- If the buddy is not a free zone, `merge_order` stops. -/
lemma Holds.mergeOrder_stop (h : Holds p live q) (hz : z ∈ q order.toNat)
    (hsmall : p.fo + order.toNat ≤ 30)
    (hB : (p.block order.toNat z (h.zone _ z hz).1).buddy ∉ blocksOf p.fo q) (fuel : ℕ) :
    p.mergeOrder (fuel + 1) z order p.maxOrder = p := by
  have hm := h.xor_toNat hz hsmall
  simp only [Pallocator.mergeOrder]
  generalize z ^^^ p.getOrderSize order = m at hm ⊢
  by_cases hord : order > p.maxOrder
  · rw [if_pos hord]
  rw [if_neg hord]
  by_cases hout : m < p.startAddr ∨ m + p.getOrderSize order > p.endAddr
  · rw [if_pos hout]
  rw [if_neg hout]
  by_cases hal : (p.metadata (p.getMeta m)).alloced = true
  · rw [if_pos hal]
  rw [if_neg hal]
  -- the buddy address is the start of a free zone of another size
  have hin := not_not.mp ((not_congr (h.bounds_check hz hsmall hm)).mp hout)
  have hpos := Nat.two_pow_pos (p.fo + order.toNat)
  have hne : p.n z ≠ p.n m := by
    intro hnn
    rcases h.buddy_head hz hm hin.1 (by omega) with ⟨j, hj⟩ | ⟨b, hb, he⟩
    · have h1 := (h.zone _ z hz).2
      rw [hnn, (h.zone j m hj).2] at h1
      exact hB ⟨j, m, hj, hm.symm, (Nat.pow_right_injective le_rfl h1).symm⟩
    · subst he
      exact hal ((h.alloced _ (h.live_dvd hb) hin.1 (by omega)).mpr ⟨b, hb, rfl⟩)
  rcases ordered_cases (h.ne_buddy hz hm) with ⟨-, h1, h2⟩ | ⟨-, h1, h2⟩
  · rw [h1, h2, if_pos hne]
  · rw [h1, h2, if_pos hne.symm]

/-- If the buddy is a free zone, it has the same size and both are merged. -/
lemma Holds.mergeOrder_step (h : Holds p live q) (hz : z ∈ q order.toNat)
    (hsmall : p.fo + order.toNat ≤ 30)
    (hB : (p.block order.toNat z (h.zone _ z hz).1).buddy ∈ blocksOf p.fo q) (fuel : ℕ) :
    ∃ zf zs, zf ∈ q order.toNat ∧ zs ∈ q order.toNat ∧
      zs.toNat = zf.toNat + 2 ^ (p.fo + order.toNat) ∧
      2 ^ (p.fo + order.toNat + 1) ∣ zf.toNat ∧ (z = zf ∨ z = zs) ∧
      p.mergeOrder (fuel + 1) z order p.maxOrder =
        (p.mergeZones order zf zs).mergeOrder fuel zf (order + 1) p.maxOrder := by
  have hm := h.xor_toNat hz hsmall
  set A := p.block order.toNat z (h.zone _ z hz).1 with hA
  obtain ⟨j, m', hj, hmb, hme⟩ := hB
  have hjo : j = order.toNat := by
    have : p.fo + order.toNat = p.fo + j := hme
    omega
  subst hjo
  simp only [Pallocator.mergeOrder]
  generalize z ^^^ p.getOrderSize order = m at hm ⊢
  obtain rfl : m = m' := UInt64.toNat_inj.mp (hm.trans hmb)
  have hne := h.ne_buddy hz hm
  have hord : ¬ order > p.maxOrder := by
    have := h.order_le hz
    rw [gt_iff_lt, UInt8.lt_iff_toNat_lt]
    omega
  have hin : p.lo ≤ m.toNat ∧ m.toNat + 2 ^ (p.fo + order.toNat) ≤ p.hi := h.bounds hj
  have hout : ¬ (m < p.startAddr ∨ m + p.getOrderSize order > p.endAddr) := by
    rw [h.bounds_check hz hsmall hm]
    exact not_not.mpr hin
  have hpos := Nat.two_pow_pos (p.fo + order.toNat)
  have hal : ¬ (p.metadata (p.getMeta m)).alloced = true := by
    intro hal
    obtain ⟨b, hb, hbm⟩ := (h.alloced m ((pow_dvd_pow 2 (by omega)).trans (h.zone _ m hj).1)
      hin.1 (by omega)).mp hal
    have hz' := h.block_mem hj
    have hl := h.live_mem hb
    have he := h.tiles.disjoint _ (Or.inl hz') _ (Or.inr hl) m.toNat (base_mem _)
      (hbm ▸ base_mem _)
    exact h.separate _ hz' (he ▸ hl)
  have hn : p.n z = p.n m := UInt64.toNat_inj.mp ((h.zone _ z hz).2.trans (h.zone _ m hj).2.symm)
  have hcase : A.buddy.base = m.toNat := hm.symm
  have hAb : A.base = z.toNat := rfl
  have hAs : A.size = 2 ^ (p.fo + order.toNat) := rfl
  have hAe : A.exp = p.fo + order.toNat := rfl
  simp only [buddy, hAs, hAb, hAe] at hcase
  have hdz := (h.zone _ z hz).1
  rw [if_neg hord, if_neg hout, if_neg hal]
  rcases ordered_cases hne with ⟨hlt, h1, h2⟩ | ⟨hlt, h1, h2⟩
  · rw [h1, h2, if_neg (not_not.mpr hn)]
    rw [UInt64.lt_iff_toNat_lt] at hlt
    split_ifs at hcase with hd
    · exact ⟨z, m, hz, hj, hcase.symm, hd, Or.inl rfl, rfl⟩
    · omega
  · rw [h1, h2, if_neg (not_not.mpr hn.symm)]
    rw [UInt64.lt_iff_toNat_lt] at hlt
    split_ifs at hcase with hd
    · omega
    · have hle := size_le_base_of_not_dvd (d := A) hd
      rw [hAs, hAb] at hle
      refine ⟨m, z, hj, hz, by omega, ?_, Or.inr rfl, rfl⟩
      have hp := A.parent.aligned
      simpa only [parent, hAe, hAb, hAs, hd, if_false, hcase] using hp

end Merge

/-- `merge_order`, called on the only zone that may have a free buddy. -/
theorem Holds.mergeOrder (fuel : ℕ) (order : UInt8) {z : UInt64} {A : Block} (h : Holds p live q)
    (hz : z ∈ q order.toNat) (hfuel : p.maxOrder.toNat < order.toNat + fuel)
    (hbase : A.base = z.toNat) (hexp : A.exp = p.fo + order.toNat)
    (hsmall : p.fo + p.maxOrder.toNat ≤ 30) (hpair : BuddyFree (blocksOf p.fo q \ {A})) :
    ∃ q', Holds (p.mergeOrder fuel z order p.maxOrder) live q' ∧ BuddyFree (blocksOf p.fo q') ∧
      SameFields p (p.mergeOrder fuel z order p.maxOrder) ∧
      Spares (heldBytes p.fo live) p (p.mergeOrder fuel z order p.maxOrder) := by
  induction fuel generalizing p q order z A with
  | zero =>
    have := h.order_le hz
    omega
  | succ fuel ih =>
    obtain rfl : A = p.block order.toNat z (h.zone _ z hz).1 := Block.ext hbase hexp
    have hle : p.fo + order.toNat ≤ 30 := by
      have := h.order_le hz
      omega
    by_cases hB : (p.block order.toNat z (h.zone _ z hz).1).buddy ∈ blocksOf p.fo q
    · obtain ⟨zf, zs, hf, hs, hsum, hdvd, hzfs, heq⟩ := h.mergeOrder_step hz hle hB fuel
      obtain ⟨q1, h1, hz1, hsucc, hmax, hspares, hF⟩ := h.mergeZones hf hs hsum hdvd hle
      set A := p.block order.toNat z (h.zone _ z hz).1
      set Z := p.block order.toNat zf (h.zone _ zf hf).1 with hZ
      have hbase' : Z.parent.base = zf.toNat := by
        have hd : 2 ^ (Z.exp + 1) ∣ Z.base := hdvd
        simp only [parent, hd, if_true]
        rfl
      -- `A` was one of the two, so no pair is left but those of the union
      have hA : A = Z ∨ A = Z.buddy := by
        refine eq_or_eq_buddy rfl ?_
        change z.toNat ∈ Z.parent
        have hsz : Z.parent.size = 2 ^ (p.fo + order.toNat) + 2 ^ (p.fo + order.toNat) := by
          rw [size, parent_exp, pow_succ, mul_two]
          rfl
        have hpos := Nat.two_pow_pos (p.fo + order.toNat)
        rw [mem_iff, top, hsz, hbase']
        rcases hzfs with rfl | rfl <;> omega
      have hpair' : BuddyFree (blocksOf p.fo q1 \ {Z.parent}) := by
        refine hpair.mono ?_
        rw [hF]
        rintro e ⟨⟨he, hne⟩ | he, hp⟩
        · refine ⟨he, fun hEA => hne ?_⟩
          rw [Set.mem_singleton_iff.mp hEA]
          exact hA
        · exact absurd he hp
      obtain ⟨q', h', hB', hs', hspares'⟩ := ih (order + 1) h1 (hsucc ▸ hz1)
        (show p.maxOrder.toNat < (order + 1).toNat + fuel by omega) hbase'
        (show p.fo + order.toNat + 1 = p.fo + (order + 1).toNat by omega) hsmall hpair'
      rw [heq]
      exact ⟨q', h', hB', (mergeZones_same p order zf zs).trans hs', hspares.trans hspares'⟩
    · rw [h.mergeOrder_stop hz hle hB]
      exact ⟨q, h, hpair.of_diff hB, SameFields.refl p, Spares.refl _ p⟩

section Populate
variable {o : ℕ}

/-- A split creates pairs of buddies at the order below only. -/
lemma Holds.splitZone_pairs (h : Holds p live q) (ho : order.toNat = o + 1) {xs : List UInt64}
    {z : UInt64} (hq : q order.toNat = xs ++ [z]) (hempty : q o = [])
    (hpair : ∀ d ∈ blocksOf p.fo q, d.base = z.toNat → d.exp = p.fo + order.toNat →
      BuddyFree (blocksOf p.fo q \ {d})) :
    ∃ q' z2, Holds (p.splitZone order) live q' ∧ SameFields p (p.splitZone order) ∧
      Spares (heldBytes p.fo live) p (p.splitZone order) ∧ q' o = [z, z2] ∧ (∀ k < o, q' k = q k) ∧
      ∀ d ∈ blocksOf p.fo q', d.buddy ∈ blocksOf p.fo q' → d.exp = p.fo + o := by
  obtain ⟨q', z2, h', hl, hfs, hmd, hsp, -, hqo, hqk, d, hd, hexp, hb, hF⟩ := h.splitZone ho hq
  refine ⟨q', z2, h', ⟨hl, hfs, hmd⟩, hsp, by rw [hqo, hempty]; rfl,
    fun k hk => hqk k (by omega) (by omega), ?_⟩
  have hfree := hpair d hd hb (by omega)
  rw [hF]
  rintro e (he | he) (hbe | hbe)
  · exact absurd hbe (hfree e he)
  · rcases hbe with hbe | hbe <;> exact congrArg Block.exp hbe
  · rcases he with rfl | rfl <;> rfl
  · rcases he with rfl | rfl <;> rfl

/-- Without one half of it the pair made by a split is gone. -/
lemma buddyFree_of_pair {fo : ℕ} {z z2 : UInt64} {d : Block} (hqo : q o = [z, z2])
    (hpair : ∀ e ∈ blocksOf fo q, e.buddy ∈ blocksOf fo q → e.exp = fo + o)
    (hb : d.base = z2.toNat) (he : d.exp = fo + o) : BuddyFree (blocksOf fo q \ {d}) := by
  intro e hin hbe
  have hexp := hpair e hin.1 hbe.1
  have hsingle : ∀ f ∈ blocksOf fo q \ {d}, f.exp = fo + o → f.base = z.toNat := by
    rintro f ⟨hf, hfd⟩ hfe
    obtain ⟨a, ha, hbase⟩ := exists_of_exp hf hfe
    rw [hqo, List.mem_pair] at ha
    rcases ha with rfl | rfl
    · exact hbase
    · exact absurd (Block.ext (hbase.trans hb.symm) (hfe.trans he.symm)) hfd
  refine buddy_ne e (Block.ext ?_ rfl)
  rw [hsingle e hin hexp, hsingle _ hbe (by rw [buddy_exp]; exact hexp)]

/-- `populate_order`, called when the list below is empty: either that list receives the two halves
of a zone and they are the only buddies, or no zone of the order or above exists. -/
theorem Holds.populateOrder (fuel : ℕ) (h : Holds p live q) (hB : BuddyFree (blocksOf p.fo q))
    (ho : order.toNat = o + 1) (hempty : q o = []) (hfuel : p.maxOrder.toNat < order.toNat + fuel) :
    (∃ p' q' z z2, p.populateOrder fuel order = (true, p') ∧ Holds p' live q' ∧
      SameFields p p' ∧ Spares (heldBytes p.fo live) p p' ∧ q' o = [z, z2] ∧ (∀ k < o, q' k = q k) ∧
      (∀ d ∈ blocksOf p.fo q', d.buddy ∈ blocksOf p.fo q' → d.exp = p.fo + o) ∧
      ∃ k, order.toNat ≤ k ∧ q k ≠ []) ∨
    (p.populateOrder fuel order = (false, p) ∧ ∀ k, order.toNat ≤ k → q k = []) := by
  have hnone : p.maxOrder.toNat < order.toNat → ∀ k, order.toNat ≤ k → q k = [] := by
    intro hlt k hk
    by_contra hne
    obtain ⟨a, ha⟩ := List.exists_mem_of_ne_nil _ hne
    have := h.order_le ha
    omega
  induction fuel generalizing order o with
  | zero => exact Or.inr ⟨rfl, hnone (by omega)⟩
  | succ fuel ih =>
    by_cases hord : order > p.maxOrder
    · rw [Pallocator.populateOrder, if_pos hord]
      rw [gt_iff_lt, UInt8.lt_iff_toNat_lt] at hord
      exact Or.inr ⟨rfl, hnone hord⟩
    have hle : order.toNat ≤ p.maxOrder.toNat := by
      rw [gt_iff_lt, UInt8.lt_iff_toNat_lt] at hord
      omega
    rw [Pallocator.populateOrder, if_neg hord]
    by_cases hlen : (p.lists order.toNat).len ≠ 0
    · -- the list has zones: its last one is split
      have hq : q order.toNat ≠ [] := fun he => hlen (h.len_eq_zero.mpr he)
      rw [if_pos hlen]
      obtain ⟨q', z2, h', hs, hsp, hqo, hqk, hp⟩ := h.splitZone_pairs ho
        (List.dropLast_append_getLast hq).symm hempty (fun d hd hb he => hB.mono Set.sdiff_subset)
      exact Or.inl ⟨_, q', _, z2, rfl, h', hs, hsp, hqo, hqk, hp, order.toNat, le_rfl, hq⟩
    · have hq : q order.toNat = [] := h.len_eq_zero.mp (not_not.mp hlen)
      rw [if_neg hlen]
      have hlt := h.layout.order_lt
      have hsucc : (order + 1).toNat = order.toNat + 1 := by
        rw [UInt8.toNat_add, UInt8.toNat_one]
        simp only [maxSupportedMemBits] at hlt
        omega
      rcases ih hsucc hq (by omega) (fun h1 k hk => by
        by_contra hne
        obtain ⟨a, ha⟩ := List.exists_mem_of_ne_nil _ hne
        have := h.order_le ha
        omega) with
          ⟨p', q', z, z2, heq, h', hs, hsp, hqo, hqk, hp, k, hk, hne⟩ | ⟨heq, hall⟩
      · -- the pair made one level up loses its second half to the split
        rw [heq]
        rw [← hs.fo_eq] at hp
        obtain ⟨q'', z2', h'', hs', hsp', hqo', hqk', hp'⟩ := h'.splitZone_pairs ho
          (show q' order.toNat = [z] ++ [z2] by rw [hqo]; rfl) (by rw [hqk o (by omega), hempty])
          (fun d _ hdb hde => buddyFree_of_pair hqo hp hdb hde)
        rw [hs.fo_eq] at hp' hsp'
        exact Or.inl ⟨_, q'', z2, z2', rfl, h'', hs.trans hs', hsp.trans hsp', hqo',
          fun k hk => (hqk' k hk).trans (hqk k (by omega)), hp', k, by omega, hne⟩
      · rw [heq]
        refine Or.inr ⟨rfl, fun k hk => ?_⟩
        rcases Nat.eq_or_lt_of_le hk with rfl | hlt'
        · exact hq
        · exact hall k (by omega)

end Populate

end EpochKernel.Mem.Pallocator
