import EpochKernel.Mem.PallocatorInvariant

/-! `get_order` and `get_order_size` over the range of sizes that the allocator is meant for. The shifts
of the `int` literal 1 are right up to 2 ^ 30. -/
namespace EpochKernel.Util

/-- A shift of the `int` literal 1, for any exponent of a `usize`. -/
lemma intShl_toNat_cases {s : ℕ} (hs : s < 64) :
    (intShl (UInt32.ofNat s)).toNat = if s % 32 = 31 then 2 ^ 64 - 2 ^ 31 else 2 ^ (s % 32) := by
  have h : ∀ i : Fin 64, (intShl (UInt32.ofNat i.val)).toNat =
      if i.val % 32 = 31 then 2 ^ 64 - 2 ^ 31 else 2 ^ (i.val % 32) := by decide
  exact h ⟨s, hs⟩

/-- `log2_up` is right as long as the power of two that it aligns to is an `int`. -/
lemma log2Up_toNat {n : UInt64} (hn : 0 < n.toNat) (hle : n.toNat ≤ 2 ^ 30) :
    (log2Up n).toNat = Nat.clog 2 n.toNat := by
  have hne : n ≠ 0 := by
    rintro rfl
    exact absurd hn (by decide)
  have hL := log2_toNat hne
  set L := n.toNat.log2 with hLdef
  have hpow : 2 ^ L ≤ n.toNat := Nat.log2_self_le hn.ne'
  have hlt : n.toNat < 2 ^ (L + 1) := Nat.lt_log2_self
  have hL30 : L ≤ 30 := by
    have := hpow.trans hle
    exact (Nat.pow_le_pow_iff_right (by norm_num)).mp this
  have hshift : (log2 n).toUInt32 = UInt32.ofNat L := by
    apply UInt32.toNat_inj.mp
    rw [UInt8.toNat_toUInt32, hL, UInt32.toNat_ofNat']
    omega
  have hone : (intShl (log2 n).toUInt32).toNat = 2 ^ L := by
    rw [hshift]
    exact intShl_toNat (by omega)
  have hpow30 : 2 ^ L ≤ 2 ^ 30 := Nat.pow_le_pow_right (by norm_num) hL30
  have hup := alignUp_toNat (x := n) hone (by omega)
  unfold log2Up
  by_cases heq : n.toNat = 2 ^ L
  · have hup' : (alignUp n (intShl (log2 n).toUInt32)).toNat = 2 ^ L := by
      rw [hup, heq]
      have hdiv : (2 ^ L + 2 ^ L - 1) / 2 ^ L = 1 := by
        apply Nat.div_eq_of_lt_le <;> omega
      rw [hdiv, Nat.one_mul]
    rw [log2_toNat_two_pow hup', heq, Nat.clog_pow _ _ (by norm_num)]
  · have hup' : (alignUp n (intShl (log2 n).toUInt32)).toNat = 2 ^ (L + 1) := by
      rw [hup]
      have hdiv : (n.toNat + 2 ^ L - 1) / 2 ^ L = 2 := by
        rw [pow_succ] at hlt
        apply Nat.div_eq_of_lt_le <;> omega
      rw [hdiv, pow_succ, Nat.mul_comm]
    rw [log2_toNat_two_pow hup']
    symm
    have hclog : Nat.clog 2 n.toNat ≤ L + 1 := (Nat.clog_le_iff_le_pow (by norm_num)).mpr hlt.le
    have hclog' : L < Nat.clog 2 n.toNat :=
      (Nat.lt_clog_iff_pow_lt (by norm_num)).mpr (lt_of_le_of_ne hpow (Ne.symm heq))
    omega

end EpochKernel.Util

namespace EpochKernel.Mem
open EpochKernel.Util
namespace Layout
variable {c : Layout}

lemma getOrderSize_cases (hfo : c.foBits = 12) (o : UInt8) (ho : o.toNat + 12 < 64) :
    (c.getOrderSize o).toNat =
      if (o.toNat + 12) % 32 = 31 then 2 ^ 64 - 2 ^ 31 else 2 ^ ((o.toNat + 12) % 32) := by
  have he : o.toUInt32 + c.foBits.toUInt32 = UInt32.ofNat (o.toNat + 12) := by
    rw [hfo]
    apply UInt32.toNat_inj.mp
    rw [UInt32.toNat_add, UInt8.toNat_toUInt32, UInt32.toNat_ofNat']
    change (o.toNat + 12) % 2 ^ 32 = _
    rfl
  rw [getOrderSize, he, intShl_toNat_cases ho]

/-- No order has a size above 1 GiB, other than that of a negative `int`. -/
lemma getOrderSize_range (hfo : c.foBits = 12) (o : UInt8) :
    (c.getOrderSize o).toNat = 2 ^ 64 - 2 ^ 31 ∨ (c.getOrderSize o).toNat ≤ 2 ^ 30 := by
  have h : ∀ i : Fin 256, (intShl ((UInt8.ofNat i.val).toUInt32 + (12 : UInt8).toUInt32)).toNat =
      2 ^ 64 - 2 ^ 31 ∨
      (intShl ((UInt8.ofNat i.val).toUInt32 + (12 : UInt8).toUInt32)).toNat ≤ 2 ^ 30 := by
    decide +kernel
  have ho := h ⟨o.toNat, o.toNat_lt⟩
  rw [UInt8.ofNat_toNat] at ho
  rw [getOrderSize, hfo]
  exact ho

lemma getOrder_toNat (hfo : c.foBits = 12) {n : UInt64} (hn : 0 < n.toNat) (hle : n.toNat ≤ 2 ^ 30) :
    (c.getOrder n).toNat + 12 = max 12 (Nat.clog 2 n.toNat) := by
  have hlog := log2Up_toNat hn hle
  have hclog : Nat.clog 2 n.toNat ≤ 30 := (Nat.clog_le_iff_le_pow (by norm_num)).mpr hle
  have h12 : (12 : UInt8).toNat = 12 := rfl
  unfold getOrder
  simp only [hfo]
  by_cases hge : log2Up n ≥ 12
  · have hge' := UInt8.le_iff_toNat_le.mp hge
    rw [if_pos hge, UInt8.toNat_sub_of_le _ _ hge, hlog]
    omega
  · have hlt : (log2Up n).toNat < 12 := by
      rw [ge_iff_le, UInt8.le_iff_toNat_le, h12] at hge
      omega
    rw [if_neg hge]
    change 0 + 12 = _
    omega

/-- The smallest block of at least `n` bytes is found, and the size of an order is the power of two
that it stands for, exactly up to 1 GiB. -/
theorem order_exact_iff (hfo : c.foBits = 12) :
    (∀ n : UInt64, 1 ≤ n.toNat → n.toNat ≤ 2 ^ 38 →
      (IsLeast {s | (∃ k, s = 2 ^ (12 + k)) ∧ n.toNat ≤ s} (c.getOrderSize (c.getOrder n)).toNat ↔
        n.toNat ≤ 2 ^ 30)) ∧
    ∀ o : UInt8, o.toNat + 12 < maxSupportedMemBits →
      ((c.getOrderSize o).toNat = 2 ^ (o.toNat + 12) ↔ o.toNat + 12 ≤ 30) := by
  refine ⟨fun n hn hle => ⟨fun hleast => ?_, fun h30 => ?_⟩, fun o ho => ?_⟩
  · by_contra hlt
    obtain ⟨⟨k, hk⟩, hge⟩ := hleast.1
    rcases getOrderSize_range hfo (c.getOrder n) with hs | hs
    · rw [hs] at hk
      rcases Nat.lt_or_ge (12 + k) 64 with hk64 | hk64
      · have hpow : 2 ^ (12 + k) ≤ 2 ^ 63 := Nat.pow_le_pow_right (by norm_num) (by omega)
        omega
      · have hpow : 2 ^ 64 ≤ 2 ^ (12 + k) := Nat.pow_le_pow_right (by norm_num) hk64
        omega
    · omega
  · have hord := getOrder_toNat hfo (by omega) h30
    have hclog : Nat.clog 2 n.toNat ≤ 30 := (Nat.clog_le_iff_le_pow (by norm_num)).mpr h30
    have hsize := getOrderSize_cases hfo (c.getOrder n) (by omega)
    rw [hord, if_neg (by omega), Nat.mod_eq_of_lt (by omega)] at hsize
    rw [hsize]
    refine ⟨⟨⟨max 12 (Nat.clog 2 n.toNat) - 12, by congr 1; omega⟩, ?_⟩, ?_⟩
    · exact (Nat.le_pow_clog (by norm_num) _).trans (Nat.pow_le_pow_right (by norm_num) (le_max_right _ _))
    · rintro s ⟨⟨k, rfl⟩, hs⟩
      have := (Nat.clog_le_iff_le_pow (by norm_num)).mpr hs
      exact Nat.pow_le_pow_right (by norm_num) (by omega)
  · have hm : maxSupportedMemBits = 39 := rfl
    rw [getOrderSize_cases hfo o (by omega)]
    split_ifs with h31
    · have h19 : o.toNat + 12 = 31 := by omega
      rw [h19]
      norm_num
    · constructor
      · intro heq
        have := Nat.pow_right_injective (le_refl 2) heq
        omega
      · intro h30
        rw [Nat.mod_eq_of_lt (by omega)]

/-- An allocator of pages. -/
def samplePages : Layout where
  startAddr := kernelVma
  endAddr := kernelVma
  endMeta := kernelVma
  firstOrderSize := 4096
  foBits := 12
  maxOrder := 26

theorem order_exact_iff_pages :
    (∀ n : UInt64, 1 ≤ n.toNat → n.toNat ≤ 2 ^ 38 →
      (IsLeast {s | (∃ k, s = 2 ^ (12 + k)) ∧ n.toNat ≤ s}
        (samplePages.getOrderSize (samplePages.getOrder n)).toNat ↔ n.toNat ≤ 2 ^ 30)) ∧
    ∀ o : UInt8, o.toNat + 12 < maxSupportedMemBits →
      ((samplePages.getOrderSize o).toNat = 2 ^ (o.toNat + 12) ↔ o.toNat + 12 ≤ 30) :=
  order_exact_iff rfl

/-- For 2 GiB the size is that of a negative `int`, and for 4 GiB it is one byte. -/
theorem not_order_exact_pages :
    samplePages.getOrderSize 19 = 0xffffffff80000000 ∧ samplePages.getOrder 0x40000001 = 19 ∧
    samplePages.getOrderSize 20 = 1 ∧
    ¬ IsLeast {s | (∃ k, s = 2 ^ (12 + k)) ∧ (0x40000001 : UInt64).toNat ≤ s}
      (samplePages.getOrderSize (samplePages.getOrder 0x40000001)).toNat := by
  have h19 : samplePages.getOrderSize 19 = 0xffffffff80000000 := by decide
  have hord : samplePages.getOrder 0x40000001 = 19 := by decide
  refine ⟨h19, hord, by decide, fun hleast => ?_⟩
  rw [hord, h19] at hleast
  have hmem : (2 ^ (12 + 19) : ℕ) ∈ {s | (∃ k, s = 2 ^ (12 + k)) ∧ (0x40000001 : UInt64).toNat ≤ s} :=
    ⟨⟨19, rfl⟩, by decide⟩
  have hle := hleast.2 hmem
  exact absurd hle (by decide)

end Layout
end EpochKernel.Mem
