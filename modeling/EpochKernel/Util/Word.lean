import Mathlib

/-! The 64-bit word helpers of `util/misc.cpp`, `util/math.cpp` and `math.asm`, with their
values over the natural numbers. Shifts of the `int` literal 1 are evaluated as the x86-64
target does: the count is taken modulo 32 and the result is sign extended. -/
namespace EpochKernel.Util

/-- Alignment must be a power of two. -/
def alignUp (addr align : UInt64) : UInt64 := (addr + align - 1) &&& ~~~(align - 1)

def alignDown (addr align : UInt64) : UInt64 := addr &&& ~~~(align - 1)

def alignOf (addr : UInt64) : UInt64 :=
  if addr ≠ 0 then ((addr ^^^ (addr - 1)) + 1) >>> 1 else 0

/-- `bsr`, with all bits set for a zero argument; only the low byte is returned. -/
def log2 (n : UInt64) : UInt8 := if n = 0 then 255 else UInt8.ofNat n.toNat.log2

/-- The C expression `1 << s` converted to `usize`. -/
def intShl (s : UInt32) : UInt64 := ((1 : Int32) <<< s.toInt32).toInt64.toUInt64

def log2Up (n : UInt64) : UInt8 := log2 (alignUp n (intShl (log2 n).toUInt32))

/-- Bits `l` to `h` of `n`, both included. -/
def getBits (n : UInt64) (l h : UInt8) : UInt64 :=
  let temp : UInt64 := if h = 63 then 0xffffffffffffffff else ((1 : UInt64) <<< (h.toUInt64 + 1)) - 1
  (temp &&& n) >>> l.toUInt64

/-- `abs` of `math.cpp`, which takes a 32-bit argument. -/
def abs (n : Int32) : Int32 :=
  let temp := n >>> 31
  (n ^^^ temp) + temp

lemma abs_of_nonneg {n : Int32} (h : 0 ≤ n.toInt) : abs n = n := by
  have hshift : n >>> 31 = 0 := by
    apply Int32.toInt_inj.mp
    have hlt := n.toInt_lt
    rw [← Int32.toInt_toBitVec, Int32.toBitVec_shiftRight]
    change (n.toBitVec.sshiftRight 31).toInt = 0
    rw [BitVec.toInt_sshiftRight, Int32.toInt_toBitVec, Int.shiftRight_eq_div_pow]
    omega
  rw [abs, hshift]
  simp

def sign (n : Int32) : ℤ := if n = 0 then 0 else if 0 < n then 1 else -1

lemma sign_eq (n : Int32) : sign n = n.toInt.sign := by
  rcases lt_trichotomy n.toInt 0 with h | h | h
  · have h0 : n ≠ 0 := by
      rintro rfl
      exact h.ne rfl
    have hp : ¬ 0 < n := by
      rw [Int32.lt_iff_toInt_lt]
      exact h.not_gt
    rw [sign, if_neg h0, if_neg hp, Int.sign_eq_neg_one_of_neg h]
  · obtain rfl : n = 0 := Int32.toInt_inj.mp h
    rfl
  · have h0 : n ≠ 0 := by
      rintro rfl
      exact h.ne' rfl
    have hp : 0 < n := by
      rw [Int32.lt_iff_toInt_lt]
      exact h
    rw [sign, if_neg h0, if_pos hp, Int.sign_eq_one_of_pos h]

lemma intShl_toNat {s : ℕ} (hs : s < 31) : (intShl (UInt32.ofNat s)).toNat = 2 ^ s := by
  have h : ∀ i : Fin 31, (intShl (UInt32.ofNat i.val)).toNat = 2 ^ i.val := by decide
  exact h ⟨s, hs⟩

lemma nat_and_not_mask {x k : ℕ} (hx : x < 2 ^ 64) :
    x &&& (2 ^ 64 - 1 - (2 ^ k - 1)) = x / 2 ^ k * 2 ^ k := by
  rcases Nat.lt_or_ge k 64 with hk | hk
  · have hm : 2 ^ k - 1 < 2 ^ 64 := by
      have := Nat.pow_lt_pow_right (a := 2) (by norm_num) hk
      omega
    apply Nat.eq_of_testBit_eq
    intro i
    rw [Nat.sub_sub, Nat.add_comm 1, Nat.testBit_and, Nat.testBit_two_pow_sub_succ hm,
      Nat.testBit_two_pow_sub_one, Nat.testBit_mul_two_pow, Nat.testBit_div_two_pow]
    by_cases hi : k ≤ i
    · have hlt : i < 64 ∨ x.testBit i = false := by
        rcases Nat.lt_or_ge i 64 with h | h
        · exact Or.inl h
        · exact Or.inr (Nat.testBit_lt_two_pow (hx.trans_le (Nat.pow_le_pow_right (by norm_num) h)))
      rcases hlt with h | h
      · simp [hi, h, Nat.not_lt.mpr hi]
      · simp [hi, h]
    · simp [hi, Nat.lt_of_not_le hi]
  · have hp : 2 ^ 64 ≤ 2 ^ k := Nat.pow_le_pow_right (by norm_num) hk
    rw [Nat.div_eq_of_lt (hx.trans_le hp)]
    have hz : 2 ^ 64 - 1 - (2 ^ k - 1) = 0 := by omega
    rw [hz, Nat.and_zero, Nat.zero_mul]

lemma mask_toNat {a : UInt64} {k : ℕ} (ha : a.toNat = 2 ^ k) :
    (~~~(a - 1)).toNat = 2 ^ 64 - 1 - (2 ^ k - 1) := by
  have h1 : (1 : UInt64) ≤ a := by
    rw [UInt64.le_iff_toNat_le, ha]
    exact Nat.one_le_two_pow
  rw [UInt64.toNat_not, UInt64.toNat_sub_of_le _ _ h1, ha]
  rfl

lemma alignDown_toNat {x a : UInt64} {k : ℕ} (ha : a.toNat = 2 ^ k) :
    (alignDown x a).toNat = x.toNat / 2 ^ k * 2 ^ k := by
  rw [alignDown, UInt64.toNat_and, mask_toNat ha, nat_and_not_mask x.toNat_lt]

lemma alignDown_le {x a : UInt64} {k : ℕ} (ha : a.toNat = 2 ^ k) :
    (alignDown x a).toNat ≤ x.toNat := by
  rw [alignDown_toNat ha]
  exact Nat.div_mul_le_self _ _

lemma dvd_alignDown {x a : UInt64} {k : ℕ} (ha : a.toNat = 2 ^ k) :
    2 ^ k ∣ (alignDown x a).toNat := by
  rw [alignDown_toNat ha]
  exact Dvd.intro_left _ rfl

lemma alignDown_alignDown (x a : UInt64) : alignDown (alignDown x a) a = alignDown x a := by
  rw [alignDown, alignDown, UInt64.and_assoc, UInt64.and_self]

lemma alignUp_eq_alignDown (x a : UInt64) : alignUp x a = alignDown (x + a - 1) a := rfl

lemma dvd_alignUp {x a : UInt64} {k : ℕ} (ha : a.toNat = 2 ^ k) :
    2 ^ k ∣ (alignUp x a).toNat := dvd_alignDown ha

lemma alignUp_toNat {x a : UInt64} {k : ℕ} (ha : a.toNat = 2 ^ k)
    (hx : x.toNat + 2 ^ k ≤ 2 ^ 64) :
    (alignUp x a).toNat = (x.toNat + 2 ^ k - 1) / 2 ^ k * 2 ^ k := by
  rw [alignUp_eq_alignDown, alignDown_toNat ha]
  have hp : 1 ≤ 2 ^ k := Nat.one_le_two_pow
  have : (x + a - 1).toNat = x.toNat + 2 ^ k - 1 := by
    rw [UInt64.toNat_sub, UInt64.toNat_add, ha, UInt64.toNat_one]
    omega
  rw [this]

lemma log2_toNat {n : UInt64} (h : n ≠ 0) : (log2 n).toNat = n.toNat.log2 := by
  have hn : n.toNat ≠ 0 := fun h0 => h (UInt64.toNat_inj.mp h0)
  have hl : n.toNat.log2 < 64 := (Nat.log2_lt hn).mpr n.toNat_lt
  rw [log2, if_neg h, UInt8.toNat_ofNat']
  omega

lemma log2_toNat_two_pow {n : UInt64} {k : ℕ} (h : n.toNat = 2 ^ k) : (log2 n).toNat = k := by
  have hn : n ≠ 0 := by
    rintro rfl
    exact absurd h (by simpa using (Nat.two_pow_pos k).ne)
  rw [log2_toNat hn, h, Nat.log2_two_pow]

/-- Exclusive or with a power of two exchanges the two halves of the enclosing block. -/
lemma nat_xor_two_pow {a k : ℕ} (h : 2 ^ k ∣ a) :
    (2 ^ (k + 1) ∣ a → a ^^^ 2 ^ k = a + 2 ^ k) ∧ (¬ 2 ^ (k + 1) ∣ a → (a ^^^ 2 ^ k) + 2 ^ k = a) := by
  obtain ⟨q, rfl⟩ := h
  have hx : 2 ^ k * q ^^^ 2 ^ k = 2 ^ k * (q ^^^ 1) := by
    have := Nat.shiftLeft_xor_distrib (i := k) (a := q) (b := 1)
    simp only [Nat.shiftLeft_eq, one_mul] at this
    rw [Nat.mul_comm, ← this, Nat.mul_comm]
  rw [pow_succ, Nat.mul_dvd_mul_iff_left (Nat.two_pow_pos k)]
  constructor
  · intro hq
    rw [hx, Nat.xor_one_of_even (even_iff_two_dvd.mpr hq)]
    ring
  · intro hq
    rw [hx]
    have ho : Odd q := Nat.not_even_iff_odd.mp fun he => hq (even_iff_two_dvd.mp he)
    rw [Nat.xor_one_of_odd ho]
    obtain ⟨m, rfl⟩ := ho
    simp only [Nat.add_sub_cancel]
    ring

/-- For an address whose lowest set bit is bit `v`, the word with only that bit, except at the
top bit where the intermediate sum wraps to zero. -/
lemma alignOf_toNat {a : UInt64} {v m : ℕ} (h : a.toNat = 2 ^ (v + 1) * m + 2 ^ v) :
    (alignOf a).toNat = if v = 63 then 0 else 2 ^ v := by
  have hp : 0 < 2 ^ v := Nat.two_pow_pos v
  have ha : a ≠ 0 := by
    rintro rfl
    simp at h
    omega
  have hv : v < 64 := by
    by_contra hv
    have : 2 ^ 64 ≤ 2 ^ v := Nat.pow_le_pow_right (by norm_num) (by omega)
    have := a.toNat_lt
    omega
  have h1 : (1 : UInt64) ≤ a := by
    rw [UInt64.le_iff_toNat_le, UInt64.toNat_one]
    omega
  have hsub : (a - 1).toNat = 2 ^ (v + 1) * m + (2 ^ v - 1) := by
    rw [UInt64.toNat_sub_of_le _ _ h1, UInt64.toNat_one, h]
    omega
  have hlt : 2 ^ v < 2 ^ (v + 1) := Nat.pow_lt_pow_right (by norm_num) (by omega)
  have hxor : (a ^^^ (a - 1)).toNat = 2 ^ (v + 1) - 1 := by
    rw [UInt64.toNat_xor, hsub, h]
    apply Nat.eq_of_testBit_eq
    intro i
    rw [Nat.testBit_xor, Nat.testBit_two_pow_mul_add _ hlt,
      Nat.testBit_two_pow_mul_add _ (by omega : 2 ^ v - 1 < 2 ^ (v + 1)),
      Nat.testBit_two_pow_sub_one, Nat.testBit_two_pow_sub_one, Nat.testBit_two_pow]
    by_cases hi : i < v + 1
    · simp only [hi, if_true, decide_true]
      rcases Nat.lt_or_ge i v with h' | h'
      · have hne : v ≠ i := by omega
        simp [h', hne]
      · have he : v = i := by omega
        simp [he]
    · simp [hi]
  rw [alignOf, if_pos ha, UInt64.toNat_shiftRight, UInt64.toNat_add, hxor, UInt64.toNat_one]
  have hs : 2 ^ (v + 1) - 1 + 1 = 2 ^ (v + 1) := by omega
  rw [hs, Nat.shiftRight_eq_div_pow]
  by_cases hv' : v = 63
  · subst hv'
    simp
  · have : 2 ^ (v + 1) < 2 ^ 64 := Nat.pow_lt_pow_right (by norm_num) (by omega)
    rw [Nat.mod_eq_of_lt this, if_neg hv']
    norm_num
    rw [pow_succ]
    omega

end EpochKernel.Util
