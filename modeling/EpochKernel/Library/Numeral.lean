import Mathlib

/-! Numerals in a base, with the first digit in front: those of a fixed width, and those without
leading zeros. -/
namespace EpochKernel.Library.Numeral
variable {b n r d w : ℕ}

/-- The last `w` digits of `n`. -/
def fixed (b : ℕ) : ℕ → ℕ → List ℕ
  | 0, _ => []
  | w + 1, n => fixed b w (n / b) ++ [n % b]

/-- The digits of `n` without leading zeros; zero has one digit. -/
def canonical (b n : ℕ) : List ℕ := if n = 0 then [0] else (Nat.digits b n).reverse

@[simp] lemma length_fixed (b w n : ℕ) : (fixed b w n).length = w := by
  induction w generalizing n with
  | zero => rfl
  | succ w ih => simp [fixed, ih]

lemma lt_of_mem_fixed (hb : 0 < b) (hd : d ∈ fixed b w n) : d < b := by
  induction w generalizing n with
  | zero => cases hd
  | succ w ih =>
    rcases List.mem_append.mp hd with hd | hd
    · exact ih hd
    · obtain rfl := List.mem_singleton.mp hd
      exact Nat.mod_lt n hb

lemma lt_of_mem_canonical (hb : 1 < b) (hd : d ∈ canonical b n) : d < b := by
  rw [canonical] at hd
  split_ifs at hd
  · obtain rfl := List.mem_singleton.mp hd
    exact Nat.zero_lt_of_lt hb
  · exact Nat.digits_lt_base hb (List.mem_reverse.mp hd)

/-- The first digit of a numeral. -/
lemma fixed_succ (hn : n < b ^ (w + 1)) : fixed b (w + 1) n = n / b ^ w :: fixed b w (n % b ^ w) := by
  induction w generalizing n with
  | zero =>
    rw [zero_add, pow_one] at hn
    simp [fixed, Nat.mod_eq_of_lt hn]
  | succ w ih =>
    have hdiv : n / b < b ^ (w + 1) := Nat.div_lt_of_lt_mul (by rwa [pow_succ'] at hn)
    have hlast : n % b ^ (w + 1) % b = n % b := Nat.mod_mod_of_dvd n (dvd_pow_self b (Nat.succ_ne_zero w))
    have hrest : n % b ^ (w + 1) / b = n / b % b ^ w := by
      rw [pow_succ, Nat.mod_mul_left_div_self]
    have hfirst : n / b / b ^ w = n / b ^ (w + 1) := by
      rw [Nat.div_div_eq_div_mul, ← pow_succ']
    calc
      fixed b (w + 1 + 1) n = fixed b (w + 1) (n / b) ++ [n % b] := rfl
      _ = n / b ^ (w + 1) :: (fixed b w (n % b ^ (w + 1) / b) ++ [n % b ^ (w + 1) % b]) := by
        rw [ih hdiv, hfirst, hrest, hlast, List.cons_append]
      _ = n / b ^ (w + 1) :: fixed b (w + 1) (n % b ^ (w + 1)) := rfl

lemma add_lt_pow (hd : d < b) (hr : r < b ^ w) : d * b ^ w + r < b ^ (w + 1) := by
  have := Nat.mul_le_mul_right (b ^ w) (Nat.succ_le_of_lt hd)
  rw [Nat.succ_mul] at this
  rw [pow_succ']
  omega

lemma fixed_of_first (hd : d < b) (hr : r < b ^ w) :
    fixed b (w + 1) (d * b ^ w + r) = d :: fixed b w r := by
  have hdiv : (d * b ^ w + r) / b ^ w = d := by
    rw [Nat.mul_comm, Nat.mul_add_div (Nat.zero_lt_of_lt hr), Nat.div_eq_of_lt hr, Nat.add_zero]
  have hmod : (d * b ^ w + r) % b ^ w = r := by
    rw [Nat.mul_comm, Nat.mul_add_mod, Nat.mod_eq_of_lt hr]
  rw [fixed_succ (add_lt_pow hd hr), hdiv, hmod]

/-- A numeral of the width that the number needs has no leading zeros. -/
lemma digits_reverse (hb : 1 < b) (hn : n ≠ 0) :
    (Nat.digits b n).reverse = fixed b (Nat.digits b n).length n := by
  induction n using Nat.strong_induction_on with
  | _ n ih =>
    rw [Nat.digits_eq_cons_digits_div hb hn, List.reverse_cons, List.length_cons, fixed]
    by_cases hdiv : n / b = 0
    · rw [hdiv, Nat.digits_zero]
      rfl
    · rw [ih (n / b) (Nat.div_lt_self (Nat.pos_of_ne_zero hn) hb) hdiv]

/-- The first digit that is not zero. -/
lemma canonical_of_first (hb : 1 < b) (hd : 0 < d) (hdb : d < b) (hr : r < b ^ w) :
    canonical b (d * b ^ w + r) = d :: fixed b w r := by
  have hpos : 0 < d * b ^ w := Nat.mul_pos hd (Nat.pow_pos (Nat.zero_lt_of_lt hb))
  have hne : d * b ^ w + r ≠ 0 := by omega
  have hge : b ^ w ≤ d * b ^ w + r := (Nat.le_mul_of_pos_left _ hd).trans (Nat.le_add_right _ _)
  have hlength : (Nat.digits b (d * b ^ w + r)).length = w + 1 := by
    apply Nat.le_antisymm
    · exact (Nat.digits_length_le_iff hb _).mpr (add_lt_pow hdb hr)
    · by_contra hlen
      exact absurd ((Nat.digits_length_le_iff hb _).mp (Nat.lt_succ_iff.mp (Nat.not_le.mp hlen)))
        (Nat.not_lt.mpr hge)
  unfold canonical
  rw [if_neg hne, digits_reverse hb hne, hlength, fixed_of_first hdb hr]

/-- A number below `b ^ w` has a numeral of at most `w` digits. -/
lemma canonical_eq_fixed (hb : 1 < b) (hw : 0 < w) (hn : n < b ^ w) :
    ∃ k, 0 < k ∧ k ≤ w ∧ n < b ^ k ∧ canonical b n = fixed b k n := by
  unfold canonical
  by_cases h0 : n = 0
  · subst h0
    refine ⟨1, one_pos, hw, Nat.pow_pos (Nat.zero_lt_of_lt hb), ?_⟩
    rw [if_pos rfl]
    simp [fixed]
  · refine ⟨(Nat.digits b n).length, ?_, (Nat.digits_length_le_iff hb n).mpr hn,
      Nat.lt_base_pow_length_digits hb, ?_⟩
    · exact List.length_pos_iff.mpr (Nat.digits_ne_nil_iff_ne_zero.mpr h0)
    · rw [if_neg h0, digits_reverse hb h0]

end EpochKernel.Library.Numeral
