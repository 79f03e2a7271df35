import EpochKernel.Library.Numeral

/-! The strings of `util/string.cpp`: the bytes from an address on, up to a NUL. What a function writes
to an address is the list of the bytes there afterwards. -/
namespace EpochKernel.Util
open EpochKernel.Library

/-- `strlen`; there is a NUL in the bytes. -/
def strlen : List UInt8 → ℕ
  | [] => 0
  | c :: cs => if c = 0 then 0 else strlen cs + 1

/-- `powu`, which multiplies modulo 2 ^ 64. -/
def powu (a : UInt64) : ℕ → UInt64
  | 0 => 1
  | b + 1 => powu a b * a

def powi (a : Int64) : ℕ → Int64
  | 0 => 1
  | b + 1 => powi a b * a

/-- `itoc`. -/
def itoc (num : UInt32) : UInt8 :=
  ([0x30, 0x31, 0x32, 0x33, 0x34, 0x35, 0x36, 0x37, 0x38, 0x39, 0x61, 0x62, 0x63, 0x64, 0x65,
    0x66][num.toNat]?).getD 0

/-- The loop of `itoa` from the power `i - 1` downwards; `str` is what has been written. -/
def itoaLoop : ℕ → Bool → UInt64 → List UInt8 → List UInt8
  | 0, _, _, str => str
  | i + 1, flag, num, str =>
    let n1 := powu 10 i
    let n2 := num / n1
    if n2 ≠ 0 then itoaLoop i true (num - n1 * n2) (str ++ [itoc n2.toUInt32])
    else if flag then itoaLoop i flag num (str ++ [0x30])
    else itoaLoop i flag num str

/-- What `itoa` writes. -/
def itoa (num : UInt64) : List UInt8 :=
  let str := itoaLoop 21 false num []
  let str := if str = [] then str ++ [0x30] else str
  str ++ [0]

/-- The loop of `itoa_hex`, from the last character on. -/
def itoaHexLoop : ℕ → UInt64 → List UInt8
  | 0, _ => []
  | i + 1, num => itoaHexLoop i (num >>> 4) ++ [itoc (num % 16).toUInt32]

def itoaHex (num : UInt64) : List UInt8 := itoaHexLoop 16 num ++ [0]

/-- The loop of `atoi`, with `int` arithmetic modulo 2 ^ 32. -/
def atoiLoop : List UInt8 → Int32 → Int32 → UInt32
  | [], _, out => out.toUInt32
  | c :: cs, num, out =>
    if c = 0 then out.toUInt32
    else if 0x30 ≤ c ∧ c ≤ 0x39 then
      atoiLoop cs (num / 10) (out + (c - 0x30).toUInt32.toInt32 * num)
    else 0

def atoi (str : List UInt8) : UInt32 :=
  atoiLoop str (powi 10 (UInt64.ofNat (strlen str) - 1).toNat).toInt32 0

/-- The digits of a numeral as characters. -/
def characters (digits : List ℕ) : List UInt8 := digits.map fun d => itoc (UInt32.ofNat d)

/-- No digit is the NUL. -/
lemma characters_ne_zero {digits : List ℕ} (h : ∀ d ∈ digits, d < 16) :
    ∀ c ∈ characters digits, c ≠ 0 := by
  have hall : ∀ d : Fin 16, itoc (UInt32.ofNat d) ≠ 0 := by decide
  intro c hc
  obtain ⟨d, hd, rfl⟩ := List.mem_map.mp hc
  exact hall ⟨d, h d hd⟩

/-- The decimal numeral of a number. -/
def decimal (n : ℕ) : List UInt8 := characters (Numeral.canonical 10 n)

/-- `itoa` writes the numeral and a NUL, in at most 21 bytes. -/
structure Prints (num : UInt64) : Prop where
  numeral : itoa num = decimal num.toNat ++ [0]
  length : (itoa num).length ≤ 21

section Itoa
variable {i w : ℕ} {num : UInt64} {str : List UInt8}

lemma powu_toNat (hi : i < 20) : (powu 10 i).toNat = 10 ^ i := by
  induction i with
  | zero => rfl
  | succ i ih =>
    have hlt : 10 ^ (i + 1) < 2 ^ 64 :=
      (Nat.pow_le_pow_right (by norm_num) (Nat.lt_succ_iff.mp hi)).trans_lt (by norm_num)
    rw [powu, UInt64.toNat_mul, ih (Nat.lt_of_succ_lt hi)]
    exact Nat.mod_eq_of_lt hlt

/-- One digit of the numeral: the quotient and the rest. -/
lemma quotient (hi : i < 20) : (num / powu 10 i).toNat = num.toNat / 10 ^ i ∧
    (num - powu 10 i * (num / powu 10 i)).toNat = num.toNat % 10 ^ i := by
  have hdiv : (num / powu 10 i).toNat = num.toNat / 10 ^ i := by
    rw [UInt64.toNat_div, powu_toNat hi]
  have hmul : (powu 10 i * (num / powu 10 i)).toNat = 10 ^ i * (num.toNat / 10 ^ i) := by
    rw [UInt64.toNat_mul, hdiv, powu_toNat hi]
    exact Nat.mod_eq_of_lt ((Nat.mul_div_le ..).trans_lt num.toNat_lt)
  refine ⟨hdiv, ?_⟩
  rw [UInt64.toNat_sub_of_le _ _ (UInt64.le_iff_toNat_le.mpr ?_), hmul]
  · exact Nat.sub_eq_of_eq_add (Nat.mod_add_div ..).symm
  · rw [hmul]
    exact Nat.mul_div_le ..

lemma characters_cons (d : ℕ) (ds : List ℕ) :
    characters (d :: ds) = itoc (UInt32.ofNat d) :: characters ds := rfl

lemma itoc_quotient (hi : i < 20) :
    itoc (num / powu 10 i).toUInt32 = itoc (UInt32.ofNat (num.toNat / 10 ^ i)) := by
  rw [← (quotient hi).1]
  rfl

/-- Behind the first digit every further digit is written. -/
lemma itoaLoop_true (hi : i ≤ 20) (hn : num.toNat < 10 ^ i) :
    itoaLoop i true num str = str ++ characters (Numeral.fixed 10 i num.toNat) := by
  induction i generalizing num str with
  | zero => simp [itoaLoop, Numeral.fixed, characters]
  | succ i ih =>
    obtain ⟨hdiv, hmod⟩ := @quotient i num hi
    have hrest : num.toNat % 10 ^ i < 10 ^ i := Nat.mod_lt _ (Nat.pow_pos (by norm_num))
    rw [itoaLoop, Numeral.fixed_succ hn]
    by_cases h0 : num / powu 10 i ≠ 0
    · rw [if_pos h0, ih (by omega) (by rw [hmod]; exact hrest), hmod, itoc_quotient hi, characters_cons,
        List.append_assoc, List.singleton_append]
    · rw [if_neg h0, if_pos rfl]
      rw [not_not] at h0
      have hzero : num.toNat / 10 ^ i = 0 := by rw [← hdiv, h0, UInt64.toNat_zero]
      have hlt : num.toNat < 10 ^ i := Nat.lt_of_div_eq_zero (Nat.pow_pos (by norm_num)) hzero
      have hchar : itoc (UInt32.ofNat 0) = 0x30 := rfl
      rw [ih (by omega) hlt, hzero, Nat.mod_eq_of_lt hlt, characters_cons, hchar, List.append_assoc,
        List.singleton_append]

/-- Zeros in front are not written. -/
lemma itoaLoop_false (hi : i ≤ 20) (hn : num.toNat < 10 ^ i) :
    itoaLoop i false num [] = if num = 0 then [] else decimal num.toNat := by
  induction i generalizing num with
  | zero =>
    rw [pow_zero, Nat.lt_one_iff] at hn
    rw [if_pos (UInt64.toNat_inj.mp hn)]
    rfl
  | succ i ih =>
    obtain ⟨hdiv, hmod⟩ := @quotient i num hi
    have hpos : 0 < 10 ^ i := Nat.pow_pos (by norm_num)
    have hrest : num.toNat % 10 ^ i < 10 ^ i := Nat.mod_lt _ hpos
    rw [itoaLoop]
    by_cases h0 : num / powu 10 i = 0
    · have hzero : num.toNat / 10 ^ i = 0 := by rw [← hdiv, h0, UInt64.toNat_zero]
      rw [if_neg (not_not_intro h0), if_neg Bool.false_ne_true]
      exact ih (by omega) (Nat.lt_of_div_eq_zero hpos hzero)
    · have hfirst : 0 < num.toNat / 10 ^ i := by
        rw [← hdiv]
        exact Nat.pos_of_ne_zero fun hz => h0 (UInt64.toNat_inj.mp hz)
      have hdigit : num.toNat / 10 ^ i < 10 := Nat.div_lt_of_lt_mul (by rwa [pow_succ] at hn)
      have hne : num ≠ 0 := by
        rintro rfl
        rw [UInt64.toNat_zero, Nat.zero_div] at hfirst
        exact hfirst.ne rfl
      have hnumeral := Numeral.canonical_of_first (by norm_num) hfirst hdigit hrest
      rw [Nat.div_add_mod'] at hnumeral
      rw [if_pos h0, if_neg hne, itoaLoop_true (by omega) (by rw [hmod]; exact hrest), hmod]
      unfold decimal
      rw [hnumeral, characters_cons, itoc_quotient hi]
      rfl

lemma decimal_ne_nil (n : ℕ) : decimal n ≠ [] := by
  obtain ⟨k, hk, -, -, heq⟩ := Numeral.canonical_eq_fixed (b := 10) (n := n) (w := n + 1) (by norm_num)
    (Nat.succ_pos n) ((Nat.lt_pow_self (by norm_num)).trans (Nat.pow_lt_pow_right (by norm_num) n.lt_succ_self))
  unfold decimal characters
  rw [heq, ne_eq, List.map_eq_nil_iff, ← List.length_eq_zero_iff, Numeral.length_fixed]
  exact hk.ne'

/-- The first quotient is by what is left of 10 ^ 20 modulo 2 ^ 64. -/
lemma powu_top : (powu 10 20).toNat = 7766279631452241920 := rfl

/-- Where the first quotient is 0, the numeral is written. -/
lemma itoa_eq (hn : num.toNat < 7766279631452241920) : itoa num = decimal num.toNat ++ [0] := by
  have h0 : num / powu 10 20 = 0 := by
    apply UInt64.toNat_inj.mp
    rw [UInt64.toNat_div, powu_top, Nat.div_eq_of_lt hn, UInt64.toNat_zero]
  have hloop : itoaLoop 21 false num [] = if num = 0 then [] else decimal num.toNat := by
    rw [itoaLoop, if_neg (not_not_intro h0), if_neg Bool.false_ne_true]
    exact itoaLoop_false le_rfl (hn.trans (by norm_num))
  unfold itoa
  rw [hloop]
  by_cases hz : num = 0
  · subst hz
    rfl
  · rw [if_neg hz]
    exact congrArg (· ++ [0]) (if_neg (decimal_ne_nil _))

lemma length_itoaLoop : (itoaLoop i true num str).length = str.length + i := by
  induction i generalizing num str with
  | zero => rfl
  | succ i ih =>
    rw [itoaLoop, if_pos rfl]
    split_ifs
    · rw [ih, List.length_append, List.length_singleton]
      omega
    · rw [ih, List.length_append, List.length_singleton]
      omega

lemma length_decimal (hw : 0 < w) {n : ℕ} (hn : n < 10 ^ w) : (decimal n).length ≤ w := by
  obtain ⟨k, -, hk, -, heq⟩ := Numeral.canonical_eq_fixed (by norm_num) hw hn
  unfold decimal characters
  rw [heq, List.length_map, Numeral.length_fixed]
  exact hk

/-- Otherwise 21 digits are written. -/
lemma length_itoa (hn : 7766279631452241920 ≤ num.toNat) : (itoa num).length = 22 := by
  have h0 : num / powu 10 20 ≠ 0 := by
    intro hz
    have hdiv := congrArg UInt64.toNat hz
    rw [UInt64.toNat_div, powu_top, UInt64.toNat_zero] at hdiv
    exact absurd (Nat.lt_of_div_eq_zero (by norm_num) hdiv) (Nat.not_lt.mpr hn)
  have hlength : (itoaLoop 21 false num []).length = 21 := by
    rw [itoaLoop, if_pos h0, length_itoaLoop]
    rfl
  have hne : itoaLoop 21 false num [] ≠ [] := by
    intro hnil
    rw [hnil] at hlength
    cases hlength
  have hout : itoa num = itoaLoop 21 false num [] ++ [0] := congrArg (· ++ [0]) (if_neg hne)
  rw [hout, List.length_append, hlength]
  rfl

/-- `itoa` prints the numbers below 10 ^ 20 modulo 2 ^ 64, and no others. -/
theorem itoa_prints_iff (num : UInt64) : Prints num ↔ num.toNat < 7766279631452241920 := by
  constructor
  · intro h
    by_contra hn
    have hlength := length_itoa (Nat.not_lt.mp hn)
    exact absurd h.length (by omega)
  · intro hn
    have heq := itoa_eq hn
    have hle := length_decimal (w := 20) (by norm_num) (num.toNat_lt.trans (by norm_num))
    refine ⟨heq, ?_⟩
    rw [heq, List.length_append, List.length_singleton]
    omega

/-- The numeral of 10 ^ 20 is written for 7766279631452241920. -/
theorem not_prints_top : ¬ Prints 7766279631452241920 := by
  intro h
  have hle : 7766279631452241920 ≤ (7766279631452241920 : UInt64).toNat := le_rfl
  have hlength := length_itoa hle
  exact absurd h.length (by omega)

end Itoa

section Atoi
variable {i : ℕ} {num out : Int32}

lemma strlen_append {str : List UInt8} (h : ∀ c ∈ str, c ≠ 0) (rest : List UInt8) :
    strlen (str ++ 0 :: rest) = str.length := by
  induction str with
  | nil => rfl
  | cons c cs ih =>
    have hc := h c List.mem_cons_self
    rw [List.cons_append, strlen, if_neg hc, ih fun d hd => h d (List.mem_cons_of_mem c hd),
      List.length_cons]

lemma itoc_digit {d : ℕ} (hd : d < 10) : 0x30 ≤ itoc (UInt32.ofNat d) ∧ itoc (UInt32.ofNat d) ≤ 0x39 ∧
    (itoc (UInt32.ofNat d) - 0x30).toUInt32.toInt32 = Int32.ofNat d := by
  have hall : ∀ d : Fin 10, 0x30 ≤ itoc (UInt32.ofNat d) ∧ itoc (UInt32.ofNat d) ≤ 0x39 ∧
      (itoc (UInt32.ofNat d) - 0x30).toUInt32.toInt32 = Int32.ofNat d := by decide
  exact hall ⟨d, hd⟩

/-- The power of the next digit. -/
lemma power_div (hi : i < 9) : Int32.ofNat (10 ^ (i + 1)) / 10 = Int32.ofNat (10 ^ i) := by
  have hall : ∀ i : Fin 9, Int32.ofNat (10 ^ (i.val + 1)) / 10 = Int32.ofNat (10 ^ i.val) := by decide
  exact hall ⟨i, hi⟩

lemma powi_eq (hi : i < 10) : (powi 10 i).toInt32 = Int32.ofNat (10 ^ i) := by
  have hall : ∀ i : Fin 10, (powi 10 i.val).toInt32 = Int32.ofNat (10 ^ i.val) := by decide
  exact hall ⟨i, hi⟩

lemma atoiLoop_digit {d : ℕ} (hd : d < 10) (rest : List UInt8) :
    atoiLoop (itoc (UInt32.ofNat d) :: rest) num out =
      atoiLoop rest (num / 10) (out + Int32.ofNat d * num) := by
  obtain ⟨hlow, hhigh, hvalue⟩ := itoc_digit hd
  have hne : itoc (UInt32.ofNat d) ≠ 0 := by
    intro h0
    rw [h0] at hlow
    exact absurd hlow (by decide)
  rw [atoiLoop, if_neg hne, if_pos ⟨hlow, hhigh⟩, hvalue]

/-- The digits that are left are added, each with its power. -/
lemma atoiLoop_eq {n : ℕ} (hi : i < 10) (hn : n < 10 ^ (i + 1)) (rest : List UInt8) :
    atoiLoop (characters (Numeral.fixed 10 (i + 1) n) ++ 0 :: rest) (Int32.ofNat (10 ^ i)) out =
      (out + Int32.ofNat n).toUInt32 := by
  induction i generalizing n out with
  | zero =>
    rw [zero_add, pow_one] at hn
    have hone : Int32.ofNat 1 = 1 := rfl
    rw [Numeral.fixed_succ (by simpa using hn), characters_cons, List.cons_append, pow_zero, Nat.div_one,
      atoiLoop_digit hn, hone, Int32.mul_one]
    rfl
  | succ i ih =>
    have hdigit : n / 10 ^ (i + 1) < 10 := Nat.div_lt_of_lt_mul (by rwa [pow_succ] at hn)
    have hrest : n % 10 ^ (i + 1) < 10 ^ (i + 1) := Nat.mod_lt _ (Nat.pow_pos (by norm_num))
    have hsum : out + Int32.ofNat (n / 10 ^ (i + 1)) * Int32.ofNat (10 ^ (i + 1)) +
        Int32.ofNat (n % 10 ^ (i + 1)) = out + Int32.ofNat n := by
      rw [Int32.add_assoc, ← Int32.ofNat_mul, ← Int32.ofNat_add, Nat.div_add_mod']
    rw [Numeral.fixed_succ hn, characters_cons, List.cons_append, atoiLoop_digit hdigit,
      power_div (Nat.lt_of_succ_lt_succ hi), ih (Nat.lt_of_succ_lt hi) hrest, hsum]

/-- `atoi` of a numeral of at most ten digits. -/
lemma atoi_decimal {n : ℕ} (hn : n < 10 ^ 10) (rest : List UInt8) :
    atoi (decimal n ++ 0 :: rest) = UInt32.ofNat n := by
  obtain ⟨k, hpos, hk, hlt, heq⟩ := Numeral.canonical_eq_fixed (b := 10) (by norm_num) (by norm_num) hn
  obtain ⟨i, rfl⟩ : ∃ i, k = i + 1 := ⟨k - 1, by omega⟩
  have hlength : (UInt64.ofNat (i + 1) - 1).toNat = i := by
    rw [UInt64.ofNat_add]
    change (UInt64.ofNat i + 1 - 1).toNat = i
    rw [UInt64.add_sub_cancel, UInt64.toNat_ofNat']
    omega
  have hzero : (0 + Int32.ofNat n).toUInt32 = UInt32.ofNat n := by
    rw [Int32.zero_add]
    rfl
  have hdigits : ∀ d ∈ Numeral.fixed 10 (i + 1) n, d < 16 :=
    fun d hd => (Numeral.lt_of_mem_fixed (by norm_num) hd).trans (by norm_num)
  unfold atoi decimal
  rw [heq, strlen_append (characters_ne_zero hdigits)]
  unfold characters
  rw [List.length_map, Numeral.length_fixed, hlength, powi_eq (by omega)]
  exact (atoiLoop_eq (by omega) hlt rest).trans hzero

/-- `atoi` reads what `itoa` has printed. -/
theorem atoi_itoa (x : UInt32) : atoi (itoa x.toUInt64) = x := by
  have hx := x.toNat_lt
  have hnum : x.toUInt64.toNat = x.toNat := UInt32.toNat_toUInt64 x
  rw [itoa_eq (by omega), hnum, atoi_decimal (by omega)]
  exact UInt32.ofNat_toNat

end Atoi

end EpochKernel.Util
