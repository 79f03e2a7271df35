import EpochKernel.Util.Strings

/-! `strcmp` and `strncmp`. They stop at the end of either string, and their result is the difference
of two characters modulo 256 as a signed character. -/
namespace EpochKernel.Util

/-- A string without the NUL that ends it. -/
structure CString where
  chars : List UInt8
  nonzero : ∀ c ∈ chars, c ≠ 0

namespace CString

/-- The bytes of the string in memory. -/
def bytes (s : CString) : List UInt8 := s.chars ++ [0]

/-- The string of the first `n` characters. -/
def truncate (s : CString) (n : ℕ) : CString where
  chars := s.chars.take n
  nonzero c hc := s.nonzero c (List.mem_of_mem_take hc)

@[ext] lemma ext {a b : CString} (h : a.chars = b.chars) : a = b := by
  cases a
  cases b
  congr

lemma strlen_bytes (s : CString) : strlen s.bytes = s.chars.length := strlen_append s.nonzero []

/-- The byte at index `i`, which may be behind the NUL. -/
def byteAt (s : CString) (behind : ℕ → UInt8) (i : ℕ) : UInt8 :=
  (s.bytes[i]?).getD (behind (i - s.bytes.length))

lemma byteAt_append {s : CString} {p cs : List UInt8} {c : UInt8} (behind : ℕ → UInt8)
    (h : s.bytes = p ++ c :: cs) : s.byteAt behind p.length = c := by
  rw [byteAt, h, List.getElem?_append_right le_rfl, Nat.sub_self, List.getElem?_cons_zero]
  rfl

lemma byteAt_length (s : CString) (behind : ℕ → UInt8) : s.byteAt behind s.chars.length = 0 := by
  have h : s.bytes = s.chars ++ 0 :: [] := rfl
  exact byteAt_append behind h

end CString

/-- The characters from index `i` on. -/
def Holds (input : ℕ → UInt8) : ℕ → List UInt8 → Prop
  | _, [] => True
  | i, c :: cs => input i = c ∧ Holds input (i + 1) cs

lemma holds_append {s : CString} {cs : List UInt8} (behind : ℕ → UInt8) :
    ∀ {p}, s.chars = p ++ cs → Holds (s.byteAt behind) p.length cs := by
  induction cs with
  | nil => exact fun _ => trivial
  | cons c cs ih =>
    intro p h
    have hbytes : s.bytes = p ++ c :: (cs ++ [0]) := by
      rw [CString.bytes, h, List.append_assoc]
      rfl
    have hrest := ih (p := p ++ [c]) (by rw [h, List.append_assoc]; rfl)
    rw [List.length_append] at hrest
    exact ⟨CString.byteAt_append behind hbytes, hrest⟩

lemma holds_chars (s : CString) (behind : ℕ → UInt8) : Holds (s.byteAt behind) 0 s.chars :=
  holds_append behind (p := []) rfl

/-- `strcmp`, with its `int` result. -/
def strcmp : List UInt8 → List UInt8 → ℤ
  | c1 :: str1, c2 :: str2 =>
    if c1 ≠ 0 ∧ c2 ≠ 0 then
      let temp := (c1 - c2).toInt8
      if temp ≠ 0 then temp.toInt else strcmp str1 str2
    else 0
  | _, _ => 0

/-- `strncmp`, where `n` characters are left. -/
def strncmp : List UInt8 → List UInt8 → ℕ → ℤ
  | c1 :: str1, c2 :: str2, n =>
    if c1 ≠ 0 ∧ c2 ≠ 0 ∧ 0 < n then
      let temp := (c1 - c2).toInt8
      if temp ≠ 0 then temp.toInt else strncmp str1 str2 (n - 1)
    else 0
  | _, _, _ => 0

/-- On the strings in `S` the comparison is an ordering that is consistent with equality, and that of
the first `n` characters is the one of the truncated strings. -/
structure Orders (S : Set CString) : Prop where
  zero : ∀ a ∈ S, ∀ b ∈ S, strcmp a.bytes b.bytes = 0 ↔ a = b
  sign : ∀ a ∈ S, ∀ b ∈ S, (strcmp a.bytes b.bytes).sign = -(strcmp b.bytes a.bytes).sign
  trans : ∀ a ∈ S, ∀ b ∈ S, ∀ c ∈ S, strcmp a.bytes b.bytes ≤ 0 → strcmp b.bytes c.bytes ≤ 0 →
    strcmp a.bytes c.bytes ≤ 0
  truncated : ∀ a ∈ S, ∀ b ∈ S, ∀ n,
    strncmp a.bytes b.bytes n = strcmp (a.truncate n).bytes (b.truncate n).bytes

/-- No string is the beginning of another one, and the characters behind a common beginning are
among 128 successive ones modulo 256. -/
structure Comparable (S : Set CString) : Prop where
  prefixFree : ∀ a ∈ S, ∀ b ∈ S, a.chars <+: b.chars → a = b
  close : ∀ p : List UInt8, ∃ m : UInt8, ∀ a ∈ S, ∀ x r, a.chars = p ++ x :: r → x - m < 128

section Difference
variable {x y m : UInt8}

/-- The result for two characters. -/
def difference (x y : UInt8) : ℤ := (x - y).toInt8.toInt

lemma difference_eq : difference x y =
    if (x - y).toNat < 128 then ((x - y).toNat : ℤ) else (x - y).toNat - 256 := by
  have hcond : difference x y = if 2 * (x - y).toNat < 2 ^ 8 then ((x - y).toNat : ℤ)
      else (x - y).toNat - ((2 ^ 8 : ℕ) : ℤ) := BitVec.toInt_eq_toNat_cond (x - y).toBitVec
  rw [hcond]
  split_ifs <;> omega

lemma toNat_sub (x y : UInt8) : (x - y).toNat = (256 - y.toNat + x.toNat) % 256 := UInt8.toNat_sub x y

lemma difference_eq_zero : difference x y = 0 ↔ x = y := by
  have hx := x.toNat_lt
  have hy := y.toNat_lt
  rw [difference_eq, ← UInt8.toNat_inj, toNat_sub]
  split_ifs <;> omega

lemma toInt8_eq_zero : (x - y).toInt8 = 0 ↔ x = y := by
  rw [← Int8.toInt_inj]
  exact difference_eq_zero

/-- Among 128 successive characters the result is their distance. -/
lemma difference_of_close (hx : x - m < 128) (hy : y - m < 128) :
    difference x y = ((x - m).toNat : ℤ) - (y - m).toNat := by
  have hx' : (x - m).toNat < 128 := UInt8.lt_iff_toNat_lt.mp hx
  have hy' : (y - m).toNat < 128 := UInt8.lt_iff_toNat_lt.mp hy
  have := x.toNat_lt
  have := y.toNat_lt
  have := m.toNat_lt
  rw [toNat_sub] at hx' hy'
  rw [difference_eq, toNat_sub, toNat_sub, toNat_sub]
  split_ifs <;> omega

/-- A character that the other one does not come before is behind it within the next 127. -/
lemma close_of_difference (h : 0 ≤ difference x m) : x - m < 128 := by
  rw [difference_eq] at h
  rw [UInt8.lt_iff_toNat_lt]
  change (x - m).toNat < 128
  have := (x - m).toNat_lt
  split_ifs at h <;> omega

end Difference

section Compare
variable {a b c : CString} {p r s : List UInt8} {x y : UInt8}

lemma strcmp_cons (hx : x ≠ 0) (hy : y ≠ 0) (r s : List UInt8) :
    strcmp (x :: r) (y :: s) = if x = y then strcmp r s else difference x y := by
  rw [strcmp, if_pos ⟨hx, hy⟩]
  by_cases hxy : x = y
  · rw [if_pos hxy, if_neg (not_not_intro (toInt8_eq_zero.mpr hxy))]
  · rw [if_neg hxy, if_pos (mt toInt8_eq_zero.mp hxy)]
    rfl

/-- The first different characters decide. -/
lemma strcmp_of_split (hp : ∀ c ∈ p, c ≠ 0) (hx : x ≠ 0) (hy : y ≠ 0) (hxy : x ≠ y) :
    strcmp (p ++ x :: r) (p ++ y :: s) = difference x y := by
  induction p with
  | nil => rw [List.nil_append, List.nil_append, strcmp_cons hx hy, if_neg hxy]
  | cons d p ih =>
    have hd := hp d List.mem_cons_self
    rw [List.cons_append, List.cons_append, strcmp_cons hd hd, if_pos rfl]
    exact ih fun c hc => hp c (List.mem_cons_of_mem d hc)

/-- Where a string ends, the comparison does. -/
lemma strcmp_of_start (hp : ∀ c ∈ p, c ≠ 0) (r s : List UInt8) : strcmp (p ++ 0 :: r) (p ++ s) = 0 ∧
    strcmp (p ++ s) (p ++ 0 :: r) = 0 := by
  induction p with
  | nil =>
    cases s with
    | nil => exact ⟨rfl, rfl⟩
    | cons d s => simp [strcmp]
  | cons d p ih =>
    have hd := hp d List.mem_cons_self
    rw [List.cons_append, List.cons_append, strcmp_cons hd hd, strcmp_cons hd hd, if_pos rfl,
      if_pos rfl]
    exact ih fun c hc => hp c (List.mem_cons_of_mem d hc)

lemma split_or_start {α : Type*} (a b : List α) : a <+: b ∨ b <+: a ∨
    ∃ p x y r s, a = p ++ x :: r ∧ b = p ++ y :: s ∧ x ≠ y := by
  induction a generalizing b with
  | nil => exact Or.inl List.nil_prefix
  | cons x r ih =>
    cases b with
    | nil => exact Or.inr (Or.inl List.nil_prefix)
    | cons y s =>
      by_cases hxy : x = y
      · subst hxy
        rcases ih s with h | h | ⟨p, u, v, r', s', rfl, rfl, huv⟩
        · exact Or.inl ((List.prefix_cons_inj x).mpr h)
        · exact Or.inr (Or.inl ((List.prefix_cons_inj x).mpr h))
        · exact Or.inr (Or.inr ⟨x :: p, u, v, r', s', rfl, rfl, huv⟩)
      · exact Or.inr (Or.inr ⟨[], x, y, r, s, rfl, rfl, hxy⟩)

lemma strcmp_bytes_of_split (ha : a.chars = p ++ x :: r) (hb : b.chars = p ++ y :: s) (hxy : x ≠ y) :
    strcmp a.bytes b.bytes = difference x y := by
  have hp : ∀ c ∈ p, c ≠ 0 := fun c hc => a.nonzero c (ha ▸ List.mem_append_left _ hc)
  have hx : x ≠ 0 := a.nonzero x (by simp [ha])
  have hy : y ≠ 0 := b.nonzero y (by simp [hb])
  unfold CString.bytes
  rw [ha, hb, List.append_assoc, List.append_assoc]
  exact strcmp_of_split hp hx hy hxy

lemma strcmp_bytes_of_start (h : a.chars <+: b.chars) :
    strcmp a.bytes b.bytes = 0 ∧ strcmp b.bytes a.bytes = 0 := by
  obtain ⟨t, ht⟩ := h
  unfold CString.bytes
  rw [← ht, List.append_assoc]
  exact strcmp_of_start a.nonzero [] (t ++ [0])

/-- `strncmp` sees nothing behind the first `n` characters. -/
lemma strncmp_take (hr : ∀ c ∈ r, c ≠ 0) (hs : ∀ c ∈ s, c ≠ 0) (n : ℕ) :
    strncmp (r ++ [0]) (s ++ [0]) n = strcmp (r.take n ++ [0]) (s.take n ++ [0]) := by
  induction r generalizing s n with
  | nil =>
    cases s with
    | nil => simp [strncmp, strcmp]
    | cons y s =>
      cases n with
      | zero => simp [strncmp, strcmp]
      | succ n => simp [strncmp, strcmp]
  | cons x r ih =>
    cases s with
    | nil =>
      cases n with
      | zero => simp [strncmp, strcmp]
      | succ n => simp [strncmp, strcmp]
    | cons y s =>
      cases n with
      | zero => simp [strncmp, strcmp]
      | succ n =>
        have hx := hr x List.mem_cons_self
        have hy := hs y List.mem_cons_self
        have hrest := ih (fun c hc => hr c (List.mem_cons_of_mem x hc))
          (fun c hc => hs c (List.mem_cons_of_mem y hc)) n
        rw [List.take_succ_cons, List.take_succ_cons, List.cons_append, List.cons_append,
          List.cons_append, List.cons_append, strcmp_cons hx hy, strncmp,
          if_pos ⟨hx, hy, Nat.succ_pos n⟩]
        by_cases hxy : x = y
        · rw [if_pos hxy, if_neg (not_not_intro (toInt8_eq_zero.mpr hxy))]
          exact hrest
        · rw [if_neg hxy, if_pos (mt toInt8_eq_zero.mp hxy)]
          rfl

end Compare

section Order
variable {S : Set CString} {a b c : CString}

/-- Two strings are equal, one of them is the beginning of the other, or they differ at a character. -/
lemma Comparable.cases (h : Comparable S) (ha : a ∈ S) (hb : b ∈ S) : a = b ∨
    ∃ p x y r s m, a.chars = p ++ x :: r ∧ b.chars = p ++ y :: s ∧ x ≠ y ∧
      (∀ c ∈ S, ∀ z t, c.chars = p ++ z :: t → z - m < 128) ∧
      strcmp a.bytes b.bytes = ((x - m).toNat : ℤ) - (y - m).toNat := by
  rcases split_or_start a.chars b.chars with hab | hba | ⟨p, x, y, r, s, hpa, hpb, hxy⟩
  · exact Or.inl (h.prefixFree a ha b hb hab)
  · exact Or.inl (h.prefixFree b hb a ha hba).symm
  · obtain ⟨m, hm⟩ := h.close p
    refine Or.inr ⟨p, x, y, r, s, m, hpa, hpb, hxy, hm, ?_⟩
    rw [strcmp_bytes_of_split hpa hpb hxy]
    exact difference_of_close (hm a ha x r hpa) (hm b hb y s hpb)

lemma strcmp_self (a : CString) : strcmp a.bytes a.bytes = 0 :=
  (strcmp_bytes_of_start List.prefix_rfl).1

lemma Comparable.zero (h : Comparable S) (ha : a ∈ S) (hb : b ∈ S) :
    strcmp a.bytes b.bytes = 0 ↔ a = b := by
  constructor
  · intro h0
    rcases h.cases ha hb with hab | ⟨p, x, y, r, s, m, hpa, hpb, hxy, -, hval⟩
    · exact hab
    · rw [strcmp_bytes_of_split hpa hpb hxy] at h0
      exact absurd (difference_eq_zero.mp h0) hxy
  · rintro rfl
    exact strcmp_self a

lemma Comparable.sign (h : Comparable S) (ha : a ∈ S) (hb : b ∈ S) :
    (strcmp a.bytes b.bytes).sign = -(strcmp b.bytes a.bytes).sign := by
  rcases h.cases ha hb with rfl | ⟨p, x, y, r, s, m, hpa, hpb, hxy, hm, hval⟩
  · rw [strcmp_self]
    rfl
  · rw [hval, strcmp_bytes_of_split hpb hpa hxy.symm,
      difference_of_close (hm b hb y s hpb) (hm a ha x r hpa), ← Int.sign_neg, neg_sub]

/-- Three strings that differ at one place are in the order of their characters there. -/
lemma strcmp_trans_at {p r s t : List UInt8} {x y z m : UInt8} (ha : a.chars = p ++ x :: r)
    (hb : b.chars = p ++ y :: s) (hc : c.chars = p ++ z :: t) (hxy : x ≠ y) (hyz : y ≠ z)
    (hx : x - m < 128) (hy : y - m < 128) (hz : z - m < 128) (hab : strcmp a.bytes b.bytes ≤ 0)
    (hbc : strcmp b.bytes c.bytes ≤ 0) : strcmp a.bytes c.bytes ≤ 0 := by
  have hne : difference x y ≠ 0 := mt difference_eq_zero.mp hxy
  rw [difference_of_close hx hy] at hne
  rw [strcmp_bytes_of_split ha hb hxy, difference_of_close hx hy] at hab
  rw [strcmp_bytes_of_split hb hc hyz, difference_of_close hy hz] at hbc
  by_cases hxz : x = z
  · subst hxz
    omega
  · rw [strcmp_bytes_of_split ha hc hxz, difference_of_close hx hz]
    omega

/-- The three strings differ at one place, or two of them agree up to where the third differs. -/
lemma Comparable.trans (h : Comparable S) (ha : a ∈ S) (hb : b ∈ S) (hc : c ∈ S)
    (hab : strcmp a.bytes b.bytes ≤ 0) (hbc : strcmp b.bytes c.bytes ≤ 0) :
    strcmp a.bytes c.bytes ≤ 0 := by
  rcases h.cases ha hb with rfl | ⟨p, x, y, r, s, m, hpa, hpb, hxy, hm, -⟩
  · exact hbc
  rcases h.cases hb hc with rfl | ⟨q, y', z, s', t, m', hqb, hqc, hyz, hm', -⟩
  · exact hab
  rcases List.append_eq_append_iff.mp (hpb.symm.trans hqb) with ⟨d, rfl, hd⟩ | ⟨d, rfl, hd⟩
  · cases d with
    | nil =>
      obtain ⟨rfl, rfl⟩ := List.cons.inj hd
      rw [List.append_nil] at hqc
      exact strcmp_trans_at hpa hpb hqc hxy hyz (hm a ha _ _ hpa) (hm b hb _ _ hpb) (hm c hc _ _ hqc)
        hab hbc
    | cons e d =>
      obtain ⟨rfl, rfl⟩ := List.cons.inj hd
      rw [List.append_assoc, List.cons_append] at hqc
      rw [strcmp_bytes_of_split hpa hqc hxy]
      rwa [strcmp_bytes_of_split hpa hpb hxy] at hab
  · cases d with
    | nil =>
      obtain ⟨rfl, rfl⟩ := List.cons.inj hd
      rw [List.append_nil] at hpa hpb
      exact strcmp_trans_at hpa hpb hqc hxy hyz (hm' a ha _ _ hpa) (hm' b hb _ _ hpb)
        (hm' c hc _ _ hqc) hab hbc
    | cons e d =>
      obtain ⟨rfl, rfl⟩ := List.cons.inj hd
      rw [List.append_assoc, List.cons_append] at hpa
      rw [strcmp_bytes_of_split hpa hqc hyz]
      rwa [strcmp_bytes_of_split hqb hqc hyz] at hbc

/-- A relation that compares any two elements of a set, and is transitive there, has a first element. -/
lemma exists_first {α : Type*} {R : α → α → Prop} {B : Set α} (hB : B.Finite) (hne : B.Nonempty)
    (htotal : ∀ x ∈ B, ∀ y ∈ B, R x y ∨ R y x)
    (htrans : ∀ x ∈ B, ∀ y ∈ B, ∀ z ∈ B, R x y → R y z → R x z) : ∃ m ∈ B, ∀ x ∈ B, R m x := by
  induction B, hB using Set.Finite.induction_on with
  | empty => exact absurd hne Set.not_nonempty_empty
  | @insert e B he hB ih =>
    rcases B.eq_empty_or_nonempty with rfl | hne'
    · refine ⟨e, Set.mem_insert .., fun x hx => ?_⟩
      obtain rfl := hx.resolve_right (Set.notMem_empty x)
      exact (htotal x hx x hx).elim id id
    · obtain ⟨m, hm, hfirst⟩ := ih hne' (fun x hx y hy => htotal x (Or.inr hx) y (Or.inr hy))
        fun x hx y hy z hz => htrans x (Or.inr hx) y (Or.inr hy) z (Or.inr hz)
      rcases htotal e (Or.inl rfl) m (Or.inr hm) with hem | hme
      · refine ⟨e, Or.inl rfl, fun x hx => ?_⟩
        rcases hx with rfl | hx
        · exact (htotal x (Or.inl rfl) x (Or.inl rfl)).elim id id
        · exact htrans e (Or.inl rfl) m (Or.inr hm) x (Or.inr hx) hem (hfirst x hx)
      · refine ⟨m, Or.inr hm, fun x hx => ?_⟩
        rcases hx with rfl | hx
        · exact hme
        · exact hfirst x hx

/-- Behind a common beginning the characters have a first one. -/
lemma Orders.close (h : Orders S) (p : List UInt8) :
    ∃ m : UInt8, ∀ a ∈ S, ∀ x r, a.chars = p ++ x :: r → x - m < 128 := by
  let B : Set UInt8 := {x | ∃ a ∈ S, ∃ r, a.chars = p ++ x :: r}
  rcases B.eq_empty_or_nonempty with hB | hB
  · refine ⟨0, fun a ha x r hx => ?_⟩
    have hx : x ∈ B := ⟨a, ha, r, hx⟩
    rw [hB] at hx
    cases hx
  have hself (x : UInt8) : difference x x = 0 := difference_eq_zero.mpr rfl
  have hval (a b : CString) (x y : UInt8) (r s : List UInt8) (ha : a.chars = p ++ x :: r)
      (hb : b.chars = p ++ y :: s) (hxy : x ≠ y) : strcmp a.bytes b.bytes = difference x y :=
    strcmp_bytes_of_split ha hb hxy
  have hsign : ∀ x ∈ B, ∀ y ∈ B, (difference x y).sign = -(difference y x).sign := by
    intro x hx y hy
    obtain ⟨a, ha, r, hax⟩ := hx
    obtain ⟨b, hb, s, hby⟩ := hy
    by_cases hxy : x = y
    · subst hxy
      rw [hself]
      rfl
    · have := h.sign a ha b hb
      rwa [hval a b x y r s hax hby hxy, hval b a y x s r hby hax (Ne.symm hxy)] at this
  have hswap : ∀ x ∈ B, ∀ y ∈ B, (difference x y ≤ 0 ↔ 0 ≤ difference y x) := by
    intro x hx y hy
    rw [← Int.sign_nonneg_iff, ← Int.sign_nonpos_iff, hsign x hx y hy]
    omega
  obtain ⟨m, hm, hfirst⟩ := exists_first (R := fun x y => difference x y ≤ 0) (Set.toFinite B) hB
    (fun x hx y hy => (Int.le_total _ 0).imp_right (hswap y hy x hx).mpr) fun x hx y hy z hz hxy hyz => by
    by_cases hne : x = y
    · rwa [hne]
    by_cases hne' : y = z
    · rwa [← hne']
    by_cases hxz : x = z
    · rw [hxz, hself]
    obtain ⟨a, ha, r, hax⟩ := hx
    obtain ⟨b, hb, s, hby⟩ := hy
    obtain ⟨c, hc, t, hcz⟩ := hz
    rw [← hval a b x y r s hax hby hne] at hxy
    rw [← hval b c y z s t hby hcz hne'] at hyz
    rw [← hval a c x z r t hax hcz hxz]
    exact h.trans a ha b hb c hc hxy hyz
  refine ⟨m, fun a ha x r hax => close_of_difference ?_⟩
  have hx : x ∈ B := ⟨a, ha, r, hax⟩
  exact (hswap m hm x hx).mp (hfirst x hx)

/-- `strcmp` orders the strings in a set exactly if they are comparable. -/
theorem orders_iff_comparable (S : Set CString) : Orders S ↔ Comparable S := by
  constructor
  · intro h
    exact ⟨fun a ha b hb hab => (h.zero a ha b hb).mp (strcmp_bytes_of_start hab).1, h.close⟩
  · intro h
    exact ⟨fun a ha b hb => h.zero ha hb, fun a ha b hb => h.sign ha hb,
      fun a ha b hb c hc => h.trans ha hb hc,
      fun a _ b _ n => strncmp_take a.nonzero b.nonzero n⟩

/-- The strings "a" and "ab". -/
def sampleStrings : Set CString := {⟨[0x61], by simp⟩, ⟨[0x61, 0x62], by simp⟩}

theorem not_orders_prefix : ¬ Orders sampleStrings := by
  intro h
  have heq := (h.zero _ (Or.inl rfl) _ (Or.inr rfl)).mp rfl
  exact absurd (congrArg CString.chars heq) (by decide)

end Order

end EpochKernel.Util
