import EpochKernel.Mem.PageTables

/-! What an entry of a page table holds: the data that the processor reads, and in the first entry the
counter. A table is counted if its counter is the number of its present entries. -/
namespace EpochKernel.Mem
open EpochKernel.Util

lemma getBits_toNat (n : UInt64) {l h : UInt8} (hh : h.toNat < 63) (hl : l.toNat ≤ h.toNat) :
    (getBits n l h).toNat = n.toNat % 2 ^ (h.toNat + 1) / 2 ^ l.toNat := by
  have hne : h ≠ 63 := by
    rintro rfl
    exact absurd hh (by decide)
  have hh' : (h.toUInt64 + 1).toNat = h.toNat + 1 := by
    rw [UInt64.toNat_add, UInt8.toNat_toUInt64, UInt64.toNat_one]
    omega
  have hmask : (((1 : UInt64) <<< (h.toUInt64 + 1)) - 1).toNat = 2 ^ (h.toNat + 1) - 1 := by
    have hpow : 2 ^ (h.toNat + 1) < 2 ^ 64 := Nat.pow_lt_pow_right (by norm_num) (by omega)
    have hs : ((1 : UInt64) <<< (h.toUInt64 + 1)).toNat = 2 ^ (h.toNat + 1) := by
      rw [UInt64.toNat_shiftLeft, hh', Nat.mod_eq_of_lt (by omega : h.toNat + 1 < 64),
        UInt64.toNat_one, Nat.one_shiftLeft, Nat.mod_eq_of_lt hpow]
    have hle : (1 : UInt64) ≤ (1 : UInt64) <<< (h.toUInt64 + 1) := by
      rw [UInt64.le_iff_toNat_le, hs]
      exact Nat.one_le_two_pow
    rw [UInt64.toNat_sub_of_le _ _ hle, hs]
    rfl
  unfold getBits
  rw [if_neg hne]
  simp only
  rw [UInt64.toNat_shiftRight, UInt64.toNat_and, hmask, UInt8.toNat_toUInt64,
    Nat.mod_eq_of_lt (by omega : l.toNat < 64), Nat.and_comm, Nat.and_two_pow_sub_one_eq_mod,
    Nat.shiftRight_eq_div_pow]

/-- The masks of the low bits that `getBits` uses are all below bit 63. -/
lemma getBits_eq (n : UInt64) {l h : UInt8} (hh : h ≠ 63) :
    getBits n l h = (((1 : UInt64) <<< (h.toUInt64 + 1) - 1) &&& n) >>> l.toUInt64 := by
  unfold getBits
  rw [if_neg hh]

/-- What `page_counter_add` stores. -/
def packed (t d : UInt64) : UInt64 :=
  (getBits t 3 9 <<< 52) ||| (getBits t 0 2 <<< 9) ||| (d &&& pageDataPos)

lemma packed_data (t d : UInt64) : packed t d &&& pageDataPos = d &&& pageDataPos := by
  unfold packed pageDataPos
  rw [getBits_eq t (by decide), getBits_eq t (by decide)]
  apply UInt64.toBitVec_inj.mp
  apply BitVec.eq_of_getLsbD_eq
  intro i hi
  simp
  interval_cases i <;> simp

lemma packed_counter (t d : UInt64) : pageCounterGet (packed t d) = t &&& 1023 := by
  unfold pageCounterGet packed pageDataPos
  rw [getBits_eq t (by decide), getBits_eq t (by decide), getBits_eq _ (by decide),
    getBits_eq _ (by decide)]
  apply UInt64.toBitVec_inj.mp
  apply BitVec.eq_of_getLsbD_eq
  intro i hi
  simp
  interval_cases i <;> simp

lemma counter_or_data (c d : UInt64) :
    pageCounterGet ((d &&& pageDataPos) ||| (c &&& ~~~pageDataPos)) = pageCounterGet c := by
  unfold pageCounterGet pageDataPos
  rw [getBits_eq _ (by decide), getBits_eq _ (by decide), getBits_eq c (by decide),
    getBits_eq c (by decide)]
  apply UInt64.toBitVec_inj.mp
  apply BitVec.eq_of_getLsbD_eq
  intro i hi
  simp
  interval_cases i <;> simp

lemma counter_unset (c : UInt64) :
    pageCounterGet (c &&& ~~~pageDataPos &&& ~~~vPresent) = pageCounterGet c := by
  unfold pageCounterGet pageDataPos vPresent
  rw [getBits_eq _ (by decide), getBits_eq _ (by decide), getBits_eq c (by decide),
    getBits_eq c (by decide)]
  apply UInt64.toBitVec_inj.mp
  apply BitVec.eq_of_getLsbD_eq
  intro i hi
  simp
  interval_cases i <;> simp

lemma counter_data (d : UInt64) : pageCounterGet (d &&& pageDataPos) = 0 := by
  have h := counter_or_data 0 d
  rwa [UInt64.zero_and, UInt64.or_zero] at h

/-- The fields that the processor reads are no part of the counter. -/
lemma and_data {mask : UInt64} (hm : pageDataPos &&& mask = mask) (e : UInt64) :
    e &&& mask = e &&& pageDataPos &&& mask := by
  rw [UInt64.and_assoc, hm]

/-- What `page_set` stores, without the counter. -/
def pageEntry (n flags : UInt64) : UInt64 :=
  (n &&& pageAddrPos) ||| (flags &&& pageFlagsPos) ||| vPresent

lemma or_and (a b m : UInt64) : (a ||| b) &&& m = (a &&& m) ||| (b &&& m) := by
  apply UInt64.toNat_inj.mp
  simp only [UInt64.toNat_and, UInt64.toNat_or]
  exact Nat.and_or_distrib_right _ _ _

/-- A mask picks out of an entry what is in it. -/
lemma pageEntry_and (n flags : UInt64) (mask : UInt64) :
    pageEntry n flags &&& mask =
      (n &&& (pageAddrPos &&& mask)) ||| (flags &&& (pageFlagsPos &&& mask)) ||| (vPresent &&& mask) := by
  unfold pageEntry
  rw [or_and, or_and, UInt64.and_assoc, UInt64.and_assoc]

lemma pageEntry_data (n flags : UInt64) : pageEntry n flags &&& pageDataPos = pageEntry n flags := by
  rw [pageEntry_and]
  rfl

lemma pageEntry_addr (n flags : UInt64) : pageEntry n flags &&& pageAddrPos = n &&& pageAddrPos := by
  have h1 : pageAddrPos &&& pageAddrPos = pageAddrPos := by decide
  have h2 : pageFlagsPos &&& pageAddrPos = 0 := by decide
  have h3 : vPresent &&& pageAddrPos = 0 := by decide
  rw [pageEntry_and, h1, h2, h3, UInt64.and_zero, UInt64.or_zero, UInt64.or_zero]

lemma pageEntry_flags (n flags : UInt64) :
    pageEntry n flags &&& pageFlagsPos = flags &&& pageFlagsPos := by
  have h1 : pageAddrPos &&& pageFlagsPos = 0 := by decide
  have h2 : pageFlagsPos &&& pageFlagsPos = pageFlagsPos := by decide
  have h3 : vPresent &&& pageFlagsPos = 0 := by decide
  rw [pageEntry_and, h1, h2, h3, UInt64.and_zero, UInt64.zero_or, UInt64.or_zero]

lemma pageEntry_present (n flags : UInt64) : pageEntry n flags &&& vPresent = vPresent := by
  have h1 : pageAddrPos &&& vPresent = 0 := by decide
  have h2 : pageFlagsPos &&& vPresent = 0 := by decide
  rw [pageEntry_and, h1, h2, UInt64.and_zero, UInt64.and_zero, UInt64.zero_or, UInt64.and_self,
    UInt64.zero_or]

namespace PageTables
variable {m m' : PageTables} {table u : UInt64} {i j : ℕ} {n flags e : UInt64}

lemma present_iff : m.present table i ↔ m.entry table i &&& pageDataPos &&& vPresent ≠ 0 := by
  unfold present
  rw [@and_data vPresent (by decide)]

/-- The number of present entries. -/
def count (m : PageTables) (table : UInt64) : ℕ :=
  ((Finset.range pageEntries).filter fun i => m.present table i).card

/-- The counter of a table is right. -/
def Counted (m : PageTables) (table : UInt64) : Prop :=
  (pageCounterGet (m.entry table 0)).toNat = m.count table

lemma count_le (m : PageTables) (table : UInt64) : m.count table ≤ 512 :=
  (Finset.card_filter_le _ _).trans (Finset.card_range 512).le

lemma count_congr (h : ∀ j, m'.present table j ↔ m.present table j) : m'.count table = m.count table := by
  unfold count
  simp only [h]

lemma count_add (hi : i < 512) (hp : ¬ m.present table i) (hp' : m'.present table i)
    (h : ∀ j ≠ i, (m'.present table j ↔ m.present table j)) :
    m'.count table = m.count table + 1 := by
  have hins : (Finset.range pageEntries).filter (fun j => m'.present table j) =
      insert i ((Finset.range pageEntries).filter fun j => m.present table j) := by
    ext j
    by_cases hj : j = i
    · simp [hj, hp', pageEntries, hi]
    · simp [hj, h j hj]
  unfold count
  rw [hins, Finset.card_insert_of_notMem]
  simp [hp]

/-- The entry of a table gets the data `e`, and only that changes beside the counter. -/
structure Writes (m m' : PageTables) (table : UInt64) (i : ℕ) (e : UInt64) : Prop where
  other : ∀ u ≠ table, m'.entry u = m.entry u
  same : ∀ j ≠ i, m'.entry table j &&& pageDataPos = m.entry table j &&& pageDataPos
  data : m'.entry table i &&& pageDataPos = e
  counted : m.Counted table → m'.Counted table
  supply : m'.supply = m.supply
  left : m'.left = m.left
  freed : m'.freed = m.freed

@[simp] lemma set_entry_self (e : UInt64) : (m.set table i e).entry table i = e := by
  simp only [set, Function.update_self]

@[simp] lemma set_entry_of_ne (h : j ≠ i) (e : UInt64) :
    (m.set table i e).entry table j = m.entry table j := by
  simp only [set, Function.update_self, Function.update_of_ne h]

@[simp] lemma set_entry_other (h : u ≠ table) (e : UInt64) : (m.set table i e).entry u = m.entry u := by
  simp only [set, Function.update_of_ne h]

/-- Only the counter changes. -/
lemma counterAdd_data (m : PageTables) (table n : UInt64) (j : ℕ) :
    (m.counterAdd table n).entry table j &&& pageDataPos = m.entry table j &&& pageDataPos := by
  unfold counterAdd
  by_cases hj : j = 0
  · rw [hj, set_entry_self]
    exact packed_data _ _
  · rw [set_entry_of_ne hj]

lemma counterAdd_counter (m : PageTables) (table n : UInt64) :
    pageCounterGet ((m.counterAdd table n).entry table 0) =
      (pageCounterGet (m.entry table 0) + n) &&& 1023 := by
  unfold counterAdd
  rw [set_entry_self]
  exact packed_counter _ _

lemma counterAdd_other (h : u ≠ table) : (m.counterAdd table n).entry u = m.entry u :=
  set_entry_other h _

lemma pageSet_same (h : j ≠ i) : (m.pageSet table i n flags).2.entry table j = m.entry table j := by
  unfold pageSet
  split_ifs
  · exact set_entry_of_ne h _
  · exact set_entry_of_ne h _

lemma pageSet_other (h : u ≠ table) : (m.pageSet table i n flags).2.entry u = m.entry u := by
  unfold pageSet
  split_ifs
  · exact set_entry_other h _
  · exact set_entry_other h _

/-- The first entry keeps its counter. -/
lemma pageSet_zero : (m.pageSet table 0 n flags).2.entry table 0 =
    (pageEntry n flags &&& pageDataPos) ||| (m.entry table 0 &&& ~~~pageDataPos) := by
  rw [pageEntry_data]
  unfold pageSet pageEntry
  rw [if_pos rfl, set_entry_self, UInt64.or_assoc _ _ vPresent, UInt64.or_assoc _ vPresent,
    UInt64.or_comm vPresent]

lemma data_or_counter (d c : UInt64) :
    ((d &&& pageDataPos) ||| (c &&& ~~~pageDataPos)) &&& pageDataPos = d &&& pageDataPos := by
  have h : ~~~pageDataPos &&& pageDataPos = 0 := by decide
  rw [or_and, UInt64.and_assoc, UInt64.and_assoc, UInt64.and_self, h, UInt64.and_zero, UInt64.or_zero]

lemma pageSet_data : (m.pageSet table i n flags).2.entry table i &&& pageDataPos =
    pageEntry n flags := by
  by_cases hi : i = 0
  · rw [hi, pageSet_zero, data_or_counter, pageEntry_data]
  · unfold pageSet
    rw [if_neg hi, set_entry_self]
    exact pageEntry_data n flags

lemma pageSet_counter : pageCounterGet ((m.pageSet table i n flags).2.entry table 0) =
    pageCounterGet (m.entry table 0) := by
  by_cases hi : i = 0
  · rw [hi, pageSet_zero, counter_or_data]
  · rw [pageSet_same (Ne.symm hi)]

lemma pageUnset_same (h : j ≠ i) : (m.pageUnset table i).entry table j = m.entry table j := by
  unfold pageUnset
  split_ifs
  · exact set_entry_of_ne h _
  · exact set_entry_of_ne h _

lemma pageUnset_other (h : u ≠ table) : (m.pageUnset table i).entry u = m.entry u := by
  unfold pageUnset
  split_ifs
  · exact set_entry_other h _
  · exact set_entry_other h _

lemma pageUnset_data : (m.pageUnset table i).entry table i &&& pageDataPos = 0 := by
  unfold pageUnset
  split_ifs with hi
  · have h : ~~~pageDataPos &&& ~~~vPresent &&& pageDataPos = 0 := by decide
    rw [set_entry_self, UInt64.and_assoc, UInt64.and_assoc, ← UInt64.and_assoc (~~~pageDataPos), h,
      UInt64.and_zero]
  · rw [set_entry_self, UInt64.zero_and]

lemma pageUnset_counter : pageCounterGet ((m.pageUnset table i).entry table 0) =
    pageCounterGet (m.entry table 0) := by
  by_cases hi : i = 0
  · unfold pageUnset
    rw [if_pos hi, hi, set_entry_self]
    exact counter_unset _
  · rw [pageUnset_same (Ne.symm hi)]

lemma present_congr (h : m'.entry table i &&& pageDataPos = m.entry table i &&& pageDataPos) :
    m'.present table i ↔ m.present table i := by
  rw [present_iff, present_iff, h]

lemma counter_succ {c : UInt64} {k : ℕ} (hc : c.toNat = k) (hk : k < 512) :
    (c + 1 &&& 1023).toNat = k + 1 := by
  have h : (1023 : UInt64).toNat = 2 ^ 10 - 1 := rfl
  rw [UInt64.toNat_and, UInt64.toNat_add, UInt64.toNat_one, h, Nat.and_two_pow_sub_one_eq_mod, hc]
  omega

lemma counter_pred {c : UInt64} {k : ℕ} (hc : c.toNat = k + 1) (hk : k < 512) :
    (c + -1 &&& 1023).toNat = k := by
  have h : (1023 : UInt64).toNat = 2 ^ 10 - 1 := rfl
  have h1 : (-1 : UInt64).toNat = 2 ^ 64 - 1 := rfl
  rw [UInt64.toNat_and, UInt64.toNat_add, h1, h, Nat.and_two_pow_sub_one_eq_mod, hc]
  omega

lemma present_of_data (h : m.entry table i &&& pageDataPos = pageEntry n flags) :
    m.present table i := by
  rw [present_iff, h, pageEntry_present]
  decide

lemma not_present_of_data (h : m.entry table i &&& pageDataPos = 0) : ¬ m.present table i := by
  rw [present_iff, h, UInt64.zero_and]
  exact not_not_intro rfl

section Counted
variable (hi : i < 512) (hsame : ∀ j ≠ i, m'.entry table j &&& pageDataPos = m.entry table j &&& pageDataPos)
include hi hsame

/-- The counter is right if it goes up for an entry that was not present. -/
lemma Counted.set (h : m.Counted table) (hp : m'.present table i)
    (hkeep : m.present table i →
      pageCounterGet (m'.entry table 0) = pageCounterGet (m.entry table 0))
    (hadd : ¬ m.present table i →
      pageCounterGet (m'.entry table 0) = (pageCounterGet (m.entry table 0) + 1) &&& 1023) :
    m'.Counted table := by
  have hother : ∀ j ≠ i, (m'.present table j ↔ m.present table j) :=
    fun j hj => present_congr (hsame j hj)
  unfold Counted at h ⊢
  by_cases hold : m.present table i
  · rw [hkeep hold, h]
    refine (count_congr fun j => ?_).symm
    by_cases hj : j = i
    · rw [hj]
      exact iff_of_true hp hold
    · exact hother j hj
  · have hcount := count_add hi hold hp hother
    have hle := m'.count_le table
    rw [hadd hold, hcount, counter_succ h (by omega)]

/-- It is right if it goes down for an entry that was present. -/
lemma Counted.unset (h : m.Counted table) (hp : ¬ m'.present table i)
    (hkeep : ¬ m.present table i →
      pageCounterGet (m'.entry table 0) = pageCounterGet (m.entry table 0))
    (hsub : m.present table i →
      pageCounterGet (m'.entry table 0) = (pageCounterGet (m.entry table 0) + -1) &&& 1023) :
    m'.Counted table := by
  have hother : ∀ j ≠ i, (m'.present table j ↔ m.present table j) :=
    fun j hj => present_congr (hsame j hj)
  unfold Counted at h ⊢
  by_cases hold : m.present table i
  · have hcount := count_add hi hp hold fun j hj => (hother j hj).symm
    have hle := m.count_le table
    rw [hsub hold, counter_pred (h.trans hcount) (by omega)]
  · rw [hkeep hold, h]
    refine (count_congr fun j => ?_).symm
    by_cases hj : j = i
    · rw [hj]
      exact iff_of_false hp hold
    · exact hother j hj

end Counted

/-- A new entry in a table of pages. -/
theorem writes_mapPage (hi : i < 512) :
    Writes m ((if ¬ m.present table i then m.counterAdd table 1 else m).pageSet table i n flags).2
      table i (pageEntry n flags) := by
  have hsame : ∀ j ≠ i, ((if ¬ m.present table i then m.counterAdd table 1 else m).pageSet table i n
      flags).2.entry table j &&& pageDataPos = m.entry table j &&& pageDataPos := by
    intro j hj
    rw [pageSet_same hj]
    split_ifs
    · rfl
    · exact counterAdd_data m table 1 j
  refine ⟨fun u hu => ?_, hsame, pageSet_data, fun h => h.set hi hsame
    (present_of_data pageSet_data) (fun hp => ?_) (fun hp => ?_), ?_, ?_, ?_⟩
  · rw [pageSet_other hu]
    split_ifs
    · rfl
    · exact counterAdd_other hu
  · rw [pageSet_counter, if_neg (not_not_intro hp)]
  · rw [pageSet_counter, if_pos hp, counterAdd_counter]
  all_goals
    unfold pageSet
    split_ifs <;> rfl

/-- A new entry in a table of tables. -/
theorem writes_mapTable (hi : i < 512) (hp : ¬ m.present table i) :
    Writes m ((m.pageSet table i n flags).2.counterAdd table 1) table i (pageEntry n flags) := by
  have hdata : ((m.pageSet table i n flags).2.counterAdd table 1).entry table i &&& pageDataPos =
      pageEntry n flags := (counterAdd_data _ _ _ _).trans pageSet_data
  have hsame : ∀ j ≠ i, ((m.pageSet table i n flags).2.counterAdd table 1).entry table j &&&
      pageDataPos = m.entry table j &&& pageDataPos := by
    intro j hj
    rw [counterAdd_data, pageSet_same hj]
  refine ⟨fun u hu => ?_, hsame, hdata, fun h => h.set hi hsame (present_of_data hdata)
    (fun hp' => absurd hp' hp) (fun _ => ?_), ?_, ?_, ?_⟩
  · rw [counterAdd_other hu, pageSet_other hu]
  · rw [counterAdd_counter, pageSet_counter]
  all_goals
    unfold counterAdd pageSet
    split_ifs <;> rfl

/-- An entry of a table of pages is removed. -/
theorem writes_unmapPage (hi : i < 512) :
    Writes m ((if m.present table i then m.counterAdd table (-1) else m).pageUnset table i) table i
      0 := by
  have hsame : ∀ j ≠ i, ((if m.present table i then m.counterAdd table (-1) else m).pageUnset table
      i).entry table j &&& pageDataPos = m.entry table j &&& pageDataPos := by
    intro j hj
    rw [pageUnset_same hj]
    split_ifs
    · exact counterAdd_data m table (-1) j
    · rfl
  refine ⟨fun u hu => ?_, hsame, pageUnset_data, fun h => h.unset hi hsame
    (not_present_of_data pageUnset_data) (fun hp => ?_) (fun hp => ?_), ?_, ?_, ?_⟩
  · rw [pageUnset_other hu]
    split_ifs
    · exact counterAdd_other hu
    · rfl
  · rw [pageUnset_counter, if_neg hp]
  · rw [pageUnset_counter, if_pos hp, counterAdd_counter]
  all_goals
    unfold pageUnset
    split_ifs <;> rfl

/-- The entries of a table have no counter, but for the first one. -/
def Clean (m : PageTables) (table : UInt64) : Prop :=
  ∀ j, 1 ≤ j → j < 512 → pageCounterGet (m.entry table j) = 0

lemma Clean.congr (h : m.Clean table) (heq : ∀ j, 1 ≤ j → m'.entry table j = m.entry table j) :
    m'.Clean table := by
  intro j h1 hj
  rw [heq j h1]
  exact h j h1 hj

lemma counterAdd_later (m : PageTables) (table u n : UInt64) (hj : 1 ≤ j) :
    (m.counterAdd table n).entry u j = m.entry u j := by
  by_cases hu : u = table
  · subst hu
    exact set_entry_of_ne (by omega) _
  · rw [counterAdd_other hu]

lemma Clean.pageSet (h : m.Clean table) (i : ℕ) (n flags : UInt64) :
    (m.pageSet table i n flags).2.Clean table := by
  intro j h1 hj
  by_cases hji : j = i
  · subst hji
    have he : (m.pageSet table j n flags).2.entry table j = pageEntry n flags := by
      unfold PageTables.pageSet
      rw [if_neg (by omega)]
      exact set_entry_self _
    rw [he, ← pageEntry_data]
    exact counter_data _
  · rw [pageSet_same hji]
    exact h j h1 hj

end PageTables
end EpochKernel.Mem
