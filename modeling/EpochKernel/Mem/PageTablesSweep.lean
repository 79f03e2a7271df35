import EpochKernel.Mem.PageTablesAlive
import EpochKernel.Mem.PageTablesPath

/-! `unmap_internal` where regions have been unmapped before. It gives the tables back that lose their last
page, as long as the counters that it reads are those of the tables: only the first entry of a table has
one. The run is followed by the number of the next page: what is left of the address and of the number
of pages is right where the region goes on. -/
namespace EpochKernel.Mem
open EpochKernel.Util EpochKernel.Library

namespace Pass
open PageTables
variable {m : PageTables} {pml4Table t : UInt64} {w w₁ : Pass} {out : Bool × Pass} {S : Set ℕ}
  {a b v x i j level : ℕ} {user : ℕ → Set UInt64}

/-- What a call for a table does to a region: it says whether a page is left below the table, the tables
below it that have none are given back, and what is left of the arguments is right behind the table. -/
structure Swept (m : PageTables) (pml4Table : UInt64) (S : Set ℕ) (a b level x : ℕ) (w : Pass)
    (out : Bool × Pass) : Prop where
  empties : level < 3 → (out.1 = true ↔ ¬ Alive (cut S a b (level + 1) x) (level + 1) x)
  stands : m.Stands out.2.toPageTables pml4Table (cut S a b (level + 1) x) level
  frees : Frees w.toPageTables out.2.toPageTables (m.dead pml4Table S (cut S a b (level + 1) x) level)
  above : ∀ l, level < l → l ≤ 3 → ∀ y u,
    Radix.node 512 (m.child pml4Table) pml4Table (3 - l) y = some u → out.2.entry u = w.entry u
  done : b ≤ (x + 1) * 512 ^ (level + 1) → out.2.pageN = 0
  left : (x + 1) * 512 ^ (level + 1) < b →
    out.2.pageN + (x + 1) * 512 ^ (level + 1) = b ∧ out.2.virtAddr.toNat % 2 ^ 48 = 0

/-- Calls for tables in a state in which the pages of `S` are left, and those of the region among them. -/
def Sweeps (m : PageTables) (pml4Table : UInt64) (a b level : ℕ)
    (recurse : UInt64 → Pass → Bool × Pass) : Prop :=
  ∀ S x t w v, Radix.node 512 (m.child pml4Table) pml4Table (3 - level) x = some t →
    m.Stands w.toPageTables pml4Table S level → Gentle S a b →
    (∀ p, a ≤ p → p < b → p / 512 ^ (level + 1) = x → p ∈ S) → v / 512 ^ (level + 1) = x →
    Points v (level + 1) w → (v = a ∨ v = x * 512 ^ (level + 1)) → a ≤ v → v + w.pageN = b →
    v < b → Swept m pml4Table S a b level x w (recurse t w)

/-- What is left of the number of pages behind the last entry of a table. -/
lemma skip_pageN {n : ℕ} : (w.skip n).pageN = w.pageN - n := by
  unfold skip
  dsimp only
  split_ifs with h
  · omega
  · rfl

/-- What is left of it behind a table of pages, if the entries from `i + 1` on are passed over. -/
lemma skip_rest (hi : i < 512) (hn : 512 * x + i + 1 + w.pageN = b) :
    (b ≤ (x + 1) * 512 ^ 1 → (w.skip (511 - i)).pageN = 0) ∧
      ((x + 1) * 512 ^ 1 < b → (w.skip (511 - i)).pageN + (x + 1) * 512 ^ 1 = b) := by
  rw [skip_pageN]
  omega

/-- A page is removed from its table. -/
lemma unmapPage_intact (h : Intact m w.toPageTables S 0 x t) (hi : i < 512) :
    Intact m (unmapPage t i w).toPageTables (S \ {512 * x + i}) 0 x t := by
  have hw : Writes w.toPageTables (unmapPage t i w).toPageTables t i 0 := writes_unmapPage hi
  have hpages : ∀ j < 512, (unmapPage t i w).present t j ↔ j ∈ behind (S \ {512 * x + i}) 0 x := by
    intro j hj
    have hbehind (T : Set ℕ) : j ∈ behind T 0 x ↔ 512 * x + j ∈ T := by
      simp [behind, Alive, hj]
    rw [hbehind, Set.mem_sdiff, Set.mem_singleton_iff, Nat.add_left_cancel_iff]
    by_cases hji : j = i
    · rw [hji]
      exact iff_of_false (not_present_of_data hw.data) fun hne => hne.2 rfl
    · rw [and_iff_left hji, ← hbehind, ← h.pages rfl j hj]
      exact present_congr (hw.same j hji)
  refine ⟨clean_unmapPage h.clean, ?_, fun h0 => absurd rfl h0, fun _ => hpages⟩
  have hcount := hw.counted h.counted
  unfold Counted at hcount
  rw [hcount, count_eq_ncard]
  congr 1
  ext j
  exact ⟨fun hj => (hpages j hj.1).mp hj.2, fun hj => ⟨hj.1, (hpages j hj.1).mpr hj⟩⟩

/-- Nothing is left behind an entry of a table of tables, and its counter goes down. -/
lemma counterAdd_intact {w w' : PageTables} (h : Intact m w S level x t) (hl : level ≠ 0) (hi : i < 512)
    (hold : Alive S level (512 * x + i))
    (hnew : ¬ Alive (cut S a b level (512 * x + i)) level (512 * x + i)) (hw : w'.entry t = w.entry t) :
    Intact m (w'.counterAdd t (-1)) (cut S a b level (512 * x + i)) level x t := by
  refine ⟨h.clean.congr fun j hj => ?_, ?_, fun _ j => ?_, fun h0 => absurd h0 hl⟩
  · exact (counterAdd_later _ t t (-1) hj).trans (congrFun hw j)
  · have hmem : i ∈ behind S level x := ⟨hi, hold⟩
    have hcard := Set.ncard_sdiff_singleton_add_one hmem finite_behind
    have hle := @ncard_behind_le S x level
    rw [← h.counter] at hcard hle
    rw [counterAdd_counter, hw, counter_pred hcard.symm (by omega), behind_cut_dead hnew]
  · rw [counterAdd_data, hw]
    exact h.data hl j

section
variable (F : Radix.Forest (m.child pml4Table) pml4Table 3 user)
include F

/-- A call for a table of pages, told by what happens to this table. -/
lemma swept_page (ht : Radix.node 512 (m.child pml4Table) pml4Table 3 x = some t)
    (hst : m.Stands w.toPageTables pml4Table S 0) (hfreed : out.2.freed = w.freed)
    (hother : ∀ u ≠ t, out.2.entry u = w.entry u)
    (hempties : out.1 = true ↔ ¬ Alive (cut S a b 1 x) 1 x)
    (hself : Alive (cut S a b 1 x) 1 x → Intact m out.2.toPageTables (cut S a b 1 x) 0 x t)
    (hdone : b ≤ (x + 1) * 512 ^ 1 → out.2.pageN = 0)
    (hleft : (x + 1) * 512 ^ 1 < b → out.2.pageN + (x + 1) * 512 ^ 1 = b ∧
      out.2.virtAddr.toNat % 2 ^ 48 = 0) : Swept m pml4Table S a b 0 x w out := by
  refine ⟨fun _ => hempties, fun l hl y u hu ha => ?_, ?_, fun l hl hl3 y u hu => hother u
    (ne_of_level F hl3 (Nat.zero_le 3) (Nat.ne_zero_of_lt hl) hu ht), hdone, hleft⟩
  · obtain rfl := Nat.le_zero.mp hl
    by_cases hy : y = x
    · subst hy
      obtain rfl : t = u := Option.some.inj (ht.symm.trans hu)
      exact hself ha
    · have hne : u ≠ t := fun hut => hy (F.node_inj le_rfl hu (hut ▸ ht))
      refine (hst 0 le_rfl y u hu (ha.mono cut_subset)).congr (hother u hne) ?_
      ext j
      refine and_congr_right fun hj => ⟨Alive.mono cut_subset, ?_⟩
      rintro ⟨p, hp, hpy⟩
      refine ⟨p, ⟨hp, fun hx => hy ?_⟩, hpy⟩
      rw [← ((part_iff hj).mp hpy).1, hx.1]
  · have hnone : m.dead pml4Table S (cut S a b (0 + 1) x) 0 = ∅ := by
      ext u
      exact iff_of_false (fun hu => by obtain ⟨l, hl, -⟩ := hu; omega) id
    rw [hnone]
    exact Frees.refl hfreed

/-- A table of pages. -/
lemma sweeps_zero : Sweeps m pml4Table a b 0 (unmapInternalRecurse 0) := by
  intro S x t w v ht hst hg hin hv hp _ ha hn hb
  obtain ⟨hindex, hpoints⟩ := hp.call (Nat.zero_le 3)
  rw [zero_add] at hin hv
  have hvS : v ∈ S := hin v ha hb hv
  have hintact := unmapPage_intact (w := w.shift pageTableBits) (hst 0 le_rfl x t ht ⟨v, hvS, hv⟩)
    w.index_lt
  have hwrites {k : ℕ} (hk : k < 512) (w : Pass) :
      Writes w.toPageTables (unmapPage t k w).toPageTables t k 0 := writes_unmapPage hk
  have hvirt : (w.shift pageTableBits).virtAddr.toNat % 2 ^ 48 = 0 := by
    unfold Points at hpoints
    rw [hpoints, pow_zero, Nat.mod_one, Nat.zero_mul]
  have hrun : unmapInternalRecurse 0 t w =
      unmapLoop t (unmapPage t) (512 - w.index) (w.shift pageTableBits) := rfl
  have hpage : 512 * x + w.index = v := by
    rw [hindex, ← entry_number hv, pow_zero, Nat.div_one]
  rw [hpage] at hintact
  rw [hrun]
  have hw := hwrites w.index_lt (w.shift pageTableBits)
  have hleft : (unmapPage t w.index (w.shift pageTableBits)).pageN = w.pageN - 1 := rfl
  by_cases hc : pageCounterGet ((unmapPage t w.index (w.shift pageTableBits)).entry t w.index) = 0
  · -- the loop ends behind the first entry
    have hdead : ¬ Alive (cut S a b 1 x) 1 x := by
      by_cases hi : w.index = 0
      · rw [hi] at hc hintact
        rintro ⟨p, ⟨hpS, hout⟩, hpx⟩
        refine hintact.zero_iff.mp hc ⟨p, ⟨hpS, ?_⟩, hpx⟩
        rintro rfl
        exact hout ⟨hpx, ha, hb⟩
      · exact hg.not_alive (Nat.zero_le 2) ha hb hv (hindex ▸ hi)
    obtain ⟨hdone, hrest⟩ := skip_rest (w := unmapPage t w.index (w.shift pageTableBits)) (x := x) (b := b)
      w.index_lt (by rw [hleft]; omega)
    rw [unmapLoop_first w.index_lt (by change w.pageN ≠ 0; omega) hc]
    exact swept_page F ht hst hw.freed hw.other (iff_of_true rfl hdead) (absurd · hdead) hdone
      fun hend => ⟨hrest hend, hvirt⟩
  have hi : w.index = 0 := by
    by_contra hne
    exact hc (hintact.clean w.index (Nat.one_le_iff_ne_zero.mpr hne) w.index_lt)
  rw [hi] at hc hintact hpage hw hleft
  rw [unmapLoop_next w.index_lt (by change w.pageN ≠ 0; omega) (hi ▸ hc), hi]
  by_cases hmore : w.pageN = 1
  · -- the region ends here, and the table has other pages
    have hcut : cut S a b 1 x = S \ {v} := by
      ext p
      refine and_congr_right fun _ => not_congr ⟨fun hin => ?_, ?_⟩
      · exact Set.mem_singleton_iff.mpr (by omega)
      · rintro rfl
        exact ⟨hv, ha, hb⟩
    have halive : Alive (cut S a b 1 x) 1 x := by
      rw [hcut]
      exact not_not.mp fun hnone => hc (hintact.zero_iff.mpr hnone)
    rw [unmapLoop_zero _ (hleft.trans (by omega))]
    refine swept_page F ht hst hw.freed hw.other (iff_of_false Bool.false_ne_true (not_not_intro halive))
      (fun _ => by rwa [hcut]) (fun _ => hleft.trans (by omega)) fun hend => ?_
    omega
  · -- the second page of the region is in the table, so the table is its own
    have hone : 1 < 512 := by norm_num
    have hdead : ¬ Alive (cut S a b 1 x) 1 x :=
      hg.not_alive (p := v + 1) (Nat.zero_le 2) (by omega) (by omega) (by omega) (by omega)
    have hw₂ := hwrites hone (unmapPage t 0 (w.shift pageTableBits))
    have hc₂ := clean_unmapPage (i := 1) hintact.clean 1 le_rfl hone
    have hleft₂ : (unmapPage t 1 (unmapPage t 0 (w.shift pageTableBits))).pageN = w.pageN - 1 - 1 := rfl
    obtain ⟨hdone, hrest⟩ := skip_rest (w := unmapPage t 1 (unmapPage t 0 (w.shift pageTableBits)))
      (x := x) (b := b) hone (by rw [hleft₂]; omega)
    rw [unmapLoop_first hone (by omega) hc₂]
    exact swept_page F ht hst (hw₂.freed.trans hw.freed)
      (fun u hu => (hw₂.other u hu).trans (hw.other u hu)) (iff_of_true rfl hdead) (absurd · hdead) hdone
      fun hend => ⟨hrest hend, hvirt⟩

/-- The body of the loop of a table of tables, for an entry with pages of the region behind it. -/
structure Cleared (m : PageTables) (pml4Table t : UInt64) (S : Set ℕ) (a b level x i : ℕ)
    (w w₁ : Pass) : Prop where
  stands : m.Stands w₁.toPageTables pml4Table (cut S a b (level + 1) (512 * x + i)) (level + 1)
  self : Intact m w₁.toPageTables (cut S a b (level + 1) (512 * x + i)) (level + 1) x t
  frees : Frees w.toPageTables w₁.toPageTables
    (m.dead pml4Table S (cut S a b (level + 1) (512 * x + i)) (level + 1))
  above : ∀ l, level + 1 < l → l ≤ 3 → ∀ y u,
    Radix.node 512 (m.child pml4Table) pml4Table (3 - l) y = some u → w₁.entry u = w.entry u
  done : b ≤ (512 * x + i + 1) * 512 ^ (level + 1) → w₁.pageN = 0
  left : (512 * x + i + 1) * 512 ^ (level + 1) < b →
    w₁.pageN + (512 * x + i + 1) * 512 ^ (level + 1) = b ∧ w₁.virtAddr.toNat % 2 ^ 48 = 0

/-- The tables of the level are as before but for the one that the run is in. -/
lemma stands_succ (hi : i < 512)
    (ht : Radix.node 512 (m.child pml4Table) pml4Table (3 - (level + 1)) x = some t)
    (hst : m.Stands w.toPageTables pml4Table S (level + 1))
    (hs : m.Stands w₁.toPageTables pml4Table (cut S a b (level + 1) (512 * x + i)) level)
    (hself : Intact m w₁.toPageTables (cut S a b (level + 1) (512 * x + i)) (level + 1) x t)
    (hother : ∀ y u, Radix.node 512 (m.child pml4Table) pml4Table (3 - (level + 1)) y = some u →
      u ≠ t → w₁.entry u = w.entry u) :
    m.Stands w₁.toPageTables pml4Table (cut S a b (level + 1) (512 * x + i)) (level + 1) := by
  intro l hl y u hu ha
  rcases hl.lt_or_eq with hlt | rfl
  · exact hs l (Nat.le_of_lt_succ hlt) y u hu ha
  · by_cases hy : y = x
    · subst hy
      obtain rfl : t = u := Option.some.inj (ht.symm.trans hu)
      exact hself
    · have hne : u ≠ t := fun hut => hy (F.node_inj (Nat.sub_le _ _) hu (hut ▸ ht))
      exact (hst _ le_rfl y u hu (ha.mono cut_subset)).congr (hother y u hu hne) (behind_cut_of_ne hi hy)

lemma unmapTable_cleared {recurse : UInt64 → Pass → Bool × Pass}
    (hmapped : ∀ p, a ≤ p → p < b → m.leaf pml4Table p ≠ none) (hl : level < 3)
    (hcall : Sweeps m pml4Table a b level recurse)
    (ht : Radix.node 512 (m.child pml4Table) pml4Table (3 - (level + 1)) x = some t) (hi : i < 512)
    (hst : m.Stands w.toPageTables pml4Table S (level + 1))
    (hself : Intact m w.toPageTables S (level + 1) x t) (hg : Gentle S a b)
    (hin : ∀ p, a ≤ p → p < b → p / 512 ^ (level + 1) = 512 * x + i → p ∈ S)
    (hv : v / 512 ^ (level + 1) = 512 * x + i) (hp : Points v (level + 1) w)
    (hstart : v = a ∨ v = (512 * x + i) * 512 ^ (level + 1)) (ha : a ≤ v) (hn : v + w.pageN = b)
    (hb : v < b) : Cleared m pml4Table t S a b level x i w (unmapTable recurse (level + 1) t i w) := by
  have hdepth : 3 - level = 3 - (level + 1) + 1 := by omega
  obtain ⟨c, hc⟩ := exists_table (hmapped v ha hb) hl.le
  rw [hv] at hc
  have hchild : m.child pml4Table t i = some c := by
    rw [← Radix.node_step hi ht, ← hdepth, hc]
  obtain ⟨hpm, -, -, hnm⟩ := child_eq_some.mp hchild
  have hdata := hself.data (Nat.succ_ne_zero level)
  have hpw : w.present t i := (present_congr (hdata i)).mpr hpm
  have hnw : w.next t i = c := (next_congr (hdata i)).trans hnm
  have hcs := hcall S _ c w v hc (hst.mono (Nat.le_succ level)) hg hin hv hp hstart ha hn hb
  have hold : Alive S (level + 1) (512 * x + i) := ⟨v, hin v ha hb hv, hv⟩
  have hlevel {y : ℕ} {u : UInt64}
      (hu : Radix.node 512 (m.child pml4Table) pml4Table (3 - (level + 1)) y = some u) :
      (recurse c w).2.entry u = w.entry u ∧ u ≠ c :=
    ⟨hcs.above (level + 1) (Nat.lt_succ_self _) hl y u hu,
      ne_of_level F hl hl.le (Nat.succ_ne_self level) hu hc⟩
  cases hrun : recurse c w with
  | mk ok w' =>
    rw [hrun] at hcs hlevel
    have hempties := hcs.empties hl
    cases ok with
    | false =>
      have hnew : Alive (cut S a b (level + 1) (512 * x + i)) (level + 1) (512 * x + i) := by
        by_contra hnone
        exact Bool.false_ne_true (hempties.mpr hnone)
      rw [unmapTable_false hpw (by rw [hnw, hrun])]
      have hself' : Intact m w'.toPageTables (cut S a b (level + 1) (512 * x + i)) (level + 1) x t :=
        hself.congr (hlevel ht).1 (behind_cut_alive hnew)
      refine ⟨stands_succ F hi ht hst hcs.stands hself' fun y u hu _ => (hlevel hu).1, hself', ?_,
        fun l hl' => hcs.above l (Nat.lt_of_succ_lt hl'), hcs.done, hcs.left⟩
      rw [dead_succ_of_alive hnew]
      exact hcs.frees
    | true =>
      have hnew : ¬ Alive (cut S a b (level + 1) (512 * x + i)) (level + 1) (512 * x + i) :=
        hempties.mp rfl
      have hnext : w'.next t i = c := by
        rw [← hnw]
        exact next_congr (by rw [(hlevel ht).1])
      rw [unmapTable_true hpw (by rw [hnw, hrun]), hnext]
      have hother {u : UInt64} (huc : u ≠ c) (hut : u ≠ t) :
          ((w'.free c).counterAdd t (-1)).entry u = w'.entry u := by
        rw [counterAdd_other hut, free_other huc]
      have hself' := counterAdd_intact hself (Nat.succ_ne_zero level) hi hold hnew
        ((free_other (hlevel ht).2).trans (hlevel ht).1)
      refine ⟨stands_succ F hi ht hst (fun l hl' y u hu hau => ?_) hself' fun y u hu hut => ?_, hself',
        ?_, fun l hl' hl3 y u hu => ?_, hcs.done, hcs.left⟩
      · refine (hcs.stands l hl' y u hu hau).congr (hother ?_ ?_) rfl
        · rintro rfl
          have hlevels := F.node_depth (Nat.sub_le _ _) (Nat.sub_le _ _) hu hc
          obtain rfl : l = level := by omega
          exact hnew (F.node_inj (Nat.sub_le _ _) hu hc ▸ hau)
        · exact ne_of_level F (by omega) hl (by omega) hu ht
      · exact (hother (hlevel hu).2 hut).trans (hlevel hu).1
      · rw [dead_succ_of_dead hc hold hnew]
        refine hcs.frees.trans (Frees.free w'.toPageTables c) ?_
        exact Set.disjoint_singleton_right.mpr (not_mem_dead F hl.le hc)
      · refine (hother ?_ ?_).trans (hcs.above l (Nat.lt_of_succ_lt hl') hl3 y u hu)
        · exact ne_of_level F hl3 hl.le (by omega) hu hc
        · exact ne_of_level F hl3 hl (by omega) hu ht

omit F in
/-- The page after those behind an entry is behind the next one. -/
lemma next_part (hi : i + 1 < 512) (hv : v / 512 ^ (level + 1) = 512 * x + i) :
    let q := (512 * x + i + 1) * 512 ^ (level + 1)
    v < q ∧ q / 512 ^ (level + 1 + 1) = x ∧ q / 512 ^ (level + 1) % 512 = i + 1 := by
  have hpos : 0 < 512 ^ (level + 1) := Nat.pow_pos (by norm_num)
  refine ⟨Nat.lt_mul_of_div_lt (hv.trans_lt (Nat.lt_succ_self _)) hpos, ?_⟩
  exact (part_iff hi).mp (Nat.mul_div_cancel _ hpos)

omit F in
/-- The region ends behind the last entry that it has pages behind. -/
lemma ends_of_le (hi : i + 1 < 512) (hv : v / 512 ^ (level + 1) = 512 * x + i) (ha : a ≤ v)
    (hle : ∀ p, a ≤ p → p < b → p / 512 ^ (level + 1 + 1) = x → p / 512 ^ (level + 1) % 512 ≤ i) :
    b ≤ (512 * x + i + 1) * 512 ^ (level + 1) := by
  by_contra hlt
  obtain ⟨hvq, hqx, hqi⟩ := next_part hi hv
  have hq := hle _ (ha.trans hvq.le) (Nat.lt_of_not_le hlt) hqx
  omega

omit F in
/-- A call for a table of tables, if the region has pages behind one of its entries only. -/
lemma Cleared.swept (h : Cleared m pml4Table t S a b level x i (w.shift pageTableBits) w₁) (hi : i < 512)
    (honly : ∀ p, a ≤ p → p < b → p / 512 ^ (level + 1 + 1) = x → p / 512 ^ (level + 1) % 512 = i)
    (hout : out.2.toPageTables = w₁.toPageTables)
    (hempties : level + 1 < 3 → (out.1 = true ↔
      ¬ Alive (cut S a b (level + 1) (512 * x + i)) (level + 1 + 1) x))
    (hdone : b ≤ (x + 1) * 512 ^ (level + 1 + 1) → out.2.pageN = 0)
    (hleft : (x + 1) * 512 ^ (level + 1 + 1) < b → out.2.pageN + (x + 1) * 512 ^ (level + 1 + 1) = b ∧
      out.2.virtAddr.toNat % 2 ^ 48 = 0) : Swept m pml4Table S a b (level + 1) x w out where
  empties := by rwa [cut_one hi honly]
  stands := by
    rw [cut_one hi honly, hout]
    exact h.stands
  frees := by
    rw [cut_one hi honly, hout]
    exact h.frees
  above l hl hl3 y u hu := by
    rw [hout]
    exact h.above l hl hl3 y u hu
  done := hdone
  left := hleft

/-- A table of tables. -/
lemma sweeps_succ (hmapped : ∀ p, a ≤ p → p < b → m.leaf pml4Table p ≠ none) (hl : level < 3)
    (ih : Sweeps m pml4Table a b level (unmapInternalRecurse level)) :
    Sweeps m pml4Table a b (level + 1) (unmapInternalRecurse (level + 1)) := by
  intro S x t w v ht hst hg hin hv hp hstart ha hn hb
  have hpos : 0 < 512 ^ (level + 1) := Nat.pow_pos (by norm_num)
  obtain ⟨hindex, hpoints⟩ := hp.call (by omega)
  have hnumber : v / 512 ^ (level + 1) = 512 * x + w.index := by rw [hindex, ← entry_number hv]
  have hself := hst (level + 1) le_rfl x t ht ⟨v, hin v ha hb hv, hv⟩
  have hbehind {j : ℕ} (hj : j < 512) (p : ℕ) (hap : a ≤ p) (hpb : p < b)
      (hpj : p / 512 ^ (level + 1) = 512 * x + j) : p ∈ S := hin p hap hpb ((part_iff hj).mp hpj).1
  have hsize : (x + 1) * 512 ^ (level + 1 + 1) = (512 * x + 511 + 1) * 512 ^ (level + 1) := by
    rw [pow_succ]
    ring
  have hend_le {k : ℕ} (hk : k < 512) :
      (512 * x + k + 1) * 512 ^ (level + 1) ≤ (512 * x + 511 + 1) * 512 ^ (level + 1) :=
    Nat.mul_le_mul_right _ (by omega)
  have hstart₁ : v = a ∨ v = (512 * x + w.index) * 512 ^ (level + 1) := by
    refine hstart.imp_right fun hx => ?_
    rw [← hnumber, hx, pow_succ, ← Nat.mul_assoc, Nat.mul_right_comm, Nat.mul_div_cancel _ hpos]
  have hcl := unmapTable_cleared (w := w.shift pageTableBits) F hmapped hl ih ht w.index_lt
    hst hself hg (hbehind w.index_lt) hnumber hpoints hstart₁ ha hn hb
  have hpair {p : ℕ} (hap : a ≤ p) (hpb : p < b) (hpx : p / 512 ^ (level + 1 + 1) = x)
      (hne : p / 512 ^ (level + 1) % 512 ≠ w.index) :
      w.index = 0 ∧ p / 512 ^ (level + 1) % 512 = 1 := by
    rw [hindex] at hne ⊢
    exact hg.first_two (by omega) hl hv hstart ha hb hap hpb hpx hne
  have hrun : unmapInternalRecurse (level + 1) t w = unmapLoop t
      (unmapTable (unmapInternalRecurse level) (level + 1) t) (512 - w.index) (w.shift pageTableBits) := rfl
  rw [hrun]
  set body := unmapTable (unmapInternalRecurse level) (level + 1) t with hbody
  by_cases hc : pageCounterGet ((body w.index (w.shift pageTableBits)).entry t w.index) = 0
  · -- the loop ends behind the first entry, and the region has no pages behind another one
    have honly : ∀ p, a ≤ p → p < b → p / 512 ^ (level + 1 + 1) = x →
        p / 512 ^ (level + 1) % 512 = w.index := by
      intro p hap hpb hpx
      by_contra hne
      obtain ⟨hi, hp1⟩ := hpair hap hpb hpx hne
      rw [hi] at hc hcl hne
      refine hcl.self.zero_iff.mp hc ⟨p, ⟨hin p hap hpb hpx, fun hx => hne ?_⟩, hpx⟩
      exact ((part_iff (by norm_num)).mp hx.1).2
    have hends : w.index = 511 ∨ b ≤ (512 * x + w.index + 1) * 512 ^ (level + 1) := by
      have hlt := w.index_lt
      by_cases hlast : w.index = 511
      · exact .inl hlast
      · exact .inr (ends_of_le (by omega) hnumber ha fun p hap hpb hpx => (honly p hap hpb hpx).le)
    rw [unmapLoop_first w.index_lt (by change w.pageN ≠ 0; omega) hc]
    refine hcl.swept w.index_lt honly rfl (fun hlevel => iff_of_true rfl ?_) (fun hend => ?_) fun hend => ?_
    · by_cases hi : w.index = 0
      · rw [hi] at hc hcl ⊢
        exact hcl.self.zero_iff.mp hc
      · rw [← cut_one w.index_lt honly]
        exact hg.not_alive (by omega) ha hb hv (hindex ▸ hi)
    · rw [skip_pageN]
      rcases hends with hi | hends
      · rw [hsize, ← hi] at hend
        rw [hcl.done hend, Nat.zero_sub]
      · rw [hcl.done hends, Nat.zero_sub]
    · rw [hsize] at hend ⊢
      have hle := hend_le w.index_lt
      obtain hi := hends.resolve_right (by omega)
      rw [← hi] at hend ⊢
      rw [skip_pageN, hi, Nat.sub_self, Nat.sub_zero, ← hi]
      exact hcl.left hend
  have hi : w.index = 0 := by
    by_contra hne
    exact hc (hcl.self.clean w.index (Nat.one_le_iff_ne_zero.mpr hne) w.index_lt)
  rw [hi] at hc hcl hpair hnumber
  obtain ⟨hvq, hqx, hqi⟩ := next_part (i := 0) (by norm_num) hnumber
  rw [unmapLoop_next w.index_lt (by change w.pageN ≠ 0; omega) (hi ▸ hc), hi]
  by_cases hmore : (512 * x + 0 + 1) * 512 ^ (level + 1) < b
  · -- the region goes on behind the second entry, and ends there
    have hone : 1 < 512 := by norm_num
    obtain ⟨hn₁, hv₁⟩ := hcl.left hmore
    have hsecond : 512 * x + 0 + 1 = 512 * x + 1 := by omega
    rw [hsecond] at hmore hn₁ hvq hqx hqi
    have hpoints₂ : Points ((512 * x + 1) * 512 ^ (level + 1)) (level + 1)
        (body 0 (w.shift pageTableBits)) := by
      unfold Points
      rw [hv₁, Nat.mul_mod_left, Nat.zero_mul]
    have hcl₂ := unmapTable_cleared F hmapped hl ih ht hone hcl.stands hcl.self
      (hg.mono cut_subset) (fun p hap hpb hpj => ⟨hbehind hone p hap hpb hpj, fun hx => by omega⟩)
      (Nat.mul_div_cancel _ hpos) hpoints₂ (.inr rfl) (ha.trans hvq.le) (by omega) hmore
    have htwo : ∀ p, a ≤ p → p < b → p / 512 ^ (level + 1 + 1) = x →
        p / 512 ^ (level + 1) % 512 ≤ 1 := by
      intro p hap hpb hpx
      by_cases hp0 : p / 512 ^ (level + 1) % 512 = 0
      · omega
      · exact (hpair hap hpb hpx hp0).2.le
    have hcut := cut_two (S := S) htwo
    have hends := ends_of_le (by norm_num) (Nat.mul_div_cancel _ hpos) (ha.trans hvq.le) htwo
    have hdone := hcl₂.done hends
    have hle := hend_le hone
    rw [unmapLoop_first hone (by omega) (hcl₂.self.clean 1 le_rfl hone)]
    refine ⟨fun hlevel => iff_of_true rfl ?_, by rw [hcut]; exact hcl₂.stands, ?_,
      fun l hl' hl3 y u hu => (hcl₂.above l hl' hl3 y u hu).trans (hcl.above l hl' hl3 y u hu),
      fun _ => by rw [skip_pageN, hdone, Nat.zero_sub], fun hend => by omega⟩
    · exact hg.not_alive (by omega) (ha.trans hvq.le) hmore hqx (by omega)
    · rw [hcut, dead_trans cut_subset cut_subset]
      exact hcl.frees.trans hcl₂.frees (dead_disjoint F (by omega))
  · -- the region ends here, and something is left behind another entry
    have hends := Nat.le_of_not_lt hmore
    have honly : ∀ p, a ≤ p → p < b → p / 512 ^ (level + 1 + 1) = x →
        p / 512 ^ (level + 1) % 512 = 0 := by
      intro p hap hpb hpx
      by_contra hne
      have hp1 := (hpair hap hpb hpx hne).2
      have hentry := entry_number hpx
      have hlow := Nat.div_mul_le_self p (512 ^ (level + 1))
      rw [hentry, hp1] at hlow
      exact absurd hpb (Nat.not_lt.mpr (hends.trans hlow))
    have halive : Alive (cut S a b (level + 1) (512 * x + 0)) (level + 1 + 1) x :=
      not_not.mp fun hnone => hc (hcl.self.zero_iff.mpr hnone)
    have hle := hend_le (k := 0) (by norm_num)
    rw [unmapLoop_zero _ (hcl.done hends)]
    exact hcl.swept (by norm_num) honly rfl
      (fun _ => iff_of_false Bool.false_ne_true (not_not_intro halive)) (fun _ => hcl.done hends)
      fun hend => by omega

/-- The recursion, level by level. -/
theorem unmapInternalRecurse_sweeps (hmapped : ∀ p, a ≤ p → p < b → m.leaf pml4Table p ≠ none)
    (hl : level ≤ 3) :
    Sweeps m pml4Table a b level (unmapInternalRecurse level) := by
  induction level with
  | zero => exact sweeps_zero F
  | succ level ih => exact sweeps_succ F hmapped hl (ih (by omega))

end
end Pass

namespace PageTables
open Pass
variable {m w : PageTables} {pml4Table t virtAddr n : UInt64} {S : Set ℕ} {x y l : ℕ}
  {user kernel : ℕ → Set UInt64}

/-- `unmap_internal` of a region gives the tables back that lose their last page by it. -/
theorem unmapInternal_sweeps (F : Radix.Forest (m.child pml4Table) pml4Table 3 user)
    (hmapped : ∀ p, pageNumber virtAddr ≤ p → p < pageNumber virtAddr + pages n →
      m.leaf pml4Table p ≠ none)
    (hbound : pageNumber virtAddr + pages n ≤ 511 * 512 ^ 3) (hst : m.Stands w pml4Table S 3)
    (hg : Gentle S (pageNumber virtAddr) (pageNumber virtAddr + pages n))
    (hin : Set.Ico (pageNumber virtAddr) (pageNumber virtAddr + pages n) ⊆ S) :
    let S' := S \ Set.Ico (pageNumber virtAddr) (pageNumber virtAddr + pages n)
    m.Stands (unmapInternal pml4Table virtAddr n w) pml4Table S' 3 ∧
      Frees w (unmapInternal pml4Table virtAddr n w) (m.dead pml4Table S S' 3) := by
  intro S'
  by_cases hn : pages n = 0
  · have hS : S' = S := by
      change S \ Set.Ico (pageNumber virtAddr) (pageNumber virtAddr + pages n) = S
      rw [hn, Nat.add_zero, Set.Ico_self, Set.sdiff_empty]
    have hnone : m.dead pml4Table S S 3 = ∅ := by
      ext u
      exact iff_of_false (fun hu => by obtain ⟨l, -, y, -, hold, hnew⟩ := hu; exact hnew hold) id
    rw [unmapInternal_zero hn, hS, hnone]
    exact ⟨hst, Frees.refl rfl⟩
  have hzero {p : ℕ} (hp : p < pageNumber virtAddr + pages n) : p / 512 ^ (3 + 1) = 0 :=
    Nat.div_eq_of_lt (by omega)
  have hcut : cut S (pageNumber virtAddr) (pageNumber virtAddr + pages n) (3 + 1) 0 = S' := by
    ext p
    exact and_congr_right fun _ => not_congr ⟨fun hp => hp.2, fun hp => ⟨hzero hp.2, hp⟩⟩
  have hswept := unmapInternalRecurse_sweeps F hmapped le_rfl S 0 pml4Table
    (w.unmapStart virtAddr n) (pageNumber virtAddr) Radix.node_zero hst hg
    (fun p hap hpb _ => hin ⟨hap, hpb⟩) (hzero (by omega)) unmapStart_points (.inl rfl) le_rfl rfl
    (by omega)
  rw [← hcut]
  exact ⟨hswept.stands, hswept.frees⟩

/-- At the start there is a table where a page is mapped below. -/
lemma Filled.alive_iff {rs : List (UInt64 × UInt64)} (h : m.Filled pml4Table rs) (hl : l < 3) :
    Alive {p | m.leaf pml4Table p ≠ none} (l + 1) y ↔ m.HasTable pml4Table (3 - l) y := by
  have hdigits : 4 - (3 - l) = l + 1 := by omega
  constructor
  · rintro ⟨p, hp, rfl⟩
    exact hasTable_iff.mpr (exists_table hp hl.le)
  · intro hy
    obtain ⟨p, hpy, hp⟩ := h.tables (3 - l) (by omega) (Nat.sub_le _ _) y hy
    rw [hdigits] at hpy
    exact ⟨p, hp, hpy⟩

/-- The counter of every table of tables is right. -/
lemma told_node (h : WellFormed m pml4Table user kernel) (hroot : m.Told pml4Table pml4Table)
    (hl : l < 3) (ht : Radix.node 512 (m.child pml4Table) pml4Table (3 - (l + 1)) x = some t) :
    m.Told pml4Table t := by
  by_cases htop : t = pml4Table
  · exact htop.symm ▸ hroot
  · cases hd : 3 - (l + 1) with
    | zero =>
      rw [hd, Radix.node] at ht
      split_ifs at ht
      exact absurd (Option.some.inj ht).symm htop
    | succ d =>
      have hmem := h.forest.node_mem (Nat.sub_le _ _) ht
      exact told_of_counted htop (h.counted d (by omega) t (hd ▸ hmem))

/-- At the start all tables are as they should be. -/
theorem Filled.stands {rs : List (UInt64 × UInt64)} (h : m.Filled pml4Table rs)
    (hwell : WellFormed m pml4Table user kernel) (htidy : m.Tidy pml4Table) :
    m.Stands m pml4Table {p | m.leaf pml4Table p ≠ none} 3 := by
  intro l hl y u hu _
  have hclean := htidy _ (Nat.sub_le _ _) y u hu
  cases l with
  | zero =>
    have hbehind (j : ℕ) (hj : j < 512) :
        m.present u j ↔ j ∈ behind {p | m.leaf pml4Table p ≠ none} 0 y := by
      have hpage : m.leaf pml4Table (512 * y + j) ≠ none ↔ m.present u j := by
        rw [leaf_of_node hu hj, page_ne_none]
      simp [behind, Alive, hj, ← hpage]
    refine ⟨hclean, ?_, fun h0 => absurd rfl h0, fun _ => hbehind⟩
    have hcount : m.Counted u := hwell.counted 2 (by norm_num) u (hwell.forest.node_mem le_rfl hu)
    unfold Counted at hcount
    rw [hcount, count_eq_ncard]
    congr 1
    ext j
    exact ⟨fun hj => (hbehind j hj.1).mp hj.2, fun hj => ⟨hj.1, (hbehind j hj.1).mpr hj⟩⟩
  | succ l =>
    refine ⟨hclean, ?_, fun _ _ => rfl, fun h0 => absurd h0 (Nat.succ_ne_zero l)⟩
    have htold := told_node hwell h.root hl hu
    unfold Told PageTables.tables at htold
    have hdepth : 3 - l = 3 - (l + 1) + 1 := by omega
    rw [htold, ← Set.ncard_coe_finset]
    congr 1
    ext j
    simp only [Finset.coe_filter, Finset.mem_range, pageEntries]
    refine and_congr_right fun hj => ?_
    rw [h.alive_iff hl, HasTable, hdepth, Radix.node_step hj hu, Option.isSome_iff_ne_none]

end PageTables
end EpochKernel.Mem
