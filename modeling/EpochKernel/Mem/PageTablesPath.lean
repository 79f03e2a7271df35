import EpochKernel.Mem.PageTablesUnmap

/-! The way of `unmap_internal` down to the first page. It ends without a table given back only if the
page is the first one below every table on the way, there is nothing to unmap behind it, and every
one of these tables has another present entry. -/
namespace EpochKernel.Mem
open EpochKernel.Util EpochKernel.Library
namespace PageTables
variable {m : PageTables} {t : UInt64} {i j : ℕ}

lemma count_pos : 0 < m.count t ↔ ∃ j < 512, m.present t j := by
  unfold count
  rw [Finset.card_pos]
  constructor
  · intro h
    obtain ⟨j, hj⟩ := h
    rw [Finset.mem_filter, Finset.mem_range] at hj
    exact ⟨j, hj⟩
  · intro h
    obtain ⟨j, hj, hp⟩ := h
    exact ⟨j, Finset.mem_filter.mpr ⟨Finset.mem_range.mpr hj, hp⟩⟩

lemma Counted.ne_zero_iff (h : m.Counted t) :
    pageCounterGet (m.entry t 0) ≠ 0 ↔ ∃ j < 512, m.present t j := by
  rw [← count_pos, ← h, Nat.pos_iff_ne_zero, ne_eq, ne_eq, ← UInt64.toNat_inj, UInt64.toNat_zero]

/-- An entry of a table of pages is removed. -/
def unmapped (m : PageTables) (t : UInt64) (i : ℕ) : PageTables :=
  (if m.present t i then m.counterAdd t (-1) else m).pageUnset t i

/-- Unmapping `u` pages from the one with the number `v` on gives no table from `t` down to it back. -/
def Quiet (m : PageTables) (v u : ℕ) : ℕ → UInt64 → Prop
  | 0, t => v % 512 = 0 ∧ u ≤ 1 ∧ ∃ j < 512, j ≠ 0 ∧ m.present t j
  | level + 1, t => v / 512 ^ (level + 1) % 512 = 0 ∧ u ≤ 512 ^ (level + 1) ∧
      (∃ j < 512, m.present t j) ∧ (m.present t 0 → Quiet m v u level (m.next t 0))

lemma Quiet.le {v u level : ℕ} (h : m.Quiet v u level t) : u ≤ 512 ^ level := by
  cases level with
  | zero => exact h.2.1
  | succ level => exact h.2.1

end PageTables

namespace Pass
open PageTables
variable {m : PageTables} {pml4Table t : UInt64} {w w' : Pass} {v u level x : ℕ}
  {user kernel : ℕ → Set UInt64}

@[simp] lemma unmapPage_toPageTables (w : Pass) (t : UInt64) (i : ℕ) :
    (w.unmapPage t i).toPageTables = w.toPageTables.unmapped t i := rfl

lemma skip_pageN_eq_zero {n : ℕ} : (w.skip n).pageN = 0 ↔ w.pageN ≤ n := by
  unfold skip
  split_ifs with h
  · exact iff_of_true rfl h
  · dsimp only
    omega

/-- An entry that is not present is skipped with all pages below it. -/
lemma unmapTable_skips {recurse : UInt64 → Pass → Bool × Pass} {i : ℕ} (hp : ¬ w.present t i) :
    (unmapTable recurse level t i w).toPageTables = w.toPageTables ∧
      ((unmapTable recurse level t i w).pageN = 0 ↔ w.pageN ≤ 512 ^ level) := by
  have hsize : 512 ^ level = 1 <<< (pageTableBits * level) := by
    rw [Nat.one_shiftLeft, pow_mul]
    rfl
  rw [unmapTable_absent hp, hsize]
  exact ⟨rfl, skip_pageN_eq_zero⟩

/-- The tables from depth `d` on, on the way to a page. -/
def OnWay (m : PageTables) (pml4Table : UInt64) (v d : ℕ) (c : UInt64) : Prop :=
  ∃ e, d ≤ e ∧ e ≤ 3 ∧ Radix.node 512 (m.child pml4Table) pml4Table e (v / 512 ^ (4 - e)) = some c

/-- What a call for a table on the way to the page `v` comes to. -/
structure WayEnd (m : PageTables) (pml4Table : UInt64) (v u level : ℕ) (t : UInt64)
    (out : Bool × Pass) : Prop where
  quiet : m.Quiet v u level t → out.1 = false ∧ out.2.pageN = 0 ∧
    ((out.2.toPageTables = m ∧ Radix.node 512 (m.child pml4Table) pml4Table 3 (v / 512) = none) ∨
      ∃ c, Radix.node 512 (m.child pml4Table) pml4Table 3 (v / 512) = some c ∧
        out.2.toPageTables = m.unmapped c 0)
  ruined : ¬ m.Quiet v u level t → out.1 = true ∨ ∃ c l, OnWay m pml4Table v (3 - level + 1) c ∧
    out.2.freed = m.freed ++ l ∧ ∃ f ∈ l, f.1 = c

section
variable (h : WellFormed m pml4Table user kernel) (htidy : m.Tidy pml4Table)
include h htidy

lemma wayEnd_zero (ht : Radix.node 512 (m.child pml4Table) pml4Table 3 x = some t) (hv : v / 512 = x)
    (hw : w.toPageTables = m) (hn : w.pageN = u) (hu : u ≠ 0) (hp : Points v 1 w) :
    WayEnd m pml4Table v u 0 t (unmapInternalRecurse 0 t w) := by
  have hclean : (w.shift pageTableBits).Clean t := by
    rw [shift_toPageTables, hw]
    exact htidy 3 le_rfl x t ht
  obtain ⟨hindex, -⟩ := hp.call (Nat.zero_le 3)
  rw [pow_zero, Nat.div_one] at hindex
  have hcounted : m.Counted t := h.counted 2 (by omega) t (h.forest.node_mem le_rfl ht)
  have hwrites : Writes m (m.unmapped t w.index) t w.index 0 := writes_unmapPage w.index_lt
  have hcounter := (hwrites.counted hcounted).ne_zero_iff
  have hpresent : (∃ j < 512, (m.unmapped t w.index).present t j) ↔
      ∃ j < 512, j ≠ w.index ∧ m.present t j := by
    refine exists_congr fun j => and_congr_right fun hj => ?_
    by_cases hji : j = w.index
    · subst hji
      exact iff_of_false (not_present_of_data hwrites.data) fun hne => hne.1 rfl
    · rw [and_iff_right hji]
      exact present_congr (hwrites.same j hji)
  have hend : LoopEnd t (unmapPage t) w.index (w.shift pageTableBits) _ := unmapLoop_end w.index_lt
    (hn ▸ hu) (clean_unmapPage hclean) fun _ _ => clean_unmapPage (clean_unmapPage hclean)
  change WayEnd m pml4Table v u 0 t (unmapLoop t (unmapPage t) (512 - w.index) (w.shift pageTableBits))
  generalize unmapLoop t (unmapPage t) (512 - w.index) (w.shift pageTableBits) = out at hend ⊢
  have hbody : (unmapPage t w.index (w.shift pageTableBits)).toPageTables = m.unmapped t w.index := by
    rw [unmapPage_toPageTables, shift_toPageTables, hw]
  have hbodyN : (unmapPage t w.index (w.shift pageTableBits)).pageN = u - 1 := by
    rw [← hn]
    rfl
  cases hend with
  | here n hz =>
    refine ⟨fun hq => ?_, fun _ => Or.inl rfl⟩
    obtain ⟨hv0, -, hex⟩ := hq
    have hi : w.index = 0 := hindex.trans hv0
    have hz := hz hi
    rw [hbody, hi] at hz
    rw [hi] at hcounter hpresent
    exact absurd hz (hcounter.mpr (hpresent.mpr hex))
  | stop hi hc hn' =>
    rw [hbody, hi] at hc
    rw [hi] at hcounter hpresent
    rw [hbodyN] at hn'
    refine ⟨fun _ => ⟨rfl, hbodyN.trans hn', Or.inr ⟨t, hv ▸ ht, by rw [hbody, hi]⟩⟩, fun hq => ?_⟩
    exact absurd ⟨hindex.symm.trans hi, by omega, hpresent.mp (hcounter.mp hc)⟩ hq
  | next n hi hc hn' =>
    refine ⟨fun hq => ?_, fun _ => Or.inl rfl⟩
    have := hq.2.1
    rw [hbodyN] at hn'
    omega

/-- A call for the table below that is not quiet gives this table or one below it back. -/
lemma unmapTable_freed {i : ℕ} (hl : level < 3) (hw : w.toPageTables = m)
    (ht : Radix.node 512 (m.child pml4Table) pml4Table (3 - (level + 1)) x = some t) (hi : i < 512)
    (hslot : ¬ (t = pml4Table ∧ i = 511)) (hp : m.present t i)
    (hnumber : 512 * x + i = v / 512 ^ (level + 1)) (hn : w.pageN ≠ 0)
    (hway : WayEnd m pml4Table v u level (m.next t i) (unmapInternalRecurse level (m.next t i) w))
    (hquiet : ¬ m.Quiet v u level (m.next t i)) :
    ∃ c l, OnWay m pml4Table v (3 - (level + 1) + 1) c ∧
      (unmapTable (unmapInternalRecurse level) (level + 1) t i w).freed = m.freed ++ l ∧
      ∃ f ∈ l, f.1 = c := by
  have hdepth : 3 - level = 3 - (level + 1) + 1 := by omega
  have hdigits : 4 - (3 - level) = level + 1 := by omega
  have hstep := (Radix.node_step hi ht).trans (child_eq_some.mpr ⟨hp, hi, hslot, rfl⟩)
  rw [← hdepth] at hstep
  have hroot : ¬ (m.next t i = pml4Table ∧ w.index = 511) := fun hr =>
    h.forest.ne_root (by omega) (Nat.sub_le _ _) hstep hr.1
  subst hw
  obtain ⟨l, hr, -⟩ := unmapInternalRecurse_ruins h.forest htidy hl.le _ _ w hstep (fun _ _ => rfl) hn
    hroot
  cases hrun : unmapInternalRecurse level (w.next t i) w with
  | mk ok w₁ =>
    rw [hrun] at hr hway
    cases ok with
    | true =>
      have hout : t ∉ w.below pml4Table (3 - level) (512 * x + i) := by
        rw [hdepth]
        exact h.forest.not_mem_below (Nat.sub_le _ _) ht
      have hnext : w₁.next t i = w.next t i := next_congr (by rw [hr.other t hout])
      refine ⟨w.next t i, l ++ [(w.next t i, w₁.entry (w.next t i))],
        ⟨3 - level, hdepth.ge, Nat.sub_le _ _, ?_⟩, ?_, _,
        List.mem_append_right _ (List.mem_singleton_self _), rfl⟩
      · rw [hdigits, ← hnumber]
        exact hstep
      · rw [unmapTable_true hp hrun, hnext]
        change w₁.freed ++ _ = _
        rw [hr.freed, List.append_assoc]
    | false =>
      obtain ⟨c, l', hc, hl', hf⟩ := (hway.ruined hquiet).resolve_left Bool.false_ne_true
      obtain ⟨e, he, hc⟩ := hc
      refine ⟨c, l', ⟨e, by omega, hc⟩, ?_, hf⟩
      rw [unmapTable_false hp hrun]
      exact hl'

/-- The call for the table below, and what the entry of this table is then. -/
lemma wayEnd_succ (hl : level + 1 < 3)
    (hcall : ∀ x t w, Radix.node 512 (m.child pml4Table) pml4Table (3 - level) x = some t →
      v / 512 ^ (level + 1) = x → w.toPageTables = m → w.pageN = u → Points v (level + 1) w →
      WayEnd m pml4Table v u level t (unmapInternalRecurse level t w))
    (ht : Radix.node 512 (m.child pml4Table) pml4Table (3 - (level + 1)) x = some t)
    (hv : v / 512 ^ (level + 1 + 1) = x) (hw : w.toPageTables = m) (hn : w.pageN = u) (hu : u ≠ 0)
    (hp : Points v (level + 1 + 1) w) :
    WayEnd m pml4Table v u (level + 1) t (unmapInternalRecurse (level + 1) t w) := by
  obtain ⟨hindex, hpoints⟩ := hp.call (by omega)
  have hlevel : level + 1 ≤ 3 := hl.le
  have hdepth : 3 - level = 3 - (level + 1) + 1 := by omega
  have hne : t ≠ pml4Table := h.forest.ne_root (by omega) (Nat.sub_le _ _) ht
  have hcounted : m.Counted t := by
    refine h.counted (3 - (level + 1) - 1) (by omega) t ?_
    have hd : 3 - (level + 1) - 1 + 1 = 3 - (level + 1) := by omega
    rw [hd]
    exact h.forest.node_mem (by omega) ht
  have hcounter := hcounted.ne_zero_iff
  obtain ⟨-, -, hend⟩ := unmapTable_loop h.forest htidy (by omega)
    (unmapInternalRecurse_ruins h.forest htidy (by omega)) ht (fun _ _ => by rw [hw]) (hn ▸ hu)
    (fun hroot => hne hroot.1)
  have hnumber : 512 * x + w.index = v / 512 ^ (level + 1) := by
    rw [hindex, ← hv, pow_succ 512 (level + 1), ← Nat.div_div_eq_div_mul, Nat.div_add_mod]
  have hstep := Radix.node_step w.index_lt ht
  rw [← hdepth] at hstep
  subst hw
  set body := unmapTable (unmapInternalRecurse level) (level + 1) t with hbody
  generalize unmapInternalRecurse (level + 1) t w = out at hend ⊢
  by_cases hpr : w.present t w.index
  · have hchild : w.child pml4Table t w.index = some (w.next t w.index) :=
      child_eq_some.mpr ⟨hpr, w.index_lt, fun hroot => hne hroot.1, rfl⟩
    rw [hchild] at hstep
    have hway := hcall _ _ (w.shift pageTableBits) hstep hnumber.symm rfl hn hpoints
    by_cases hquiet : w.Quiet v u level (w.next t w.index)
    · obtain ⟨hfalse, hzero, htables⟩ := hway.quiet hquiet
      have hbody' : body w.index (w.shift pageTableBits) =
          (unmapInternalRecurse level (w.next t w.index) (w.shift pageTableBits)).2 :=
        unmapTable_false hpr (Prod.ext hfalse rfl)
      have hentry : (body w.index (w.shift pageTableBits)).entry t 0 = w.entry t 0 := by
        rw [hbody']
        rcases htables with ⟨he, -⟩ | ⟨c, hc, he⟩
        · rw [he]
        · have htc : t ≠ c := by
            rintro rfl
            have := h.forest.node_depth (by omega) le_rfl ht hc
            omega
          have hwrites : Writes w.toPageTables (w.unmapped c 0) c 0 0 := writes_unmapPage (by norm_num)
          rw [he, hwrites.other t htc]
      have hcount : pageCounterGet (w.entry t 0) ≠ 0 := hcounter.mpr ⟨_, w.index_lt, hpr⟩
      cases hend with
      | here n hz =>
        refine ⟨fun hq => ?_, fun _ => Or.inl rfl⟩
        have hi : w.index = 0 := hindex.trans hq.1
        have hz := hz hi
        rw [hi] at hentry hz
        rw [hentry] at hz
        exact absurd hz hcount
      | stop hi hc hn' =>
        rw [hbody']
        refine ⟨fun _ => ⟨rfl, hzero, htables⟩, fun hq => ?_⟩
        rw [hi] at hpr hquiet
        have hle : 512 ^ level ≤ 512 ^ (level + 1) := Nat.pow_le_pow_right (by norm_num) (Nat.le_succ _)
        exact absurd ⟨hindex.symm.trans hi, hquiet.le.trans hle, ⟨0, by norm_num, hpr⟩, fun _ => hquiet⟩ hq
      | next n hi hc hn' =>
        rw [hbody'] at hn'
        exact absurd hzero hn'
    · have hfreed := unmapTable_freed h htidy (Nat.lt_of_succ_lt hl) rfl ht w.index_lt
        (fun hroot => hne hroot.1) hpr hnumber (w := w.shift pageTableBits) (hn ▸ hu) hway hquiet
      have hparent : ¬ w.Quiet v u (level + 1) t := by
        intro hq
        have hi : w.index = 0 := hindex.trans hq.1
        rw [hi] at hpr hquiet
        exact hquiet (hq.2.2.2 hpr)
      refine ⟨fun hq => absurd hq hparent, fun _ => ?_⟩
      cases hend with
      | here n hz => exact Or.inl rfl
      | stop hi hc hn' => exact Or.inr hfreed
      | next n hi hc hn' => exact Or.inl rfl
  · obtain ⟨htables, hpageN⟩ : (body w.index (w.shift pageTableBits)).toPageTables = w.toPageTables ∧
        ((body w.index (w.shift pageTableBits)).pageN = 0 ↔ w.pageN ≤ 512 ^ (level + 1)) :=
      unmapTable_skips hpr
    rw [hn] at hpageN
    have hchild : w.child pml4Table t w.index = none := if_neg fun hx => hpr hx.1
    rw [hchild, hnumber] at hstep
    have hnone : Radix.node 512 (w.child pml4Table) pml4Table 3 (v / 512) = none := by
      refine Radix.node_eq_none (d := 3 - level) (Nat.sub_le _ _) ?_
      have hpow : 512 ^ (level + 1) = 512 * 512 ^ (3 - (3 - level)) := by
        rw [Nat.sub_sub_self (Nat.le_of_succ_le hlevel), ← pow_succ']
      rw [Nat.div_div_eq_div_mul, ← hpow]
      exact hstep
    cases hend with
    | here n hz =>
      refine ⟨fun hq => ?_, fun _ => Or.inl rfl⟩
      have hi : w.index = 0 := hindex.trans hq.1
      have hz := hz hi
      rw [htables, hi] at hz
      exact absurd hz (hcounter.mpr hq.2.2.1)
    | stop hi hc hn' =>
      refine ⟨fun _ => ⟨rfl, hn', Or.inl ⟨htables, hnone⟩⟩, fun hq => ?_⟩
      rw [htables, hi] at hc
      rw [hi] at hpr
      exact absurd ⟨hindex.symm.trans hi, hpageN.mp hn', hcounter.mp hc, fun hp0 => absurd hp0 hpr⟩ hq
    | next n hi hc hn' => exact ⟨fun hq => absurd (hpageN.mpr hq.2.1) hn', fun _ => Or.inl rfl⟩

/-- The way below the top table. -/
theorem unmapInternalRecurse_wayEnd (hl : level < 3) (hu : u ≠ 0) :
    ∀ x t w, Radix.node 512 (m.child pml4Table) pml4Table (3 - level) x = some t →
      v / 512 ^ (level + 1) = x → w.toPageTables = m → w.pageN = u → Points v (level + 1) w →
      WayEnd m pml4Table v u level t (unmapInternalRecurse level t w) := by
  induction level with
  | zero => exact fun x t w ht hv hw hn hp => wayEnd_zero h htidy ht (by simpa using hv) hw hn hu hp
  | succ level ih =>
    exact fun x t w ht hv hw hn hp => wayEnd_succ h htidy hl (ih (by omega)) ht hv hw hn hu hp

end
end Pass

namespace PageTables
open Pass
variable {m : PageTables} {pml4Table t virtAddr n : UInt64} {user kernel : ℕ → Set UInt64}

/-- The call of the recursion that `unmap_internal` makes. -/
def unmapStart (m : PageTables) (virtAddr n : UInt64) : Pass :=
  { m with virtAddr := virtAddr &&& pageAddrPos, pageN := pages n }

lemma unmapStart_points : Points (pageNumber virtAddr) 4 (m.unmapStart virtAddr n) := by
  unfold Points unmapStart pageNumber
  dsimp only
  rw [and_pageAddrPos_toNat]
  norm_num
  omega

lemma unmapStart_index :
    (m.unmapStart virtAddr n).index = pageNumber virtAddr / 512 ^ 3 := by
  have hlt : pageNumber virtAddr < 512 ^ 4 := Nat.mod_lt _ (by norm_num)
  rw [(Points.call unmapStart_points le_rfl).1]
  exact Nat.mod_eq_of_lt (by omega)

lemma unmapInternal_zero (hn : pages n = 0) : unmapInternal pml4Table virtAddr n m = m := by
  change (unmapLoop pml4Table _ _ ((m.unmapStart virtAddr n).shift pageTableBits)).2.toPageTables = m
  rw [unmapLoop_zero _ hn]
  rfl

section
variable (h : WellFormed m pml4Table user kernel) (htidy : m.Tidy pml4Table) (hn : pages n ≠ 0)
  (hv : pageNumber virtAddr < 511 * 512 ^ 3)
include hv

lemma unmapStart_slot : ¬ (pml4Table = pml4Table ∧ (m.unmapStart virtAddr n).index = 511) := by
  rw [unmapStart_index]
  omega

include h htidy hn

/-- `unmap_internal` ruins the user's tables only, and does not give the top table back. -/
theorem unmapInternal_ruins : ∃ l, Ruins (m.leaves pml4Table) (m.below pml4Table 0 0) m
    (unmapInternal pml4Table virtAddr n m) l ∧ ∀ f ∈ l, f.1 ≠ pml4Table :=
  unmapInternalRecurse_ruins h.forest htidy le_rfl 0 pml4Table (m.unmapStart virtAddr n)
    Radix.node_zero (fun _ _ => rfl) hn (unmapStart_slot hv)

/-- The first entry of the top table that the run looks at is the last one if nothing is left then. -/
lemma unmapInternal_body :
    let w := unmapTable (unmapInternalRecurse 2) 3 pml4Table (pageNumber virtAddr / 512 ^ 3)
      ((m.unmapStart virtAddr n).shift pageTableBits)
    (w.pageN = 0 → unmapInternal pml4Table virtAddr n m = w.toPageTables) ∧
      ∃ l, (unmapInternal pml4Table virtAddr n m).freed = w.freed ++ l := by
  intro w
  have hrun : unmapInternal pml4Table virtAddr n m =
      (unmapInternalRecurse 3 pml4Table (m.unmapStart virtAddr n)).2.toPageTables := rfl
  have hcall : RuinsBelow m pml4Table 2 (unmapInternalRecurse 2) :=
    unmapInternalRecurse_ruins h.forest htidy (by norm_num)
  have hroot : Radix.node 512 (m.child pml4Table) pml4Table (3 - (2 + 1)) 0 = some pml4Table :=
    Radix.node_zero
  obtain ⟨-, hsecond, hend⟩ := unmapTable_loop h.forest htidy (by norm_num) hcall hroot
    (fun _ _ => rfl) hn (unmapStart_slot hv)
  rw [hrun]
  rw [unmapStart_index] at hsecond hend
  generalize unmapInternalRecurse 3 pml4Table (m.unmapStart virtAddr n) = out at hend ⊢
  cases hend with
  | here n hz => exact ⟨fun _ => rfl, [], (List.append_nil _).symm⟩
  | stop hi hc hn' => exact ⟨fun _ => rfl, [], (List.append_nil _).symm⟩
  | next n hi hc hn' =>
    obtain ⟨l, hr, -⟩ := hsecond hi hn'
    exact ⟨fun hz => absurd hz hn', l, hr.freed⟩

/-- Nothing happens for a page below an entry of the top table that is not present. -/
theorem unmapInternal_absent (hp : ¬ m.present pml4Table (pageNumber virtAddr / 512 ^ 3))
    (hle : pages n ≤ 512 ^ 3) : unmapInternal pml4Table virtAddr n m = m := by
  obtain ⟨hsame, -⟩ := unmapInternal_body h htidy hn hv
  have hp' : ¬ ((m.unmapStart virtAddr n).shift pageTableBits).present pml4Table
      (pageNumber virtAddr / 512 ^ 3) := hp
  obtain ⟨htables, hzero⟩ := @unmapTable_skips pml4Table _ 3 (unmapInternalRecurse 2) _ hp'
  exact (hsame (hzero.mpr hle)).trans htables

variable (hp : m.present pml4Table (pageNumber virtAddr / 512 ^ 3))
include hp

lemma unmapInternal_way :
    WayEnd m pml4Table (pageNumber virtAddr) (pages n) 2
      (m.next pml4Table (pageNumber virtAddr / 512 ^ 3))
      (unmapInternalRecurse 2 (m.next pml4Table (pageNumber virtAddr / 512 ^ 3))
        ((m.unmapStart virtAddr n).shift pageTableBits)) := by
  have hi : pageNumber virtAddr / 512 ^ 3 < 511 := by omega
  have hchild : m.child pml4Table pml4Table (pageNumber virtAddr / 512 ^ 3) =
      some (m.next pml4Table (pageNumber virtAddr / 512 ^ 3)) :=
    child_eq_some.mpr ⟨hp, by omega, fun hx => hi.ne hx.2, rfl⟩
  have hroot : Radix.node 512 (m.child pml4Table) pml4Table 0 0 = some pml4Table := Radix.node_zero
  have hnode := (Radix.node_step (by omega) hroot).trans hchild
  exact unmapInternalRecurse_wayEnd h htidy (by norm_num) hn _ _ _ hnode (by omega) rfl rfl
    (Points.call unmapStart_points le_rfl).2

/-- A quiet call takes the page out, or finds that it is not there. -/
theorem unmapInternal_quiet (hq : m.Quiet (pageNumber virtAddr) (pages n) 2
      (m.next pml4Table (pageNumber virtAddr / 512 ^ 3))) :
    (unmapInternal pml4Table virtAddr n m = m ∧
      Radix.node 512 (m.child pml4Table) pml4Table 3 (pageNumber virtAddr / 512) = none) ∨
    ∃ c, Radix.node 512 (m.child pml4Table) pml4Table 3 (pageNumber virtAddr / 512) = some c ∧
      unmapInternal pml4Table virtAddr n m = m.unmapped c 0 := by
  obtain ⟨hfalse, hzero, htables⟩ := (unmapInternal_way h htidy hn hv hp).quiet hq
  obtain ⟨hsame, -⟩ := unmapInternal_body h htidy hn hv
  have hbody : unmapTable (unmapInternalRecurse 2) 3 pml4Table (pageNumber virtAddr / 512 ^ 3)
      ((m.unmapStart virtAddr n).shift pageTableBits) = _ := unmapTable_false hp (Prod.ext hfalse rfl)
  rw [hbody] at hsame
  rw [hsame hzero]
  exact htables

/-- Any other call gives a table on the way to the page back. -/
theorem unmapInternal_ruined (hq : ¬ m.Quiet (pageNumber virtAddr) (pages n) 2
      (m.next pml4Table (pageNumber virtAddr / 512 ^ 3))) :
    ∃ c l, OnWay m pml4Table (pageNumber virtAddr) 1 c ∧
      (unmapInternal pml4Table virtAddr n m).freed = m.freed ++ l ∧ ∃ f ∈ l, f.1 = c := by
  obtain ⟨-, rest, hrest⟩ := unmapInternal_body h htidy hn hv
  have hway := (unmapInternal_way h htidy hn hv hp).ruined hq
  suffices hbody : ∃ c l, OnWay m pml4Table (pageNumber virtAddr) 1 c ∧
      (unmapTable (unmapInternalRecurse 2) 3 pml4Table (pageNumber virtAddr / 512 ^ 3)
        ((m.unmapStart virtAddr n).shift pageTableBits)).freed = m.freed ++ l ∧ ∃ f ∈ l, f.1 = c by
    obtain ⟨c, l, hc, hl, f, hf, he⟩ := hbody
    exact ⟨c, l ++ rest, hc, by rw [hrest, hl, List.append_assoc], f, List.mem_append_left _ hf, he⟩
  have hroot : Radix.node 512 (m.child pml4Table) pml4Table (3 - (2 + 1)) 0 = some pml4Table :=
    Radix.node_zero
  have hi : pageNumber virtAddr / 512 ^ 3 < 511 := by omega
  have hslot : ¬ (pml4Table = pml4Table ∧ pageNumber virtAddr / 512 ^ 3 = 511) := fun hx => hi.ne hx.2
  exact unmapTable_freed h htidy (by norm_num) rfl hroot (by omega) hslot hp (by omega) hn
    (unmapInternal_way h htidy hn hv hp) hq

end
lemma page_ne_none {t : UInt64} {i : ℕ} : m.page t i ≠ none ↔ m.present t i := by
  unfold page read
  split_ifs with h
  · exact iff_of_true (Option.some_ne_none _) h
  · exact iff_of_false (not_not_intro rfl) h

lemma leaf_ne_none {v : ℕ} (h : m.leaf pml4Table v ≠ none) :
    ∃ c, Radix.node 512 (m.child pml4Table) pml4Table 3 (v / 512) = some c := by
  unfold leaf at h
  cases hc : Radix.node 512 (m.child pml4Table) pml4Table 3 (v / 512) with
  | none =>
    rw [hc] at h
    exact absurd rfl h
  | some c => exact ⟨c, rfl⟩

/-- On the way to a table there is one at every depth. -/
lemma node_above {d x : ℕ} {c : UInt64} (hd : d ≤ 3)
    (hc : Radix.node 512 (m.child pml4Table) pml4Table 3 x = some c) :
    ∃ t, Radix.node 512 (m.child pml4Table) pml4Table d (x / 512 ^ (3 - d)) = some t := by
  by_contra hnone
  have hno : Radix.node 512 (m.child pml4Table) pml4Table d (x / 512 ^ (3 - d)) = none :=
    Option.eq_none_iff_forall_ne_some.mpr fun t ht => hnone ⟨t, ht⟩
  rw [Radix.node_eq_none hd hno] at hc
  cases hc

/-- The first table on the way to a page that was given back: those above it are left. -/
lemma first_gone {l : List (UInt64 × (ℕ → UInt64))} {v : ℕ} {c : UInt64}
    (hroot : ∀ f ∈ l, f.1 ≠ pml4Table) (hc : OnWay m pml4Table v 1 c) (hf : ∃ f ∈ l, f.1 = c) :
    ∃ d < 3, ∃ c, Radix.node 512 (m.child pml4Table) pml4Table (d + 1) (v / 512 ^ (3 - d)) = some c ∧
      (∀ e ≤ d, ∀ t, Radix.node 512 (m.child pml4Table) pml4Table e (v / 512 ^ (4 - e)) = some t →
        ∀ f ∈ l, f.1 ≠ t) ∧ ∃ f ∈ l, f.1 = c := by
  have hex : ∃ e, ∃ c, Radix.node 512 (m.child pml4Table) pml4Table e (v / 512 ^ (4 - e)) = some c ∧
      ∃ f ∈ l, f.1 = c := by
    obtain ⟨e, -, -, hc⟩ := hc
    exact ⟨e, c, hc, hf⟩
  classical
  obtain ⟨c', hc', hf'⟩ := Nat.find_spec hex
  have hmin : ∀ e < Nat.find hex, ∀ t,
      Radix.node 512 (m.child pml4Table) pml4Table e (v / 512 ^ (4 - e)) = some t →
      ∀ f ∈ l, f.1 ≠ t := fun e he t ht f hfl hft => Nat.find_min hex he ⟨t, ht, f, hfl, hft⟩
  have hle : Nat.find hex ≤ 3 := by
    obtain ⟨e, -, he, hc⟩ := hc
    exact (Nat.find_min' hex ⟨c, hc, hf⟩).trans he
  cases hfind : Nat.find hex with
  | zero =>
    rw [hfind, Radix.node] at hc'
    split_ifs at hc'
    obtain ⟨f, hfl, hfc⟩ := hf'
    exact absurd (hfc.trans (Option.some.inj hc').symm) (hroot f hfl)
  | succ d =>
    rw [hfind] at hc' hmin hle
    have hdigits : 4 - (d + 1) = 3 - d := by omega
    rw [hdigits] at hc'
    exact ⟨d, by omega, c', hc', fun e he => hmin e (Nat.lt_succ_of_le he), hf'⟩

end PageTables
end EpochKernel.Mem
