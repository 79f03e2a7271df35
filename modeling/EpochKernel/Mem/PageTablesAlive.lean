import EpochKernel.Mem.PageTablesFilled

/-! The tables that are in use, told by the pages that are left. The entry for a table that was given back
still leads to it, so that the tables are those of the tree at the start. -/
namespace EpochKernel.Mem
open EpochKernel.Util EpochKernel.Library
namespace PageTables
variable {m w w' : PageTables} {pml4Table t u : UInt64} {S S' : Set ℕ} {a b h p v x y i j l level : ℕ}

/-- A page of `S` is in the part with the number `x` of those with `512 ^ h` pages. -/
def Alive (S : Set ℕ) (h x : ℕ) : Prop := ∃ p ∈ S, p / 512 ^ h = x

/-- The entries of a table with pages of `S` behind them. -/
def behind (S : Set ℕ) (level x : ℕ) : Set ℕ := {j | j < 512 ∧ Alive S level (512 * x + j)}

/-- `S` without the pages from `a` up to `b` in a part. -/
def cut (S : Set ℕ) (a b h x : ℕ) : Set ℕ := {p ∈ S | ¬ (p / 512 ^ h = x ∧ a ≤ p ∧ p < b)}

lemma part_iff (hj : j < 512) :
    p / 512 ^ h = 512 * x + j ↔ p / 512 ^ (h + 1) = x ∧ p / 512 ^ h % 512 = j := by
  rw [pow_succ, ← Nat.div_div_eq_div_mul]
  omega

/-- The number of the entry for a page, below the number of its table. -/
lemma entry_number (hp : p / 512 ^ (h + 1) = x) : p / 512 ^ h = 512 * x + p / 512 ^ h % 512 :=
  (part_iff (Nat.mod_lt _ (by norm_num))).mpr ⟨hp, rfl⟩

lemma alive_succ_iff : Alive S (level + 1) x ↔ (behind S level x).Nonempty := by
  constructor
  · rintro ⟨p, hp, hx⟩
    exact ⟨p / 512 ^ level % 512, Nat.mod_lt _ (by norm_num), p, hp, entry_number hx⟩
  · rintro ⟨j, hj, p, hp, hx⟩
    exact ⟨p, hp, ((part_iff hj).mp hx).1⟩

lemma Alive.mono (hsub : S ⊆ S') (ha : Alive S h x) : Alive S' h x := by
  obtain ⟨p, hp, hx⟩ := ha
  exact ⟨p, hsub hp, hx⟩

lemma cut_subset : cut S a b h x ⊆ S := fun _ hp => hp.1

lemma alive_cut_of_ne (hy : y ≠ x) : Alive (cut S a b h x) h y ↔ Alive S h y := by
  refine ⟨Alive.mono cut_subset, ?_⟩
  rintro ⟨p, hp, rfl⟩
  exact ⟨p, ⟨hp, fun hx => hy hx.1⟩, rfl⟩

lemma finite_behind : (behind S level x).Finite :=
  (Set.finite_Iio 512).subset fun _ hj => hj.1

lemma ncard_behind_le : (behind S level x).ncard ≤ 512 := by
  have hcard : (Set.Iio 512).ncard = 512 := by
    rw [Set.ncard_eq_toFinset_card', Set.toFinset_Iio, Nat.card_Iio]
  have hsub : behind S level x ⊆ Set.Iio 512 := fun j hj => hj.1
  exact (Set.ncard_le_ncard hsub (Set.finite_Iio 512)).trans hcard.le

/-- The entries of the other tables of the level lead to what they did. -/
lemma behind_cut_of_ne (hi : i < 512) (hy : y ≠ x) :
    behind (cut S a b level (512 * x + i)) level y = behind S level y := by
  ext j
  exact and_congr_right fun hj => alive_cut_of_ne (by omega)

/-- An entry that something is left behind. -/
lemma behind_cut_alive (hi : Alive (cut S a b level (512 * x + i)) level (512 * x + i)) :
    behind (cut S a b level (512 * x + i)) level x = behind S level x := by
  ext j
  refine and_congr_right fun _ => ?_
  by_cases hj : j = i
  · rw [hj]
    exact iff_of_true hi (hi.mono cut_subset)
  · exact alive_cut_of_ne (by omega)

/-- An entry that nothing is left behind. -/
lemma behind_cut_dead (hi : ¬ Alive (cut S a b level (512 * x + i)) level (512 * x + i)) :
    behind (cut S a b level (512 * x + i)) level x = behind S level x \ {i} := by
  ext j
  by_cases hj : j = i
  · rw [hj]
    exact iff_of_false (fun hmem => hi hmem.2) fun hmem => hmem.2 rfl
  · have hne : 512 * x + j ≠ 512 * x + i := by omega
    rw [Set.mem_sdiff, and_iff_left (show j ∉ ({i} : Set ℕ) from hj)]
    exact and_congr_right fun _ => alive_cut_of_ne hne

/-- The pages of the region in a part are behind one entry. -/
lemma cut_one (hi : i < 512)
    (h : ∀ p, a ≤ p → p < b → p / 512 ^ (level + 1) = x → p / 512 ^ level % 512 = i) :
    cut S a b (level + 1) x = cut S a b level (512 * x + i) := by
  ext p
  refine and_congr_right fun _ => not_congr ⟨?_, ?_⟩
  · rintro ⟨hx, ha, hb⟩
    exact ⟨(part_iff hi).mpr ⟨hx, h p ha hb hx⟩, ha, hb⟩
  · rintro ⟨hx, ha, hb⟩
    exact ⟨((part_iff hi).mp hx).1, ha, hb⟩

/-- They are behind the first two. -/
lemma cut_two (h : ∀ p, a ≤ p → p < b → p / 512 ^ (level + 1) = x → p / 512 ^ level % 512 ≤ 1) :
    cut S a b (level + 1) x = cut (cut S a b level (512 * x + 0)) a b level (512 * x + 1) := by
  have hzero : 0 < 512 := by norm_num
  have hone : 1 < 512 := by norm_num
  ext p
  constructor
  · rintro ⟨hp, hout⟩
    exact ⟨⟨hp, fun hx => hout ⟨((part_iff hzero).mp hx.1).1, hx.2⟩⟩,
      fun hx => hout ⟨((part_iff hone).mp hx.1).1, hx.2⟩⟩
  · rintro ⟨⟨hp, hout₀⟩, hout₁⟩
    refine ⟨hp, ?_⟩
    rintro ⟨hx, ha, hb⟩
    rcases Nat.le_one_iff_eq_zero_or_eq_one.mp (h p ha hb hx) with h0 | h1
    · exact hout₀ ⟨(part_iff hzero).mpr ⟨hx, h0⟩, ha, hb⟩
    · exact hout₁ ⟨(part_iff hone).mpr ⟨hx, h1⟩, ha, hb⟩

/-- A table that pages of `S` are left below: the entries lead where they did, or to the pages that are
left, and the counter is the number of those with something behind them. -/
structure Intact (m w : PageTables) (S : Set ℕ) (level x : ℕ) (t : UInt64) : Prop where
  clean : w.Clean t
  counter : (pageCounterGet (w.entry t 0)).toNat = (behind S level x).ncard
  data : level ≠ 0 → ∀ j, w.entry t j &&& pageDataPos = m.entry t j &&& pageDataPos
  pages : level = 0 → ∀ j < 512, w.present t j ↔ j ∈ behind S 0 x

lemma Intact.congr (h : Intact m w S level x t) (he : w'.entry t = w.entry t)
    (hb : behind S' level x = behind S level x) : Intact m w' S' level x t where
  clean := h.clean.congr fun j _ => congrFun he j
  counter := by rw [he, hb, h.counter]
  data hl j := by rw [he, h.data hl]
  pages hl j hj := by
    subst hl
    rw [hb, ← h.pages rfl j hj]
    exact present_congr (by rw [he])

/-- Of tables of pages, it is the number of the present ones. -/
lemma count_eq_ncard : m.count t = {j | j < 512 ∧ m.present t j}.ncard := by
  unfold count
  rw [← Set.ncard_coe_finset]
  congr 1
  ext j
  simp [pageEntries]

lemma Intact.counted (h : Intact m w S 0 x t) : w.Counted t := by
  unfold Counted
  rw [h.counter, count_eq_ncard]
  congr 1
  ext j
  exact ⟨fun hj => ⟨hj.1, (h.pages rfl j hj.1).mpr hj⟩, fun hj => (h.pages rfl j hj.1).mp hj.2⟩

lemma Intact.zero_iff (h : Intact m w S level x t) :
    pageCounterGet (w.entry t 0) = 0 ↔ ¬ Alive S (level + 1) x := by
  rw [alive_succ_iff, Set.not_nonempty_iff_eq_empty, ← Set.ncard_eq_zero finite_behind, ← h.counter,
    ← UInt64.toNat_inj]
  rfl

/-- All tables up to a level that pages of `S` are left below. -/
def Stands (m w : PageTables) (pml4Table : UInt64) (S : Set ℕ) (level : ℕ) : Prop :=
  ∀ l ≤ level, ∀ y u, Radix.node 512 (m.child pml4Table) pml4Table (3 - l) y = some u →
    Alive S (l + 1) y → Intact m w S l y u

lemma Stands.mono (h : Stands m w pml4Table S level) (hl : l ≤ level) : Stands m w pml4Table S l :=
  fun k hk => h k (hk.trans hl)

/-- The tables below a level with pages of `S` and none of `S'` below them. -/
def dead (m : PageTables) (pml4Table : UInt64) (S S' : Set ℕ) (level : ℕ) : Set UInt64 :=
  {u | ∃ l < level, ∃ y, Radix.node 512 (m.child pml4Table) pml4Table (3 - l) y = some u ∧
    Alive S (l + 1) y ∧ ¬ Alive S' (l + 1) y}

/-- Tables of two levels are not the same. -/
lemma ne_of_level {c : UInt64} {k : ℕ} {user : ℕ → Set UInt64}
    (F : Radix.Forest (m.child pml4Table) pml4Table 3 user) (hl : l ≤ 3) (hk : k ≤ 3) (hne : l ≠ k)
    (hu : Radix.node 512 (m.child pml4Table) pml4Table (3 - l) y = some u)
    (hc : Radix.node 512 (m.child pml4Table) pml4Table (3 - k) x = some c) : u ≠ c := by
  rintro rfl
  have := F.node_depth (Nat.sub_le _ _) (Nat.sub_le _ _) hu hc
  omega

section Dead
variable {c : UInt64}

lemma dead_succ_of_alive (ha : Alive (cut S a b (level + 1) y) (level + 1) y) :
    m.dead pml4Table S (cut S a b (level + 1) y) (level + 1) =
      m.dead pml4Table S (cut S a b (level + 1) y) level := by
  ext u
  constructor
  · rintro ⟨l, hl, z, hu, hold, hnew⟩
    refine ⟨l, lt_of_le_of_ne (Nat.le_of_lt_succ hl) ?_, z, hu, hold, hnew⟩
    rintro rfl
    by_cases hz : z = y
    · exact hnew (hz ▸ ha)
    · exact hnew ((alive_cut_of_ne hz).mpr hold)
  · rintro ⟨l, hl, hu⟩
    exact ⟨l, hl.trans (Nat.lt_succ_self _), hu⟩

lemma dead_succ_of_dead (hc : Radix.node 512 (m.child pml4Table) pml4Table (3 - level) y = some c)
    (hold : Alive S (level + 1) y) (hnew : ¬ Alive (cut S a b (level + 1) y) (level + 1) y) :
    m.dead pml4Table S (cut S a b (level + 1) y) (level + 1) =
      m.dead pml4Table S (cut S a b (level + 1) y) level ∪ {c} := by
  ext u
  constructor
  · rintro ⟨l, hl, z, hu, hzold, hznew⟩
    rcases (Nat.le_of_lt_succ hl).lt_or_eq with hlt | rfl
    · exact .inl ⟨l, hlt, z, hu, hzold, hznew⟩
    · have hz : z = y := by
        by_contra hne
        exact hznew ((alive_cut_of_ne hne).mpr hzold)
      subst hz
      exact .inr (Option.some.inj (hu.symm.trans hc))
  · rintro (⟨l, hl, hu⟩ | rfl)
    · exact ⟨l, hl.trans (Nat.lt_succ_self _), hu⟩
    · exact ⟨level, Nat.lt_succ_self _, y, hc, hold, hnew⟩

lemma not_mem_dead {user : ℕ → Set UInt64} (F : Radix.Forest (m.child pml4Table) pml4Table 3 user)
    (hl : level ≤ 3) (hc : Radix.node 512 (m.child pml4Table) pml4Table (3 - level) y = some c) :
    c ∉ m.dead pml4Table S S' level := by
  rintro ⟨l, hlt, z, hz, -⟩
  exact ne_of_level F (hlt.le.trans hl) hl hlt.ne hz hc rfl

lemma dead_trans {S'' : Set ℕ} (h : S' ⊆ S) (h' : S'' ⊆ S') : m.dead pml4Table S S'' level =
    m.dead pml4Table S S' level ∪ m.dead pml4Table S' S'' level := by
  ext u
  constructor
  · rintro ⟨l, hl, y, hu, hold, hnew⟩
    by_cases hmid : Alive S' (l + 1) y
    · exact .inr ⟨l, hl, y, hu, hmid, hnew⟩
    · exact .inl ⟨l, hl, y, hu, hold, hmid⟩
  · rintro (⟨l, hl, y, hu, hold, hnew⟩ | ⟨l, hl, y, hu, hold, hnew⟩)
    · exact ⟨l, hl, y, hu, hold, fun hx => hnew (hx.mono h')⟩
    · exact ⟨l, hl, y, hu, hold.mono h, hnew⟩

lemma dead_disjoint {S'' : Set ℕ} {user : ℕ → Set UInt64}
    (F : Radix.Forest (m.child pml4Table) pml4Table 3 user) (hl : level ≤ 4) :
    Disjoint (m.dead pml4Table S S' level) (m.dead pml4Table S' S'' level) := by
  rw [Set.disjoint_left]
  rintro u ⟨l, hlt, y, hu, -, hnew⟩ ⟨k, hk, z, hz, hold, -⟩
  have hlevels := F.node_depth (Nat.sub_le _ _) (Nat.sub_le _ _) hu hz
  obtain rfl : l = k := by omega
  exact hnew (F.node_inj (Nat.sub_le _ _) hu hz ▸ hold)

end Dead

/-- The pages that are given back are those of a set, each once. -/
def Frees (w w' : PageTables) (D : Set UInt64) : Prop :=
  ∃ l, w'.freed = w.freed ++ l ∧ (l.map Prod.fst).Nodup ∧ ∀ u, u ∈ l.map Prod.fst ↔ u ∈ D

namespace Frees
variable {w₁ : PageTables} {D D' : Set UInt64}

lemma refl (h : w'.freed = w.freed) : Frees w w' ∅ :=
  ⟨[], by rw [h, List.append_nil], List.nodup_nil, fun _ => iff_of_false List.not_mem_nil id⟩

lemma free (w : PageTables) (c : UInt64) : Frees w (w.free c) {c} :=
  ⟨[(c, w.entry c)], rfl, List.nodup_singleton c, fun _ => List.mem_singleton⟩

lemma trans (h : Frees w w₁ D) (h' : Frees w₁ w' D') (hd : Disjoint D D') : Frees w w' (D ∪ D') := by
  obtain ⟨l, hl, hnd, hmem⟩ := h
  obtain ⟨l', hl', hnd', hmem'⟩ := h'
  refine ⟨l ++ l', by rw [hl', hl, List.append_assoc], ?_, fun u => ?_⟩
  · rw [List.map_append]
    refine List.nodup_append'.mpr ⟨hnd, hnd', fun u hu hu' => ?_⟩
    exact Set.disjoint_left.mp hd ((hmem u).mp hu) ((hmem' u).mp hu')
  · rw [List.map_append, List.mem_append, hmem, hmem']
    rfl

end Frees

/-- A region that can be unmapped where the pages of `S` are left. A table that it has pages below is
its own, or the region has only pages behind the first entry, the one with the counter; and the call
comes to all of its tables, which are behind one entry of a table, or behind the first two. -/
structure Gentle (S : Set ℕ) (a b : ℕ) : Prop where
  own : ∀ level ≤ 2, ∀ x,
    (∀ p, a ≤ p → p < b → p / 512 ^ (level + 1) = x → p / 512 ^ level % 512 = 0) ∨
    ∀ p ∈ S, p / 512 ^ (level + 1) = x → a ≤ p ∧ p < b
  paired : ∀ level, 1 ≤ level → level ≤ 3 → ∀ p q, a ≤ p → p < b → a ≤ q → q < b →
    p / 512 ^ (level + 1) = q / 512 ^ (level + 1) → p / 512 ^ level % 512 < q / 512 ^ level % 512 →
    p / 512 ^ level % 512 = 0 ∧ q / 512 ^ level % 512 = 1

lemma Gentle.mono (h : Gentle S a b) (hsub : S' ⊆ S) : Gentle S' a b where
  own level hl x := (h.own level hl x).imp_right fun hall p hp => hall p (hsub hp)
  paired := h.paired

/-- A table with pages of the region behind a later entry has no other pages. -/
lemma Gentle.not_alive (h : Gentle S a b) (hl : level ≤ 2) (ha : a ≤ p) (hb : p < b)
    (hx : p / 512 ^ (level + 1) = x) (hne : p / 512 ^ level % 512 ≠ 0) :
    ¬ Alive (cut S a b (level + 1) x) (level + 1) x := by
  rintro ⟨q, ⟨hqS, hout⟩, hqx⟩
  have hall := (h.own level hl x).resolve_left fun hfirst => hne (hfirst p ha hb hx)
  exact hout ⟨hqx, hall q hqS hqx⟩

/-- If the region has pages behind another entry than that of its first page in a part, these are the
first two. -/
lemma Gentle.first_two (h : Gentle S a b) (hl : 1 ≤ level) (hl3 : level ≤ 3)
    (hv : v / 512 ^ (level + 1) = x) (hstart : v = a ∨ v = x * 512 ^ (level + 1)) (hav : a ≤ v) (hvb : v < b)
    (ha : a ≤ p) (hb : p < b) (hx : p / 512 ^ (level + 1) = x)
    (hne : p / 512 ^ level % 512 ≠ v / 512 ^ level % 512) :
    v / 512 ^ level % 512 = 0 ∧ p / 512 ^ level % 512 = 1 := by
  rcases Nat.lt_or_gt_of_ne hne with hlt | hgt
  · rcases hstart with rfl | hstart
    · have hle := Nat.div_le_div_right (c := 512 ^ level) ha
      have hpn := entry_number hx
      have hvn := entry_number hv
      omega
    · have hpos : 0 < 512 ^ level := Nat.pow_pos (by norm_num)
      rw [hstart, pow_succ, ← Nat.mul_assoc, Nat.mul_right_comm, Nat.mul_div_cancel _ hpos] at hlt
      omega
  · exact h.paired level hl hl3 v p hav hvb ha hb (hv.trans hx.symm) hgt

/-- Above a page that is mapped there is a table of each level. -/
lemma exists_table (hp : m.leaf pml4Table p ≠ none) (hl : level ≤ 3) :
    ∃ t, Radix.node 512 (m.child pml4Table) pml4Table (3 - level) (p / 512 ^ (level + 1)) = some t := by
  obtain ⟨c, hc⟩ := leaf_ne_none hp
  obtain ⟨t, ht⟩ := node_above (Nat.sub_le 3 level) hc
  have hpow : 512 * 512 ^ (3 - (3 - level)) = 512 ^ (level + 1) := by
    rw [Nat.sub_sub_self hl, pow_succ']
  rw [Nat.div_div_eq_div_mul, hpow] at ht
  exact ⟨t, ht⟩

end PageTables

end EpochKernel.Mem
