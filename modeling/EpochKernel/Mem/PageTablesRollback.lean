import EpochKernel.Mem.PageTablesFail

/-! When is `map_internal` all or nothing? If no page could be mapped, `unmap_internal` is called for
another page, one whose number is the rest of the first page's digits; it must not find anything to
give back there. If a page has been mapped, it stays. -/
namespace EpochKernel.Mem
open EpochKernel.Util EpochKernel.Library
namespace PageTables
variable {m m' w : PageTables} {pml4Table physAddr virtAddr v n flags t c : UInt64} {k d i x level : ℕ}
  {user kernel : ℕ → Set UInt64}

/-- `Quiet` by the numbers of the tables and of the mapped pages. -/
def QuietWay (table : ℕ → ℕ → Prop) (page : ℕ → Prop) (v u : ℕ) : ℕ → Prop
  | 0 => v % 512 = 0 ∧ u ≤ 1 ∧ ∃ j < 512, j ≠ 0 ∧ page (v + j)
  | level + 1 => v / 512 ^ (level + 1) % 512 = 0 ∧ u ≤ 512 ^ (level + 1) ∧
      (∃ j < 512, table (3 - level) (v / 512 ^ (level + 1) + j)) ∧
      (table (3 - level) (v / 512 ^ (level + 1)) → QuietWay table page v u level)

lemma QuietWay.congr {table table' : ℕ → ℕ → Prop} {page page' : ℕ → Prop} {v u : ℕ}
    (htable : ∀ e ≤ 3, ∀ y, table e y ↔ table' e y) (hpage : ∀ x, page x ↔ page' x) :
    QuietWay table page v u level ↔ QuietWay table' page' v u level := by
  induction level with
  | zero => simp only [QuietWay, hpage]
  | succ level ih => simp only [QuietWay, htable _ (Nat.sub_le 3 level), ih]

lemma present_iff_hasTable (ht : Radix.node 512 (m.child pml4Table) pml4Table d x = some t)
    (hi : i < 512) (hne : t ≠ pml4Table) :
    m.present t i ↔ m.HasTable pml4Table (d + 1) (512 * x + i) := by
  rw [hasTable_iff, Radix.node_step hi ht]
  constructor
  · intro hp
    exact ⟨_, child_eq_some.mpr ⟨hp, hi, fun hroot => hne hroot.1, rfl⟩⟩
  · intro hthere
    obtain ⟨u, hu⟩ := hthere
    exact (child_eq_some.mp hu).1

lemma quiet_iff_way (h : WellFormed m pml4Table user kernel) {v u : ℕ} (hl : level < 3)
    (ht : Radix.node 512 (m.child pml4Table) pml4Table (3 - level) (v / 512 ^ (level + 1)) = some t) :
    m.Quiet v u level t ↔
      QuietWay (m.HasTable pml4Table) (fun x => m.leaf pml4Table x ≠ none) v u level := by
  induction level generalizing t with
  | zero =>
    rw [Quiet, QuietWay]
    apply and_congr_right
    intro hv
    apply and_congr_right
    intro _
    refine exists_congr fun j => and_congr_right fun hj => and_congr_right fun _ => ?_
    have hsplit : v + j = 512 * (v / 512) + j := by omega
    rw [Nat.sub_zero, zero_add, pow_one] at ht
    rw [hsplit, leaf_of_node ht hj, page_ne_none]
  | succ level ih =>
    have hdepth : 3 - level = 3 - (level + 1) + 1 := by omega
    have hne : t ≠ pml4Table := by
      rintro rfl
      have := h.forest.node_depth (by omega) (Nat.zero_le 3) ht Radix.node_zero
      omega
    rw [Quiet, QuietWay]
    apply and_congr_right
    intro hv
    have hsplit : v / 512 ^ (level + 1) = 512 * (v / 512 ^ (level + 1 + 1)) := by
      rw [pow_succ 512 (level + 1), ← Nat.div_div_eq_div_mul]
      omega
    have hpresent (j : ℕ) (hj : j < 512) : m.present t j ↔
        m.HasTable pml4Table (3 - level) (v / 512 ^ (level + 1) + j) := by
      rw [hsplit, hdepth]
      exact present_iff_hasTable ht hj hne
    have hfirst := hpresent 0 (by norm_num)
    apply and_congr_right
    intro _
    rw [Nat.add_zero] at hfirst
    apply and_congr
    · exact exists_congr fun j => and_congr_right fun hj => hpresent j hj
    · rw [← hfirst]
      refine imp_congr_right fun hp => ih (by omega) ?_
      have hchild : m.child pml4Table t 0 = some (m.next t 0) :=
        child_eq_some.mpr ⟨hp, by norm_num, fun hroot => hne hroot.1, rfl⟩
      have hstep := (Radix.node_step (by norm_num) ht).trans hchild
      rw [← hdepth, Nat.add_zero, ← hsplit] at hstep
      exact hstep

/-- An entry for a table that has kept its data. -/
lemma read_kept (h : WellFormed w pml4Table user kernel) (hd : d < 3) (ht : t ∈ user d)
    (hc : w.child pml4Table t i = some c)
    (hdata : m'.entry t i &&& pageDataPos = w.entry t i &&& pageDataPos) :
    ∃ e, m'.read t i = some e ∧ ¬ large e ∧ (e &&& pageAddrPos) + kernelVma = c := by
  obtain ⟨hp, -, -, hnext⟩ := child_eq_some.mp hc
  refine ⟨m'.entry t i, if_pos ((present_congr hdata).mpr hp), ?_, ?_⟩
  · rw [large_congr hdata]
    exact h.small d hd t ht i (by rw [hc]; exact Option.some_ne_none _)
  · exact (next_congr hdata).trans hnext

/-- The walk comes to the last table that was left, and reads a page that was given back. -/
lemma walk_gone (h : WellFormed w pml4Table user kernel) (hv : pageNumber v < 511 * 512 ^ 3)
    (hd : d < 3)
    (hc : Radix.node 512 (w.child pml4Table) pml4Table (d + 1) (pageNumber v / 512 ^ (3 - d)) = some c)
    (hkept : ∀ e ≤ d, ∀ t,
      Radix.node 512 (w.child pml4Table) pml4Table e (pageNumber v / 512 ^ (4 - e)) = some t →
        ∀ j, m'.entry t j &&& pageDataPos = w.entry t j &&& pageDataPos) {e : UInt64}
    (hleft : ∀ j, m'.entry c j = e) :
    (e = 0 → m'.walk pml4Table v = none) ∧ (e = 0x81 → m'.walk pml4Table v ≠ none) := by
  have hnone (h0 : e = 0) (j : ℕ) : m'.read c j = none := by
    refine if_neg ?_
    rw [present, hleft, h0]
    decide
  have hsome (h1 : e = 0x81) (j : ℕ) : m'.read c j = some 0x81 := by
    have hp : m'.present c j := by
      rw [present, hleft, h1]
      decide
    rw [read, if_pos hp, hleft, h1]
  have hlarge : large 0x81 := by decide
  obtain ⟨h3, h2, h1, h0⟩ := index_digits v
  have hlt : pageNumber v / 512 / 512 / 512 < 511 := by omega
  have hway (e : ℕ) (he : e ≤ d) (u : UInt64)
      (hu : Radix.node 512 (w.child pml4Table) pml4Table (e + 1) (pageNumber v / 512 ^ (3 - e)) = some u) :
      ∃ t el, Radix.node 512 (w.child pml4Table) pml4Table e (pageNumber v / 512 ^ (4 - e)) = some t ∧
        m'.read t (pageNumber v / 512 ^ (3 - e) % 512) = some el ∧ ¬ large el ∧
        (el &&& pageAddrPos) + kernelVma = u := by
    obtain ⟨t, ht, hct⟩ := Radix.node_succ.mp hu
    have hdigits : pageNumber v / 512 ^ (3 - e) / 512 = pageNumber v / 512 ^ (4 - e) := by
      rw [Nat.div_div_eq_div_mul, ← pow_succ]
      congr 2
      omega
    rw [hdigits] at ht
    have hread : ∃ el, m'.read t (pageNumber v / 512 ^ (3 - e) % 512) = some el ∧ ¬ large el ∧
        (el &&& pageAddrPos) + kernelVma = u :=
      read_kept h (he.trans_lt hd) (h.forest.node_mem (he.trans hd.le) ht) hct (hkept e he t ht _)
    obtain ⟨el, hel⟩ := hread
    exact ⟨t, el, ht, hel⟩
  have hroot (t : UInt64) (ht : Radix.node 512 (w.child pml4Table) pml4Table 0
      (pageNumber v / 512 ^ (4 - 0)) = some t) : t = pml4Table := by
    rw [Radix.node, if_pos (Nat.div_eq_of_lt (by omega))] at ht
    exact (Option.some.inj ht).symm
  have hd3 : pageNumber v / 512 ^ (3 - 0) % 512 = pageNumber v / 512 / 512 / 512 := by
    norm_num [Nat.div_div_eq_div_mul] at hlt ⊢
    omega
  have hd2 : pageNumber v / 512 ^ (3 - 1) % 512 = pageNumber v / 512 / 512 % 512 := by
    norm_num [Nat.div_div_eq_div_mul]
  have hd1 : pageNumber v / 512 ^ (3 - 2) % 512 = pageNumber v / 512 % 512 := by norm_num
  unfold walk
  rw [h3, h2, h1, h0]
  interval_cases d
  · obtain ⟨t, el, ht, hr, -, ha⟩ := hway 0 le_rfl c hc
    rw [hroot t ht, hd3] at hr
    rw [hr, Option.bind_some, ha]
    refine ⟨fun he => by rw [hnone he]; rfl, fun he => ?_⟩
    rw [hsome he, Option.bind_some, if_pos hlarge]
    exact Option.some_ne_none _
  · obtain ⟨t, el, ht, hr, hl, ha⟩ := hway 1 le_rfl c hc
    obtain ⟨t', el', ht', hr', -, ha'⟩ := hway 0 (Nat.zero_le 1) t ht
    rw [hroot t' ht', hd3] at hr'
    rw [hd2] at hr
    rw [hr', Option.bind_some, ha', hr, Option.bind_some, if_neg hl, ha]
    refine ⟨fun he => by rw [hnone he]; rfl, fun he => ?_⟩
    rw [hsome he, Option.bind_some, if_pos hlarge]
    exact Option.some_ne_none _
  · obtain ⟨t, el, ht, hr, hl, ha⟩ := hway 2 le_rfl c hc
    obtain ⟨t', el', ht', hr', hl', ha'⟩ := hway 1 (by norm_num) t ht
    obtain ⟨t₀, el₀, ht₀, hr₀, -, ha₀⟩ := hway 0 (Nat.zero_le 2) t' ht'
    rw [hroot t₀ ht₀, hd3] at hr₀
    rw [hd2] at hr'
    rw [hd1] at hr
    rw [hr₀, Option.bind_some, ha₀, hr', Option.bind_some, if_neg hl', ha', hr, Option.bind_some,
      if_neg hl, ha]
    refine ⟨fun he => by rw [hnone he]; rfl, fun he => ?_⟩
    rw [hsome he]
    exact Option.some_ne_none _

lemma exists_pageNumber (hx : x < 512 ^ 4) : ∃ v, pageNumber v = x := by
  refine ⟨UInt64.ofNat (x * 4096), ?_⟩
  unfold pageNumber
  rw [UInt64.toNat_ofNat']
  omega

/-- Pages with one number at a depth have one number above it. -/
lemma div_above {y a b : ℕ} (hab : a ≤ b) (h : x / 512 ^ a = y / 512 ^ a) :
    x / 512 ^ b = y / 512 ^ b := by
  have hpow : 512 ^ b = 512 ^ a * 512 ^ (b - a) := by
    rw [← pow_add]
    congr 1
    omega
  rw [hpow, ← Nat.div_div_eq_div_mul, h, Nat.div_div_eq_div_mul]

/-- A page is mapped below the table `p`. -/
def MapsBelow (m : PageTables) (pml4Table p : UInt64) : Prop :=
  ∃ d ≤ 3, ∃ x, Radix.node 512 (m.child pml4Table) pml4Table d (x / 512 ^ (4 - d)) = some p ∧
    m.leaf pml4Table x ≠ none

/-- A page with a table in the way that was given back maps something if the table did not, and
nothing if it did. -/
def Misleads (m : PageTables) (pml4Table : UInt64) : Prop :=
  ∀ p j, (m.MapsBelow pml4Table p → m.left p j = 0) ∧ (¬ m.MapsBelow pml4Table p → m.left p j = 0x81)

lemma exists_misleads (m : PageTables) (pml4Table : UInt64) :
    ∃ left, { m with left := left }.Misleads pml4Table := by
  classical
  refine ⟨fun p _ => if m.MapsBelow pml4Table p then 0 else 0x81,
    fun p j => ⟨fun hp => ?_, fun hp => ?_⟩⟩
  · exact if_pos hp
  · exact if_neg hp

/-- The page with the number `x` is taken out. -/
structure Removes (w m' : PageTables) (pml4Table : UInt64) (kernel : ℕ → Set UInt64) (x : ℕ) : Prop where
  tree : ∃ user, WellFormed m' pml4Table user kernel
  page : m'.leaf pml4Table x = none
  other : ∀ y ≠ x, m'.leaf pml4Table y = w.leaf pml4Table y
  kernel : ∀ d, 1 ≤ d → d ≤ 3 → ∀ t ∈ kernel d, m'.entry t = w.entry t
  root : m'.entry pml4Table 511 &&& pageDataPos = w.entry pml4Table 511 &&& pageDataPos

section
variable {start : ℕ} (hb : Rollback m w pml4Table kernel start k virtAddr n)
  (hv : pageNumber virtAddr < 511 * 512 ^ 3)
include hb hv

/-- A quiet call, or one that finds no table, takes at most its page out. -/
lemma Rollback.removes (hquiet : w.present pml4Table (pageNumber virtAddr / 512 ^ 3) →
      w.Quiet (pageNumber virtAddr) (pages n) 2 (w.next pml4Table (pageNumber virtAddr / 512 ^ 3))) :
    Removes w (unmapInternal pml4Table virtAddr n w) pml4Table kernel (pageNumber virtAddr) := by
  obtain ⟨user', hwell⟩ := hb.tree
  have hunchanged (hnone : Radix.node 512 (w.child pml4Table) pml4Table 3 (pageNumber virtAddr / 512) =
      none) : Removes w w pml4Table kernel (pageNumber virtAddr) := by
    refine ⟨⟨user', hwell⟩, ?_, fun _ _ => rfl, fun _ _ _ _ _ => rfl, rfl⟩
    rw [leaf, hnone]
    rfl
  by_cases hp : w.present pml4Table (pageNumber virtAddr / 512 ^ 3)
  · cases unmapInternal_quiet hwell hb.tidy hb.size.1 hv hp (hquiet hp) with
    | inl hsame =>
      rw [hsame.1]
      exact hunchanged hsame.2
    | inr hpage =>
      obtain ⟨c, hc, he⟩ := hpage
      have hv0 := ((quiet_iff (by norm_num) (next_root hv hc).2 hc).mp (hquiet hp)).1
      have hwrites : Writes w (w.unmapped c 0) c 0 0 := writes_unmapPage (by norm_num)
      have hmem : c ∈ user' 3 := hwell.forest.node_mem le_rfl hc
      obtain ⟨hleaf, hother⟩ := hwell.leaf_writePage hwrites (by norm_num) hc
      have hpage : 512 * (pageNumber virtAddr / 512) + 0 = pageNumber virtAddr := by omega
      rw [hpage] at hleaf hother
      rw [he]
      refine ⟨⟨user', hwell.writePage hwrites hmem⟩, ?_, hother, fun d h1 hd t ht => ?_, ?_⟩
      · rw [hleaf]
        by_contra hne
        exact not_present_of_data hwrites.data (page_ne_none.mp hne)
      · apply hwrites.other
        rintro rfl
        exact hwell.apart 3 le_rfl d h1 hd t hmem ht
      · have hne : pml4Table ≠ c := by
          rintro rfl
          have := hwell.forest.apart 0 (by omega) 3 le_rfl _ hwell.forest.mem_root hmem
          omega
        rw [hwrites.other _ hne]
  · rw [unmapInternal_absent hwell hb.tidy hb.size.1 hv hp hb.size.2]
    apply hunchanged
    by_contra hne
    obtain ⟨c, hc⟩ := Option.ne_none_iff_exists'.mp hne
    exact hp (next_root hv hc).1

end

section
variable {start : ℕ} (hb : Rollback m w pml4Table kernel start k virtAddr n)
  (hm : WellFormed m pml4Table user kernel) (hv : pageNumber virtAddr < 511 * 512 ^ 3)
include hb hm hv

/-- A table that is given back is still in the way of the walk. -/
lemma Rollback.changes (hleft : m.Misleads pml4Table)
    (hp : w.present pml4Table (pageNumber virtAddr / 512 ^ 3))
    (hq : ¬ w.Quiet (pageNumber virtAddr) (pages n) 2
      (w.next pml4Table (pageNumber virtAddr / 512 ^ 3))) :
    ∃ a, (unmapInternal pml4Table virtAddr n w).walk pml4Table a ≠ m.walk pml4Table a := by
  obtain ⟨user', hwell⟩ := hb.tree
  obtain ⟨c, l, hc, hl, hf⟩ := unmapInternal_ruined hwell hb.tidy hb.size.1 hv hp hq
  obtain ⟨l', hr, hroot⟩ := unmapInternal_ruins hwell hb.tidy hb.size.1 hv
  obtain rfl := List.append_cancel_left (hl.symm.trans hr.freed)
  obtain ⟨d, hd, c, hc, hkept, f, hfl, rfl⟩ := first_gone hroot hc hf
  have hgone (j : ℕ) : (unmapInternal pml4Table virtAddr n w).entry f.1 j = m.left f.1 j := by
    rw [(hr.gone f hfl).2, hb.left]
  have hdata (x : ℕ) (hx : x / 512 ^ (3 - d) = pageNumber virtAddr / 512 ^ (3 - d)) (e : ℕ) (he : e ≤ d)
      (t : UInt64)
      (ht : Radix.node 512 (w.child pml4Table) pml4Table e (x / 512 ^ (4 - e)) = some t) (j : ℕ) :
      (unmapInternal pml4Table virtAddr n w).entry t j &&& pageDataPos =
        w.entry t j &&& pageDataPos := by
    have hsame : x / 512 ^ (4 - e) = pageNumber virtAddr / 512 ^ (4 - e) := div_above (by omega) hx
    refine hr.kept t ?_ (hkept e he t (hsame ▸ ht)) j
    intro hleaf
    obtain ⟨y, hy⟩ := hleaf
    have := hwell.forest.node_depth (by omega) le_rfl ht hy
    omega
  by_cases hbelow : m.MapsBelow pml4Table f.1
  · obtain ⟨d', hd', x, hnode, hleaf⟩ := hbelow
    have hnode' := hb.keeps d' hd' _ _ hnode
    obtain rfl := hwell.forest.node_depth hd' hd hnode' hc
    have hx := hwell.forest.node_inj hd hnode' hc
    have hdigits : 4 - (d + 1) = 3 - d := by omega
    rw [hdigits] at hx
    have hx3 := div_above (Nat.sub_le 3 d) hx
    obtain ⟨a, rfl⟩ := @exists_pageNumber x (by omega)
    have ha : pageNumber a < 511 * 512 ^ 3 := by omega
    refine ⟨a, ?_⟩
    rw [(walk_gone hwell ha hd (hx ▸ hc) (hdata _ hx) fun j => (hgone j).trans
      ((hleft f.1 j).1 ⟨d + 1, hd, _, hnode, hleaf⟩)).1 rfl, hm.walk_user ha]
    exact hleaf.symm
  · have hnone : m.leaf pml4Table (pageNumber virtAddr) = none := by
      by_contra hleaf
      obtain ⟨c', hc'⟩ := leaf_ne_none hleaf
      obtain ⟨t, ht⟩ := node_above (d := d + 1) hd hc'
      have hdigits : 3 - (d + 1) + 1 = 3 - d := by omega
      have hdigits' : 4 - (d + 1) = 3 - d := by omega
      rw [Nat.div_div_eq_div_mul, ← pow_succ', hdigits] at ht
      have htf := Option.some.inj ((hb.keeps (d + 1) hd _ _ ht).symm.trans hc)
      exact hbelow ⟨d + 1, hd, _, by rw [hdigits', ht, htf], hleaf⟩
    refine ⟨virtAddr, ?_⟩
    rw [hm.walk_user hv, hnone]
    exact (walk_gone hwell hv hd hc (hdata _ rfl) fun j => (hgone j).trans
      ((hleft f.1 j).2 hbelow)).2 rfl

end

/-- After a failure every walk is the one before the call, and the pages of the region are unmapped. -/
structure Restored (m m' : PageTables) (pml4Table virtAddr n : UInt64) : Prop where
  walk : ∀ v, m'.walk pml4Table v = m.walk pml4Table v
  region : ∀ j < pages n, m'.walk pml4Table (virtAddr + 4096 * UInt64.ofNat j) = none

/-- `map_internal` is all or nothing, whatever is in the pages given back from then on. -/
def AllOrNothing (m : PageTables) (pml4Table physAddr virtAddr n flags : UInt64) : Prop :=
  ∀ left m', mapInternal pml4Table physAddr virtAddr n flags { m with left := left } = (false, m') →
    Restored m m' pml4Table virtAddr n

/-- There are too few pages for the first table of pages, and `unmap_internal` finds nothing to do at
the page that it is called for: nothing is mapped there, and it gives no table back. -/
structure Spared (m : PageTables) (pml4Table : UInt64) (start k : ℕ) : Prop where
  early : m.wayDepth pml4Table start + m.available < 3
  slot : m.rollbackPage pml4Table start / 512 ^ 3 < 511
  unmapped : m.leaf pml4Table (m.rollbackPage pml4Table start) = none
  quiet : m.Opened pml4Table start m.available 1 (m.rollbackPage pml4Table start / 512 ^ 3) →
    QuietWay (m.Opened pml4Table start m.available) (fun x => m.leaf pml4Table x ≠ none)
      (m.rollbackPage pml4Table start) ((k + 4095) / 4096) 2

lemma node_one (hi : i < 511) (hp : m.present pml4Table i) :
    Radix.node 512 (m.child pml4Table) pml4Table 1 i = some (m.next pml4Table i) := by
  have hroot : Radix.node 512 (m.child pml4Table) pml4Table 0 0 = some pml4Table := Radix.node_zero
  have hstep := Radix.node_step (show i < 512 by omega) hroot
  have hnumber : 512 * 0 + i = i := Nat.zero_add i
  rw [hnumber] at hstep
  exact hstep.trans (child_eq_some.mpr ⟨hp, by omega, fun hx => hi.ne hx.2, rfl⟩)

lemma present_root_iff (hi : i < 511) : m.present pml4Table i ↔ m.HasTable pml4Table 1 i := by
  constructor
  · exact fun hp => hasTable_iff.mpr ⟨_, node_one hi hp⟩
  · intro hthere
    obtain ⟨u, hu⟩ := hasTable_iff.mp hthere
    obtain ⟨t, ht, hc⟩ := Radix.node_succ.mp hu
    rw [Radix.node, if_pos (by omega)] at ht
    obtain rfl := Option.some.inj ht
    rw [Nat.mod_eq_of_lt (by omega)] at hc
    exact (child_eq_some.mp hc).1

/-- Whether the rollback gives no table back can be told from the tables before the call. -/
lemma Rollback.quiet_iff_opened {start : ℕ} (hb : Rollback m w pml4Table kernel start k virtAddr n)
    (hearly : m.wayDepth pml4Table start + m.available < 3)
    (hslot : m.rollbackPage pml4Table start / 512 ^ 3 < 511) :
    (w.present pml4Table (pageNumber virtAddr / 512 ^ 3) →
      w.Quiet (pageNumber virtAddr) (pages n) 2 (w.next pml4Table (pageNumber virtAddr / 512 ^ 3))) ↔
    (m.Opened pml4Table start m.available 1 (m.rollbackPage pml4Table start / 512 ^ 3) →
      QuietWay (m.Opened pml4Table start m.available) (fun x => m.leaf pml4Table x ≠ none)
        (m.rollbackPage pml4Table start) ((k + 4095) / 4096) 2) := by
  obtain ⟨hpage, hsize, hleaf, htables⟩ := hb.early hearly
  obtain ⟨user, hwell⟩ := hb.tree
  rw [← hpage] at hslot ⊢
  rw [← hsize, ← htables 1 (by norm_num), ← present_root_iff hslot]
  refine imp_congr_right fun hp => ?_
  rw [quiet_iff_way hwell (by norm_num) (node_one hslot hp)]
  exact QuietWay.congr htables fun x => by rw [hleaf]

section
variable (h : m.Grown pml4Table kernel) (r : Request physAddr virtAddr n k)
  (hregion : ∀ j < k, m.walk pml4Table (virtAddr + 4096 * UInt64.ofNat j) = none)
include h r hregion

lemma region_unmapped (hx : pageNumber virtAddr ≤ x) (hk : x < pageNumber virtAddr + k) :
    m.leaf pml4Table x = none := by
  obtain ⟨-, user, hwell, -⟩ := h
  have hend := r.bound
  have hj : x - pageNumber virtAddr < k := by omega
  have hnumber := r.pageNumber_eq hj
  rw [Nat.add_sub_cancel' hx] at hnumber
  have hwalk := hregion _ hj
  rwa [hwell.walk_user (by omega), hnumber] at hwalk

/-- A walk is the same one if the leaf is. -/
lemma restored_of_leaf {virtAddr' n' : UInt64} {x : ℕ}
    (hb : Rollback m w pml4Table kernel (pageNumber virtAddr) k virtAddr' n')
    (hr : Removes w m' pml4Table kernel x) (hleaf : ∀ y, m'.leaf pml4Table y = m.leaf pml4Table y) :
    Restored m m' pml4Table virtAddr n := by
  have hsame (v : UInt64) : m'.walk pml4Table v = m.walk pml4Table v := by
    obtain ⟨-, user, hwell, -⟩ := h
    obtain ⟨user', hwell'⟩ := hr.tree
    cases Nat.lt_or_ge (pageNumber v) (511 * 512 ^ 3) with
    | inl hlt => rw [hwell'.walk_user hlt, hwell.walk_user hlt, hleaf]
    | inr hge =>
      exact walk_kernel hwell (hr.root.trans hb.root)
        (fun d h1 hd t ht => (hr.kernel d h1 hd t ht).trans (hb.kernel d h1 hd t ht)) hge
  refine ⟨hsame, fun j hj => ?_⟩
  rw [hsame]
  exact hregion j (r.pages_eq ▸ hj)

/-- In a call that is spared, only tables are opened. -/
lemma Spared.restored (hs : m.Spared pml4Table (pageNumber virtAddr) k)
    (hrun : mapInternal pml4Table physAddr virtAddr n flags m = (false, m')) :
    Restored m m' pml4Table virtAddr n := by
  obtain ⟨w, virtAddr', n', rfl, hb⟩ := mapInternal_fails h r hrun
  obtain ⟨hpage, -, hleaf, -⟩ := hb.early hs.early
  have hslot := hs.slot
  rw [← hpage] at hslot
  have hr := hb.removes (by omega) ((hb.quiet_iff_opened hs.early hs.slot).mpr hs.quiet)
  refine restored_of_leaf h r hregion hb hr fun y => ?_
  by_cases hy : y = pageNumber virtAddr'
  · rw [hy, hr.page, hpage, hs.unmapped]
  · rw [hr.other y hy, hleaf]

/-- In any other call a page stays mapped, or an entry that leads to a page given back. -/
lemma spared_of_restored (hleft : m.Misleads pml4Table)
    (hrun : mapInternal pml4Table physAddr virtAddr n flags m = (false, m'))
    (hres : Restored m m' pml4Table virtAddr n) : m.Spared pml4Table (pageNumber virtAddr) k ∨
      511 ≤ m.rollbackPage pml4Table (pageNumber virtAddr) / 512 ^ 3 := by
  obtain ⟨w, virtAddr', n', rfl, hb⟩ := mapInternal_fails h r hrun
  obtain ⟨-, user, hwell, -⟩ := id h
  have hquiet (hv : pageNumber virtAddr' < 511 * 512 ^ 3)
      (hp : w.present pml4Table (pageNumber virtAddr' / 512 ^ 3)) :
      w.Quiet (pageNumber virtAddr') (pages n') 2
        (w.next pml4Table (pageNumber virtAddr' / 512 ^ 3)) := by
    by_contra hq
    obtain ⟨a, ha⟩ := hb.changes hwell hv hleft hp hq
    exact ha (hres.walk a)
  have hleaf {x : ℕ} {user' : ℕ → Set UInt64} (hx : x < 511 * 512 ^ 3)
      (hwell' : WellFormed (unmapInternal pml4Table virtAddr' n' w) pml4Table user' kernel) :
      (unmapInternal pml4Table virtAddr' n' w).leaf pml4Table x = m.leaf pml4Table x := by
    obtain ⟨a, rfl⟩ := @exists_pageNumber x (by omega)
    rw [← hwell.walk_user hx, ← hwell'.walk_user hx, hres.walk]
  cases Nat.lt_or_ge (m.wayDepth pml4Table (pageNumber virtAddr) + m.available) 3 with
  | inl hearly =>
    cases Nat.lt_or_ge (m.rollbackPage pml4Table (pageNumber virtAddr) / 512 ^ 3) 511 with
    | inr hge => exact Or.inr hge
    | inl hslot =>
      have hpage := (hb.early hearly).1
      have hv : pageNumber virtAddr' < 511 * 512 ^ 3 := by
        rw [hpage]
        omega
      have hr := hb.removes hv (hquiet hv)
      obtain ⟨user', hwell'⟩ := hr.tree
      refine Or.inl ⟨hearly, hslot, ?_, (hb.quiet_iff_opened hearly hslot).mp (hquiet hv)⟩
      rw [← hpage, ← hleaf hv hwell', hr.page]
  | inr hlate =>
    obtain ⟨hpage, x, hx0, hx, hxk, hmapped⟩ := hb.late hlate
    have hv : pageNumber virtAddr' < 511 * 512 ^ 3 := by
      rw [hpage]
      norm_num
    have hr := hb.removes hv (hquiet hv)
    obtain ⟨user', hwell'⟩ := hr.tree
    have hend := r.bound
    have hsame := hleaf (x := x) (by omega) hwell'
    rw [hr.other x (by omega), region_unmapped h r hregion hx hxk] at hsame
    exact absurd hsame hmapped

/-- `map_internal` that fails is all or nothing if the call is spared, and only then, but for a
rollback in the tables of the kernel. -/
theorem mapInternal_allOrNothing (hfail : (mapInternal pml4Table physAddr virtAddr n flags m).1 = false) :
    (m.Spared pml4Table (pageNumber virtAddr) k →
      m.AllOrNothing pml4Table physAddr virtAddr n flags) ∧
    (m.AllOrNothing pml4Table physAddr virtAddr n flags →
      m.Spared pml4Table (pageNumber virtAddr) k ∨
        511 ≤ m.rollbackPage pml4Table (pageNumber virtAddr) / 512 ^ 3) := by
  have hgrown (left : UInt64 → ℕ → UInt64) : { m with left := left }.Grown pml4Table kernel := by
    obtain ⟨htidy, user, hwell, hfresh⟩ := h
    exact ⟨htidy, user, hwell.of_entry rfl, hfresh⟩
  constructor
  · intro hs left m' hrun
    have hs' : { m with left := left }.Spared pml4Table (pageNumber virtAddr) k :=
      ⟨hs.early, hs.slot, hs.unmapped, hs.quiet⟩
    have hres := hs'.restored (hgrown left) r hregion hrun
    exact ⟨hres.walk, hres.region⟩
  · intro hall
    obtain ⟨left, hleft⟩ := m.exists_misleads pml4Table
    have hfail' : (mapInternal pml4Table physAddr virtAddr n flags { m with left := left }).1 = false :=
      (mapInternal_ok left).trans hfail
    have hres := hall left _ (Prod.ext hfail' rfl)
    have hor := spared_of_restored (hgrown left) r hregion hleft (Prod.ext hfail' rfl)
      ⟨hres.walk, hres.region⟩
    cases hor with
    | inl hs => exact Or.inl ⟨hs.early, hs.slot, hs.unmapped, hs.quiet⟩
    | inr hge => exact Or.inr hge

end

lemma KernelTables.take {kernelPdpTable : UInt64} (hk : KernelTables m kernelPdpTable kernel) (c : ℕ) :
    KernelTables { m with supply := m.supply.take c } kernelPdpTable kernel where
  root := hk.root
  next := hk.next
  fresh := by
    have hmem : ∀ p ∈ m.supply.take c, p ∈ m.supply := fun p => List.mem_of_mem_take
    obtain ⟨hdistinct, hlinear, huser, hkernel⟩ := hk.fresh
    exact ⟨hdistinct.sublist (List.take_sublist c _), fun p hp => hlinear p (hmem p hp),
      fun p hp => huser p (hmem p hp), fun p hp => hkernel p (hmem p hp)⟩

section Sample

/-- A new address space, which got the first of `c` pages for its top table. -/
def sampleScarce (c : ℕ) : PageTables :=
  (construct 0x200000 { sampleMemory with supply := sampleMemory.supply.take c }).2

/-- Without a page for a table there is nothing to undo. -/
theorem mapInternal_allOrNothing_scarce :
    (sampleScarce 1).AllOrNothing 0xffffff8000001000 0xffffff8000400000 0x1000 0x1000 6 := by
  have hgrown : (sampleScarce 1).Grown 0xffffff8000001000 sampleKernel :=
    construct_grown (sampleMemory_kernel.take 1) rfl (by decide)
  have r : Request 0xffffff8000400000 0x1000 0x1000 1 :=
    ⟨by decide, by decide, by decide, by decide, by decide⟩
  have hspared : (sampleScarce 1).Spared 0xffffff8000001000 1 1 :=
    ⟨by decide +kernel, by decide +kernel, by decide +kernel,
      fun hopened => absurd hopened (by decide +kernel)⟩
  exact (mapInternal_allOrNothing hgrown r (by decide +kernel) (by decide +kernel)).1 hspared

/-- With pages for the tables of the first page only, that page stays mapped. -/
theorem not_allOrNothing_second : ¬ (sampleScarce 4).AllOrNothing 0xffffff8000001000
    0xffffff8000400000 0x1ff000 0x2000 6 := by
  intro hall
  have hfail : (mapInternal 0xffffff8000001000 0xffffff8000400000 0x1ff000 0x2000 6
      { sampleScarce 4 with left := sampleMemory.left }).1 = false := by decide +kernel
  have hregion := (hall _ _ (Prod.ext hfail rfl)).region 0 (by decide)
  revert hregion
  decide +kernel

end Sample

end PageTables
end EpochKernel.Mem
