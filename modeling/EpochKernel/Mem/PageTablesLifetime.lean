import EpochKernel.Mem.PageTablesPath
import EpochKernel.Mem.PageTablesStop

/-! The lifetime of page tables: after successful calls of `map_internal`, when does `unmap_internal`
of one of the regions leave no entry for a table that it has given back? -/
namespace EpochKernel.Mem
open EpochKernel.Util EpochKernel.Library
namespace Pass.Job
variable {J : Job} {m : PageTables} {kernel : ℕ → Set UInt64} {w w' : Pass} {x i : ℕ} {t p : UInt64}

lemma mapPage_entry_other (physAddr flags : UInt64) (n : ℕ) {u : UInt64} (hu : u ≠ t) :
    (mapPage physAddr n flags t i w).2.entry u = w.entry u := by
  unfold mapPage
  dsimp only
  rw [PageTables.pageSet_other hu]
  split_ifs
  · rfl
  · exact PageTables.counterAdd_other hu

lemma clean_mapPage (physAddr flags : UInt64) (n : ℕ) (h : w.Clean t) :
    (mapPage physAddr n flags t i w).2.Clean t := by
  unfold mapPage
  dsimp only
  split_ifs
  · exact h.pageSet i _ flags
  · exact (h.congr fun j hj => PageTables.counterAdd_later _ t t 1 hj).pageSet i _ flags

/-- `map_internal` does not touch the counters of other entries than the first one. -/
lemma tidy_keeps : J.Keeps m kernel fun w => w.Tidy J.pml4Table where
  shift _ _ h := h
  page w x i t hinv h ht hi _ _ := by
    obtain ⟨user, hwell, -⟩ := hinv.tree
    have hmem : t ∈ user 3 := hwell.forest.node_mem le_rfl ht
    have hwrites := @PageTables.writes_mapPage w.toPageTables t i
      (J.physAddr + pageSize * UInt64.ofNat (J.n - w.pageN) - kernelVma) J.flags hi
    intro d hd y u hu
    have hnode : Radix.node 512 (w.child J.pml4Table) J.pml4Table d y = some u :=
      (hwell.forest.node_congr (fun e he v hv => hwell.child_writePage hwrites hmem he hv) hd).symm.trans hu
    by_cases hut : u = t
    · subst hut
      exact clean_mapPage _ _ _ (h d hd y u hnode)
    · exact (h d hd y u hnode).congr fun j _ => congrFun (mapPage_entry_other _ _ _ hut) j
  opens w w' level x i t p _ _ h _ _ _ _ ho := by
    obtain ⟨user, hwell, -, hnew⟩ := ho.new
    intro d hd y u hu
    rcases hnew.grows.node_or hwell.forest hd hu with hold | rfl
    · by_cases hut : u = t
      · subst hut
        exact ho.clean (h d hd y u hold)
      · have hup : u ≠ p := by
          rintro rfl
          exact hnew.fresh d hd (hwell.forest.node_mem hd hold)
        exact (h d hd y u hold).congr fun j _ => congrFun (hnew.other u hut hup) j
    · have hzero : pageCounterGet 0 = 0 := by decide
      intro j _ _
      rw [hnew.zero]
      exact hzero

end Pass.Job

namespace PageTables
variable {m m' m₀ : PageTables} {pml4Table kernelPdpTable physAddr virtAddr n flags : UInt64} {k : ℕ}
  {user kernel : ℕ → Set UInt64}

/-- A tree of clean tables with pages to come. -/
def Grown (m : PageTables) (pml4Table : UInt64) (kernel : ℕ → Set UInt64) : Prop :=
  m.Tidy pml4Table ∧ ∃ user, WellFormed m pml4Table user kernel ∧ Fresh m.supply user kernel

lemma Grown.mapInternal (h : m.Grown pml4Table kernel) (r : Request physAddr virtAddr n k)
    (hrun : mapInternal pml4Table physAddr virtAddr n flags m = (true, m')) :
    m'.Grown pml4Table kernel := by
  obtain ⟨htidy, user, hwell, hfresh⟩ := h
  obtain ⟨w, hw, rfl⟩ := r.run_true hrun
  have hinv := mapStart_inv hwell hfresh physAddr virtAddr flags (k := k)
  have hstop := Pass.Job.mapInternalRecurse_stops Pass.Job.tidy_keeps r.bound hinv htidy rfl mapStart_eq
  obtain ⟨hinv', -⟩ := Pass.Job.mapInternalRecurse_top hinv rfl r.bound mapStart_eq hw
  change Pass.Job.Outcome _ _ _ _ (Pass.mapInternalRecurse physAddr k flags 3 pml4Table _) at hstop
  rw [hw] at hstop
  exact ⟨hstop.1 rfl, hinv'.tree⟩

/-- The top table is the first page of the supply. -/
lemma construct_supply (hc : (construct kernelPdpTable m₀).1 = pml4Table) (hp : pml4Table ≠ 0) :
    ∃ ps, m₀.supply = pml4Table :: ps := by
  change m₀.allocz.1 = pml4Table at hc
  unfold allocz at hc
  cases hs : m₀.supply with
  | nil =>
    rw [hs] at hc
    exact absurd hc.symm hp
  | cons p ps =>
    rw [hs] at hc
    exact ⟨ps, congrArg (· :: ps) hc⟩

lemma construct_grown (hk : KernelTables m₀ kernelPdpTable kernel)
    (hc : (construct kernelPdpTable m₀).1 = pml4Table) (hp : pml4Table ≠ 0) :
    (construct kernelPdpTable m₀).2.Grown pml4Table kernel := by
  have hzero : pageCounterGet 0 = 0 := by decide
  obtain ⟨ps, hs⟩ := construct_supply hc hp
  obtain ⟨-, hwell, hfresh, -⟩ := construct_wellFormed hk hs hp
  refine ⟨fun d hd x t ht => ?_, _, hwell, hfresh⟩
  obtain ⟨-, rfl⟩ := mem_newUser.mp (hwell.forest.node_mem hd ht)
  have hclean : m₀.allocz.2.Clean t := by
    intro j _ _
    unfold allocz
    rw [hs]
    dsimp only
    rw [if_neg hp, Function.update_self]
    exact hzero
  have hset := hclean.pageSet (getBits kernelVma 39 47).toNat kernelPdpTable 2
  unfold construct
  rw [← hc] at hset ⊢
  exact hset

/-- The address spaces that successful calls of `map_internal` on disjoint regions lead to, each with
the address and the length of its regions. -/
inductive Reached (kernelPdpTable : UInt64) (m₀ : PageTables) (pml4Table : UInt64) :
    List (UInt64 × UInt64) → PageTables → Prop
  | new (hc : (construct kernelPdpTable m₀).1 = pml4Table) :
    Reached kernelPdpTable m₀ pml4Table [] (construct kernelPdpTable m₀).2
  | map {regions : List (UInt64 × UInt64)} {m m' : PageTables} {physAddr virtAddr n flags : UInt64}
    {k : ℕ} (h : Reached kernelPdpTable m₀ pml4Table regions m) (r : Request physAddr virtAddr n k)
    (hdisjoint : ∀ s ∈ regions, ∀ i < k, ∀ j < pages s.2,
      pageNumber virtAddr + i ≠ pageNumber s.1 + j)
    (hrun : mapInternal pml4Table physAddr virtAddr n flags m = (true, m')) :
    Reached kernelPdpTable m₀ pml4Table ((virtAddr, n) :: regions) m'

lemma pageNumber_add {a : UInt64} {j : ℕ} (ha : a.toNat % 4096 = 0)
    (hend : pageNumber a + k ≤ 511 * 512 ^ 3) (hj : j < k) :
    pageNumber (a + 4096 * UInt64.ofNat j) = pageNumber a + j := by
  have hmul : (4096 * UInt64.ofNat j).toNat = 4096 * j := by
    rw [UInt64.toNat_mul, UInt64.toNat_ofNat']
    change 4096 * _ % _ = _
    omega
  unfold pageNumber at hend ⊢
  rw [UInt64.toNat_add, hmul]
  omega

/-- Regions without a common page. -/
def Separate (r s : UInt64 × UInt64) : Prop :=
  ∀ i < pages r.2, ∀ j < pages s.2, pageNumber r.1 + i ≠ pageNumber s.1 + j

instance : Std.Symm Separate where
  symm _ _ h i hi j hj := (h j hj i hi).symm

structure Sound (m : PageTables) (pml4Table : UInt64) (kernel : ℕ → Set UInt64)
    (regions : List (UInt64 × UInt64)) : Prop where
  grown : m.Grown pml4Table kernel
  placed : ∀ s ∈ regions, s.1.toNat % 4096 = 0 ∧ pageNumber s.1 + pages s.2 ≤ 511 * 512 ^ 3
  mapped : ∀ s ∈ regions, ∀ j < pages s.2, m.walk pml4Table (s.1 + 4096 * UInt64.ofNat j) ≠ none
  disjoint : regions.Pairwise Separate

lemma Reached.sound {regions : List (UInt64 × UInt64)} (hk : KernelTables m₀ kernelPdpTable kernel)
    (hp : pml4Table ≠ 0) (h : Reached kernelPdpTable m₀ pml4Table regions m) :
    m.Sound pml4Table kernel regions := by
  induction h with
  | new hc => exact ⟨construct_grown hk hc hp, nofun, nofun, .nil⟩
  | @map regions m m' physAddr virtAddr n flags k h r hdisjoint hrun ih =>
    obtain ⟨-, user, hwell, hfresh⟩ := ih.grown
    obtain ⟨hnew, hother, -⟩ := mapInternal_walk hwell hfresh r hrun
    have hn := r.pages_eq
    refine ⟨ih.grown.mapInternal r hrun, fun s hs => ?_, fun s hs j hj => ?_, ?_⟩
    · rcases List.mem_cons.mp hs with rfl | hs
      · exact ⟨r.virt, hn ▸ r.bound⟩
      · exact ih.placed s hs
    · rcases List.mem_cons.mp hs with rfl | hs
      · rw [hnew j (hn ▸ hj)]
        exact Option.some_ne_none _
      · obtain ⟨ha, hend⟩ := ih.placed s hs
        rw [hother _ fun i hi => ?_]
        · exact ih.mapped s hs j hj
        · rw [pageNumber_add ha hend hj]
          exact (hdisjoint s hs i hi j hj).symm
    · refine List.pairwise_cons.mpr ⟨fun s hs i hi j hj => ?_, ih.disjoint⟩
      exact hdisjoint s hs i (hn ▸ hi) j hj

/-- What `mem::free` has got between `m` and `m'`: the tables with their entries then. -/
def returned (m m' : PageTables) : List (UInt64 × (ℕ → UInt64)) := m'.freed.drop m.freed.length

/-- The region `r` is unmapped, the others are not touched, the tables given back are empty, and no
entry of a table that is left leads to one of them. -/
structure Unmaps (m m' : PageTables) (pml4Table : UInt64) (regions : List (UInt64 × UInt64))
    (r : UInt64 × UInt64) : Prop where
  region : ∀ j < pages r.2, m'.walk pml4Table (r.1 + 4096 * UInt64.ofNat j) = none
  others : ∀ s ∈ regions, s ≠ r → ∀ j < pages s.2,
    m'.walk pml4Table (s.1 + 4096 * UInt64.ofNat j) = m.walk pml4Table (s.1 + 4096 * UInt64.ofNat j)
  empty : ∀ f ∈ returned m m', ∀ i < 512, f.2 i &&& vPresent = 0
  gone : ∀ d < 3, ∀ x t, Radix.node 512 (m.child pml4Table) pml4Table d x = some t →
    (∀ f ∈ returned m m', f.1 ≠ t) → ∀ i < 512, m'.present t i →
    ∀ f ∈ returned m m', m'.next t i ≠ f.1

/-- Where the page's table is there, a call is quiet if the page is the first one below every table
on the way, and the only one to unmap, but not the only one in its table. -/
lemma quiet_iff {v u level : ℕ} {t c : UInt64} (hl : level < 3)
    (ht : Radix.node 512 (m.child pml4Table) pml4Table (3 - level) (v / 512 ^ (level + 1)) = some t)
    (hc : Radix.node 512 (m.child pml4Table) pml4Table 3 (v / 512) = some c) :
    m.Quiet v u level t ↔
      v % 512 ^ (level + 1) = 0 ∧ u ≤ 1 ∧ ∃ j < 512, j ≠ 0 ∧ m.present c j := by
  induction level generalizing t with
  | zero =>
    have htc : t = c := Option.some.inj (ht.symm.trans (by simpa using hc))
    rw [htc, zero_add, pow_one]
    exact Iff.rfl
  | succ level ih =>
    have hlevel : level ≤ 3 := by omega
    have hdepth : 3 - level = 3 - (level + 1) + 1 := by omega
    obtain ⟨t', ht'⟩ := node_above (d := 3 - level) (Nat.sub_le _ _) hc
    have hnumber : v / 512 / 512 ^ (3 - (3 - level)) = v / 512 ^ (level + 1) := by
      rw [Nat.sub_sub_self hlevel, Nat.div_div_eq_div_mul, pow_succ']
    rw [hnumber] at ht'
    have hnode := ht'
    rw [hdepth] at hnode
    obtain ⟨u', hu', hchild⟩ := Radix.node_succ.mp hnode
    rw [Nat.div_div_eq_div_mul, ← pow_succ, ht] at hu'
    obtain rfl := Option.some.inj hu'
    obtain ⟨hp, -, -, hnext⟩ := child_eq_some.mp hchild
    have hmod : v % 512 ^ (level + 1 + 1) = v % 512 ^ (level + 1) +
        512 ^ (level + 1) * (v / 512 ^ (level + 1) % 512) := Nat.mod_pow_succ
    have hpos : 0 < 512 ^ (level + 1) := Nat.pow_pos (by norm_num)
    constructor
    · intro hq
      have hdigit := hq.1
      rw [hdigit] at hp hnext
      have hrest := (ih (by omega) (hnext ▸ ht')).mp (hq.2.2.2 hp)
      rw [hmod, hdigit, hrest.1]
      exact ⟨rfl, hrest.2⟩
    · intro hv
      obtain ⟨hv0, hu1, hex⟩ := hv
      have hsplit := hmod.symm.trans hv0
      have hdigit : v / 512 ^ (level + 1) % 512 = 0 := by
        rcases Nat.mul_eq_zero.mp (Nat.eq_zero_of_add_eq_zero_left hsplit) with h0 | h0
        · exact absurd h0 hpos.ne'
        · exact h0
      rw [hdigit] at hp hnext
      refine ⟨hdigit, hu1.trans hpos, ⟨0, by norm_num, hp⟩, fun _ => ?_⟩
      exact (ih (by omega) (hnext ▸ ht')).mpr ⟨Nat.eq_zero_of_add_eq_zero_right hsplit, hu1, hex⟩

lemma next_root {v : ℕ} {c : UInt64} (hv : v < 511 * 512 ^ 3)
    (hc : Radix.node 512 (m.child pml4Table) pml4Table 3 (v / 512) = some c) :
    m.present pml4Table (v / 512 ^ 3) ∧ Radix.node 512 (m.child pml4Table) pml4Table (3 - 2)
      (v / 512 ^ (2 + 1)) = some (m.next pml4Table (v / 512 ^ 3)) := by
  obtain ⟨t, ht⟩ := node_above (d := 1) (by norm_num) hc
  have hnumber : v / 512 / 512 ^ (3 - 1) = v / 512 ^ 3 := by
    rw [Nat.div_div_eq_div_mul]
    norm_num
  rw [hnumber] at ht
  obtain ⟨u, hu, hchild⟩ := Radix.node_succ.mp ht
  rw [Radix.node] at hu
  split_ifs at hu
  obtain rfl := Option.some.inj hu
  have hmod : v / 512 ^ 3 % 512 = v / 512 ^ 3 := Nat.mod_eq_of_lt (by omega)
  rw [hmod] at hchild
  obtain ⟨hp, -, -, hnext⟩ := child_eq_some.mp hchild
  exact ⟨hp, hnext ▸ ht⟩

section
variable {regions : List (UInt64 × UInt64)} {r : UInt64 × UInt64}

/-- A call that is not quiet leaves an entry for a table that it has given back. -/
lemma not_unmaps (h : WellFormed m pml4Table user kernel) (htidy : m.Tidy pml4Table)
    (hn : pages r.2 ≠ 0) (hv : pageNumber r.1 < 511 * 512 ^ 3)
    (hp : m.present pml4Table (pageNumber r.1 / 512 ^ 3))
    (hq : ¬ m.Quiet (pageNumber r.1) (pages r.2) 2 (m.next pml4Table (pageNumber r.1 / 512 ^ 3))) :
    ¬ Unmaps m (unmapInternal pml4Table r.1 r.2 m) pml4Table regions r := by
  intro hu
  obtain ⟨c, l, hc, hl, hf⟩ := unmapInternal_ruined h htidy hn hv hp hq
  obtain ⟨l', hr, hroot⟩ := unmapInternal_ruins h htidy hn hv
  obtain rfl := List.append_cancel_left (hl.symm.trans hr.freed)
  have hreturned : returned m (unmapInternal pml4Table r.1 r.2 m) = l := by
    unfold returned
    rw [hl, List.drop_left]
  obtain ⟨d, hd, c, hc, hkept, f, hfl, hfc⟩ := first_gone hroot hc hf
  obtain ⟨t, ht, hchild⟩ := Radix.node_succ.mp hc
  have hd4 : 3 - d + 1 = 4 - d := by omega
  rw [Nat.div_div_eq_div_mul, ← pow_succ, hd4] at ht
  have hkept := hkept d le_rfl t ht
  have hleaf : t ∉ m.leaves pml4Table := by
    intro hleaf
    obtain ⟨y, hy⟩ := hleaf
    have := h.forest.node_depth hd.le le_rfl ht hy
    omega
  have hdata := hr.kept t hleaf hkept
  obtain ⟨hpresent, hi, -, hnext⟩ := child_eq_some.mp hchild
  have hgone := hu.gone d hd _ t ht (by rwa [hreturned]) _ hi ((present_congr (hdata _)).mpr hpresent)
  rw [hreturned] at hgone
  exact hgone f hfl ((next_congr (hdata _)).trans (hnext.trans hfc.symm))

/-- A quiet call of a mapped region takes its page out, and nothing else happens. -/
lemma unmaps_of_quiet (h : WellFormed m pml4Table user kernel) (htidy : m.Tidy pml4Table)
    (hs : m.Sound pml4Table kernel regions) (hr : r ∈ regions) (hone : pages r.2 = 1)
    (hv : pageNumber r.1 < 511 * 512 ^ 3) (hv0 : pageNumber r.1 % 512 = 0) {c : UInt64}
    (hc : Radix.node 512 (m.child pml4Table) pml4Table 3 (pageNumber r.1 / 512) = some c)
    (hq : m.Quiet (pageNumber r.1) (pages r.2) 2 (m.next pml4Table (pageNumber r.1 / 512 ^ 3))) :
    Unmaps m (unmapInternal pml4Table r.1 r.2 m) pml4Table regions r := by
  have hp := (next_root hv hc).1
  have hm' : unmapInternal pml4Table r.1 r.2 m = m.unmapped c 0 := by
    rcases unmapInternal_quiet h htidy (hone ▸ one_ne_zero) hv hp hq with ⟨-, hnone⟩ | ⟨c', hc', he⟩
    · rw [hnone] at hc
      cases hc
    · obtain rfl := Option.some.inj (hc.symm.trans hc')
      exact he
  rw [hm']
  have hw : Writes m (m.unmapped c 0) c 0 0 := writes_unmapPage (by norm_num)
  have hmem : c ∈ user 3 := h.forest.node_mem le_rfl hc
  have hwell := h.writePage hw hmem
  obtain ⟨hleaf, hother⟩ := h.leaf_writePage hw (by norm_num) hc
  have hpage : 512 * (pageNumber r.1 / 512) + 0 = pageNumber r.1 := by omega
  rw [hpage] at hleaf hother
  have hreturned : returned m (m.unmapped c 0) = [] := by
    unfold returned
    rw [hw.freed, List.drop_length]
  obtain ⟨ha, hend⟩ := hs.placed r hr
  refine ⟨fun j hj => ?_, fun s hs' hne j hj => ?_, by rw [hreturned]; exact nofun,
    fun d hd x t _ _ i _ _ => by rw [hreturned]; exact nofun⟩
  · obtain rfl : j = 0 := by omega
    have hnumber := pageNumber_add ha hend hj
    rw [hwell.walk_user (by rw [hnumber]; exact hv), hnumber, Nat.add_zero, hleaf]
    by_contra hne
    exact not_present_of_data hw.data (page_ne_none.mp hne)
  · obtain ⟨ha', hend'⟩ := hs.placed s hs'
    have hsep : Separate r s := hs.disjoint.forall hr hs' hne.symm
    have hnumber := pageNumber_add ha' hend' hj
    have hlt : pageNumber s.1 + j < 511 * 512 ^ 3 := by omega
    rw [hwell.walk_user (by rw [hnumber]; exact hlt), h.walk_user (by rw [hnumber]; exact hlt), hnumber]
    exact hother _ fun he => hsep 0 (by omega) j hj he.symm

lemma Sound.pageNumber_lt (hs : m.Sound pml4Table kernel regions) (hr : r ∈ regions)
    (hn : pages r.2 ≠ 0) : pageNumber r.1 < 511 * 512 ^ 3 := by
  have hend := (hs.placed r hr).2
  omega

/-- The tables on the way to a region are there. -/
lemma Sound.way (hs : m.Sound pml4Table kernel regions) (hr : r ∈ regions) (hn : pages r.2 ≠ 0) :
    ∃ c, Radix.node 512 (m.child pml4Table) pml4Table 3 (pageNumber r.1 / 512) = some c ∧
      m.present pml4Table (pageNumber r.1 / 512 ^ 3) ∧
      (m.Quiet (pageNumber r.1) (pages r.2) 2 (m.next pml4Table (pageNumber r.1 / 512 ^ 3)) ↔
        pageNumber r.1 % 512 ^ 3 = 0 ∧ pages r.2 ≤ 1 ∧ ∃ j < 512, j ≠ 0 ∧ m.present c j) := by
  obtain ⟨-, user, hwell, -⟩ := hs.grown
  obtain ⟨ha, hend⟩ := hs.placed r hr
  have hv := hs.pageNumber_lt hr hn
  have hfirst := hs.mapped r hr 0 (Nat.pos_of_ne_zero hn)
  have hnumber := pageNumber_add ha hend (Nat.pos_of_ne_zero hn)
  rw [hwell.walk_user (by rw [hnumber]; exact hv), hnumber, Nat.add_zero] at hfirst
  obtain ⟨c, hc⟩ := leaf_ne_none hfirst
  obtain ⟨hpr, hroot⟩ := next_root hv hc
  exact ⟨c, hc, hpr, quiet_iff (by norm_num) hroot hc⟩

/-- `unmap_internal` of a region is right only if nothing is unmapped, or one page, which is the first
one below its entry of the top table and not the only one in its table of pages. -/
theorem unmaps_iff (hk : KernelTables m₀ kernelPdpTable kernel) (hp : pml4Table ≠ 0)
    (h : Reached kernelPdpTable m₀ pml4Table regions m) (hr : r ∈ regions) :
    Unmaps m (unmapInternal pml4Table r.1 r.2 m) pml4Table regions r ↔
      pages r.2 = 0 ∨ (pages r.2 = 1 ∧ r.1.toNat % 2 ^ 39 = 0 ∧
        ∃ j, 1 ≤ j ∧ j < 512 ∧ m.walk pml4Table (r.1 + 4096 * UInt64.ofNat j) ≠ none) := by
  have hs := h.sound hk hp
  obtain ⟨htidy, user, hwell, -⟩ := hs.grown
  obtain ⟨ha, hend⟩ := hs.placed r hr
  by_cases hn : pages r.2 = 0
  · rw [unmapInternal_zero hn]
    have hnil : returned m m = [] := List.drop_length
    refine iff_of_true ⟨fun j hj => absurd hj (by omega), fun _ _ _ _ _ => rfl, ?_, ?_⟩ (Or.inl hn)
    · rw [hnil]
      exact nofun
    · rw [hnil]
      exact fun _ _ _ _ _ _ _ _ _ => nofun
  rw [or_iff_right hn]
  have hv := hs.pageNumber_lt hr hn
  obtain ⟨c, hc, hpr, hquiet⟩ := hs.way hr hn
  have hmod : pageNumber r.1 % 512 ^ 3 = 0 ↔ r.1.toNat % 2 ^ 39 = 0 := by
    unfold pageNumber
    omega
  have hpresent (hv0 : pageNumber r.1 % 512 ^ 3 = 0) (j : ℕ) (hj : j < 512) :
      m.walk pml4Table (r.1 + 4096 * UInt64.ofNat j) ≠ none ↔ m.present c j := by
    have hend' : pageNumber r.1 + 512 ≤ 511 * 512 ^ 3 := by omega
    have hnumber := pageNumber_add ha hend' hj
    have hlt : pageNumber r.1 + j < 511 * 512 ^ 3 := by omega
    have hindex : pageNumber r.1 + j = 512 * (pageNumber r.1 / 512) + j := by omega
    rw [hwell.walk_user (by rw [hnumber]; exact hlt), hnumber, hindex, leaf_of_node hc hj, page_ne_none]
  constructor
  · intro hu
    have hq : m.Quiet (pageNumber r.1) (pages r.2) 2 (m.next pml4Table (pageNumber r.1 / 512 ^ 3)) := by
      by_contra hq
      exact not_unmaps hwell htidy hn hv hpr hq hu
    obtain ⟨hv0, hle, j, hj, hj0, hpj⟩ := hquiet.mp hq
    refine ⟨by omega, hmod.mp hv0, j, Nat.one_le_iff_ne_zero.mpr hj0, hj, (hpresent hv0 j hj).mpr hpj⟩
  · intro hcond
    obtain ⟨hone, hv0, j, h1, hj, hw⟩ := hcond
    have hv0 := hmod.mpr hv0
    have hq := hquiet.mpr ⟨hv0, hone.le, j, hj, Nat.one_le_iff_ne_zero.mp h1, (hpresent hv0 j hj).mp hw⟩
    exact unmaps_of_quiet hwell htidy hs hr hone hv (by omega) hc hq

end

section Sample

/-- A page at `0x8000001000` in a new address space, and one at `0x8000000000` after it. -/
def sampleUpper : PageTables :=
  (mapInternal 0xffffff8000001000 0xffffff8000400000 0x8000001000 0x1000 6 sampleTables).2

def samplePair : PageTables :=
  (mapInternal 0xffffff8000001000 0xffffff8000401000 0x8000000000 0x1000 6 sampleUpper).2

lemma sampleUpper_reached : Reached 0x200000 sampleMemory 0xffffff8000001000
    [(0x8000001000, 0x1000)] sampleUpper := by
  have hrun : (mapInternal 0xffffff8000001000 0xffffff8000400000 0x8000001000 0x1000 6
      sampleTables).1 = true := by decide +kernel
  have r : Request 0xffffff8000400000 0x8000001000 0x1000 1 :=
    ⟨by decide, by decide, by decide, by decide, by decide⟩
  exact .map (.new rfl) r nofun (Prod.ext hrun rfl)

lemma samplePair_reached : Reached 0x200000 sampleMemory 0xffffff8000001000
    [(0x8000000000, 0x1000), (0x8000001000, 0x1000)] samplePair := by
  have hrun : (mapInternal 0xffffff8000001000 0xffffff8000401000 0x8000000000 0x1000 6
      sampleUpper).1 = true := by decide +kernel
  have r : Request 0xffffff8000401000 0x8000000000 0x1000 1 :=
    ⟨by decide, by decide, by decide, by decide, by decide⟩
  refine .map sampleUpper_reached r (fun s hs i hi j hj => ?_) (Prod.ext hrun rfl)
  obtain rfl := List.mem_singleton.mp hs
  have hone : pages 0x1000 = 1 := by decide
  have hupper : pageNumber 0x8000000000 + 1 = pageNumber 0x8000001000 := by decide
  rw [hone] at hj
  dsimp only
  omega

/-- The first page of a table can be unmapped, while the second one is there. -/
theorem unmaps_pair : Unmaps samplePair
    (unmapInternal 0xffffff8000001000 0x8000000000 0x1000 samplePair) 0xffffff8000001000
    [(0x8000000000, 0x1000), (0x8000001000, 0x1000)] (0x8000000000, 0x1000) :=
  (unmaps_iff sampleMemory_kernel (by decide) samplePair_reached List.mem_cons_self).mpr
    (Or.inr ⟨by decide, by decide, 1, le_rfl, by decide, by decide +kernel⟩)

/-- The table of a single page is given back, and its entry stays. -/
theorem not_unmaps_upper : ¬ Unmaps sampleUpper
    (unmapInternal 0xffffff8000001000 0x8000001000 0x1000 sampleUpper) 0xffffff8000001000
    [(0x8000001000, 0x1000)] (0x8000001000, 0x1000) := by
  have hs := sampleUpper_reached.sound sampleMemory_kernel (by decide)
  obtain ⟨htidy, user, hwell, -⟩ := hs.grown
  have hn : pages 0x1000 ≠ 0 := by decide
  have hmem : ((0x8000001000, 0x1000) : UInt64 × UInt64) ∈ [((0x8000001000, 0x1000) : UInt64 × UInt64)] :=
    List.mem_cons_self
  obtain ⟨c, -, hpr, hquiet⟩ := hs.way hmem hn
  refine not_unmaps (r := (0x8000001000, 0x1000)) hwell htidy hn (hs.pageNumber_lt hmem hn) hpr
    fun hq => ?_
  have hpage : pageNumber 0x8000001000 % 512 ^ 3 ≠ 0 := by decide
  exact hpage (hquiet.mp hq).1

end Sample

end PageTables
end EpochKernel.Mem
