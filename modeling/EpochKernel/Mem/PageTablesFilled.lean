import EpochKernel.Mem.PageTablesFail

/-! The page tables of an address space after successful calls of `map_internal`: the pages that are
mapped are those of the regions, there is one below every table, and the counter of the top table is
the number of the user's tables that it leads to. -/
namespace EpochKernel.Mem
open EpochKernel.Util EpochKernel.Library
namespace PageTables
variable {m m' : PageTables} {pml4Table t : UInt64} {user kernel : ℕ → Set UInt64} {d i : ℕ}

/-- The number of tables that the entries of a table lead to. -/
def tables (m : PageTables) (pml4Table t : UInt64) : ℕ :=
  ((Finset.range pageEntries).filter fun i => m.child pml4Table t i ≠ none).card

/-- The counter of a table is this number. -/
def Told (m : PageTables) (pml4Table t : UInt64) : Prop :=
  (pageCounterGet (m.entry t 0)).toNat = m.tables pml4Table t

lemma tables_le : m.tables pml4Table t ≤ 512 :=
  (Finset.card_filter_le _ _).trans (Finset.card_range 512).le

lemma Told.congr (h : m.Told pml4Table t) (he : m'.entry t = m.entry t) : m'.Told pml4Table t := by
  have hchild : ∀ i, m'.child pml4Table t i = m.child pml4Table t i := fun i => child_congr (by rw [he])
  unfold Told tables at h ⊢
  simp only [he, hchild]
  exact h

/-- The tables but for the one below the entry `i`. -/
lemma tables_erase (hi : i < 512) (h : m.child pml4Table t i ≠ none) :
    m.tables pml4Table t = ((Finset.range pageEntries).filter fun j =>
      j ≠ i ∧ m.child pml4Table t j ≠ none).card + 1 := by
  have hins : (Finset.range pageEntries).filter (fun j => m.child pml4Table t j ≠ none) =
      insert i ((Finset.range pageEntries).filter fun j => j ≠ i ∧ m.child pml4Table t j ≠ none) := by
    ext j
    by_cases hj : j = i
    · simp [hj, h, pageEntries, hi]
    · simp [hj]
  unfold tables
  rw [hins, Finset.card_insert_of_notMem]
  simp

/-- The other tables of all those in the user's part of the tree are told by the counter as well. -/
lemma told_of_counted (ht : t ≠ pml4Table) (h : m.Counted t) : m.Told pml4Table t := by
  have hchild : ∀ i < 512, (m.child pml4Table t i ≠ none ↔ m.present t i) := by
    intro i hi
    unfold child
    split_ifs with hc
    · exact iff_of_true (Option.some_ne_none _) hc.1
    · exact iff_of_false (not_not_intro rfl) fun hp => hc ⟨hp, hi, fun hx => ht hx.1⟩
  unfold Told tables
  unfold Counted count at h
  rw [h]
  exact congrArg _ (Finset.filter_congr fun i hi => (hchild i (Finset.mem_range.mp hi)).symm)

/-- A new table is counted. -/
lemma NewTable.told {p : UInt64} (N : NewTable m m' pml4Table user kernel d t i p)
    (ht : m.Told pml4Table t) : m'.Told pml4Table t := by
  have hsome : m'.child pml4Table t i ≠ none := by
    rw [N.child_eq]
    exact Option.some_ne_none p
  have hnone : m.child pml4Table t i = none := N.grows.free
  have hother : ∀ j, (j ≠ i ∧ m'.child pml4Table t j ≠ none) ↔ m.child pml4Table t j ≠ none := by
    intro j
    by_cases hj : j = i
    · rw [hj, hnone]
      simp
    · rw [child_congr (N.same j hj)]
      simp [hj]
  have hcard := tables_erase N.index hsome
  simp only [hother] at hcard
  have hle := @tables_le m' pml4Table t
  unfold Told at ht ⊢
  rw [N.counter, counter_succ ht (by unfold tables; omega), hcard]
  rfl

end PageTables

namespace Pass.Job
variable {J : Job} {m : PageTables} {kernel : ℕ → Set UInt64} {w w' : Pass} {x i : ℕ} {t p : UInt64}

/-- Below every table a page is mapped, or the next one is to be. -/
def Filling (J : Job) (w : Pass) : Prop :=
  ∀ e, 1 ≤ e → e ≤ 3 → ∀ y, w.HasTable J.pml4Table e y →
    (∃ x, x / 512 ^ (4 - e) = y ∧ w.leaf J.pml4Table x ≠ none) ∨
      (w.pageN ≠ 0 ∧ y = J.cur w / 512 ^ (4 - e))

lemma filling_keeps : J.Keeps m kernel J.Filling where
  shift _ _ h := h
  page w x i t hinv h ht hi hn hcur := by
    obtain ⟨user, hwell, -⟩ := hinv.tree
    have hwrites := @PageTables.writes_mapPage w.toPageTables t i
      (J.physAddr + pageSize * UInt64.ofNat (J.n - w.pageN) - kernelVma) J.flags hi
    obtain ⟨hleaf, hother⟩ := hwell.leaf_writePage hwrites hi ht
    rw [PageTables.page_of_data hwrites.data, ← hcur] at hleaf
    have hmapped (y : ℕ) (hy : y = J.cur w ∨ w.leaf J.pml4Table y ≠ none) :
        (mapPage J.physAddr J.n J.flags t i w).2.leaf J.pml4Table y ≠ none := by
      by_cases hyc : y = J.cur w
      · subst hyc
        exact Option.ne_none_iff_exists'.mpr ⟨_, hleaf⟩
      · exact Eq.symm (hother y (hcur ▸ hyc)) ▸ hy.resolve_left hyc
    intro e h1 he y hy
    rw [PageTables.HasTable, ← Pass.Job.table, table_mapPage hinv ht hi he] at hy
    cases h e h1 he y hy with
    | inl hold =>
      obtain ⟨z, hz, hne⟩ := hold
      exact Or.inl ⟨z, hz, hmapped z (Or.inr hne)⟩
    | inr hnext => exact Or.inl ⟨J.cur w, hnext.2.symm, hmapped _ (Or.inl rfl)⟩
  opens w w' level x i t p hl hinv h hn ht hi hcur ho := by
    obtain ⟨user, hwell, -, hnew⟩ := ho.new
    intro e h1 he y hy
    rw [ho.cur_eq, ho.pageN]
    cases (ho.hasTable_iff (by omega) hi ht he).mp hy with
    | inl hold =>
      refine (h e h1 he y hold).imp_left fun hz => ?_
      obtain ⟨z, hz, hne⟩ := hz
      exact ⟨z, hz, by rwa [hnew.leaf_eq hwell]⟩
    | inr hnext =>
      have hdigits : 4 - (3 - (level + 1) + 1) = level + 1 := by omega
      rw [hnext.1, hdigits, hcur]
      exact Or.inr ⟨hn, hnext.2⟩

/-- The counter of the top table keeps up with its entries. -/
lemma told_keeps : J.Keeps m kernel fun w => w.Told J.pml4Table J.pml4Table where
  shift _ _ h := h
  page w x i t hinv h ht hi _ _ := by
    obtain ⟨user, hwell, -⟩ := hinv.tree
    have hne : J.pml4Table ≠ t := (hwell.forest.ne_root (by norm_num) le_rfl ht).symm
    exact h.congr (mapPage_entry_other _ _ _ hne)
  opens w w' level x i t p _ _ h _ _ _ _ ho := by
    obtain ⟨user, hwell, -, hnew⟩ := ho.new
    by_cases ht : J.pml4Table = t
    · rw [ht] at hnew h ⊢
      exact hnew.told h
    · refine h.congr (hnew.other _ ht ?_)
      exact fun hp => hnew.fresh 0 (Nat.zero_le 3) (hp ▸ hwell.forest.mem_root)

end Pass.Job

namespace PageTables
variable {m m' m₀ : PageTables} {pml4Table kernelPdpTable physAddr virtAddr n flags : UInt64} {k : ℕ}
  {user kernel : ℕ → Set UInt64} {regions : List (UInt64 × UInt64)}

/-- The user pages that are mapped are those of the regions, and below every table there is one. -/
structure Filled (m : PageTables) (pml4Table : UInt64) (regions : List (UInt64 × UInt64)) : Prop where
  pages : ∀ x, m.leaf pml4Table x ≠ none ↔
    ∃ s ∈ regions, pageNumber s.1 ≤ x ∧ x < pageNumber s.1 + PageTables.pages s.2
  tables : ∀ e, 1 ≤ e → e ≤ 3 → ∀ y, m.HasTable pml4Table e y →
    ∃ x, x / 512 ^ (4 - e) = y ∧ m.leaf pml4Table x ≠ none
  root : m.Told pml4Table pml4Table

lemma Filled.mapInternal (h : m.Filled pml4Table regions) (hwell : WellFormed m pml4Table user kernel)
    (hfresh : Fresh m.supply user kernel) (r : Request physAddr virtAddr n k)
    (hrun : mapInternal pml4Table physAddr virtAddr n flags m = (true, m')) :
    m'.Filled pml4Table ((virtAddr, n) :: regions) := by
  have hinv := mapStart_inv hwell hfresh physAddr virtAddr flags (k := k)
  have hfilling : (job pml4Table physAddr virtAddr flags k).Filling (m.mapStart virtAddr k) :=
    fun e h1 he y hy => Or.inl (h.tables e h1 he y hy)
  obtain ⟨w, hw, rfl⟩ := r.run_true hrun
  have hstop := Pass.Job.mapInternalRecurse_stops Pass.Job.filling_keeps r.bound hinv hfilling rfl
    mapStart_eq
  have htold := Pass.Job.mapInternalRecurse_stops Pass.Job.told_keeps r.bound hinv h.root rfl mapStart_eq
  obtain ⟨hinv', hzero⟩ := Pass.Job.mapInternalRecurse_top hinv rfl r.bound mapStart_eq hw
  change Pass.Job.Outcome _ _ _ _ (Pass.mapInternalRecurse physAddr k flags 3 pml4Table _) at hstop
  change Pass.Job.Outcome _ _ _ _ (Pass.mapInternalRecurse physAddr k flags 3 pml4Table _) at htold
  rw [hw] at hstop htold
  have hcur : (job pml4Table physAddr virtAddr flags k).cur w = pageNumber virtAddr + k := by
    unfold Pass.Job.cur
    rw [hzero]
    rfl
  refine ⟨fun x => ?_, fun e h1 he y hy => ?_, htold.1 rfl⟩
  · rw [List.exists_mem_cons_iff, r.pages_eq]
    by_cases hx : pageNumber virtAddr ≤ x ∧ x < pageNumber virtAddr + k
    · refine iff_of_true ?_ (Or.inl hx)
      have hmapped := hinv'.mapped (x - pageNumber virtAddr) (by
        rw [hzero]
        change x - pageNumber virtAddr < k
        omega)
      have hadd : (job pml4Table physAddr virtAddr flags k).start + (x - pageNumber virtAddr) = x :=
        Nat.add_sub_cancel' hx.1
      rw [hadd] at hmapped
      exact Option.ne_none_iff_exists'.mpr ⟨_, hmapped⟩
    · rw [or_iff_right hx, ← h.pages]
      have hrest : w.leaf pml4Table x = m.leaf pml4Table x := by
        refine hinv'.rest x ?_
        rw [hcur]
        change x < pageNumber virtAddr ∨ _
        omega
      rw [hrest]
  · exact (hstop.1 rfl e h1 he y hy).resolve_right fun hnext => hnext.1 hzero

lemma Reached.filled (hk : KernelTables m₀ kernelPdpTable kernel) (hp : pml4Table ≠ 0)
    (h : Reached kernelPdpTable m₀ pml4Table regions m) : m.Filled pml4Table regions := by
  induction h with
  | new hc =>
    obtain ⟨ps, hs⟩ := construct_supply hc hp
    obtain ⟨-, hwell, -, hnone⟩ := construct_wellFormed hk hs hp
    have hempty (e : ℕ) (h1 : 1 ≤ e) (he : e ≤ 3) (y : ℕ) :
        ¬ (construct kernelPdpTable m₀).2.HasTable pml4Table e y := by
      intro hy
      obtain ⟨u, hu⟩ := hasTable_iff.mp hy
      have := (mem_newUser.mp (hwell.forest.node_mem he hu)).1
      omega
    refine ⟨fun x => iff_of_false (not_not_intro (hnone x)) ?_,
      fun e h1 he y hy => absurd hy (hempty e h1 he y), ?_⟩
    · simp
    · have hchild : ∀ i < 512, (construct kernelPdpTable m₀).2.child pml4Table pml4Table i = none := by
        intro i hi
        have hroot : Radix.node 512 ((construct kernelPdpTable m₀).2.child pml4Table) pml4Table 0 0 =
            some pml4Table := Radix.node_zero
        rw [← Radix.node_step hi hroot]
        exact Option.not_isSome_iff_eq_none.mp (hempty 1 le_rfl (by norm_num) _)
      have hentry : (construct kernelPdpTable m₀).2.entry pml4Table 0 = 0 := by
        have hindex : (0 : ℕ) ≠ (getBits kernelVma 39 47).toNat := by decide
        change (m₀.allocz.2.pageSet m₀.allocz.1 _ kernelPdpTable 2).2.entry pml4Table 0 = 0
        have halloc : m₀.allocz.1 = pml4Table := hc
        rw [halloc, pageSet_same hindex]
        unfold allocz
        rw [hs]
        dsimp only
        rw [if_neg hp, Function.update_self]
      have hzero : (pageCounterGet 0).toNat = 0 := by decide
      unfold Told tables
      rw [hentry, hzero, eq_comm, Finset.card_eq_zero, Finset.filter_eq_empty_iff]
      exact fun i hi => not_not_intro (hchild i (Finset.mem_range.mp hi))
  | @map regions m m' physAddr virtAddr n flags k h r hdisjoint hrun ih =>
    obtain ⟨-, user, hwell, hfresh⟩ := (h.sound hk hp).grown
    exact ih.mapInternal hwell hfresh r hrun

end PageTables
end EpochKernel.Mem
