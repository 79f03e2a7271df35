import EpochKernel.Mem.Spaces

/-! What holds in every state of the address spaces: their trees of tables are apart from each other,
from the kernel's tables, from the pages of data and from the pages that are still to be allocated,
and only pages of data that were allocated for a space are mapped in it. -/
namespace EpochKernel.Mem
open EpochKernel.Util EpochKernel.Library
namespace Spaces
open PageTables (WellFormed Fresh KernelTables)
variable {kernelPdpTable : UInt64} {kernel : ℕ → Set UInt64} {m₀ m' : PageTables} {s s' : Spaces}
  {user : UInt64 → ℕ → Set UInt64} {user' : ℕ → Set UInt64} {r q t p : UInt64} {d : ℕ}

/-- `user r` are the tables of the space `r`. -/
structure Inv (kernelPdpTable : UInt64) (kernel : ℕ → Set UInt64) (m₀ : PageTables)
    (user : UInt64 → ℕ → Set UInt64) (s : Spaces) : Prop where
  kernelTables : KernelTables s.memory kernelPdpTable kernel
  kernelSame : ∀ d, 1 ≤ d → d ≤ 3 → ∀ t ∈ kernel d, s.memory.entry t = m₀.entry t
  well : ∀ r ∈ s.roots, WellFormed s.memory r (user r) kernel
  tidy : ∀ r ∈ s.roots, s.memory.Tidy r
  permissive : ∀ r ∈ s.roots, s.memory.Permissive r
  top : ∀ r ∈ s.roots, s.memory.entry r 511 &&& pageDataPos = pageEntry kernelPdpTable 2
  apart : ∀ r ∈ s.roots, ∀ q ∈ s.roots, q ≠ r → ∀ d ≤ 3, ∀ e ≤ 3, ∀ t ∈ user r d, t ∉ user q e
  unused : ∀ p ∈ s.memory.supply, p ≠ 0 → s.memory.entry p = m₀.entry p
  unusedTable : ∀ r ∈ s.roots, ∀ p ∈ s.memory.supply, p ≠ 0 → ∀ d ≤ 3, p ∉ user r d
  owned : ∀ p r, s.owner p = some r → r ∈ s.roots ∧ p ∉ s.memory.supply ∧ p ≠ 0
  ownedTable : ∀ p, s.owner p ≠ none → ∀ r ∈ s.roots, ∀ d ≤ 3, p ∉ user r d
  ownedKernel : ∀ p, s.owner p ≠ none → ∀ d, 1 ≤ d → d ≤ 3 → p ∉ kernel d
  leaf : ∀ r ∈ s.roots, ∀ x a, s.memory.leaf r x = some a → s.owner (a.1 + kernelVma) = some r

/-- The pages that are none of the space `r`'s business: the pages of data and the tables of the others. -/
def others (user : UInt64 → ℕ → Set UInt64) (s : Spaces) (r : UInt64) : Set UInt64 :=
  {t | s.owner t ≠ none ∨ ∃ q ∈ s.roots, q ≠ r ∧ ∃ d ≤ 3, t ∈ user q d}

/-- For `map_internal` in the space `r` they are like tables of the kernel that nothing leads to. -/
def reserved (kernel : ℕ → Set UInt64) (user : UInt64 → ℕ → Set UInt64) (s : Spaces) (r : UInt64)
    (d : ℕ) : Set UInt64 :=
  if d = 3 then kernel 3 ∪ others user s r else kernel d

lemma kernel_subset : kernel d ⊆ reserved kernel user s r d := by
  unfold reserved
  split_ifs with hd
  · exact hd ▸ Set.subset_union_left
  · exact subset_rfl

lemma others_subset : others user s r ⊆ reserved kernel user s r 3 := by
  rw [reserved, if_pos rfl]
  exact Set.subset_union_right

lemma mem_reserved (h : t ∈ reserved kernel user s r d) :
    t ∈ kernel d ∨ (d = 3 ∧ t ∈ others user s r) := by
  unfold reserved at h
  split_ifs at h with hd
  · subst hd
    exact h.imp_right fun ho => ⟨rfl, ho⟩
  · exact Or.inl h

/-- `map_internal` maps pages in the space `r` and leaves the others alone. -/
structure Mapped (kernel : ℕ → Set UInt64) (user : UInt64 → ℕ → Set UInt64) (s : Spaces)
    (m' : PageTables) (r physAddr virtAddr flags : UInt64) (k : ℕ) : Prop where
  same : ∀ d, 1 ≤ d → d ≤ 3 → ∀ t ∈ reserved kernel user s r d, m'.entry t = s.memory.entry t
  inside : ∀ j < k, m'.leaf r (PageTables.pageNumber virtAddr + j) =
    some (physAddr - kernelVma + 4096 * UInt64.ofNat j, flags &&& pageFlagsPos)
  outside : ∀ x, (x < PageTables.pageNumber virtAddr ∨ PageTables.pageNumber virtAddr + k ≤ x) →
    m'.leaf r x = s.memory.leaf r x

namespace Inv
variable (h : Inv kernelPdpTable kernel m₀ user s) (hr : r ∈ s.roots)
include h

lemma ne_root (hp : p ∈ s.memory.supply) (hp0 : p ≠ 0) (hr : r ∈ s.roots) : r ≠ p := by
  intro hrp
  subst hrp
  exact h.unusedTable r hr r hp hp0 0 (Nat.zero_le 3) (h.well r hr).forest.mem_root

/-- A page that is still to be allocated belongs to nobody. -/
lemma not_others (hp : p ∈ s.memory.supply) (hp0 : p ≠ 0) (r : UInt64) : p ∉ others user s r := by
  intro ho
  cases ho with
  | inl ho =>
    obtain ⟨q, hq⟩ := Option.ne_none_iff_exists'.mp ho
    exact (h.owned p q hq).2.1 hp
  | inr ho =>
    obtain ⟨q, hq, -, d, hd, hpq⟩ := ho
    exact h.unusedTable q hq p hp hp0 d hd hpq

lemma fresh : Fresh s.memory.supply (user r) (reserved kernel user s r) ↔
    ∀ p ∈ s.memory.supply, p ≠ 0 → ∀ d ≤ 3, p ∉ user r d := by
  have hk := h.kernelTables.fresh
  refine ⟨fun hf => hf.user, fun hu => ⟨hk.distinct, hk.linear, hu, fun p hp hp0 d h1 hd hm => ?_⟩⟩
  cases mem_reserved hm with
  | inl hm => exact hk.kernel p hp hp0 d h1 hd hm
  | inr hm => exact h.not_others hp hp0 r hm.2

include hr

lemma freshOf : Fresh s.memory.supply (user r) (reserved kernel user s r) :=
  h.fresh.mpr (h.unusedTable r hr)

/-- The tree of the space `r` is apart from all that. -/
lemma wellReserved : WellFormed s.memory r (user r) (reserved kernel user s r) := by
  have hw := h.well r hr
  refine ⟨hw.forest, hw.small, hw.counted, fun hp => kernel_subset (hw.kernelRoot hp),
    fun d h1 hd t ht i hi hp hl => ?_, fun d hd e h1 he t ht hm => ?_⟩
  · have htk : t ∈ kernel d := (mem_reserved ht).resolve_right fun hx => by omega
    exact kernel_subset (hw.kernelNext d h1 hd t htk i hi hp hl)
  · cases mem_reserved hm with
    | inl hm => exact hw.apart d hd e h1 he t ht hm
    | inr hm =>
      cases hm.2 with
      | inl ho => exact h.ownedTable t ho r hr d hd ht
      | inr ho =>
        obtain ⟨q, hq, hqr, f, hf, htq⟩ := ho
        exact h.apart r hr q hq hqr d hd f hf t ht htq

/-- The tables of the space `r` become `user'` in the memory `m'`, in which nothing else is written. -/
theorem change (hwell : WellFormed m' r user' (reserved kernel user s r))
    (hfresh : Fresh m'.supply user' (reserved kernel user s r))
    (hsame : ∀ d, 1 ≤ d → d ≤ 3 → ∀ t ∈ reserved kernel user s r d, m'.entry t = s.memory.entry t)
    (htop : m'.entry r 511 &&& pageDataPos = s.memory.entry r 511 &&& pageDataPos)
    (htidy : m'.Tidy r) (hperm : m'.Permissive r)
    (hleaf : ∀ x a, m'.leaf r x = some a → s.owner (a.1 + kernelVma) = some r)
    (hunused : ∀ p ∈ m'.supply, p ≠ 0 → m'.entry p = m₀.entry p) :
    Inv kernelPdpTable kernel m₀ (Function.update user r user') { s with memory := m' } := by
  have hkernel : ∀ d, 1 ≤ d → d ≤ 3 → ∀ t ∈ kernel d, m'.entry t = s.memory.entry t :=
    fun d h1 hd t ht => hsame d h1 hd t (kernel_subset ht)
  have hother : ∀ q ∈ s.roots, q ≠ r → ∀ d ≤ 3, ∀ t ∈ user q d, t ∈ others user s r :=
    fun q hq hqr d hd t ht => Or.inr ⟨q, hq, hqr, d, hd, ht⟩
  have huser : ∀ q ∈ s.roots, q ≠ r → ∀ d ≤ 3, ∀ t ∈ user q d, m'.entry t = s.memory.entry t :=
    fun q hq hqr d hd t ht =>
      hsame 3 (by norm_num) le_rfl t (others_subset (hother q hq hqr d hd t ht))
  have hk : KernelTables m' kernelPdpTable kernel := by
    refine ⟨h.kernelTables.root, fun d h1 hd t ht i hi hp hl => ?_, hfresh.distinct, hfresh.linear,
      fun _ _ _ _ _ => Set.notMem_empty _,
      fun p hp hp0 d h1 hd hm => hfresh.kernel p hp hp0 d h1 hd (kernel_subset hm)⟩
    have he := hkernel d h1 hd.le t ht
    have hnext : m'.next t i = s.memory.next t i := PageTables.next_congr (by rw [he])
    rw [he] at hl
    rw [hnext]
    exact h.kernelTables.next d h1 hd t ht i hi ((PageTables.present_congr (by rw [he])).mp hp) hl
  have htop' : m'.entry r 511 &&& pageDataPos = pageEntry kernelPdpTable 2 := htop.trans (h.top r hr)
  refine ⟨hk, fun d h1 hd t ht => (hkernel d h1 hd t ht).trans (h.kernelSame d h1 hd t ht),
    fun q hq => ?_, fun q hq => ?_, fun q hq => ?_, fun q hq => ?_,
    fun q hq q' hq' hne d hd e he t ht ht' => ?_, hunused, fun q hq p hp hp0 d hd hm => ?_,
    fun p q ho => ?_, fun p ho q hq d hd hm => ?_, h.ownedKernel, fun q hq x a ha => ?_⟩
  · by_cases hqr : q = r
    · subst hqr
      rw [Function.update_self]
      exact hwell.withKernel (fun d _ _ => kernel_subset) hk htop'
    · rw [Function.update_of_ne hqr]
      exact (h.well q hq).congr (huser q hq hqr) hkernel
  · by_cases hqr : q = r
    · exact hqr ▸ htidy
    · exact PageTables.Tidy.congr (h.well q hq) (huser q hq hqr) (h.tidy q hq)
  · by_cases hqr : q = r
    · exact hqr ▸ hperm
    · exact PageTables.Permissive.congr (h.well q hq) (huser q hq hqr) (h.permissive q hq)
  · by_cases hqr : q = r
    · exact hqr ▸ htop'
    · have he := huser q hq hqr 0 (Nat.zero_le 3) q (h.well q hq).forest.mem_root
      exact (congrArg (fun f => f 511 &&& pageDataPos) he).trans (h.top q hq)
  · by_cases hqr : q = r
    · subst hqr
      rw [Function.update_self] at ht
      rw [Function.update_of_ne hne] at ht'
      exact hwell.apart d hd 3 (by norm_num) le_rfl t ht (others_subset (hother q' hq' hne e he t ht'))
    · rw [Function.update_of_ne hqr] at ht
      by_cases hqr' : q' = r
      · subst hqr'
        rw [Function.update_self] at ht'
        exact hwell.apart e he 3 (by norm_num) le_rfl t ht' (others_subset (hother q hq hqr d hd t ht))
      · rw [Function.update_of_ne hqr'] at ht'
        exact h.apart q hq q' hq' hne d hd e he t ht ht'
  · by_cases hqr : q = r
    · subst hqr
      rw [Function.update_self] at hm
      exact hfresh.user p hp hp0 d hd hm
    · rw [Function.update_of_ne hqr] at hm
      exact hfresh.kernel p hp hp0 3 (by norm_num) le_rfl
        (others_subset (hother q hq hqr d hd p hm))
  · obtain ⟨hq, -, hp0⟩ := h.owned p q ho
    refine ⟨hq, fun hp => ?_, hp0⟩
    refine hfresh.kernel p hp hp0 3 (by norm_num) le_rfl (others_subset (Or.inl ?_))
    rw [ho]
    exact Option.some_ne_none q
  · by_cases hqr : q = r
    · subst hqr
      rw [Function.update_self] at hm
      exact hwell.apart d hd 3 (by norm_num) le_rfl p hm (others_subset (Or.inl ho))
    · rw [Function.update_of_ne hqr] at hm
      exact h.ownedTable p ho q hq d hd hm
  · by_cases hqr : q = r
    · exact hqr ▸ hleaf x a (hqr ▸ ha)
    · rw [PageTables.WellFormed.leaf_same (h.well q hq) (huser q hq hqr)] at ha
      exact h.leaf q hq x a ha

omit hr

/-- Pages of data are written. -/
theorem write (hsame : ∀ t, s.owner t = none → m'.entry t = s.memory.entry t)
    (hsupply : m'.supply = s.memory.supply) :
    Inv kernelPdpTable kernel m₀ user { s with memory := m' } := by
  have huser : ∀ q ∈ s.roots, ∀ d ≤ 3, ∀ t ∈ user q d, m'.entry t = s.memory.entry t :=
    fun q hq d hd t ht => hsame t (by_contra fun ho => h.ownedTable t ho q hq d hd ht)
  have hkernel : ∀ d, 1 ≤ d → d ≤ 3 → ∀ t ∈ kernel d, m'.entry t = s.memory.entry t :=
    fun d h1 hd t ht => hsame t (by_contra fun ho => h.ownedKernel t ho d h1 hd ht)
  have hk : KernelTables m' kernelPdpTable kernel := by
    refine ⟨h.kernelTables.root, fun d h1 hd t ht i hi hp hl => ?_, hsupply ▸ h.kernelTables.fresh⟩
    have he := hkernel d h1 hd.le t ht
    have hnext : m'.next t i = s.memory.next t i := PageTables.next_congr (by rw [he])
    rw [he] at hl
    rw [hnext]
    exact h.kernelTables.next d h1 hd t ht i hi ((PageTables.present_congr (by rw [he])).mp hp) hl
  refine ⟨hk, fun d h1 hd t ht => (hkernel d h1 hd t ht).trans (h.kernelSame d h1 hd t ht),
    fun q hq => (h.well q hq).congr (huser q hq) hkernel,
    fun q hq => PageTables.Tidy.congr (h.well q hq) (huser q hq) (h.tidy q hq),
    fun q hq => PageTables.Permissive.congr (h.well q hq) (huser q hq) (h.permissive q hq),
    fun q hq => ?_, h.apart, fun p hp hp0 => ?_, hsupply ▸ h.unusedTable, hsupply ▸ h.owned,
    h.ownedTable, h.ownedKernel, fun q hq x a ha => ?_⟩
  · have he := huser q hq 0 (Nat.zero_le 3) q (h.well q hq).forest.mem_root
    exact (congrArg (fun f => f 511 &&& pageDataPos) he).trans (h.top q hq)
  · have hp' : p ∈ s.memory.supply := hsupply ▸ hp
    refine (hsame p (by_contra fun ho => ?_)).trans (h.unused p hp' hp0)
    exact h.not_others hp' hp0 p (Or.inl ho)
  · rw [PageTables.WellFormed.leaf_same (h.well q hq) (huser q hq)] at ha
    exact h.leaf q hq x a ha

/-- Pages are taken from those that are still to be allocated. -/
theorem take (hmem : m'.supply.Sublist s.memory.supply) (hsame : m'.entry = s.memory.entry) :
    Inv kernelPdpTable kernel m₀ user { s with memory := m' } := by
  have huser : ∀ q ∈ s.roots, ∀ d ≤ 3, ∀ t ∈ user q d, m'.entry t = s.memory.entry t :=
    fun _ _ _ _ t _ => congrFun hsame t
  have hk := h.kernelTables
  refine ⟨⟨hk.root, fun d h1 hd t ht i hi hpr hl => ?_, hk.fresh.distinct.sublist hmem,
      fun q hq => hk.fresh.linear q (hmem.subset hq), fun q _ _ _ _ => Set.notMem_empty q,
      fun q hq => hk.fresh.kernel q (hmem.subset hq)⟩,
    fun d h1 hd t ht => (congrFun hsame t).trans (h.kernelSame d h1 hd t ht),
    fun q hq => (h.well q hq).congr (huser q hq) fun _ _ _ t _ => congrFun hsame t,
    fun q hq => PageTables.Tidy.congr (h.well q hq) (huser q hq) (h.tidy q hq),
    fun q hq => PageTables.Permissive.congr (h.well q hq) (huser q hq) (h.permissive q hq),
    fun q hq => ?_, h.apart, fun q hq hq0 => ?_,
    fun q hq t ht => h.unusedTable q hq t (hmem.subset ht), fun t q ho => ?_, h.ownedTable,
    h.ownedKernel, fun q hq x a ha => ?_⟩
  · have hnext : m'.next t i = s.memory.next t i := PageTables.next_congr (by rw [hsame])
    dsimp only at hl
    rw [hsame] at hl
    rw [hnext]
    exact hk.next d h1 hd t ht i hi ((PageTables.present_congr (by rw [hsame])).mp hpr) hl
  · exact (congrArg (fun f => f q 511 &&& pageDataPos) hsame).trans (h.top q hq)
  · exact (congrFun hsame q).trans (h.unused q (hmem.subset hq) hq0)
  · obtain ⟨hq, ht, ht0⟩ := h.owned t q ho
    exact ⟨hq, fun hm => ht (hmem.subset hm), ht0⟩
  · have hleaf : m'.leaf q x = s.memory.leaf q x :=
      PageTables.WellFormed.leaf_same (h.well q hq) (huser q hq) x
    exact h.leaf q hq x a (hleaf.symm.trans ha)

/-- A page that is nobody's becomes a page of data. -/
theorem give (hr : r ∈ s.roots) (hp : p ∉ s.memory.supply) (hp0 : p ≠ 0) (hnone : s.owner p = none)
    (htable : ∀ q ∈ s.roots, ∀ d ≤ 3, p ∉ user q d)
    (hkernel : ∀ d, 1 ≤ d → d ≤ 3 → p ∉ kernel d) :
    Inv kernelPdpTable kernel m₀ user { s with owner := Function.update s.owner p (some r) } := by
  have howner : ∀ t, Function.update s.owner p (some r) t ≠ none → t = p ∨ s.owner t ≠ none := by
    intro t ht
    by_cases htp : t = p
    · exact Or.inl htp
    · exact Or.inr (by rwa [Function.update_of_ne htp] at ht)
  refine ⟨h.kernelTables, h.kernelSame, h.well, h.tidy, h.permissive, h.top, h.apart, h.unused, h.unusedTable,
    fun t q ho => ?_, fun t ho q hq d hd hm => ?_, fun t ho d h1 hd hm => ?_, fun q hq x a ha => ?_⟩
  · change Function.update s.owner p (some r) t = some q at ho
    by_cases htp : t = p
    · subst htp
      rw [Function.update_self] at ho
      obtain rfl := Option.some.inj ho
      exact ⟨hr, hp, hp0⟩
    · rw [Function.update_of_ne htp] at ho
      exact h.owned t q ho
  · cases howner t ho with
    | inl htp => exact htable q hq d hd (htp ▸ hm)
    | inr ho => exact h.ownedTable t ho q hq d hd hm
  · cases howner t ho with
    | inl htp => exact hkernel d h1 hd (htp ▸ hm)
    | inr ho => exact h.ownedKernel t ho d h1 hd hm
  · have ho := h.leaf q hq x a ha
    have hne : a.1 + kernelVma ≠ p := by
      intro hap
      rw [hap, hnone] at ho
      cases ho
    dsimp only
    rw [Function.update_of_ne hne]
    exact ho

/-- A page of data is allocated. -/
theorem alloc (hr : r ∈ s.roots) (hs : s.memory.supply = p :: m'.supply) (hp0 : p ≠ 0)
    (hsame : m'.entry = s.memory.entry) :
    Inv kernelPdpTable kernel m₀ user
      { s with memory := m', owner := Function.update s.owner p (some r) } := by
  have hp : p ∈ s.memory.supply := by simp [hs]
  have htake : Inv kernelPdpTable kernel m₀ user { s with memory := m' } :=
    h.take (hs ▸ List.sublist_cons_self p m'.supply) hsame
  refine htake.give hr (fun hm => ?_) hp0 ?_ (fun q hq => h.unusedTable q hq p hp hp0)
    (h.kernelTables.fresh.kernel p hp hp0)
  · have hpair := List.rel_of_pairwise_cons (hs ▸ h.kernelTables.fresh.distinct) hm
    exact hpair.elim hp0 fun hne => hne rfl
  · by_contra ho
    exact h.not_others hp hp0 p (Or.inl ho)

/-- A new address space, whose top table is `p`. -/
theorem create {ps : List UInt64} (hs : s.memory.supply = p :: ps) (hp0 : p ≠ 0) :
    Inv kernelPdpTable kernel m₀ (Function.update user p (PageTables.newUser p)) { s with
      memory := (PageTables.construct kernelPdpTable s.memory).2, roots := p :: s.roots } ∧
    ∀ x, (PageTables.construct kernelPdpTable s.memory).2.leaf p x = none := by
  have hp : p ∈ s.memory.supply := by simp [hs]
  have hk := h.kernelTables
  obtain ⟨hc, hwell, hfresh, hleaf⟩ := PageTables.construct_wellFormed hk hs hp0
  obtain ⟨hsupply, hother, htop⟩ := PageTables.construct_memory hs hp0
  obtain ⟨htidy, -⟩ := PageTables.construct_grown hk hc hp0
  generalize (PageTables.construct kernelPdpTable s.memory).2 = m₁ at hwell hfresh hleaf hsupply hother htop htidy ⊢
  have hmem : ∀ q ∈ ps, q ∈ s.memory.supply := fun q hq => hs ▸ List.mem_cons_of_mem p hq
  have hold : ∀ q ∈ s.roots, q ≠ p := fun q hq => h.ne_root hp hp0 hq
  have huser : ∀ q ∈ s.roots, ∀ d ≤ 3, ∀ t ∈ user q d, m₁.entry t = s.memory.entry t := by
    intro q hq d hd t ht
    refine hother t fun htp => ?_
    exact h.unusedTable q hq p hp hp0 d hd (htp ▸ ht)
  have hkernel : ∀ d, 1 ≤ d → d ≤ 3 → ∀ t ∈ kernel d, m₁.entry t = s.memory.entry t := by
    intro d h1 hd t ht
    refine hother t fun htp => ?_
    exact hk.fresh.kernel p hp hp0 d h1 hd (htp ▸ ht)
  have hnew : ∀ {t q : UInt64} {d : ℕ}, t ∈ Function.update user p (PageTables.newUser p) q d →
      (q = p ∧ d = 0 ∧ t = p) ∨ (q ≠ p ∧ t ∈ user q d) := by
    intro t q d ht
    by_cases hqp : q = p
    · subst hqp
      rw [Function.update_self] at ht
      exact Or.inl ⟨rfl, PageTables.mem_newUser.mp ht⟩
    · rw [Function.update_of_ne hqp] at ht
      exact Or.inr ⟨hqp, ht⟩
  refine ⟨⟨⟨hk.root, fun d h1 hd t ht i hi hpr hl => ?_, hfresh.distinct, hfresh.linear,
      fun q _ _ _ _ => Set.notMem_empty q, hfresh.kernel⟩,
    fun d h1 hd t ht => (hkernel d h1 hd t ht).trans (h.kernelSame d h1 hd t ht),
    fun q hq => ?_, fun q hq => ?_, fun q hq => ?_, fun q hq => ?_, fun q hq q' hq' hne d hd e he t ht ht' => ?_, fun q hq hq0 => ?_,
    fun q hq t ht ht0 d hd hm => ?_, fun t q ho => ?_, fun t ho q hq d hd hm => ?_, h.ownedKernel,
    fun q hq x a ha => ?_⟩, hleaf⟩
  · have he := hkernel d h1 hd.le t ht
    have hnext : m₁.next t i = s.memory.next t i := PageTables.next_congr (by rw [he])
    dsimp only at hl
    rw [he] at hl
    rw [hnext]
    exact hk.next d h1 hd t ht i hi ((PageTables.present_congr (by rw [he])).mp hpr) hl
  · cases List.mem_cons.mp hq with
    | inl hqp =>
      subst hqp
      rwa [Function.update_self]
    | inr hq =>
      rw [Function.update_of_ne (hold q hq)]
      exact (h.well q hq).congr (huser q hq) hkernel
  · cases List.mem_cons.mp hq with
    | inl hqp => exact hqp ▸ htidy
    | inr hq => exact PageTables.Tidy.congr (h.well q hq) (huser q hq) (h.tidy q hq)
  · cases List.mem_cons.mp hq with
    | inl hqp =>
      subst hqp
      intro d hd x t i ht hc
      obtain ⟨c, hc⟩ := Option.ne_none_iff_exists'.mp hc
      have hmem := hwell.forest.child_mem d hd t (hwell.forest.node_mem hd.le ht) i c hc
      exact absurd (PageTables.mem_newUser.mp hmem).1 (Nat.succ_ne_zero d)
    | inr hq => exact PageTables.Permissive.congr (h.well q hq) (huser q hq) (h.permissive q hq)
  · cases List.mem_cons.mp hq with
    | inl hqp => exact hqp ▸ htop
    | inr hq =>
      have he := huser q hq 0 (Nat.zero_le 3) q (h.well q hq).forest.mem_root
      exact (congrArg (fun f => f 511 &&& pageDataPos) he).trans (h.top q hq)
  · cases hnew ht with
    | inl hn =>
      obtain ⟨rfl, -, rfl⟩ := hn
      cases hnew ht' with
      | inl hn' => exact hne hn'.1
      | inr ho' =>
        exact h.unusedTable q' ((List.mem_cons.mp hq').resolve_left ho'.1) t hp hp0 e he ho'.2
    | inr ho =>
      have hq₁ := (List.mem_cons.mp hq).resolve_left ho.1
      cases hnew ht' with
      | inl hn' => exact h.unusedTable q hq₁ p hp hp0 d hd (hn'.2.2 ▸ ho.2)
      | inr ho' =>
        exact h.apart q hq₁ q' ((List.mem_cons.mp hq').resolve_left ho'.1) hne d hd e he t ho.2 ho'.2
  · have hq' : q ∈ ps := hsupply ▸ hq
    have hqp : q ≠ p := fun hqp => hfresh.user q hq hq0 0 (Nat.zero_le 3)
      (PageTables.mem_newUser.mpr ⟨rfl, hqp⟩)
    exact (hother q hqp).trans (h.unused q (hmem q hq') hq0)
  · cases hnew hm with
    | inl hn => exact hfresh.user t ht ht0 0 (Nat.zero_le 3) (PageTables.mem_newUser.mpr ⟨rfl, hn.2.2⟩)
    | inr ho =>
      exact h.unusedTable q ((List.mem_cons.mp hq).resolve_left ho.1) t (hmem t (hsupply ▸ ht)) ht0 d hd
        ho.2
  · obtain ⟨hq, ht, ht0⟩ := h.owned t q ho
    exact ⟨List.mem_cons_of_mem p hq, fun hm => ht (hmem t (hsupply ▸ hm)), ht0⟩
  · cases hnew hm with
    | inl hn => exact h.not_others hp hp0 p (Or.inl (hn.2.2 ▸ ho))
    | inr hold => exact h.ownedTable t ho q ((List.mem_cons.mp hq).resolve_left hold.1) d hd hold.2
  · cases List.mem_cons.mp hq with
    | inl hqp =>
      have hnone : m₁.leaf q x = none := hqp ▸ hleaf x
      exact absurd (hnone.symm.trans ha) (Option.some_ne_none a).symm
    | inr hq =>
      have hsame : m₁.leaf q x = s.memory.leaf q x :=
        PageTables.WellFormed.leaf_same (h.well q hq) (huser q hq) x
      exact h.leaf q hq x a (hsame.symm.trans ha)

/-- A call of `map_internal` that succeeds, for pages of data of the space. -/
theorem map {physAddr virtAddr n flags : UInt64} {k : ℕ} (hr : r ∈ s.roots)
    (hq : PageTables.Request physAddr virtAddr n k)
    (howner : ∀ j < k, s.owner (physAddr + 4096 * UInt64.ofNat j) = some r)
    (hrun : s.memory.mapInternal r physAddr virtAddr n flags = (true, m')) :
    Mapped kernel user s m' r physAddr virtAddr flags k ∧
      ∃ user', Inv kernelPdpTable kernel m₀ (Function.update user r user') { s with memory := m' } := by
  obtain ⟨w, hw, rfl⟩ := hq.run_true hrun
  have hstart := PageTables.mapStart_inv (h.wellReserved hr) (h.freshOf hr) physAddr virtAddr flags (k := k)
  have hstop := Pass.Job.mapInternalRecurse_stops
    (Pass.Job.tidy_keeps.and (Pass.Job.permissive_keeps.and Pass.Job.supply_keeps)) hq.bound hstart
    ⟨h.tidy r hr, h.permissive r hr, fun _ hp _ => ⟨hp, rfl⟩⟩ rfl PageTables.mapStart_eq
  obtain ⟨hinv, hzero⟩ := Pass.Job.mapInternalRecurse_top hstart rfl hq.bound PageTables.mapStart_eq hw
  change Pass.Job.Outcome _ _ _ _ (Pass.mapInternalRecurse physAddr k flags 3 r _) at hstop
  rw [hw] at hstop
  obtain ⟨htidy, hperm, hsupply⟩ := hstop.1 rfl
  obtain ⟨user', hwell, hfresh⟩ := hinv.tree
  have hcur : (PageTables.job r physAddr virtAddr flags k).cur w = PageTables.pageNumber virtAddr + k := by
    unfold Pass.Job.cur
    rw [hzero]
    rfl
  have hmapped : Mapped kernel user s w.toPageTables r physAddr virtAddr flags k := by
    refine ⟨hinv.kernel, fun j hj => ?_, fun x hx => hinv.rest x (by rwa [hcur])⟩
    have hj' := hinv.mapped j (by rw [hzero]; exact hj)
    unfold Pass.Job.target PageTables.job at hj'
    dsimp only at hj'
    rwa [hq.target_eq hj] at hj'
  refine ⟨hmapped, user', h.change hr hwell hfresh hinv.kernel hinv.root htidy hperm ?_
    fun p hp hp0 => (hsupply p hp hp0).2.trans (h.unused p (hsupply p hp hp0).1 hp0)⟩
  intro x a ha
  by_cases hx : x < PageTables.pageNumber virtAddr ∨ PageTables.pageNumber virtAddr + k ≤ x
  · exact h.leaf r hr x a ((hmapped.outside x hx).symm.trans ha)
  · have hin := hmapped.inside (x - PageTables.pageNumber virtAddr) (by omega)
    have hadd : PageTables.pageNumber virtAddr + (x - PageTables.pageNumber virtAddr) = x := by omega
    rw [hadd] at hin
    obtain rfl := Option.some.inj (hin.symm.trans ha)
    have hback : ∀ b : UInt64, physAddr - kernelVma + b + kernelVma = physAddr + b := by
      intro b
      rw [UInt64.add_assoc, UInt64.add_comm b, ← UInt64.add_assoc, UInt64.sub_add_cancel]
    dsimp only
    rw [hback]
    exact howner _ (by omega)

/-- A call of `unmap_internal` that gives no table back. -/
theorem unmap {virtAddr n : UInt64} (hr : r ∈ s.roots) (hn : PageTables.pages n ≠ 0)
    (hle : PageTables.pages n ≤ 512 ^ 3) (hv : PageTables.pageNumber virtAddr < 511 * 512 ^ 3)
    (hfreed : (s.memory.unmapInternal r virtAddr n).freed = s.memory.freed) :
    (∀ t, (∀ d ≤ 3, t ∉ user r d) → (s.memory.unmapInternal r virtAddr n).entry t = s.memory.entry t) ∧
      (s.memory.unmapInternal r virtAddr n).leaf r =
        Function.update (s.memory.leaf r) (PageTables.pageNumber virtAddr) none ∧
      Inv kernelPdpTable kernel m₀ user { s with memory := s.memory.unmapInternal r virtAddr n } := by
  cases PageTables.unmapInternal_kept (h.well r hr) (h.tidy r hr) hn hle hv hfreed with
  | inl hsame =>
    rw [hsame.1]
    refine ⟨fun _ _ => rfl, ?_, h⟩
    rw [← hsame.2, Function.update_eq_self]
  | inr hgone =>
    obtain ⟨c, hc, hfirst, hgone⟩ := hgone
    have hwell := h.wellReserved hr
    have hmem : c ∈ user r 3 := hwell.forest.node_mem le_rfl hc
    have w : PageTables.Writes s.memory (s.memory.unmapped c 0) c 0 0 :=
      PageTables.writes_unmapPage (by norm_num)
    have hpage : 512 * (PageTables.pageNumber virtAddr / 512) + 0 = PageTables.pageNumber virtAddr := by
      omega
    obtain ⟨hleaf, hrest⟩ := hwell.leaf_writePage w (by norm_num) hc
    have hnone : (s.memory.unmapped c 0).page c 0 = none := by
      rw [PageTables.page, PageTables.read, if_neg (PageTables.not_present_of_data w.data)]
      rfl
    rw [hpage] at hleaf hrest
    rw [hgone]
    have hleaves : (s.memory.unmapped c 0).leaf r =
        Function.update (s.memory.leaf r) (PageTables.pageNumber virtAddr) none := by
      funext y
      by_cases hy : y = PageTables.pageNumber virtAddr
      · rw [hy, Function.update_self, hleaf, hnone]
      · rw [Function.update_of_ne hy, hrest y hy]
    refine ⟨fun t ht => w.other t fun htc => ht 3 le_rfl (htc ▸ hmem), hleaves, ?_⟩
    have hsame : ∀ d, 1 ≤ d → d ≤ 3 → ∀ t ∈ reserved kernel user s r d,
        (s.memory.unmapped c 0).entry t = s.memory.entry t := by
      intro d h1 hd t ht
      exact w.other t fun htc => hwell.apart 3 le_rfl d h1 hd c hmem (htc ▸ ht)
    have hroot : r ≠ c := PageTables.ne_leaf hwell hmem (by norm_num) hwell.forest.mem_root
    have hinv := h.change hr (hwell.writePage w hmem) (w.supply ▸ h.freshOf hr) hsame
      (congrArg (fun f => f 511 &&& pageDataPos) (w.other r hroot))
      (PageTables.Tidy.unmapped hwell hmem (h.tidy r hr))
      (PageTables.Permissive.writePage hwell hmem w (h.permissive r hr)) (fun x a ha => ?_)
      fun p hp hp0 => ?_
    · rwa [Function.update_eq_self] at hinv
    · by_cases hx : x = PageTables.pageNumber virtAddr
      · rw [hleaves, hx, Function.update_self] at ha
        cases ha
      · rw [hleaves, Function.update_of_ne hx] at ha
        exact h.leaf r hr x a ha
    · have hp' : p ∈ s.memory.supply := w.supply ▸ hp
      exact (w.other p fun hpc => h.unusedTable r hr p hp' hp0 3 le_rfl (hpc ▸ hmem)).trans
        (h.unused p hp' hp0)

/-- A user program gets at pages of its own space only, through an entry that allows it. -/
theorem access_owned {v : UInt64} {a : UInt64 × Rights} (hr : r ∈ s.roots)
    (ha : s.access r v = some a) :
    s.owner (a.1 + kernelVma) = some r ∧ ∃ flags, a.2 = Rights.ofEntry flags ∧
      s.memory.leaf r (PageTables.pageNumber v) = some (a.1, flags) := by
  unfold access at ha
  split_ifs at ha with hc
  rw [Option.filter_eq_some_iff] at ha
  obtain ⟨ha, huser⟩ := ha
  have hlow : PageTables.pageNumber v < 511 * 512 ^ 3 := by
    by_contra hhigh
    have hnot := PageTables.access_kernel (h.top r hr) (not_lt.mp hhigh) ha
    exact Bool.noConfusion (hnot.symm.trans huser)
  rw [(h.well r hr).access_user (h.permissive r hr) hlow, Option.map_eq_some_iff] at ha
  obtain ⟨b, hb, rfl⟩ := ha
  exact ⟨h.leaf r hr _ b hb, b.2, rfl, hb⟩

end Inv

section Steps
variable {virtAddr physAddr n flags v e : UInt64} {i : ℕ}

lemma step_create (h : step kernelPdpTable s .create = some s') :
    ∃ p ps, s.memory.supply = p :: ps ∧ p ≠ 0 ∧ s' = { s with
      memory := (PageTables.construct kernelPdpTable s.memory).2, roots := p :: s.roots } := by
  change (if (PageTables.construct kernelPdpTable s.memory).1 = 0 then none else some { s with
    memory := (PageTables.construct kernelPdpTable s.memory).2
    roots := (PageTables.construct kernelPdpTable s.memory).1 :: s.roots }) = some s' at h
  split_ifs at h with hp
  obtain ⟨ps, hs⟩ := PageTables.construct_supply rfl hp
  exact ⟨_, ps, hs, hp, (Option.some.inj h).symm⟩

lemma step_alloc (h : step kernelPdpTable s (.alloc q) = some s') : q ∈ s.roots ∧
    ∃ m', m'.supply.Sublist s.memory.supply ∧ m'.entry = s.memory.entry ∧
      (s' = { s with memory := m' } ∨ ∃ p, s.memory.supply = p :: m'.supply ∧ p ≠ 0 ∧
        s' = { s with memory := m', owner := Function.update s.owner p (some q) }) := by
  rw [step] at h
  split_ifs at h with hq
  refine ⟨hq, ?_⟩
  cases hs : s.memory.supply with
  | nil =>
    rw [PageTables.alloc_nil hs] at h
    exact ⟨s.memory, List.sublist_nil.mpr hs, rfl, Or.inl (Option.some.inj h).symm⟩
  | cons p ps =>
    rw [PageTables.alloc_cons hs] at h
    have hs' := (Option.some.inj h).symm
    refine ⟨{ s.memory with supply := ps }, List.sublist_cons_self p ps, rfl, ?_⟩
    by_cases hp : p = 0
    · simp only [if_pos hp] at hs'
      exact Or.inl hs'
    · simp only [if_neg hp] at hs'
      exact Or.inr ⟨p, rfl, hp, hs'⟩

lemma step_fill (h : step kernelPdpTable s (.fill q p i e) = some s') :
    s.owner p = some q ∧ s' = { s with memory := s.memory.set p i e } := by
  rw [step] at h
  split_ifs at h with hq
  exact ⟨hq.1, (Option.some.inj h).symm⟩

lemma step_map (h : step kernelPdpTable s (.map q physAddr virtAddr n flags) = some s') :
    q ∈ s.roots ∧ PageTables.Request physAddr virtAddr n ((n.toNat + 4095) / 4096) ∧
      (∀ j < (n.toNat + 4095) / 4096, s.owner (physAddr + 4096 * UInt64.ofNat j) = some q) ∧
      ∃ m', s.memory.mapInternal q physAddr virtAddr n flags = (true, m') ∧
        s' = { s with memory := m' } := by
  rw [step] at h
  split_ifs at h with hq
  cases hm : s.memory.mapInternal q physAddr virtAddr n flags with
  | mk ok m' =>
    rw [hm] at h
    cases ok with
    | false => cases h
    | true => exact ⟨hq.1, hq.2.1, hq.2.2, m', rfl, (Option.some.inj h).symm⟩

lemma step_unmap (h : step kernelPdpTable s (.unmap q virtAddr n) = some s') :
    q ∈ s.roots ∧ PageTables.pages n ≠ 0 ∧ PageTables.pages n ≤ 512 ^ 3 ∧
      PageTables.pageNumber virtAddr < 511 * 512 ^ 3 ∧
      s' = { s with memory := s.memory.unmapInternal q virtAddr n } := by
  rw [step] at h
  split_ifs at h with hq
  exact ⟨hq.1, hq.2.1, hq.2.2.1, hq.2.2.2, (Option.some.inj h).symm⟩

lemma step_store (h : step kernelPdpTable s (.store q v e) = some s') :
    q ∈ s.roots ∧ s' = s.store q v e := by
  rw [step] at h
  split_ifs at h with hq
  exact ⟨hq, (Option.some.inj h).symm⟩

/-- A store writes to a page of the program's own space, or is refused. -/
lemma store_cases (h : Inv kernelPdpTable kernel m₀ user s) (hq : q ∈ s.roots) :
    ((s.access q v).filter (fun r => r.2.write) = none ∧ s.store q v e = s) ∨
      ∃ a, (s.access q v).filter (fun r => r.2.write) = some a ∧
        s.owner (a.1 + kernelVma) = some q ∧
        s.store q v e = { s with memory := s.memory.set (a.1 + kernelVma) (wordIndex v) e } := by
  unfold store
  cases ha : (s.access q v).filter (fun r => r.2.write) with
  | none => exact Or.inl ⟨rfl, rfl⟩
  | some a =>
    exact Or.inr ⟨a, rfl, (h.access_owned hq (Option.filter_eq_some_iff.mp ha).1).1, rfl⟩

end Steps

lemma Inv.set (h : Inv kernelPdpTable kernel m₀ user s) (hp : s.owner p = some r) (i : ℕ) (e : UInt64) :
    Inv kernelPdpTable kernel m₀ user { s with memory := s.memory.set p i e } := by
  refine h.write (fun t ht => PageTables.set_entry_other (fun htp => ?_) e) rfl
  rw [htp, hp] at ht
  cases ht

/-- One step keeps the invariant. -/
theorem Inv.step {e : SpaceEvent} (h : Inv kernelPdpTable kernel m₀ user s) (hspare : s.Sparing e)
    (hs : s.step kernelPdpTable e = some s') :
    ∃ user', Inv kernelPdpTable kernel m₀ user' s' := by
  cases e with
  | create =>
    obtain ⟨p, ps, hsupply, hp, rfl⟩ := step_create hs
    exact ⟨_, (h.create hsupply hp).1⟩
  | alloc q =>
    obtain ⟨hq, m', hsub, hsame, hs'⟩ := step_alloc hs
    cases hs' with
    | inl hs' => exact hs' ▸ ⟨user, h.take hsub hsame⟩
    | inr hs' =>
      obtain ⟨p, hsupply, hp, rfl⟩ := hs'
      exact ⟨user, h.alloc hq hsupply hp hsame⟩
  | fill q p i e =>
    obtain ⟨hp, rfl⟩ := step_fill hs
    exact ⟨user, h.set hp i e⟩
  | map q physAddr virtAddr n flags =>
    obtain ⟨hq, hreq, howner, m', hrun, rfl⟩ := step_map hs
    obtain ⟨-, user', hinv⟩ := h.map hq hreq howner hrun
    exact ⟨_, hinv⟩
  | unmap q virtAddr n =>
    obtain ⟨hq, hn, hle, hv, rfl⟩ := step_unmap hs
    exact ⟨user, (h.unmap hq hn hle hv hspare).2.2⟩
  | store q v e =>
    obtain ⟨hq, rfl⟩ := step_store hs
    cases store_cases h hq (v := v) (e := e) with
    | inl hsame => exact hsame.2.symm ▸ ⟨user, h⟩
    | inr hset =>
      obtain ⟨a, -, ha, he⟩ := hset
      exact he.symm ▸ ⟨user, h.set ha _ _⟩

/-- At the start there is no address space. -/
lemma Inv.boot (hk : KernelTables m₀ kernelPdpTable kernel) :
    Inv kernelPdpTable kernel m₀ user (boot m₀) where
  kernelTables := hk
  kernelSame _ _ _ _ _ := rfl
  well _ hr := absurd hr List.not_mem_nil
  tidy _ hr := absurd hr List.not_mem_nil
  permissive _ hr := absurd hr List.not_mem_nil
  top _ hr := absurd hr List.not_mem_nil
  apart _ hr := absurd hr List.not_mem_nil
  unused _ _ _ := rfl
  unusedTable _ hr := absurd hr List.not_mem_nil
  owned _ r ho := absurd ho (Option.some_ne_none r).symm
  ownedTable _ ho := absurd rfl ho
  ownedKernel _ ho := absurd rfl ho
  leaf _ hr := absurd hr List.not_mem_nil

/-- A run in which no page table is given back. -/
theorem run_inv {es : List SpaceEvent} (hk : KernelTables m₀ kernelPdpTable kernel)
    (hspare : Machine.Along (Spaces.step kernelPdpTable) Sparing (Spaces.boot m₀) es)
    (hr : Machine.run (Spaces.step kernelPdpTable) (Spaces.boot m₀) es = some s) :
    ∃ user, Inv kernelPdpTable kernel m₀ user s := by
  refine Machine.run_invariant_along (I := fun s => ∃ user, Inv kernelPdpTable kernel m₀ user s)
    (fun s e s' h hP hs => ?_) ⟨fun _ _ => ∅, Inv.boot hk⟩ hspare hr
  obtain ⟨user, h⟩ := h
  exact h.step hP hs

section Sample

/-- A page of data is allocated in a new space and mapped at 4 MiB, and its program writes to it. -/
def sampleEvents : List SpaceEvent :=
  [.create, .alloc 0xffffff8000001000,
    .map 0xffffff8000001000 0xffffff8000002000 0x400000 0x1000 6,
    .fill 0xffffff8000001000 0xffffff8000002000 3 0x77,
    .store 0xffffff8000001000 0x400008 0x55]

lemma sampleEvents_run : ∃ s, Machine.run (Spaces.step 0x200000) (Spaces.boot PageTables.sampleMemory)
      sampleEvents = some s ∧ 0xffffff8000001000 ∈ s.roots ∧
        ∃ a, s.access 0xffffff8000001000 0x400008 = some a := by
  have h : (Machine.run (Spaces.step 0x200000) (Spaces.boot PageTables.sampleMemory) sampleEvents).any
      (fun s => decide (0xffffff8000001000 ∈ s.roots) &&
        (s.access 0xffffff8000001000 0x400008).isSome) = true := by decide +kernel
  obtain ⟨s, hs, hs'⟩ := (Option.any_eq_true _ _).mp h
  rw [Bool.and_eq_true, decide_eq_true_eq, Option.isSome_iff_exists] at hs'
  exact ⟨s, hs, hs'⟩

lemma sampleEvents_sparing : Machine.Along (Spaces.step 0x200000) Sparing
    (Spaces.boot PageTables.sampleMemory) sampleEvents := by
  exact ⟨trivial, fun _ _ => ⟨trivial, fun _ _ => ⟨trivial, fun _ _ => ⟨trivial, fun _ _ =>
    ⟨trivial, fun _ _ => trivial⟩⟩⟩⟩⟩

end Sample

/-- A user program reaches only pages that were allocated for it: no page of another space's programs
and no page table. -/
theorem access_apart {es : List SpaceEvent} {v : UInt64} {a : UInt64 × Rights}
    (hk : KernelTables m₀ kernelPdpTable kernel)
    (hspare : Machine.Along (Spaces.step kernelPdpTable) Sparing (Spaces.boot m₀) es)
    (hrun : Machine.run (Spaces.step kernelPdpTable) (Spaces.boot m₀) es = some s) (hr : r ∈ s.roots)
    (ha : s.access r v = some a) :
    s.owner (a.1 + kernelVma) = some r ∧
      (∀ q ∈ s.roots, q ≠ r → ∀ u b, s.access q u = some b → b.1 ≠ a.1) ∧
      (∀ q ∈ s.roots, ∀ d ≤ 3, ∀ x,
        Radix.node 512 (s.memory.child q) q d x ≠ some (a.1 + kernelVma)) ∧
      ∀ d, 1 ≤ d → d ≤ 3 → a.1 + kernelVma ∉ kernel d := by
  obtain ⟨user, h⟩ := run_inv hk hspare hrun
  have ho := (h.access_owned hr ha).1
  have hsome : s.owner (a.1 + kernelVma) ≠ none := by
    rw [ho]
    exact Option.some_ne_none r
  refine ⟨ho, fun q hq hqr u b hb hba => ?_, fun q hq d hd x hx => ?_, h.ownedKernel _ hsome⟩
  · have hoq := (h.access_owned hq hb).1
    rw [hba, ho] at hoq
    exact hqr (Option.some.inj hoq).symm
  · exact h.ownedTable _ hsome q hq d hd ((h.well q hq).forest.node_mem hd hx)

/-- The page of the sample is the one that was allocated, and no table of its space. -/
theorem access_apart_sample : ∃ s, Machine.run (Spaces.step 0x200000)
    (Spaces.boot PageTables.sampleMemory) sampleEvents = some s ∧
      ∃ a, s.access 0xffffff8000001000 0x400008 = some a ∧
        s.owner (a.1 + kernelVma) = some 0xffffff8000001000 ∧ ∀ d ≤ 3, ∀ x, Radix.node 512 (s.memory.child 0xffffff8000001000) 0xffffff8000001000 d x ≠
          some (a.1 + kernelVma) := by
  obtain ⟨s, hs, hr, a, ha⟩ := sampleEvents_run
  obtain ⟨howner, -, htables, -⟩ :=
    access_apart PageTables.sampleMemory_kernel sampleEvents_sparing hs hr ha
  exact ⟨s, hs, a, ha, howner, htables _ hr⟩

/-- In the kernel's part every space is mapped as a table is at the start whose last entry leads to the
kernel's tables. -/
theorem walk_kernel_shared {es : List SpaceEvent} {pml4Table v : UInt64}
    (hk : KernelTables m₀ kernelPdpTable kernel) (hpresent : m₀.present pml4Table 511)
    (hroot : m₀.entry pml4Table 511 &&& pageAddrPos = kernelPdpTable &&& pageAddrPos)
    (hspare : Machine.Along (Spaces.step kernelPdpTable) Sparing (Spaces.boot m₀) es)
    (hrun : Machine.run (Spaces.step kernelPdpTable) (Spaces.boot m₀) es = some s) (hr : r ∈ s.roots)
    (hv : 511 * 512 ^ 3 ≤ PageTables.pageNumber v) :
    s.memory.walk r v = m₀.walk pml4Table v := by
  obtain ⟨user, h⟩ := run_inv hk hspare hrun
  have h511 : (getBits v 39 47).toNat = 511 := by
    have hlt : PageTables.pageNumber v < 2 ^ 36 := Nat.mod_lt _ (by norm_num)
    rw [(PageTables.index_digits v).1]
    omega
  have htop := h.top r hr
  have haddr : s.memory.entry r 511 &&& pageAddrPos = kernelPdpTable &&& pageAddrPos := by
    rw [@and_data pageAddrPos (by decide), htop, pageEntry_addr]
  rw [PageTables.walk_eq_walkPdp, PageTables.walk_eq_walkPdp, h511, PageTables.read,
    if_pos (PageTables.present_of_data htop), PageTables.read, if_pos hpresent, Option.bind_some,
    Option.bind_some, haddr, hroot]
  exact PageTables.walkPdp_same hk h.kernelSame hk.root v

end Spaces
end EpochKernel.Mem
