import EpochKernel.Mem.PageTablesMap

/-! What `unmap_internal` does to the tables. Only the first entry of a table has a counter, so the
check behind an entry takes every other one for an empty table: a call ends behind the first entry
that it looks at, or behind the second one of its table. A table that was given back is still in the
entry of the table above. -/
namespace EpochKernel.Mem
open EpochKernel.Util EpochKernel.Library

namespace PageTables
variable {m m' m₁ m₂ : PageTables} {pml4Table t u c n flags : UInt64} {i j : ℕ}

lemma pageUnset_self (hi : i ≠ 0) : (m.pageUnset t i).entry t i = 0 := by
  unfold pageUnset
  rw [if_neg hi]
  exact set_entry_self 0

lemma free_other (h : u ≠ c) : (m.free c).entry u = m.entry u :=
  Function.update_of_ne h ..

/-- All tables of the tree are clean. -/
def Tidy (m : PageTables) (pml4Table : UInt64) : Prop :=
  ∀ d ≤ 3, ∀ x t, Radix.node 512 (m.child pml4Table) pml4Table d x = some t → m.Clean t

/-- The tables of pages. -/
def leaves (m : PageTables) (pml4Table : UInt64) : Set UInt64 :=
  {t | ∃ x, Radix.node 512 (m.child pml4Table) pml4Table 3 x = some t}

/-- The tables below the one with a number at a depth, and that one. -/
def below (m : PageTables) (pml4Table : UInt64) (d x : ℕ) : Set UInt64 :=
  Radix.below 512 3 (m.child pml4Table) pml4Table d x

/-- What a part of the run does that gives the pages in `l` back: it writes to tables in `tables`, and
a table of tables that is not given back keeps its entries. -/
structure Ruins (leaves tables : Set UInt64) (m m' : PageTables) (l : List (UInt64 × (ℕ → UInt64))) :
    Prop where
  other : ∀ u ∉ tables, m'.entry u = m.entry u
  kept : ∀ u ∉ leaves, (∀ f ∈ l, f.1 ≠ u) →
    ∀ j, m'.entry u j &&& pageDataPos = m.entry u j &&& pageDataPos
  gone : ∀ f ∈ l, f.1 ∈ tables ∧ m'.entry f.1 = m.left f.1
  freed : m'.freed = m.freed ++ l
  left : m'.left = m.left

namespace Ruins
variable {leaves tables tables₁ tables₂ : Set UInt64} {l l₁ l₂ : List (UInt64 × (ℕ → UInt64))}

lemma refl : Ruins leaves tables m m [] where
  other _ _ := rfl
  kept _ _ _ _ := rfl
  gone := nofun
  freed := (List.append_nil _).symm
  left := rfl

lemma mono (h : Ruins leaves tables₁ m m' l) (hsub : tables₁ ⊆ tables₂) :
    Ruins leaves tables₂ m m' l where
  other u hu := h.other u fun hmem => hu (hsub hmem)
  kept := h.kept
  gone f hf := ⟨hsub (h.gone f hf).1, (h.gone f hf).2⟩
  freed := h.freed
  left := h.left

lemma trans (h₁ : Ruins leaves tables₁ m m₁ l₁) (h₂ : Ruins leaves tables₂ m₁ m₂ l₂)
    (hout : ∀ f ∈ l₁, f.1 ∉ tables₂) : Ruins leaves (tables₁ ∪ tables₂) m m₂ (l₁ ++ l₂) where
  other u hu := by
    rw [Set.mem_union, not_or] at hu
    rw [h₂.other u hu.2, h₁.other u hu.1]
  kept u hu hl j := by
    rw [h₂.kept u hu fun f hf => hl f (List.mem_append_right _ hf),
      h₁.kept u hu fun f hf => hl f (List.mem_append_left _ hf)]
  gone f hf := by
    rcases List.mem_append.mp hf with hf | hf
    · obtain ⟨hmem, hleft⟩ := h₁.gone f hf
      exact ⟨Or.inl hmem, (h₂.other _ (hout f hf)).trans hleft⟩
    · obtain ⟨hmem, hleft⟩ := h₂.gone f hf
      exact ⟨Or.inr hmem, by rw [hleft, h₁.left]⟩
  freed := by rw [h₂.freed, h₁.freed, List.append_assoc]
  left := h₂.left.trans h₁.left

lemma counterAdd (m : PageTables) (t n : UInt64) : Ruins leaves {t} m (m.counterAdd t n) [] where
  other _ hu := counterAdd_other hu
  kept u _ _ j := by
    by_cases hu : u = t
    · rw [hu]
      exact counterAdd_data m t n j
    · rw [counterAdd_other hu]
  gone := nofun
  freed := (List.append_nil _).symm
  left := rfl

lemma free (m : PageTables) (c : UInt64) : Ruins leaves {c} m (m.free c) [(c, m.entry c)] where
  other _ hu := free_other hu
  kept u _ hl j := by
    have hu : u ≠ c := (hl _ (List.mem_singleton_self _)).symm
    rw [free_other hu]
  gone f hf := by
    obtain rfl := List.mem_singleton.mp hf
    exact ⟨rfl, Function.update_self ..⟩
  freed := rfl
  left := rfl

lemma unmapPage {w : Pass} (ht : t ∈ leaves) (hi : i < 512) :
    Ruins leaves {t} w.toPageTables (w.unmapPage t i).toPageTables [] := by
  have hw : Writes w.toPageTables (w.unmapPage t i).toPageTables t i 0 := writes_unmapPage hi
  refine ⟨fun u hu => hw.other u hu, fun u hu _ j => ?_, nofun, ?_, hw.left⟩
  · have hne : u ≠ t := fun hut => hu (hut ▸ ht)
    exact congrArg (· j &&& pageDataPos) (hw.other u hne)
  · rw [List.append_nil]
    exact hw.freed

end Ruins
end PageTables

namespace Pass
open PageTables
variable {m : PageTables} {pml4Table t c : UInt64} {w w' : Pass} {body : ℕ → Pass → Pass} {d i j x level : ℕ}

/-- Where the loop of a clean table ends: behind its first entry, or behind one more if the counter
shows that the table has present entries. -/
inductive LoopEnd (t : UInt64) (body : ℕ → Pass → Pass) (i : ℕ) (w : Pass) : Bool × Pass → Prop
  | here (n : ℕ) (h : i = 0 → pageCounterGet ((body i w).entry t i) = 0) :
    LoopEnd t body i w (true, (body i w).skip n)
  | stop (hi : i = 0) (hc : pageCounterGet ((body i w).entry t i) ≠ 0) (hn : (body i w).pageN = 0) :
    LoopEnd t body i w (false, body i w)
  | next (n : ℕ) (hi : i = 0) (hc : pageCounterGet ((body i w).entry t i) ≠ 0)
    (hn : (body i w).pageN ≠ 0) : LoopEnd t body i w (true, (body 1 (body i w)).skip n)

/-- The loop ends behind an entry whose counter bits are 0, without the others. -/
lemma unmapLoop_first (hi : i < 512) (hw : w.pageN ≠ 0)
    (hc : pageCounterGet ((body i w).entry t i) = 0) :
    unmapLoop t body (512 - i) w = (true, (body i w).skip (511 - i)) := by
  obtain ⟨left, hleft⟩ : ∃ left, 512 - i = left + 1 := ⟨511 - i, by omega⟩
  have hback : pageEntries - (left + 1) = i := by
    unfold pageEntries
    omega
  have hrest : pageEntries - i - 1 = 511 - i := by
    unfold pageEntries
    omega
  rw [hleft, unmapLoop, if_neg hw]
  dsimp only
  rw [hback, if_pos hc, hrest]

/-- Otherwise it goes on. -/
lemma unmapLoop_next (hi : i < 512) (hw : w.pageN ≠ 0)
    (hc : pageCounterGet ((body i w).entry t i) ≠ 0) :
    unmapLoop t body (512 - i) w = unmapLoop t body (512 - (i + 1)) (body i w) := by
  obtain ⟨left, hleft⟩ : ∃ left, 512 - i = left + 1 := ⟨511 - i, by omega⟩
  have hback : pageEntries - (left + 1) = i := by
    unfold pageEntries
    omega
  have hrest : 512 - (i + 1) = left := by omega
  rw [hleft, unmapLoop, if_neg hw]
  dsimp only
  rw [hback, if_neg hc, hrest]

/-- It ends where nothing is left. -/
lemma unmapLoop_zero (left : ℕ) (hw : w.pageN = 0) : unmapLoop t body left w = (false, w) := by
  cases left with
  | zero => rfl
  | succ left => rw [unmapLoop, if_pos hw]

lemma unmapLoop_end (hi : i < 512) (hw : w.pageN ≠ 0) (h1 : (body i w).Clean t)
    (h2 : i = 0 → (body i w).pageN ≠ 0 → (body 1 (body i w)).Clean t) :
    LoopEnd t body i w (unmapLoop t body (512 - i) w) := by
  by_cases hc : pageCounterGet ((body i w).entry t i) = 0
  · rw [unmapLoop_first hi hw hc]
    exact .here _ fun _ => hc
  rw [unmapLoop_next hi hw hc]
  have h0 : i = 0 := by
    by_contra hne
    exact hc (h1 i (Nat.one_le_iff_ne_zero.mpr hne) hi)
  subst h0
  by_cases hn : (body 0 w).pageN = 0
  · rw [unmapLoop_zero _ hn]
    exact .stop rfl hc hn
  · have hone : 1 < 512 := by norm_num
    rw [unmapLoop_first hone hn (h2 rfl hn 1 le_rfl hone)]
    exact .next _ rfl hc hn

@[simp] lemma skip_toPageTables (w : Pass) (n : ℕ) : (w.skip n).toPageTables = w.toPageTables := rfl

@[simp] lemma shift_toPageTables (w : Pass) (n : ℕ) : (w.shift n).toPageTables = w.toPageTables := rfl

lemma unmapTable_absent {recurse : UInt64 → Pass → Bool × Pass} (hp : ¬ w.present t i) :
    unmapTable recurse level t i w =
      (w.skip (1 <<< (pageTableBits * level))).shift (pageTableBits * level) := by
  rw [unmapTable, if_pos hp]

lemma unmapTable_false {recurse : UInt64 → Pass → Bool × Pass} (hp : w.present t i)
    (h : recurse (w.next t i) w = (false, w')) : unmapTable recurse level t i w = w' := by
  rw [unmapTable, if_neg (not_not_intro hp), h]

lemma unmapTable_true {recurse : UInt64 → Pass → Bool × Pass} (hp : w.present t i)
    (h : recurse (w.next t i) w = (true, w')) : unmapTable recurse level t i w =
      { w' with toPageTables := (w'.free (w'.next t i)).counterAdd t (-1) } := by
  rw [unmapTable, if_neg (not_not_intro hp), h]

/-- A call for a table that the run has not come to ruins tables below it only, and does not give the
table itself back. -/
def RuinsBelow (m : PageTables) (pml4Table : UInt64) (level : ℕ)
    (recurse : UInt64 → Pass → Bool × Pass) : Prop :=
  ∀ x t w, Radix.node 512 (m.child pml4Table) pml4Table (3 - level) x = some t →
    (∀ u ∈ m.below pml4Table (3 - level) x, w.entry u = m.entry u) → w.pageN ≠ 0 →
    ¬ (t = pml4Table ∧ w.index = 511) →
    ∃ l, Ruins (m.leaves pml4Table) (m.below pml4Table (3 - level) x) w.toPageTables
      (recurse t w).2.toPageTables l ∧ ∀ f ∈ l, f.1 ≠ t

section
variable {user : ℕ → Set UInt64} (F : Radix.Forest (m.child pml4Table) pml4Table 3 user)
include F

/-- The body of the loop of a table of tables goes to the table below its entry, if there is one, and
gives it back if the call says so. -/
lemma unmapTable_cases {recurse : UInt64 → Pass → Bool × Pass} (hl : level < 3)
    (hcall : RuinsBelow m pml4Table level recurse)
    (ht : Radix.node 512 (m.child pml4Table) pml4Table (3 - (level + 1)) x = some t) (hi : i < 512)
    (hslot : ¬ (t = pml4Table ∧ i = 511)) (hn : w.pageN ≠ 0)
    (hdata : ∀ j, w.entry t j &&& pageDataPos = m.entry t j &&& pageDataPos)
    (hsame : ∀ u ∈ m.below pml4Table (3 - level) (512 * x + i), w.entry u = m.entry u) :
    (Radix.node 512 (m.child pml4Table) pml4Table (3 - level) (512 * x + i) = none ∧
      unmapTable recurse (level + 1) t i w =
        (w.skip (1 <<< (pageTableBits * (level + 1)))).shift (pageTableBits * (level + 1))) ∨
    ∃ c l, Radix.node 512 (m.child pml4Table) pml4Table (3 - level) (512 * x + i) = some c ∧
      Ruins (m.leaves pml4Table) (m.below pml4Table (3 - level) (512 * x + i)) w.toPageTables
        (recurse c w).2.toPageTables l ∧ (∀ f ∈ l, f.1 ≠ c) ∧
      (((recurse c w).1 = false ∧ unmapTable recurse (level + 1) t i w = (recurse c w).2) ∨
        ((recurse c w).1 = true ∧ unmapTable recurse (level + 1) t i w =
          { (recurse c w).2 with toPageTables := ((recurse c w).2.free c).counterAdd t (-1) })) := by
  have hdepth : 3 - level = 3 - (level + 1) + 1 := by omega
  have hstep := Radix.node_step hi ht
  rw [← hdepth] at hstep
  by_cases hp : w.present t i
  · have hpm : m.present t i := (present_congr (hdata i)).mp hp
    have hnode : Radix.node 512 (m.child pml4Table) pml4Table (3 - level) (512 * x + i) =
        some (w.next t i) :=
      hstep.trans (child_eq_some.mpr ⟨hpm, hi, hslot, (next_congr (hdata i)).symm⟩)
    have hout : t ∉ m.below pml4Table (3 - level) (512 * x + i) := by
      rw [hdepth]
      exact F.not_mem_below (by omega) ht
    have hroot : w.next t i ≠ pml4Table := F.ne_root (by omega) (Nat.sub_le _ _) hnode
    obtain ⟨l, hr, hne⟩ := hcall _ _ w hnode hsame hn fun hr => hroot hr.1
    refine Or.inr ⟨w.next t i, l, hnode, hr, hne, ?_⟩
    cases hrun : recurse (w.next t i) w with
    | mk ok w1 =>
      rw [hrun] at hr
      have hnext : w1.next t i = w.next t i := next_congr (by rw [hr.other t hout])
      cases ok with
      | false => exact Or.inl ⟨rfl, unmapTable_false hp hrun⟩
      | true => exact Or.inr ⟨rfl, by rw [unmapTable_true hp hrun, hnext]⟩
  · rw [unmapTable_absent hp]
    refine Or.inl ⟨hstep.trans ?_, rfl⟩
    exact if_neg fun hx => hp ((present_congr (hdata i)).mpr hx.1)

lemma unmapTable_ruins {recurse : UInt64 → Pass → Bool × Pass} (hl : level < 3)
    (hcall : RuinsBelow m pml4Table level recurse)
    (ht : Radix.node 512 (m.child pml4Table) pml4Table (3 - (level + 1)) x = some t) (hi : i < 512)
    (hslot : ¬ (t = pml4Table ∧ i = 511)) (hn : w.pageN ≠ 0)
    (hdata : ∀ j, w.entry t j &&& pageDataPos = m.entry t j &&& pageDataPos)
    (hsame : ∀ u ∈ m.below pml4Table (3 - level) (512 * x + i), w.entry u = m.entry u) :
    ∃ l, Ruins (m.leaves pml4Table) (insert t (m.below pml4Table (3 - level) (512 * x + i)))
        w.toPageTables (unmapTable recurse (level + 1) t i w).toPageTables l ∧
      (∀ f ∈ l, f.1 ≠ t) ∧
      ∀ j, 1 ≤ j → (unmapTable recurse (level + 1) t i w).entry t j = w.entry t j := by
  obtain ⟨-, he⟩ | ⟨c, l, hnode, hr, hne, hend⟩ :=
    unmapTable_cases F hl hcall ht hi hslot hn hdata hsame
  · rw [he]
    exact ⟨[], Ruins.refl, nofun, fun _ _ => rfl⟩
  have hout : t ∉ m.below pml4Table (3 - level) (512 * x + i) := by
    have hdepth : 3 - level = 3 - (level + 1) + 1 := by omega
    rw [hdepth]
    exact F.not_mem_below (by omega) ht
  have hself : c ∈ m.below pml4Table (3 - level) (512 * x + i) :=
    Radix.self_mem_below (Nat.sub_le _ _) hnode
  have hlist : ∀ f ∈ l, f.1 ≠ t := fun f hf he => hout (he ▸ (hr.gone f hf).1)
  have hentry : (recurse c w).2.entry t = w.entry t := hr.other t hout
  obtain ⟨-, he⟩ | ⟨-, he⟩ := hend
  · rw [he]
    exact ⟨l, hr.mono (Set.subset_insert ..), hlist, fun j _ => congrFun hentry j⟩
  · rw [he]
    have hct : t ≠ c := fun hct => hout (hct ▸ hself)
    have hboth : ∀ f ∈ l ++ [(c, (recurse c w).2.entry c)], f.1 ≠ t := by
      intro f hf
      rcases List.mem_append.mp hf with hf | hf
      · exact hlist f hf
      · obtain rfl := List.mem_singleton.mp hf
        exact hct.symm
    have hfree := hr.trans (Ruins.free (recurse c w).2.toPageTables c) hne
    have hall := hfree.trans (Ruins.counterAdd _ t (-1)) hboth
    rw [List.append_nil] at hall
    refine ⟨_, hall.mono fun u hu => ?_, hboth, fun j hj => ?_⟩
    · rcases hu with (hu | hu) | hu
      · exact Or.inr hu
      · exact Or.inr (hu ▸ hself)
      · exact Or.inl hu
    · have hkept : ((recurse c w).2.free c).entry t = w.entry t := (free_other hct).trans hentry
      exact (counterAdd_later _ t t (-1) hj).trans (congrFun hkept j)

omit F in
lemma clean_unmapPage (h : w.Clean t) : (w.unmapPage t i).Clean t := by
  intro j h1 hj
  by_cases hji : j = i
  · subst hji
    have hz : (w.unmapPage t j).entry t j = 0 := pageUnset_self (by omega)
    rw [hz]
    rfl
  · have hsame : (w.unmapPage t i).entry t j = w.entry t j := by
      unfold unmapPage
      rw [pageUnset_same hji]
      split_ifs
      · exact counterAdd_later _ t t _ h1
      · rfl
    rw [hsame]
    exact h j h1 hj

omit F in
lemma unmapRecurse_zero_ruins (htidy : m.Tidy pml4Table) :
    RuinsBelow m pml4Table 0 (unmapInternalRecurse 0) := by
  intro x t w ht hsame hn _
  have hself : t ∈ m.below pml4Table 3 x := Radix.self_mem_below le_rfl ht
  have hclean : (w.shift pageTableBits).Clean t :=
    (htidy 3 le_rfl x t ht).congr fun j _ => congrFun (hsame t hself) j
  have hleaf : t ∈ m.leaves pml4Table := ⟨x, ht⟩
  have hend : LoopEnd t (unmapPage t) w.index (w.shift pageTableBits) _ := unmapLoop_end w.index_lt hn
    (clean_unmapPage hclean) fun _ _ => clean_unmapPage (clean_unmapPage hclean)
  have hfirst := Ruins.unmapPage (w := w.shift pageTableBits) hleaf w.index_lt
  have hsub : {t} ⊆ m.below pml4Table 3 x := Set.singleton_subset_iff.mpr hself
  have hone : 1 < 512 := by norm_num
  refine ⟨[], ?_, nofun⟩
  change Ruins _ _ _ (unmapLoop t (unmapPage t) (512 - w.index) (w.shift pageTableBits)).2.toPageTables _
  generalize unmapLoop t (unmapPage t) (512 - w.index) (w.shift pageTableBits) = out at hend ⊢
  cases hend with
  | here n h => exact hfirst.mono hsub
  | stop hi hc hn => exact hfirst.mono hsub
  | next n hi hc hn =>
    have hnext := hfirst.trans (Ruins.unmapPage (w := unmapPage t w.index (w.shift pageTableBits)) hleaf
      hone) nofun
    rw [Set.union_self] at hnext
    exact hnext.mono hsub

/-- The tables below another entry are left as they are. -/
lemma unmapTable_untouched {w₁ : PageTables} {l : List (UInt64 × (ℕ → UInt64))} (hl : level < 3)
    (ht : Radix.node 512 (m.child pml4Table) pml4Table (3 - (level + 1)) x = some t)
    (hr : Ruins (m.leaves pml4Table) (insert t (m.below pml4Table (3 - level) (512 * x + i)))
      w.toPageTables w₁ l) (hne : ∀ f ∈ l, f.1 ≠ t) (hij : i ≠ j)
    (hdata : ∀ k, w.entry t k &&& pageDataPos = m.entry t k &&& pageDataPos)
    (hsame : ∀ u ∈ m.below pml4Table (3 - level) (512 * x + j), w.entry u = m.entry u) :
    (∀ k, w₁.entry t k &&& pageDataPos = m.entry t k &&& pageDataPos) ∧
      ∀ u ∈ m.below pml4Table (3 - level) (512 * x + j), w₁.entry u = m.entry u := by
  have hdepth : 3 - level = 3 - (level + 1) + 1 := by omega
  have hleaf : t ∉ m.leaves pml4Table := by
    intro hleaf
    obtain ⟨y, hy⟩ := hleaf
    have := F.node_depth (by omega) le_rfl ht hy
    omega
  refine ⟨fun k => (hr.kept t hleaf hne k).trans (hdata k), fun u hu => (hr.other u ?_).trans (hsame u hu)⟩
  intro hmem
  rcases hmem with rfl | hmem
  · rw [hdepth] at hu
    exact F.not_mem_below (by omega) ht hu
  · exact Set.disjoint_left.mp (F.below_disjoint (by omega)) hmem hu

/-- The loop of a table of tables: its first entry, and the second one if the run comes to it. -/
lemma unmapTable_loop (htidy : m.Tidy pml4Table) (hl : level < 3)
    (hcall : RuinsBelow m pml4Table level (unmapInternalRecurse level))
    (ht : Radix.node 512 (m.child pml4Table) pml4Table (3 - (level + 1)) x = some t)
    (hsame : ∀ u ∈ m.below pml4Table (3 - (level + 1)) x, w.entry u = m.entry u) (hn : w.pageN ≠ 0)
    (hroot : ¬ (t = pml4Table ∧ w.index = 511)) :
    let body := unmapTable (unmapInternalRecurse level) (level + 1) t
    let w₁ := body w.index (w.shift pageTableBits)
    (∃ l, Ruins (m.leaves pml4Table) (insert t (m.below pml4Table (3 - level) (512 * x + w.index)))
      w.toPageTables w₁.toPageTables l ∧ ∀ f ∈ l, f.1 ≠ t) ∧
    (w.index = 0 → w₁.pageN ≠ 0 → ∃ l, Ruins (m.leaves pml4Table)
      (insert t (m.below pml4Table (3 - level) (512 * x + 1))) w₁.toPageTables
        (body 1 w₁).toPageTables l ∧ ∀ f ∈ l, f.1 ≠ t) ∧
    LoopEnd t body w.index (w.shift pageTableBits) (unmapInternalRecurse (level + 1) t w) := by
  intro body w₁
  have hdepth : 3 - level = 3 - (level + 1) + 1 := by omega
  have hself : t ∈ m.below pml4Table (3 - (level + 1)) x := Radix.self_mem_below (by omega) ht
  have hclean : w.Clean t :=
    (htidy _ (by omega) x t ht).congr fun j _ => congrFun (hsame t hself) j
  have hchild (i : ℕ) (hi : i < 512) : m.below pml4Table (3 - level) (512 * x + i) ⊆
      m.below pml4Table (3 - (level + 1)) x := by
    rw [hdepth]
    exact Radix.below_subset hi
  obtain ⟨l, hr, hne, hlater⟩ := unmapTable_ruins F (w := w.shift pageTableBits) hl hcall ht w.index_lt
    hroot hn (fun j => by rw [shift_toPageTables, hsame t hself])
    fun u hu => hsame u (hchild _ w.index_lt hu)
  have hone : 1 < 512 := by norm_num
  have hsecond (hi : w.index = 0) (hn' : w₁.pageN ≠ 0) := by
    obtain ⟨hdata₁, hsame₁⟩ := unmapTable_untouched F hl ht hr hne (by omega : w.index ≠ 1)
      (fun j => by rw [shift_toPageTables, hsame t hself]) fun u hu => hsame u (hchild 1 hone hu)
    exact unmapTable_ruins F (w := w₁) (i := 1) hl hcall ht hone (by omega) hn' hdata₁ hsame₁
  have hclean₁ : w₁.Clean t := hclean.congr hlater
  refine ⟨⟨l, hr, hne⟩, fun hi hn' => ?_, unmapLoop_end w.index_lt hn hclean₁ fun hi hn' => ?_⟩
  · obtain ⟨l', hr', hne', -⟩ := hsecond hi hn'
    exact ⟨l', hr', hne'⟩
  · obtain ⟨-, -, -, hlater'⟩ := hsecond hi hn'
    exact hclean₁.congr hlater'

/-- The recursion, level by level. -/
theorem unmapInternalRecurse_ruins (htidy : m.Tidy pml4Table) (hl : level ≤ 3) :
    RuinsBelow m pml4Table level (unmapInternalRecurse level) := by
  induction level with
  | zero => exact unmapRecurse_zero_ruins htidy
  | succ level ih =>
    intro x t w ht hsame hn hroot
    have hdepth : 3 - level = 3 - (level + 1) + 1 := by omega
    have hchild (i : ℕ) (hi : i < 512) : insert t (m.below pml4Table (3 - level) (512 * x + i)) ⊆
        m.below pml4Table (3 - (level + 1)) x := by
      rw [hdepth]
      exact Set.insert_subset (Radix.self_mem_below (by omega) ht) (Radix.below_subset hi)
    obtain ⟨⟨l, hr, hne⟩, hsecond, hend⟩ := unmapTable_loop F htidy hl (ih (by omega)) ht hsame hn hroot
    generalize unmapInternalRecurse (level + 1) t w = out at hend ⊢
    cases hend with
    | here n h => exact ⟨l, hr.mono (hchild _ w.index_lt), hne⟩
    | stop hi hc hn' => exact ⟨l, hr.mono (hchild _ w.index_lt), hne⟩
    | next n hi hc hn' =>
      obtain ⟨l', hr', hne'⟩ := hsecond hi hn'
      refine ⟨l ++ l', (hr.trans hr' fun f hf hmem => ?_).mono ?_, fun f hf => ?_⟩
      · rcases hmem with hmem | hmem
        · exact hne f hf hmem
        · rcases (hr.gone f hf).1 with he | hin
          · exact hne f hf he
          · exact Set.disjoint_left.mp (F.below_disjoint (by omega)) hin hmem
      · exact Set.union_subset (hchild _ w.index_lt) (hchild 1 (by norm_num))
      · exact (List.mem_append.mp hf).elim (hne f) (hne' f)

end

end Pass
end EpochKernel.Mem
