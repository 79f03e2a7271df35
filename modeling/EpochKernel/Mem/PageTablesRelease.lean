import EpochKernel.Mem.PageTablesOnce
import EpochKernel.Mem.PageTablesSweep

/-! Which pages have gone back when regions of an address space have been unmapped one after the other,
each with the physical zones behind it, and then the table of the highest level has been given back. -/
namespace EpochKernel.Mem
open EpochKernel.Util EpochKernel.Library

namespace PageTables
variable {m w w₀ : PageTables} {pml4Table : UInt64} {S S₀ : Set ℕ} {P : Set UInt64}
  {r : UInt64 × UInt64} {rs rs' : List (UInt64 × UInt64)}

/-- Each of the pages has been given back once. -/
def Released (w w' : PageTables) (held : Set UInt64) : Prop :=
  ∃ l, w'.freed = w.freed ++ l ∧ ∀ a ∈ held, (l.map Prod.fst).count a = 1

/-- The pages of a region. -/
def span (r : UInt64 × UInt64) : Set ℕ := Set.Ico (pageNumber r.1) (pageNumber r.1 + pages r.2)

/-- The pages of some regions. -/
def spans (rs : List (UInt64 × UInt64)) : Set ℕ := {p | ∃ r ∈ rs, p ∈ span r}

/-- Regions that can be unmapped one after the other where the pages of `S` are mapped. -/
def Orderly (S : Set ℕ) : List (UInt64 × UInt64) → Prop
  | [] => True
  | r :: rs => Gentle S (pageNumber r.1) (pageNumber r.1 + pages r.2) ∧ Orderly (S \ span r) rs

/-- A region is unmapped, and physical zones are given back. -/
def drop (pml4Table : UInt64) (w : PageTables) (step : (UInt64 × UInt64) × List UInt64) : PageTables :=
  step.2.foldl free (unmapInternal pml4Table step.1.1 step.1.2 w)

lemma spans_nil : spans [] = ∅ := by
  simp [spans]

lemma spans_cons : spans (r :: rs) = span r ∪ spans rs := by
  ext p
  simp [spans]

lemma Separate.disjoint {s : UInt64 × UInt64} (h : Separate r s) : Disjoint (span r) (span s) := by
  rw [Set.disjoint_left]
  rintro p ⟨hr, hr'⟩ ⟨hs, hs'⟩
  exact h (p - pageNumber r.1) (by omega) (p - pageNumber s.1) (by omega) (by omega)

lemma mem_below_root {u : UInt64} :
    u ∈ m.below pml4Table 0 0 ↔ u = pml4Table ∨ u ∈ m.under pml4Table 0 0 :=
  Radix.mem_below (by norm_num) (by norm_num) Radix.node_zero

/-- The tables below the one of the highest level have their levels and numbers. -/
lemma mem_below_iff {u : UInt64} : u ∈ m.below pml4Table 0 0 ↔
    u = pml4Table ∨ ∃ l < 3, ∃ y, y / 512 ^ (3 - l) = 0 ∧
      Radix.node 512 (m.child pml4Table) pml4Table (3 - l) y = some u := by
  constructor
  · rintro ⟨e, y, -, he, hy, hu⟩
    rcases Nat.eq_zero_or_pos e with rfl | hpos
    · rw [Radix.node] at hu
      split_ifs at hu
      exact .inl (Option.some.inj hu).symm
    · have hdepth : 3 - (3 - e) = e := by omega
      exact .inr ⟨3 - e, by omega, y, by rwa [hdepth], by rwa [hdepth]⟩
  · rintro (rfl | ⟨l, hl, y, hy, hu⟩)
    · exact mem_below_root.mpr (.inl rfl)
    · exact ⟨3 - l, y, Nat.zero_le _, Nat.sub_le _ _, hy, hu⟩

/-- After some regions have been unmapped: the pages of `S` are left, and the tables without pages and
the physical zones in `P` have been given back. -/
structure Dropped (m w₀ w : PageTables) (pml4Table : UInt64) (S₀ S : Set ℕ) (P : Set UInt64) : Prop where
  stands : m.Stands w pml4Table S 3
  frees : Frees w₀ w (m.dead pml4Table S₀ S 3 ∪ P)
  sub : S ⊆ S₀
  apart : ∀ a ∈ P, ∀ l ≤ 3, ∀ y, Radix.node 512 (m.child pml4Table) pml4Table (3 - l) y ≠ some a

namespace Dropped
variable {user : ℕ → Set UInt64}

lemma start (h : m.Stands m pml4Table S₀ 3) : Dropped m m m pml4Table S₀ S₀ ∅ where
  stands := h
  frees := by
    have hnone : m.dead pml4Table S₀ S₀ 3 ∪ ∅ = ∅ := by
      ext u
      refine iff_of_false ?_ id
      rintro (⟨l, -, y, -, hold, hnew⟩ | hu)
      · exact hnew hold
      · exact hu
    rw [hnone]
    exact Frees.refl rfl
  sub := le_rfl
  apart _ h := absurd h id

lemma free {a : UInt64} (h : Dropped m w₀ w pml4Table S₀ S P) (hP : a ∉ P)
    (ha : ∀ l ≤ 3, ∀ y, Radix.node 512 (m.child pml4Table) pml4Table (3 - l) y ≠ some a) :
    Dropped m w₀ (w.free a) pml4Table S₀ S (P ∪ {a}) where
  stands l hl y u hu halive := by
    refine (h.stands l hl y u hu halive).congr (free_other ?_) rfl
    rintro rfl
    exact ha l hl y hu
  frees := by
    rw [← Set.union_assoc]
    refine h.frees.trans (Frees.free w a) (Set.disjoint_singleton_right.mpr ?_)
    rintro (⟨l, hl, y, hu, -⟩ | hu)
    · exact ha l hl.le y hu
    · exact hP hu
  sub := h.sub
  apart c hc l hl y := by
    rcases hc with hc | rfl
    · exact h.apart c hc l hl y
    · exact ha l hl y

lemma unmap (F : Radix.Forest (m.child pml4Table) pml4Table 3 user)
    (hmapped : ∀ p ∈ S₀, m.leaf pml4Table p ≠ none) (h : Dropped m w₀ w pml4Table S₀ S P)
    (hg : Gentle S (pageNumber r.1) (pageNumber r.1 + pages r.2)) (hin : span r ⊆ S)
    (hbound : pageNumber r.1 + pages r.2 ≤ 511 * 512 ^ 3) :
    Dropped m w₀ (unmapInternal pml4Table r.1 r.2 w) pml4Table S₀ (S \ span r) P := by
  obtain ⟨hstands, hfrees⟩ := unmapInternal_sweeps F
    (fun p hp hp' => hmapped p (h.sub (hin ⟨hp, hp'⟩))) hbound h.stands hg hin
  refine ⟨hstands, ?_, Set.sdiff_subset.trans h.sub, h.apart⟩
  have hboth := h.frees.trans hfrees ?_
  · have hsets : m.dead pml4Table S₀ S 3 ∪ P ∪ m.dead pml4Table S (S \ span r) 3 =
        m.dead pml4Table S₀ (S \ span r) 3 ∪ P := by
      rw [dead_trans h.sub Set.sdiff_subset, Set.union_right_comm]
    exact hsets ▸ hboth
  · rw [Set.disjoint_union_left]
    refine ⟨dead_disjoint F (by norm_num), Set.disjoint_left.mpr fun a ha hd => ?_⟩
    obtain ⟨l, hl, y, hu, -⟩ := hd
    exact h.apart a ha l hl.le y hu

lemma frees_all {as : List UInt64} (h : Dropped m w₀ w pml4Table S₀ S P) (hnd : as.Nodup)
    (hP : ∀ a ∈ as, a ∉ P) (ha : ∀ a ∈ as, ∀ l ≤ 3, ∀ y,
      Radix.node 512 (m.child pml4Table) pml4Table (3 - l) y ≠ some a) :
    Dropped m w₀ (as.foldl PageTables.free w) pml4Table S₀ S (P ∪ {a | a ∈ as}) := by
  induction as generalizing w P with
  | nil => simpa using h
  | cons a as ih =>
    obtain ⟨hnot, hnd⟩ := List.nodup_cons.mp hnd
    have hset : P ∪ {c | c ∈ a :: as} = P ∪ {a} ∪ {c | c ∈ as} := by
      ext c
      simp only [Set.mem_union, Set.mem_ofPred_eq, List.mem_cons, Set.mem_singleton_iff, or_assoc]
    rw [List.foldl_cons, hset]
    refine ih (h.free (hP a List.mem_cons_self) (ha a List.mem_cons_self)) hnd (fun c hc => ?_)
      fun c hc => ha c (List.mem_cons_of_mem _ hc)
    rintro (hcP | rfl)
    · exact hP c (List.mem_cons_of_mem _ hc) hcP
    · exact hnot hc

/-- All the steps, one after the other. -/
theorem foldl {steps : List ((UInt64 × UInt64) × List UInt64)}
    (F : Radix.Forest (m.child pml4Table) pml4Table 3 user)
    (hmapped : ∀ p ∈ S₀, m.leaf pml4Table p ≠ none) (h : Dropped m w₀ w pml4Table S₀ S P)
    (ho : Orderly S (steps.map Prod.fst)) (hin : ∀ r ∈ steps.map Prod.fst, span r ⊆ S)
    (hsep : (steps.map Prod.fst).Pairwise Separate)
    (hbound : ∀ r ∈ steps.map Prod.fst, pageNumber r.1 + pages r.2 ≤ 511 * 512 ^ 3)
    (hnd : (steps.flatMap Prod.snd).Nodup) (hP : ∀ a ∈ steps.flatMap Prod.snd, a ∉ P)
    (ha : ∀ a ∈ steps.flatMap Prod.snd, ∀ l ≤ 3, ∀ y,
      Radix.node 512 (m.child pml4Table) pml4Table (3 - l) y ≠ some a) :
    Dropped m w₀ (steps.foldl (drop pml4Table) w) pml4Table S₀ (S \ spans (steps.map Prod.fst))
      (P ∪ {a | a ∈ steps.flatMap Prod.snd}) := by
  induction steps generalizing w S P with
  | nil => simpa [spans_nil] using h
  | cons step steps ih =>
    obtain ⟨hg, ho⟩ := ho
    rw [List.map_cons, List.pairwise_cons] at hsep
    rw [List.flatMap_cons] at hnd hP ha
    obtain ⟨hnd₁, hnd₂, hdisjoint⟩ := List.nodup_append'.mp hnd
    have hset : P ∪ {a | a ∈ (step :: steps).flatMap Prod.snd} =
        P ∪ {a | a ∈ step.2} ∪ {a | a ∈ steps.flatMap Prod.snd} := by
      ext a
      simp [or_assoc]
    rw [List.foldl_cons, List.map_cons, spans_cons, ← Set.sdiff_sdiff, hset]
    have hself : step.1 ∈ (step :: steps).map Prod.fst := List.mem_cons_self
    have hstep := (h.unmap F hmapped hg (hin _ hself) (hbound _ hself)).frees_all hnd₁
      (fun a hmem => hP a (List.mem_append_left _ hmem)) fun a hmem => ha a (List.mem_append_left _ hmem)
    refine ih hstep ho (fun r hr => ?_) hsep.2 (fun r hr => hbound r (List.mem_cons_of_mem _ hr)) hnd₂
      (fun a hmem => ?_) fun a hmem => ha a (List.mem_append_right _ hmem)
    · exact Set.subset_sdiff.mpr ⟨hin r (List.mem_cons_of_mem _ hr), (hsep.1 r hr).disjoint.symm⟩
    · rintro (hcP | hc)
      · exact hP a (List.mem_append_right _ hmem) hcP
      · exact hdisjoint hc hmem

end Dropped

lemma released_iff {w w' : PageTables} {held : Set UInt64} {l : List (UInt64 × (ℕ → UInt64))}
    (h : w'.freed = w.freed ++ l) : Released w w' held ↔ ∀ a ∈ held, (l.map Prod.fst).count a = 1 := by
  refine ⟨?_, fun hl => ⟨l, h, hl⟩⟩
  rintro ⟨l', hl', hcount⟩
  obtain rfl : l = l' := List.append_cancel_left (h.symm.trans hl')
  exact hcount

/-- What was given back, each page once, is all that is held if and only if it is among it. -/
lemma Frees.released_iff {w w' : PageTables} {D held : Set UInt64} (h : Frees w w' D) :
    Released w w' held ↔ held ⊆ D := by
  obtain ⟨l, hl, hnd, hmem⟩ := h
  rw [PageTables.released_iff hl]
  refine forall₂_congr fun a _ => ?_
  rw [← hmem]
  exact ⟨fun hc => List.count_pos_iff.mp (hc ▸ Nat.one_pos), fun hc => List.count_eq_one_of_mem hnd hc⟩

lemma Released.mono {w w' : PageTables} {held held' : Set UInt64} (h : Released w w' held)
    (hsub : held' ⊆ held) : Released w w' held' := by
  obtain ⟨l, hl, hcount⟩ := h
  exact ⟨l, hl, fun a ha => hcount a (hsub ha)⟩

lemma mem_below_of_node {u : UInt64} {d y : ℕ} (hd : d ≤ 3)
    (hu : Radix.node 512 (m.child pml4Table) pml4Table d y = some u) : u ∈ m.below pml4Table 0 0 := by
  refine ⟨d, y, Nat.zero_le d, hd, ?_, hu⟩
  by_contra hne
  have hnone : Radix.node 512 (m.child pml4Table) pml4Table 0 (y / 512 ^ (d - 0)) = none := by
    rw [Radix.node, if_neg hne]
  rw [Radix.node_eq_none (Nat.zero_le d) hnone] at hu
  cases hu

section Regions
variable {m₀ : PageTables} {kernelPdpTable : UInt64} {kernel : ℕ → Set UInt64}
  {steps : List ((UInt64 × UInt64) × List UInt64)} (hk : KernelTables m₀ kernelPdpTable kernel)
  (hp : pml4Table ≠ 0) (h : Reached kernelPdpTable m₀ pml4Table rs m)
include hk hp h

/-- Regions that are unmapped in an orderly way, each with physical zones that are given back: with the
table of the highest level, all is given back if and only if no page is left. -/
theorem Reached.released_iff (hmem : ∀ r ∈ steps.map Prod.fst, r ∈ rs)
    (hsep : (steps.map Prod.fst).Pairwise Separate) (ho : Orderly (spans rs) (steps.map Prod.fst))
    (hnd : (steps.flatMap Prod.snd).Nodup)
    (hapart : ∀ a ∈ steps.flatMap Prod.snd, a ∉ m.below pml4Table 0 0) :
    Released m ((steps.foldl (drop pml4Table) m).free pml4Table)
        {a | a ∈ steps.flatMap Prod.snd ∨ a ∈ m.below pml4Table 0 0} ↔
      spans rs ⊆ spans (steps.map Prod.fst) := by
  have hsound := h.sound hk hp
  have hfilled := h.filled hk hp
  obtain ⟨htidy, user, hwell, -⟩ := hsound.grown
  have hpages : spans rs = {p | m.leaf pml4Table p ≠ none} := by
    ext p
    exact (hfilled.pages p).symm
  have hnode : ∀ a ∈ steps.flatMap Prod.snd, ∀ l ≤ 3, ∀ y,
      Radix.node 512 (m.child pml4Table) pml4Table (3 - l) y ≠ some a :=
    fun a ha l hl y hy => hapart a ha (mem_below_of_node (Nat.sub_le _ _) hy)
  have hstands : m.Stands m pml4Table (spans rs) 3 := hpages ▸ hfilled.stands hwell htidy
  have hdropped := (Dropped.start hstands).foldl hwell.forest
    (fun p hp => by rw [hpages] at hp; exact hp) ho (fun r hr p hp => ⟨r, hmem r hr, hp⟩) hsep
    (fun r hr => (hsound.placed r (hmem r hr)).2) hnd (fun _ _ => id) hnode
  have hroot : pml4Table ∈ m.below pml4Table 0 0 := mem_below_root.mpr (.inl rfl)
  have hzero : Radix.node 512 (m.child pml4Table) pml4Table (3 - 3) 0 = some pml4Table := Radix.node_zero
  have hall := hdropped.frees.trans (Frees.free _ pml4Table) (Set.disjoint_singleton_right.mpr (by
    rintro (hd | ha | ha)
    · exact not_mem_dead hwell.forest le_rfl hzero hd
    · exact ha
    · exact hapart _ ha hroot))
  rw [hall.released_iff]
  constructor
  · intro hsub p hp
    by_contra hout
    have hleaf : m.leaf pml4Table p ≠ none := by
      rw [hpages] at hp
      exact hp
    obtain ⟨c, hc⟩ := exists_table hleaf (Nat.zero_le 3)
    have hbelow := mem_below_of_node (Nat.sub_le 3 0) hc
    rcases hsub (.inr hbelow) with (hd | ha | ha) | rfl
    · obtain ⟨l, hl, y, hy, -, hnew⟩ := hd
      have hlevels := hwell.forest.node_depth (Nat.sub_le _ _) (Nat.sub_le _ _) hy hc
      obtain rfl : l = 0 := by omega
      obtain rfl := hwell.forest.node_inj (Nat.sub_le _ _) hy hc
      exact hnew ⟨p, ⟨hp, hout⟩, rfl⟩
    · exact ha
    · exact hapart c ha hbelow
    · exact hwell.forest.ne_root (by norm_num) (Nat.sub_le 3 0) hc rfl
  · rintro hsub a (ha | ha)
    · exact .inl (.inr (.inr ha))
    · rcases mem_below_iff.mp ha with rfl | ⟨l, hl, y, -, hy⟩
      · exact .inr rfl
      · refine .inl (.inl ⟨l, hl, y, hy, ?_, ?_⟩)
        · rw [hpages]
          exact (hfilled.alive_iff hl).mpr (hasTable_iff.mpr ⟨a, hy⟩)
        · rintro ⟨p, ⟨hp, hout⟩, -⟩
          exact hout (hsub hp)

end Regions

section Region
variable {m₀ : PageTables} {kernelPdpTable : UInt64} {kernel : ℕ → Set UInt64}
  (hk : KernelTables m₀ kernelPdpTable kernel) (hp : pml4Table ≠ 0)
  (h : Reached kernelPdpTable m₀ pml4Table [r] m)
include hk hp h

end Region

end PageTables
end EpochKernel.Mem
