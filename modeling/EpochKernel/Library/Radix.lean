import Mathlib

/-! Radix trees in memory: nodes with numbered entries, reached from a root by the digits of a number. -/
namespace EpochKernel.Library.Radix
variable {ι : Type*}

/-- The node with the number `x` at a depth, where the digits of `x` are the indices on the way. -/
def node (b : ℕ) (child : ι → ℕ → Option ι) (root : ι) : ℕ → ℕ → Option ι
  | 0, x => if x = 0 then some root else none
  | d + 1, x => (node b child root d (x / b)).bind fun t => child t (x % b)

/-- `own d` has the nodes at depth `d`, down to `h`, and no two entries lead to one node. -/
structure Forest (child : ι → ℕ → Option ι) (root : ι) (h : ℕ) (own : ℕ → Set ι) : Prop where
  root : own 0 = {root}
  child_mem : ∀ d < h, ∀ t ∈ own d, ∀ i c, child t i = some c → c ∈ own (d + 1)
  apart : ∀ d ≤ h, ∀ e ≤ h, ∀ t, t ∈ own d → t ∈ own e → d = e
  single : ∀ d < h, ∀ t ∈ own d, ∀ u ∈ own d, ∀ i j c, child t i = some c → child u j = some c →
    t = u ∧ i = j

variable {b h d e x y i : ℕ} {child child' : ι → ℕ → Option ι} {root t u q : ι} {own : ℕ → Set ι}

lemma node_zero : node b child root 0 0 = some root := rfl

lemma node_succ : node b child root (d + 1) x = some u ↔
    ∃ t, node b child root d (x / b) = some t ∧ child t (x % b) = some u := by
  rw [node, Option.bind_eq_some_iff]

lemma node_step (hi : i < b) (ht : node b child root d x = some t) :
    node b child root (d + 1) (b * x + i) = child t i := by
  rw [node, Nat.mul_add_div (by omega), Nat.div_eq_of_lt hi, Nat.add_zero, ht, Option.bind_some,
    Nat.mul_add_mod, Nat.mod_eq_of_lt hi]

/-- There is no node below where there is none. -/
lemma node_eq_none (hd : d ≤ e) (h : node b child root d (x / b ^ (e - d)) = none) :
    node b child root e x = none := by
  induction e generalizing x with
  | zero =>
    obtain rfl := Nat.le_zero.mp hd
    rwa [pow_zero, Nat.div_one] at h
  | succ e ih =>
    rcases hd.eq_or_lt with rfl | hlt
    · rwa [Nat.sub_self, pow_zero, Nat.div_one] at h
    · have hpow : b ^ (e + 1 - d) = b * b ^ (e - d) := by
        rw [← pow_succ']
        congr 1
        omega
      rw [hpow, ← Nat.div_div_eq_div_mul] at h
      rw [node, ih (Nat.le_of_lt_succ hlt) h, Option.bind_none]

/-- The nodes below the one with the number `x` at a depth, and that one. -/
def below (b h : ℕ) (child : ι → ℕ → Option ι) (root : ι) (d x : ℕ) : Set ι :=
  {u | ∃ e y, d ≤ e ∧ e ≤ h ∧ y / b ^ (e - d) = x ∧ node b child root e y = some u}

lemma self_mem_below (hd : d ≤ h) (ht : node b child root d x = some t) :
    t ∈ below b h child root d x :=
  ⟨d, x, le_rfl, hd, by rw [Nat.sub_self, pow_zero, Nat.div_one], ht⟩

lemma below_subset (hi : i < b) :
    below b h child root (d + 1) (b * x + i) ⊆ below b h child root d x := by
  intro u hu
  obtain ⟨e, y, hd, he, hy, hn⟩ := hu
  refine ⟨e, y, Nat.le_of_succ_le hd, he, ?_, hn⟩
  have hpow : b ^ (e - d) = b ^ (e - (d + 1)) * b := by
    rw [← pow_succ]
    congr 1
    omega
  rw [hpow, ← Nat.div_div_eq_div_mul, hy, Nat.mul_add_div (by omega), Nat.div_eq_of_lt hi,
    Nat.add_zero]

/-- The nodes below are the node itself and those below its entries. -/
lemma mem_below (hb : 0 < b) (hd : d ≤ h) (ht : node b child root d x = some t) :
    u ∈ below b h child root d x ↔ u = t ∨ ∃ i < b, u ∈ below b h child root (d + 1) (b * x + i) := by
  constructor
  · intro hu
    obtain ⟨e, y, hde, he, hy, hn⟩ := hu
    rcases hde.eq_or_lt with rfl | hlt
    · rw [Nat.sub_self, pow_zero, Nat.div_one] at hy
      rw [hy, ht] at hn
      exact .inl (Option.some.inj hn).symm
    · have hpow : b ^ (e - d) = b ^ (e - (d + 1)) * b := by
        rw [← pow_succ]
        congr 1
        omega
      rw [hpow, ← Nat.div_div_eq_div_mul] at hy
      refine .inr ⟨_, Nat.mod_lt (y / b ^ (e - (d + 1))) hb, e, y, hlt, he, ?_, hn⟩
      rw [← hy, Nat.div_add_mod]
  · intro hu
    rcases hu with rfl | ⟨i, hi, hu⟩
    · exact self_mem_below hd ht
    · exact below_subset hi hu

namespace Forest
variable (F : Forest child root h own)
include F

lemma mem_root : root ∈ own 0 := F.root ▸ Set.mem_singleton root

lemma node_mem (hd : d ≤ h) (ht : node b child root d x = some t) : t ∈ own d := by
  induction d generalizing x t with
  | zero =>
    rw [node] at ht
    split_ifs at ht
    exact Option.some.inj ht ▸ F.mem_root
  | succ d ih =>
    obtain ⟨u, hu, hc⟩ := node_succ.mp ht
    exact F.child_mem d hd u (ih (Nat.le_of_succ_le hd) hu) _ _ hc

/-- A node has one number. -/
theorem node_inj (hd : d ≤ h) (hx : node b child root d x = some t)
    (hy : node b child root d y = some t) : x = y := by
  induction d generalizing x y t with
  | zero =>
    rw [node] at hx hy
    split_ifs at hx hy with h1 h2
    rw [h1, h2]
  | succ d ih =>
    obtain ⟨u, hu, hcu⟩ := node_succ.mp hx
    obtain ⟨v, hv, hcv⟩ := node_succ.mp hy
    have hd' := Nat.le_of_succ_le hd
    obtain ⟨huv, hmod⟩ := F.single d hd u (F.node_mem hd' hu) v (F.node_mem hd' hv) _ _ t hcu hcv
    rw [← Nat.div_add_mod x b, ← Nat.div_add_mod y b, ih hd' hu (huv ▸ hv), hmod]

lemma node_depth (hd : d ≤ h) (he : e ≤ h) (hx : node b child root d x = some t)
    (hy : node b child root e y = some t) : d = e :=
  F.apart d hd e he t (F.node_mem hd hx) (F.node_mem he hy)

lemma ne_root (h1 : 0 < d) (hd : d ≤ h) (ht : node b child root d x = some t) : t ≠ root := by
  rintro rfl
  have hzero : node b child t 0 0 = some t := node_zero
  exact h1.ne' (F.node_depth hd (Nat.zero_le h) ht hzero)

lemma not_mem_below (hd : d ≤ h) (ht : node b child root d x = some t) :
    t ∉ below b h child root (d + 1) y := by
  intro hmem
  obtain ⟨e, z, hde, he, -, hn⟩ := hmem
  have := F.node_depth hd he ht hn
  omega

/-- No node is below two of one depth. -/
lemma below_disjoint (hne : x ≠ y) :
    Disjoint (below b h child root d x) (below b h child root d y) := by
  rw [Set.disjoint_left]
  intro u hu hu'
  obtain ⟨e, z, -, he, rfl, hn⟩ := hu
  obtain ⟨e', z', -, he', rfl, hn'⟩ := hu'
  obtain rfl := F.node_depth he he' hn hn'
  obtain rfl := F.node_inj he hn hn'
  exact hne rfl

/-- The nodes are the same ones for entries that lead to the same nodes. -/
lemma node_congr (heq : ∀ d < h, ∀ t ∈ own d, child' t = child t) (hd : d ≤ h) :
    node b child' root d x = node b child root d x := by
  induction d generalizing x with
  | zero => rfl
  | succ d ih =>
    rw [node, node, ih (Nat.le_of_succ_le hd)]
    cases ht : node b child root d (x / b) with
    | none => rfl
    | some t =>
      rw [Option.bind_some, Option.bind_some, heq d hd t (F.node_mem (Nat.le_of_succ_le hd) ht)]

lemma congr (heq : ∀ d < h, ∀ t ∈ own d, child' t = child t) : Forest child' root h own where
  root := F.root
  child_mem d hd t ht i c hc := F.child_mem d hd t ht i c (heq d hd t ht ▸ hc)
  apart := F.apart
  single d hd t ht u hu i j c hc hc' :=
    F.single d hd t ht u hu i j c (heq d hd t ht ▸ hc) (heq d hd u hu ▸ hc')

end Forest

/-- An entry that leads nowhere gets the empty node `q`. -/
structure Grows (child child' : ι → ℕ → Option ι) (h : ℕ) (own : ℕ → Set ι) (d : ℕ) (t : ι) (i : ℕ)
    (q : ι) : Prop where
  depth : d < h
  mem : t ∈ own d
  free : child t i = none
  fresh : ∀ e ≤ h, q ∉ own e
  empty : ∀ j, child' q j = none
  entry : child' t i = some q
  same : ∀ e < h, ∀ u ∈ own e, ∀ j, ¬ (u = t ∧ j = i) → child' u j = child u j

/-- The nodes with `q` one further down than `t`. -/
def grown (own : ℕ → Set ι) (d : ℕ) (q : ι) (e : ℕ) : Set ι :=
  if e = d + 1 then insert q (own e) else own e

lemma mem_grown : u ∈ grown own d q e ↔ u ∈ own e ∨ (e = d + 1 ∧ u = q) := by
  unfold grown
  split_ifs with he
  · rw [Set.mem_insert_iff, or_comm]
    simp [he]
  · simp [he]

namespace Grows
variable (F : Forest child root h own) (G : Grows child child' h own d t i q)
include F G

theorem forest : Forest child' root h (grown own d q) where
  root := by rw [grown, if_neg (Nat.succ_ne_zero d).symm, F.root]
  child_mem := by
    intro e he u hu j c hc
    rcases mem_grown.mp hu with hu | ⟨-, rfl⟩
    · by_cases hut : u = t ∧ j = i
      · obtain ⟨rfl, rfl⟩ := hut
        have hde := F.apart e he.le d G.depth.le u hu G.mem
        have hcq := Option.some.inj (hc.symm.trans G.entry)
        exact mem_grown.mpr (.inr ⟨by rw [hde], hcq⟩)
      · rw [G.same e he u hu j hut] at hc
        exact mem_grown.mpr (.inl (F.child_mem e he u hu j c hc))
    · rw [G.empty] at hc
      cases hc
  apart := by
    intro e he e' he' u hm hm'
    rcases mem_grown.mp hm with hu | ⟨h1, rfl⟩
    · rcases mem_grown.mp hm' with hu' | ⟨-, rfl⟩
      · exact F.apart e he e' he' u hu hu'
      · exact absurd hu (G.fresh e he)
    · rcases mem_grown.mp hm' with hu' | ⟨h2, -⟩
      · exact absurd hu' (G.fresh e' he')
      · exact h1.trans h2.symm
  single := by
    intro e he u hm v hm' j k c hc hc'
    have hother : ∀ w ∈ own e, ∀ m, ¬ (w = t ∧ m = i) → child' w m ≠ some q := by
      intro w hw m hne hq
      rw [G.same e he w hw m hne] at hq
      exact G.fresh (e + 1) he (F.child_mem e he w hw m q hq)
    rcases mem_grown.mp hm with hu | ⟨-, rfl⟩
    · rcases mem_grown.mp hm' with hv | ⟨-, rfl⟩
      · by_cases hut : u = t ∧ j = i
        · obtain ⟨rfl, rfl⟩ := hut
          obtain rfl := Option.some.inj (hc.symm.trans G.entry)
          by_contra hne
          exact hother v hv k (fun hvt => hne ⟨hvt.1.symm, hvt.2.symm⟩) hc'
        · by_cases hvt : v = t ∧ k = i
          · obtain ⟨rfl, rfl⟩ := hvt
            obtain rfl := Option.some.inj (hc'.symm.trans G.entry)
            exact absurd hc (hother u hu j hut)
          · rw [G.same e he u hu j hut] at hc
            rw [G.same e he v hv k hvt] at hc'
            exact F.single e he u hu v hv j k c hc hc'
      · rw [G.empty] at hc'
        cases hc'
    · rw [G.empty] at hc
      cases hc

lemma node_mono (hd : e ≤ h) (hu : node b child root e x = some u) :
    node b child' root e x = some u := by
  induction e generalizing x u with
  | zero => exact hu
  | succ e ih =>
    obtain ⟨v, hv, hc⟩ := node_succ.mp hu
    refine node_succ.mpr ⟨v, ih (Nat.le_of_succ_le hd) hv, ?_⟩
    rw [G.same e hd v (F.node_mem (Nat.le_of_succ_le hd) hv), hc]
    rintro ⟨rfl, hi⟩
    rw [hi, G.free] at hc
    cases hc

lemma node_or (hd : e ≤ h) (hu : node b child' root e x = some u) :
    node b child root e x = some u ∨ u = q := by
  induction e generalizing x u with
  | zero => exact .inl hu
  | succ e ih =>
    obtain ⟨v, hv, hc⟩ := node_succ.mp hu
    rcases ih (Nat.le_of_succ_le hd) hv with hv | rfl
    · by_cases hvt : v = t ∧ x % b = i
      · rw [hvt.1, hvt.2, G.entry] at hc
        exact .inr (Option.some.inj hc).symm
      · rw [G.same e hd v (F.node_mem (Nat.le_of_succ_le hd) hv) _ hvt] at hc
        exact .inl (node_succ.mpr ⟨v, hv, hc⟩)
    · rw [G.empty] at hc
      cases hc

end Grows

end EpochKernel.Library.Radix
