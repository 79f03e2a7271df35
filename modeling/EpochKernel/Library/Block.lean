import Mathlib

/-! Aligned power-of-two blocks of natural numbers and tilings of an interval by them. Two blocks
are nested or disjoint. A tiling without two buddies is unique: it consists of the maximal blocks
of the interval. -/
namespace EpochKernel.Library

/-- `2 ^ exp` consecutive numbers, the first of them a multiple of `2 ^ exp`. -/
@[ext] structure Block where
  base : ℕ
  exp : ℕ
  aligned : 2 ^ exp ∣ base
  deriving DecidableEq

lemma add_le_of_dvd_of_lt {m a b : ℕ} (ha : m ∣ a) (hb : m ∣ b) (h : a < b) : a + m ≤ b := by
  have hs : m ≤ b - a := Nat.le_of_dvd (by omega) (Nat.dvd_sub hb ha)
  omega

namespace Block

def size (d : Block) : ℕ := 2 ^ d.exp

/-- The first number after the block. -/
def top (d : Block) : ℕ := d.base + d.size

instance : Membership ℕ Block where
  mem d x := d.base ≤ x ∧ x < d.top

lemma mem_iff {d : Block} {x : ℕ} : x ∈ d ↔ d.base ≤ x ∧ x < d.top := Iff.rfl

lemma size_pos (d : Block) : 0 < d.size := Nat.two_pow_pos _

lemma base_mem (d : Block) : d.base ∈ d := ⟨le_rfl, Nat.lt_add_of_pos_right d.size_pos⟩

/-- `d` lies inside `e`. -/
def Inside (d e : Block) : Prop := e.base ≤ d.base ∧ d.top ≤ e.top

lemma Inside.mem {d e : Block} (h : d.Inside e) {x : ℕ} (hx : x ∈ d) : x ∈ e :=
  ⟨h.1.trans hx.1, hx.2.trans_le h.2⟩

lemma Inside.exp_le {d e : Block} (h : d.Inside e) : d.exp ≤ e.exp := by
  have hs : d.size ≤ e.size := by
    have h1 := h.1
    have h2 := h.2
    simp only [top] at h2
    omega
  exact (Nat.pow_le_pow_iff_right (by norm_num)).mp hs

/-- Two blocks with a common number are nested, the smaller in the larger. -/
lemma inside_of_mem {d e : Block} (hle : d.exp ≤ e.exp) {x : ℕ} (hd : x ∈ d) (he : x ∈ e) :
    d.Inside e := by
  have hdvd : d.size ∣ e.size := pow_dvd_pow 2 hle
  have heb : d.size ∣ e.base := hdvd.trans e.aligned
  have het : d.size ∣ e.top := Nat.dvd_add heb hdvd
  constructor
  · by_contra hlt
    have := add_le_of_dvd_of_lt d.aligned heb (Nat.lt_of_not_le hlt)
    have hx := hd.2.trans_le (this.trans he.1)
    omega
  · have hlt : d.base < e.top := hd.1.trans_lt he.2
    exact add_le_of_dvd_of_lt d.aligned het hlt

lemma eq_of_mem {d e : Block} (hexp : d.exp = e.exp) {x : ℕ} (hd : x ∈ d) (he : x ∈ e) : d = e := by
  have h1 := (inside_of_mem hexp.le hd he).1
  have h2 := (inside_of_mem hexp.ge he hd).1
  exact Block.ext (le_antisymm h2 h1) hexp

/-- The lower and upper half of a block of size `2 ^ (k + 1)`. -/
def lower (d : Block) (k : ℕ) (h : d.exp = k + 1) : Block :=
  ⟨d.base, k, (pow_dvd_pow 2 (by omega)).trans d.aligned⟩

def upper (d : Block) (k : ℕ) (h : d.exp = k + 1) : Block :=
  ⟨d.base + 2 ^ k, k, Nat.dvd_add ((pow_dvd_pow 2 (by omega)).trans d.aligned) dvd_rfl⟩

lemma mem_halves {d : Block} {k : ℕ} (h : d.exp = k + 1) {x : ℕ} :
    x ∈ d ↔ x ∈ d.lower k h ∨ x ∈ d.upper k h := by
  have hs : d.size = 2 ^ k + 2 ^ k := by rw [size, h]; ring
  change _ ↔ (d.base ≤ x ∧ x < d.base + 2 ^ k) ∨
    (d.base + 2 ^ k ≤ x ∧ x < d.base + 2 ^ k + 2 ^ k)
  rw [mem_iff, top, hs]
  omega

lemma not_mem_upper_of_lower {d : Block} {k : ℕ} (h : d.exp = k + 1) {x : ℕ}
    (hx : x ∈ d.lower k h) : x ∉ d.upper k h := by
  simp only [mem_iff, top, lower, upper, size] at hx ⊢
  omega

/-- The block that together with `d` fills the enclosing block of twice the size. -/
def buddy (d : Block) : Block where
  base := if 2 ^ (d.exp + 1) ∣ d.base then d.base + d.size else d.base - d.size
  exp := d.exp
  aligned := by
    split_ifs
    · exact Nat.dvd_add d.aligned dvd_rfl
    · exact Nat.dvd_sub d.aligned dvd_rfl

@[simp] lemma buddy_exp (d : Block) : d.buddy.exp = d.exp := rfl

lemma buddy_base_le (d : Block) : d.buddy.base ≤ d.base + d.size := by
  simp only [buddy]
  split_ifs <;> omega

lemma size_le_base_of_not_dvd {d : Block} (h : ¬ 2 ^ (d.exp + 1) ∣ d.base) : d.size ≤ d.base := by
  refine Nat.le_of_dvd (Nat.pos_of_ne_zero fun h0 => h ?_) d.aligned
  rw [h0]
  exact dvd_zero _

/-- The enclosing block of twice the size. -/
def parent (d : Block) : Block where
  base := if 2 ^ (d.exp + 1) ∣ d.base then d.base else d.base - d.size
  exp := d.exp + 1
  aligned := by
    split_ifs with h
    · exact h
    · obtain ⟨q, hq⟩ := d.aligned
      have ho : q % 2 = 1 := by
        by_contra hne
        refine h ⟨q / 2, ?_⟩
        rw [hq, pow_succ, mul_assoc]
        congr 1
        omega
      refine ⟨q / 2, ?_⟩
      rw [hq, size, pow_succ, mul_assoc, ← Nat.mul_sub_one]
      congr 1
      omega

@[simp] lemma parent_exp (d : Block) : d.parent.exp = d.exp + 1 := rfl

lemma mem_parent {d : Block} {x : ℕ} : x ∈ d.parent ↔ x ∈ d ∨ x ∈ d.buddy := by
  have hs : d.parent.size = d.size + d.size := by
    simp only [size, parent]
    ring
  have hb : d.buddy.size = d.size := rfl
  by_cases h : 2 ^ (d.exp + 1) ∣ d.base
  · simp only [mem_iff, top, hs, hb]
    simp only [parent, buddy, h, if_true]
    omega
  · have := size_le_base_of_not_dvd h
    simp only [mem_iff, top, hs, hb]
    simp only [parent, buddy, h, if_false]
    omega

lemma buddy_disjoint {d : Block} {x : ℕ} (hx : x ∈ d) : x ∉ d.buddy := by
  have hb : d.buddy.size = d.size := rfl
  by_cases h : 2 ^ (d.exp + 1) ∣ d.base
  · simp only [mem_iff, top, hb] at hx ⊢
    simp only [buddy, h, if_true]
    omega
  · have := size_le_base_of_not_dvd h
    simp only [mem_iff, top, hb] at hx ⊢
    simp only [buddy, h, if_false]
    omega

lemma buddy_ne (d : Block) : d.buddy ≠ d := by
  intro h
  have hd := buddy_disjoint d.base_mem
  rw [h] at hd
  exact hd d.base_mem

/-- Any block of the size of `d` inside the parent of `d` is `d` or its buddy. -/
lemma eq_or_eq_buddy {d e : Block} (hexp : e.exp = d.exp) (h : e.base ∈ d.parent) :
    e = d ∨ e = d.buddy := by
  rcases mem_parent.mp h with hd | hd
  · exact Or.inl (eq_of_mem hexp e.base_mem hd)
  · exact Or.inr (eq_of_mem (by simpa using hexp) e.base_mem hd)

lemma buddy_lower {d : Block} {k : ℕ} (h : d.exp = k + 1) : (d.lower k h).buddy = d.upper k h := by
  have hd : 2 ^ (k + 1) ∣ d.base := h ▸ d.aligned
  apply Block.ext
  · simp [buddy, lower, upper, hd, size]
  · rfl

lemma buddy_buddy (d : Block) : d.buddy.buddy = d := by
  have hm : d.buddy.base ∈ d.parent := mem_parent.mpr (Or.inr (base_mem _))
  have hp : d.buddy.parent = d.parent := by
    refine eq_of_mem (by simp) (mem_parent.mpr (Or.inl d.buddy.base_mem)) hm
  have hbb : d.buddy.buddy.base ∈ d.parent := by
    rw [← hp]
    exact mem_parent.mpr (Or.inr (base_mem _))
  rcases eq_or_eq_buddy (d := d) (e := d.buddy.buddy) rfl hbb with h | h
  · exact h
  · exact absurd h (buddy_ne _)

/-- A block that contains `d` and is larger contains its parent. -/
lemma parent_inside {d e : Block} (h : d.Inside e) (hlt : d.exp < e.exp) : d.parent.Inside e :=
  inside_of_mem (by simpa using hlt) (mem_parent.mpr (Or.inl d.base_mem)) (h.mem d.base_mem)

end Block

open Block

/-- The blocks of `S` are disjoint and fill exactly the numbers from `lo` up to `hi`. -/
structure Tiles (S : Set Block) (lo hi : ℕ) : Prop where
  cover : ∀ x, lo ≤ x → x < hi → ∃ d ∈ S, x ∈ d
  inside : ∀ d ∈ S, lo ≤ d.base ∧ d.top ≤ hi
  disjoint : ∀ d ∈ S, ∀ e ∈ S, ∀ x, x ∈ d → x ∈ e → d = e

/-- No two members of `S` are buddies of each other. -/
def BuddyFree (S : Set Block) : Prop := ∀ d ∈ S, d.buddy ∉ S

lemma BuddyFree.mono {S T : Set Block} (h : BuddyFree S) (hT : T ⊆ S) : BuddyFree T :=
  fun d hd hb => h d (hT hd) (hT hb)

/-- A member whose buddy is missing is in no pair. -/
lemma BuddyFree.of_diff {S : Set Block} {d : Block} (h : BuddyFree (S \ {d}))
    (hb : d.buddy ∉ S) : BuddyFree S := by
  intro e he hbe
  by_cases hed : e = d
  · exact hb (hed ▸ hbe)
  by_cases hbd : e.buddy = d
  · exact hb (by rwa [← hbd, buddy_buddy])
  · exact h e ⟨he, hed⟩ ⟨hbe, hbd⟩

/-- Without buddies every block that is covered lies inside a member: otherwise its two halves, or two
halves of one of its parts, would be members. -/
theorem BuddyFree.exists_inside {S : Set Block} (hB : BuddyFree S) (d : Block)
    (hcover : ∀ x ∈ d, ∃ e ∈ S, x ∈ e) : ∃ e ∈ S, d.Inside e := by
  obtain ⟨base, k, ha⟩ := d
  induction k generalizing base with
  | zero =>
    obtain ⟨e, he, hx⟩ := hcover base (base_mem _)
    exact ⟨e, he, inside_of_mem (Nat.zero_le _) (base_mem _) hx⟩
  | succ k ih =>
    set d : Block := ⟨base, k + 1, ha⟩ with hd
    obtain ⟨e, he, hle⟩ := ih base (d.lower k rfl).aligned fun x hx =>
      hcover x ((mem_halves (d := d) rfl).mpr (.inl hx))
    obtain ⟨f, hf, hlf⟩ := ih (base + 2 ^ k) (d.upper k rfl).aligned fun x hx =>
      hcover x ((mem_halves (d := d) rfl).mpr (.inr hx))
    rcases Nat.lt_or_ge k e.exp with hke | hke
    · exact ⟨e, he, inside_of_mem hke d.base_mem (hle.mem (base_mem _))⟩
    rcases Nat.lt_or_ge k f.exp with hkf | hkf
    · have hm : base + 2 ^ k ∈ d := (mem_halves (d := d) rfl).mpr (.inr (base_mem _))
      exact ⟨f, hf, inside_of_mem hkf hm (hlf.mem (base_mem _))⟩
    have hee : d.lower k rfl = e :=
      eq_of_mem (le_antisymm hle.exp_le hke) (base_mem _) (hle.mem (base_mem _))
    have hff : d.upper k rfl = f :=
      eq_of_mem (le_antisymm hlf.exp_le hkf) (base_mem _) (hlf.mem (base_mem _))
    exact absurd (buddy_lower (d := d) rfl ▸ hff ▸ hf) (hB _ (hee ▸ he))

namespace Tiles
variable {S T : Set Block} {lo hi : ℕ}

/-- Replace a member by smaller blocks that fill the same numbers. -/
lemma replace (h : Tiles S lo hi) {R P : Set Block} (hR : R ⊆ S)
    (hfill : ∀ x, (∃ d ∈ R, x ∈ d) ↔ ∃ e ∈ P, x ∈ e)
    (hP : ∀ d ∈ P, ∀ e ∈ P, ∀ x, x ∈ d → x ∈ e → d = e) : Tiles (S \ R ∪ P) lo hi := by
  constructor
  · intro x hlo hhi
    obtain ⟨d, hd, hx⟩ := h.cover x hlo hhi
    by_cases hdR : d ∈ R
    · obtain ⟨e, he, hxe⟩ := (hfill x).mp ⟨d, hdR, hx⟩
      exact ⟨e, Or.inr he, hxe⟩
    · exact ⟨d, Or.inl ⟨hd, hdR⟩, hx⟩
  · rintro d (⟨hd, -⟩ | hd)
    · exact h.inside d hd
    · have hin : ∀ x ∈ d, lo ≤ x ∧ x < hi := by
        intro x hx
        obtain ⟨e, he, hxe⟩ := (hfill x).mpr ⟨d, hd, hx⟩
        obtain ⟨h1, h2⟩ := h.inside e (hR he)
        exact ⟨h1.trans hxe.1, hxe.2.trans_le h2⟩
      have hlast : d.top - 1 ∈ d := by
        have := d.size_pos
        simp only [mem_iff, top]
        omega
      have := d.size_pos
      refine ⟨(hin _ d.base_mem).1, ?_⟩
      have := (hin _ hlast).2
      simp only [top] at this ⊢
      omega
  · have hmix : ∀ d ∈ S \ R, ∀ e ∈ P, ∀ x, x ∈ d → x ∉ e := by
      rintro d ⟨hd, hdR⟩ e he x hxd hxe
      obtain ⟨r, hr, hxr⟩ := (hfill x).mpr ⟨e, he, hxe⟩
      exact hdR (h.disjoint d hd r (hR hr) x hxd hxr ▸ hr)
    rintro d (hd | hd) e (he | he) x hxd hxe
    · exact h.disjoint d hd.1 e he.1 x hxd hxe
    · exact absurd hxe (hmix d hd e he x hxd)
    · exact absurd hxd (hmix e he d hd x hxe)
    · exact hP d hd e he x hxd hxe

/-- Replace members of one part of a tiling while the other part stays. -/
lemma replace_left {L R P : Set Block} (h : Tiles (S ∪ L) lo hi) (hsep : ∀ d ∈ S, d ∉ L)
    (hR : R ⊆ S) (hfill : ∀ x, (∃ d ∈ R, x ∈ d) ↔ ∃ e ∈ P, x ∈ e)
    (hP : ∀ d ∈ P, ∀ e ∈ P, ∀ x, x ∈ d → x ∈ e → d = e) :
    Tiles (S \ R ∪ P ∪ L) lo hi ∧ ∀ d ∈ S \ R ∪ P, d ∉ L := by
  have hRL : ∀ d ∈ R, d ∉ L := fun d hd => hsep d (hR hd)
  have hset : (S ∪ L) \ R ∪ P = S \ R ∪ P ∪ L := by
    ext d
    simp only [Set.mem_union, Set.mem_sdiff]
    have := hRL d
    tauto
  refine ⟨hset ▸ h.replace (hR.trans Set.subset_union_left) hfill hP, ?_⟩
  rintro d (⟨hd, -⟩ | hd) hL
  · exact hsep d hd hL
  · obtain ⟨e, he, hm⟩ := (hfill d.base).mpr ⟨d, hd, d.base_mem⟩
    have hed := h.disjoint e (Or.inl (hR he)) d (Or.inr hL) d.base hm d.base_mem
    exact hRL e he (hed ▸ hL)

/-- Splitting a member into its halves keeps the tiling. -/
theorem split {L : Set Block} (h : Tiles (S ∪ L) lo hi) (hsep : ∀ d ∈ S, d ∉ L) {d : Block}
    (hd : d ∈ S) {k : ℕ} (hk : d.exp = k + 1) :
    Tiles (S \ {d} ∪ {d.lower k hk, d.upper k hk} ∪ L) lo hi ∧
    ∀ e ∈ S \ {d} ∪ {d.lower k hk, d.upper k hk}, e ∉ L := by
  refine h.replace_left hsep (by simpa using hd) (fun x => ?_) ?_
  · simpa using mem_halves hk
  · rintro e (rfl | rfl) f (rfl | rfl) x he hf
    · rfl
    · exact absurd hf (not_mem_upper_of_lower hk he)
    · exact absurd he (not_mem_upper_of_lower hk hf)
    · rfl

/-- Merging two buddies that are both members keeps the tiling. -/
theorem merge {L : Set Block} (h : Tiles (S ∪ L) lo hi) (hsep : ∀ d ∈ S, d ∉ L) {d : Block}
    (hd : d ∈ S) (hb : d.buddy ∈ S) :
    Tiles (S \ {d, d.buddy} ∪ {d.parent} ∪ L) lo hi ∧
    ∀ e ∈ S \ {d, d.buddy} ∪ {d.parent}, e ∉ L := by
  refine h.replace_left hsep ?_ (fun x => ?_) ?_
  · rintro e (rfl | rfl)
    · exact hd
    · exact hb
  · simpa using mem_parent.symm
  · rintro e rfl f rfl x - -
    rfl

/-- In a tiling every block that does not reach the end is followed by another one. -/
lemma next (h : Tiles S lo hi) {d : Block} (hd : d ∈ S) (hlt : d.top < hi) :
    ∃ e ∈ S, e.base = d.top := by
  obtain ⟨hlo, -⟩ := h.inside d hd
  have hpos := d.size_pos
  have htop : d.top = d.base + d.size := rfl
  obtain ⟨e, he, hmem⟩ := h.cover d.top (by omega) hlt
  refine ⟨e, he, le_antisymm hmem.1 ?_⟩
  by_contra hlt'
  -- the last number of `d` would lie in `e` as well
  have hde := h.disjoint d hd e he (d.top - 1) ⟨by omega, by omega⟩
    ⟨by omega, by have := hmem.2; omega⟩
  rw [← hde] at hmem
  exact absurd hmem.2 (lt_irrefl _)

/-- In a tiling without buddies every block inside the interval lies inside a member. -/
theorem exists_inside_of_buddyFree (h : Tiles S lo hi) (hB : BuddyFree S) (d : Block)
    (hlo : lo ≤ d.base) (hhi : d.top ≤ hi) : ∃ e ∈ S, d.Inside e :=
  hB.exists_inside d fun x hx => h.cover x (hlo.trans hx.1) (hx.2.trans_le hhi)

/-- Two tilings of one interval without buddies are equal. -/
theorem eq_of_buddyFree (hS : Tiles S lo hi) (hT : Tiles T lo hi) (hBS : BuddyFree S)
    (hBT : BuddyFree T) : S = T := by
  have key : ∀ {S T : Set Block}, Tiles S lo hi → Tiles T lo hi → BuddyFree S → BuddyFree T →
      S ⊆ T := by
    intro S T hS hT hBS hBT d hd
    obtain ⟨h1, h2⟩ := hS.inside d hd
    obtain ⟨e, he, hde⟩ := hT.exists_inside_of_buddyFree hBT d h1 h2
    obtain ⟨h3, h4⟩ := hT.inside e he
    obtain ⟨f, hf, hef⟩ := hS.exists_inside_of_buddyFree hBS e h3 h4
    have hdf : d = f := hS.disjoint d hd f hf d.base d.base_mem (hef.mem (hde.mem d.base_mem))
    have hexp : d.exp = e.exp := le_antisymm hde.exp_le (hdf ▸ hef.exp_le)
    exact eq_of_mem hexp d.base_mem (hde.mem d.base_mem) ▸ he
  exact Set.Subset.antisymm (key hS hT hBS hBT) (key hT hS hBT hBS)

/-- The sizes of the members of a finite tiling add up to the length of the interval. -/
theorem sum_size {ds : List Block} (h : Tiles {d | d ∈ ds} lo hi) (hnd : ds.Nodup) :
    (ds.map size).sum = hi - lo := by
  have hcover : ds.toFinset.biUnion (fun d => Finset.Ico d.base d.top) = Finset.Ico lo hi := by
    ext x
    simp only [Finset.mem_biUnion, List.mem_toFinset, Finset.mem_Ico]
    constructor
    · rintro ⟨d, hd, h1, h2⟩
      obtain ⟨h3, h4⟩ := h.inside d hd
      omega
    · rintro ⟨h1, h2⟩
      obtain ⟨d, hd, hx⟩ := h.cover x h1 h2
      exact ⟨d, hd, hx⟩
  have hdisj : (ds.toFinset : Set Block).PairwiseDisjoint fun d => Finset.Ico d.base d.top := by
    intro d hd e he hne
    rw [Function.onFun, Finset.disjoint_left]
    intro x hx hx'
    rw [Finset.mem_Ico] at hx hx'
    exact hne (h.disjoint d (by simpa using hd) e (by simpa using he) x hx hx')
  calc (ds.map size).sum = ∑ d ∈ ds.toFinset, d.size := (List.sum_toFinset size hnd).symm
    _ = ∑ d ∈ ds.toFinset, (Finset.Ico d.base d.top).card := by
        refine Finset.sum_congr rfl fun d _ => ?_
        rw [Nat.card_Ico, top]
        omega
    _ = (Finset.Ico lo hi).card := by rw [← Finset.card_biUnion hdisj, hcover]
    _ = hi - lo := Nat.card_Ico lo hi

/-- If no member can be doubled upwards inside the interval, no two members are buddies. -/
theorem buddyFree_of_maximal (h : Tiles S lo hi)
    (hmax : ∀ d ∈ S, 2 ^ (d.exp + 1) ∣ d.base → hi < d.base + 2 ^ (d.exp + 1)) : BuddyFree S := by
  intro d hd hb
  have hp : ∀ e ∈ S, e.buddy ∈ S → ¬ 2 ^ (e.exp + 1) ∣ e.base := by
    intro e he hbe hdvd
    have h1 := hmax e he hdvd
    have h2 := (h.inside _ hbe).2
    simp only [top, buddy, hdvd, if_true, size] at h2
    rw [pow_succ] at h1
    omega
  have h1 := hp d hd hb
  have h2 := hp d.buddy hb (by rwa [buddy_buddy])
  apply h2
  have := d.parent.aligned
  simpa [parent, buddy, h1] using this

end Tiles
end EpochKernel.Library
