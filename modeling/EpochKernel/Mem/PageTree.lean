import EpochKernel.Library.Radix
import EpochKernel.Mem.PageEntries

/-! The tables below the user entries of a top table, as a radix tree, and what the walk of the
processor finds in them. -/
namespace EpochKernel.Mem
open EpochKernel.Util EpochKernel.Library
namespace PageTables

/-- The table that a user entry leads to; the last entry of the top table is the kernel's. -/
def child (m : PageTables) (pml4Table table : UInt64) (i : ℕ) : Option UInt64 :=
  if m.present table i ∧ i < 512 ∧ ¬ (table = pml4Table ∧ i = 511) then some (m.next table i)
  else none

/-- The address and the flags in an entry of a table of pages. -/
def page (m : PageTables) (table : UInt64) (i : ℕ) : Option (UInt64 × UInt64) :=
  (m.read table i).map fun e => (e &&& pageAddrPos, e &&& pageFlagsPos)

/-- What the tables say about the page with the number `x`. -/
def leaf (m : PageTables) (pml4Table : UInt64) (x : ℕ) : Option (UInt64 × UInt64) :=
  (Radix.node 512 (m.child pml4Table) pml4Table 3 (x / 512)).bind fun t => m.page t (x % 512)

/-- The number of the page of an address. -/
def pageNumber (v : UInt64) : ℕ := v.toNat / 4096 % 2 ^ 36

/-- The tables of an address space: `user d` are those below user entries at depth `d`, a tree of
distinct tables with the right counters, and `kernel d` those that the kernel's entry leads to. -/
structure WellFormed (m : PageTables) (pml4Table : UInt64) (user kernel : ℕ → Set UInt64) : Prop where
  forest : Radix.Forest (m.child pml4Table) pml4Table 3 user
  small : ∀ d < 3, ∀ t ∈ user d, ∀ i, m.child pml4Table t i ≠ none → ¬ large (m.entry t i)
  counted : ∀ d < 3, ∀ t ∈ user (d + 1), m.Counted t
  kernelRoot : m.present pml4Table 511 → m.next pml4Table 511 ∈ kernel 1
  kernelNext : ∀ d, 1 ≤ d → d < 3 → ∀ t ∈ kernel d, ∀ i < 512, m.present t i →
    ¬ large (m.entry t i) → m.next t i ∈ kernel (d + 1)
  apart : ∀ d ≤ 3, ∀ e, 1 ≤ e → e ≤ 3 → ∀ t ∈ user d, t ∉ kernel e

/-- The pages that `mem::allocz` returns are new pages of the linear mapping. -/
structure Fresh (supply : List UInt64) (user kernel : ℕ → Set UInt64) : Prop where
  distinct : supply.Pairwise fun p q => p = 0 ∨ p ≠ q
  linear : ∀ p ∈ supply, p ≠ 0 → kernelVma ≤ p ∧ p.toNat % 4096 = 0
  user : ∀ p ∈ supply, p ≠ 0 → ∀ d ≤ 3, p ∉ user d
  kernel : ∀ p ∈ supply, p ≠ 0 → ∀ d, 1 ≤ d → d ≤ 3 → p ∉ kernel d

variable {m m' : PageTables} {pml4Table t u p v : UInt64} {user kernel : ℕ → Set UInt64}
  {d i j x : ℕ} {e n flags : UInt64}

lemma child_eq_some : m.child pml4Table t i = some u ↔
    m.present t i ∧ i < 512 ∧ ¬ (t = pml4Table ∧ i = 511) ∧ m.next t i = u := by
  unfold child
  split_ifs with h
  · simp [h]
  · simp only [false_iff]
    exact fun hu => h ⟨hu.1, hu.2.1, hu.2.2.1⟩

lemma read_eq_some : m.read t i = some e ↔ m.present t i ∧ m.entry t i = e := by
  unfold read
  split_ifs with h
  · simp [h]
  · simp [h]

lemma next_congr (h : m'.entry t i &&& pageDataPos = m.entry t i &&& pageDataPos) :
    m'.next t i = m.next t i := by
  unfold next
  rw [@and_data pageAddrPos (by decide), h, ← @and_data pageAddrPos (by decide)]

lemma child_congr (h : m'.entry t i &&& pageDataPos = m.entry t i &&& pageDataPos) :
    m'.child pml4Table t i = m.child pml4Table t i := by
  unfold child
  simp only [present_congr h, next_congr h]

lemma large_congr {e e' : UInt64} (h : e' &&& pageDataPos = e &&& pageDataPos) :
    large e' ↔ large e := by
  unfold large
  rw [@and_data 0x80 (by decide), h, ← @and_data 0x80 (by decide)]

lemma page_congr (h : m'.entry t i &&& pageDataPos = m.entry t i &&& pageDataPos) :
    m'.page t i = m.page t i := by
  unfold page read
  simp only [present_congr h]
  split_ifs
  · rw [Option.map_some, Option.map_some, @and_data pageAddrPos (by decide),
      @and_data pageFlagsPos (by decide), h, ← @and_data pageAddrPos (by decide),
      ← @and_data pageFlagsPos (by decide)]
  · rfl

lemma page_of_data (h : m.entry t i &&& pageDataPos = pageEntry n flags) :
    m.page t i = some (n &&& pageAddrPos, flags &&& pageFlagsPos) := by
  unfold page read
  rw [if_pos (present_of_data h), Option.map_some, @and_data pageAddrPos (by decide),
    @and_data pageFlagsPos (by decide), h, pageEntry_addr, pageEntry_flags]

lemma counted_congr (h : m'.entry t = m.entry t) (hc : m.Counted t) : m'.Counted t := by
  have hcount : m'.count t = m.count t := count_congr fun j => present_congr (by rw [h])
  unfold Counted at hc ⊢
  rw [h, hc, hcount]

lemma read_congr (h : m'.entry t i = m.entry t i) : m'.read t i = m.read t i := by
  have hp : m'.present t i ↔ m.present t i := by
    unfold present
    rw [h]
  unfold read
  by_cases hm : m.present t i
  · rw [if_pos hm, if_pos (hp.mpr hm), h]
  · rw [if_neg hm, if_neg (mt hp.mp hm)]

lemma leaf_of_node (hx : Radix.node 512 (m.child pml4Table) pml4Table 3 x = some t) (hi : i < 512) :
    m.leaf pml4Table (512 * x + i) = m.page t i := by
  unfold leaf
  rw [Nat.mul_add_div (by norm_num), Nat.div_eq_of_lt hi, Nat.add_zero, hx, Option.bind_some,
    Nat.mul_add_mod, Nat.mod_eq_of_lt hi]

/-- The indices of the processor's walk are the digits of the page's number. -/
lemma index_digits (v : UInt64) : (getBits v 39 47).toNat = pageNumber v / 512 / 512 / 512 ∧
    (getBits v 30 38).toNat = pageNumber v / 512 / 512 % 512 ∧
    (getBits v 21 29).toNat = pageNumber v / 512 % 512 ∧
    (getBits v 12 20).toNat = pageNumber v % 512 := by
  rw [getBits_toNat v (by decide) (by decide), getBits_toNat v (by decide) (by decide),
    getBits_toNat v (by decide) (by decide), getBits_toNat v (by decide) (by decide)]
  unfold pageNumber
  change v.toNat % 2 ^ 48 / 2 ^ 39 = _ ∧ v.toNat % 2 ^ 39 / 2 ^ 30 = _ ∧
    v.toNat % 2 ^ 30 / 2 ^ 21 = _ ∧ v.toNat % 2 ^ 21 / 2 ^ 12 = _
  refine ⟨?_, ?_, ?_, ?_⟩ <;> omega

namespace WellFormed
variable (h : WellFormed m pml4Table user kernel)
include h

/-- From a table below user entries, the processor follows the tree. -/
lemma read_bind {β : Type*} (hd : d < 3) (ht : t ∈ user d) (hi : i < 512)
    (hne : ¬ (t = pml4Table ∧ i = 511)) (f : UInt64 → Option β) (g : UInt64 → Option β)
    (hfg : ∀ e, ¬ large e → f e = g ((e &&& pageAddrPos) + kernelVma)) :
    (m.read t i).bind f = (m.child pml4Table t i).bind g := by
  by_cases hp : m.present t i
  · have hc : m.child pml4Table t i = some (m.next t i) := child_eq_some.mpr ⟨hp, hi, hne, rfl⟩
    have hl := h.small d hd t ht i (by rw [hc]; exact Option.some_ne_none _)
    rw [read, if_pos hp, hc, Option.bind_some, Option.bind_some, hfg _ hl]
    rfl
  · have hc : m.child pml4Table t i = none := if_neg fun hx => hp hx.1
    rw [read, if_neg hp, hc]
    rfl

/-- The walk of a page below a user entry reads the leaf of its number. -/
theorem walk_user (hx : pageNumber v < 511 * 512 ^ 3) :
    m.walk pml4Table v = m.leaf pml4Table (pageNumber v) := by
  obtain ⟨h3, h2, h1, h0⟩ := index_digits v
  have hlt : pageNumber v / 512 / 512 / 512 < 511 := by omega
  have hmod : pageNumber v / 512 / 512 / 512 % 512 = pageNumber v / 512 / 512 / 512 :=
    Nat.mod_eq_of_lt (by omega)
  have hzero : pageNumber v / 512 / 512 / 512 / 512 = 0 := Nat.div_eq_of_lt (by omega)
  have hne : ∀ d, 1 ≤ d → d ≤ 3 → ∀ t ∈ user d, ∀ i, ¬ (t = pml4Table ∧ i = 511) := by
    rintro d hd hd3 t ht i ⟨rfl, -⟩
    have := h.forest.apart d hd3 0 (by omega) t ht h.forest.mem_root
    omega
  have hchild : ∀ d < 3, ∀ t ∈ user d, ∀ i u, m.child pml4Table t i = some u → u ∈ user (d + 1) :=
    h.forest.child_mem
  unfold walk leaf
  rw [h0, h1, h2, h3, Radix.node, Radix.node, Radix.node, Radix.node, if_pos hzero, Option.bind_some,
    hmod]
  rw [h.read_bind (by omega) h.forest.mem_root (by omega) (by omega) _
    (fun t => (m.read t (pageNumber v / 512 / 512 % 512)).bind _) fun e _ => rfl]
  cases hc1 : m.child pml4Table pml4Table (pageNumber v / 512 / 512 / 512) with
  | none => rfl
  | some t1 =>
    have ht1 := hchild 0 (by omega) _ h.forest.mem_root _ _ hc1
    rw [Option.bind_some, Option.bind_some, h.read_bind (by omega) ht1 (by omega)
      (hne 1 le_rfl (by omega) t1 ht1 _) _
      (fun t => (m.read t (pageNumber v / 512 % 512)).bind _) fun e he => if_neg he]
    cases hc2 : m.child pml4Table t1 (pageNumber v / 512 / 512 % 512) with
    | none => rfl
    | some t2 =>
      have ht2 := hchild 1 (by omega) _ ht1 _ _ hc2
      rw [Option.bind_some, Option.bind_some]
      exact h.read_bind (by omega) ht2 (by omega) (hne 2 (by omega) (by omega) t2 ht2 _) _ _
        fun e he => if_neg he

end WellFormed

/-- The walk of a page of the kernel reads the kernel's tables only. -/
theorem walk_kernel (h : WellFormed m pml4Table user kernel)
    (hroot : m'.entry pml4Table 511 &&& pageDataPos = m.entry pml4Table 511 &&& pageDataPos)
    (hsame : ∀ d, 1 ≤ d → d ≤ 3 → ∀ t ∈ kernel d, m'.entry t = m.entry t)
    (hx : 511 * 512 ^ 3 ≤ pageNumber v) : m'.walk pml4Table v = m.walk pml4Table v := by
  have h3 : (getBits v 39 47).toNat = 511 := by
    have hlt : pageNumber v < 2 ^ 36 := Nat.mod_lt _ (by norm_num)
    rw [(index_digits v).1]
    omega
  have hread : ∀ d, 1 ≤ d → d ≤ 3 → ∀ t ∈ kernel d, ∀ i, m'.read t i = m.read t i := by
    intro d h1 hd t ht i
    exact read_congr (congrFun (hsame d h1 hd t ht) i)
  have hlt : ∀ {l h' : UInt8}, h'.toNat < 63 → l.toNat ≤ h'.toNat → h'.toNat + 1 = l.toNat + 9 →
      (getBits v l h').toNat < 512 := by
    intro l h' hh hl hw
    rw [getBits_toNat v hh hl, hw, Nat.pow_add, Nat.mod_mul_right_div_self]
    exact Nat.mod_lt _ (by norm_num)
  unfold walk
  rw [h3]
  by_cases hp : m.present pml4Table 511
  · have hk1 : m.next pml4Table 511 ∈ kernel 1 := h.kernelRoot hp
    rw [read, if_pos ((present_congr hroot).mpr hp), read, if_pos hp, Option.bind_some,
      Option.bind_some]
    change (m'.read (m'.next pml4Table 511) _).bind _ = (m.read (m.next pml4Table 511) _).bind _
    rw [next_congr hroot]
    rw [hread 1 le_rfl (by omega) _ hk1]
    cases hc1 : m.read (m.next pml4Table 511) (getBits v 30 38).toNat with
    | none => rfl
    | some e1 =>
      obtain ⟨hp1, rfl⟩ := read_eq_some.mp hc1
      rw [Option.bind_some, Option.bind_some]
      split_ifs with hl
      · rfl
      · have hk2 := h.kernelNext 1 le_rfl (by omega) _ hk1 _ (hlt (by decide) (by decide) rfl) hp1 hl
        change (m'.read (m.next _ _) _).bind _ = (m.read (m.next _ _) _).bind _
        rw [hread 2 (by omega) (by omega) _ hk2]
        cases hc2 : m.read (m.next (m.next pml4Table 511) (getBits v 30 38).toNat)
            (getBits v 21 29).toNat with
        | none => rfl
        | some e2 =>
          obtain ⟨hp2, rfl⟩ := read_eq_some.mp hc2
          rw [Option.bind_some, Option.bind_some]
          split_ifs with hl2
          · rfl
          · have hk3 := h.kernelNext 2 (by omega) (by omega) _ hk2 _ (hlt (by decide) (by decide) rfl)
              hp2 hl2
            exact congrArg (Option.map _) (hread 3 (by omega) le_rfl _ hk3 _)
  · rw [read, if_neg (mt (present_congr hroot).mp hp), read, if_neg hp]
    rfl

lemma and_pageAddrPos_toNat (n : UInt64) :
    (n &&& pageAddrPos).toNat = n.toNat % 2 ^ 48 / 2 ^ 12 * 2 ^ 12 := by
  have hmask : pageAddrPos = 0xffffffffffff &&& ~~~(4096 - 1) := by decide
  have hlow : (0xffffffffffff : UInt64).toNat = 2 ^ 48 - 1 := rfl
  have hp : (4096 : UInt64).toNat = 2 ^ 12 := rfl
  have hdown := @alignDown_toNat (n &&& 0xffffffffffff) 4096 12 hp
  rw [hmask, ← UInt64.and_assoc]
  rw [UInt64.toNat_and, hlow, Nat.and_two_pow_sub_one_eq_mod] at hdown
  exact hdown

/-- A page of the linear mapping is found again from its physical address. -/
lemma linear_page (hp : kernelVma ≤ p) (hp' : p.toNat % 4096 = 0) :
    ((p - kernelVma) &&& pageAddrPos) + kernelVma = p := by
  have hv : kernelVma.toNat = 2 ^ 64 - 2 ^ 39 := by decide
  have hlt := p.toNat_lt
  have hsub := UInt64.toNat_sub_of_le _ _ hp
  rw [UInt64.le_iff_toNat_le, hv] at hp
  apply UInt64.toNat_inj.mp
  rw [UInt64.toNat_add, and_pageAddrPos_toNat, hsub, hv]
  omega

namespace WellFormed
variable (h : WellFormed m pml4Table user kernel)
include h

/-- The tables of tables keep their entries when one of pages is written. -/
lemma child_writePage (w : Writes m m' t i e) (ht : t ∈ user 3) (hd : d < 3) (hu : u ∈ user d) :
    m'.child pml4Table u = m.child pml4Table u := by
  have hne : u ≠ t := by
    rintro rfl
    have := h.forest.apart d hd.le 3 le_rfl u hu ht
    omega
  funext j
  exact child_congr (by rw [w.other u hne])

/-- An entry of a table of pages is written. -/
theorem writePage (w : Writes m m' t i e) (ht : t ∈ user 3) :
    WellFormed m' pml4Table user kernel := by
  have hne : ∀ d < 3, ∀ u ∈ user d, u ≠ t := by
    rintro d hd u hu rfl
    have := h.forest.apart d hd.le 3 le_rfl u hu ht
    omega
  have hker : ∀ d, 1 ≤ d → d ≤ 3 → ∀ u ∈ kernel d, m'.entry u = m.entry u := by
    intro d h1 hd u hu
    refine w.other u ?_
    rintro rfl
    exact h.apart 3 le_rfl d h1 hd u ht hu
  have hroot := w.other pml4Table (hne 0 (by omega) _ h.forest.mem_root)
  refine ⟨h.forest.congr fun d hd u hu => h.child_writePage w ht hd hu, fun d hd u hu j hc => ?_,
    fun d hd u hu => ?_, fun hp => ?_, fun d h1 hd u hu j hj hp hl => ?_, h.apart⟩
  · have hsame := w.other u (hne d hd u hu)
    have hch : m'.child pml4Table u j = m.child pml4Table u j := child_congr (by rw [hsame])
    rw [hsame]
    exact h.small d hd u hu j (hch ▸ hc)
  · by_cases hut : u = t
    · exact hut ▸ w.counted (hut ▸ h.counted d hd u hu)
    · exact counted_congr (w.other u hut) (h.counted d hd u hu)
  · have hnext : m'.next pml4Table 511 = m.next pml4Table 511 := next_congr (by rw [hroot])
    rw [hnext]
    exact h.kernelRoot ((present_congr (by rw [hroot])).mp hp)
  · have hsame := hker d h1 hd.le u hu
    have hnext : m'.next u j = m.next u j := next_congr (by rw [hsame])
    rw [hsame] at hl
    rw [hnext]
    exact h.kernelNext d h1 hd u hu j hj ((present_congr (by rw [hsame])).mp hp) hl

/-- It changes the leaf of its number. -/
theorem leaf_writePage (w : Writes m m' t i e) (hi : i < 512)
    (hx : Radix.node 512 (m.child pml4Table) pml4Table 3 x = some t) :
    m'.leaf pml4Table (512 * x + i) = m'.page t i ∧
      ∀ y ≠ 512 * x + i, m'.leaf pml4Table y = m.leaf pml4Table y := by
  have ht : t ∈ user 3 := h.forest.node_mem le_rfl hx
  have hchild : ∀ d < 3, ∀ u ∈ user d, m'.child pml4Table u = m.child pml4Table u :=
    fun d hd u hu => h.child_writePage w ht hd hu
  have hnode : ∀ y, Radix.node 512 (m'.child pml4Table) pml4Table 3 y =
      Radix.node 512 (m.child pml4Table) pml4Table 3 y := fun y => h.forest.node_congr hchild le_rfl
  refine ⟨leaf_of_node ((hnode x).trans hx) hi, fun y hy => ?_⟩
  unfold leaf
  rw [hnode]
  cases hu : Radix.node 512 (m.child pml4Table) pml4Table 3 (y / 512) with
  | none => rfl
  | some u =>
    rw [Option.bind_some, Option.bind_some]
    by_cases hut : u = t
    · subst hut
      have hyx := h.forest.node_inj le_rfl hu hx
      exact page_congr (w.same _ (by omega))
    · exact page_congr (by rw [w.other u hut])

end WellFormed

/-- An entry that was not present leads to the page `p`, zeroed. -/
structure NewTable (m m' : PageTables) (pml4Table : UInt64) (user kernel : ℕ → Set UInt64) (d : ℕ)
    (t : UInt64) (i : ℕ) (p : UInt64) : Prop where
  depth : d < 3
  mem : t ∈ user d
  index : i < 512
  slot : ¬ (t = pml4Table ∧ i = 511)
  absent : ¬ m.present t i
  linear : kernelVma ≤ p ∧ p.toNat % 4096 = 0
  fresh : ∀ e ≤ 3, p ∉ user e
  freshKernel : ∀ e, 1 ≤ e → e ≤ 3 → p ∉ kernel e
  zero : m'.entry p = fun _ => 0
  other : ∀ u, u ≠ t → u ≠ p → m'.entry u = m.entry u
  same : ∀ j ≠ i, m'.entry t j &&& pageDataPos = m.entry t j &&& pageDataPos
  data : m'.entry t i &&& pageDataPos = pageEntry (p - kernelVma) vAllPermissions
  counted : m.Counted t → m'.Counted t
  counter : pageCounterGet (m'.entry t 0) = (pageCounterGet (m.entry t 0) + 1) &&& 1023

namespace NewTable
variable (h : WellFormed m pml4Table user kernel) (N : NewTable m m' pml4Table user kernel d t i p)

section
include N

lemma ne : t ≠ p := by
  rintro rfl
  exact N.fresh d N.depth.le N.mem

lemma next_eq : m'.next t i = p := by
  unfold next
  rw [@and_data pageAddrPos (by decide), N.data, pageEntry_addr]
  exact linear_page N.linear.1 N.linear.2

lemma child_eq : m'.child pml4Table t i = some p :=
  child_eq_some.mpr ⟨present_of_data N.data, N.index, N.slot, N.next_eq⟩

lemma not_present (j : ℕ) : ¬ m'.present p j :=
  not_present_of_data (by rw [N.zero, UInt64.zero_and])

/-- The entries of the other tables are the same ones. -/
lemma data_of_mem {e : ℕ} (he : e ≤ 3) (hu : u ∈ user e) (hj : ¬ (u = t ∧ j = i)) :
    m'.entry u j &&& pageDataPos = m.entry u j &&& pageDataPos := by
  by_cases hut : u = t
  · rw [hut]
    exact N.same j fun hji => hj ⟨hut, hji⟩
  · have hup : u ≠ p := by
      rintro rfl
      exact N.fresh e he hu
    rw [N.other u hut hup]

lemma grows : Radix.Grows (m.child pml4Table) (m'.child pml4Table) 3 user d t i p where
  depth := N.depth
  mem := N.mem
  free := if_neg fun hx => N.absent hx.1
  fresh := N.fresh
  empty j := if_neg fun hx => N.not_present j hx.1
  entry := N.child_eq
  same _ he _ hu _ hj := child_congr (N.data_of_mem he.le hu hj)

end

include h N

lemma kernel_same {e : ℕ} (h1 : 1 ≤ e) (he : e ≤ 3) (hu : u ∈ kernel e) : m'.entry u = m.entry u := by
  apply N.other
  · rintro rfl
    exact h.apart d N.depth.le e h1 he u N.mem hu
  · rintro rfl
    exact N.freshKernel e h1 he hu

lemma root_same : m'.entry pml4Table 511 &&& pageDataPos = m.entry pml4Table 511 &&& pageDataPos :=
  N.data_of_mem (Nat.zero_le 3) h.forest.mem_root fun hx => N.slot ⟨hx.1.symm, hx.2.symm⟩

theorem wellFormed : WellFormed m' pml4Table (Radix.grown user d p) kernel := by
  have hF := N.grows.forest h.forest
  refine ⟨hF, fun e he u hm j hc => ?_, fun e he u hm => ?_, fun hp => ?_,
    fun e h1 he u hu j hj hp hl => ?_, fun e he f h1 hf u hm => ?_⟩
  · rcases Radix.mem_grown.mp hm with hu | ⟨-, rfl⟩
    · by_cases hut : u = t ∧ j = i
      · obtain ⟨rfl, rfl⟩ := hut
        have hs : pageFlagsPos &&& 0x80 = 0x80 := by decide
        have ha : pageAddrPos &&& 0x80 = 0 := by decide
        unfold large
        rw [@and_data 0x80 (by decide), N.data, pageEntry_and, ha, hs, UInt64.and_zero]
        decide
      · have hdata := N.data_of_mem he.le hu hut
        have hch : m'.child pml4Table u j = m.child pml4Table u j := child_congr hdata
        rw [large_congr hdata]
        exact h.small e he u hu j (hch ▸ hc)
    · exact absurd (if_neg fun hx => N.not_present j hx.1) hc
  · rcases Radix.mem_grown.mp hm with hu | ⟨-, rfl⟩
    · by_cases hut : u = t
      · exact hut ▸ N.counted (hut ▸ h.counted e he u hu)
      · have hup : u ≠ p := by
          rintro rfl
          exact N.fresh (e + 1) he hu
        exact counted_congr (N.other u hut hup) (h.counted e he u hu)
    · have hcount : m'.count u = 0 := by
        unfold count
        rw [Finset.card_eq_zero, Finset.filter_eq_empty_iff]
        exact fun j _ => N.not_present j
      unfold Counted
      rw [hcount, N.zero]
      rfl
  · have hroot := N.root_same h
    rw [next_congr hroot]
    exact h.kernelRoot ((present_congr hroot).mp hp)
  · have hsame := N.kernel_same h h1 he.le hu
    have hnext : m'.next u j = m.next u j := next_congr (by rw [hsame])
    rw [hsame] at hl
    rw [hnext]
    exact h.kernelNext e h1 he u hu j hj ((present_congr (by rw [hsame])).mp hp) hl
  · rcases Radix.mem_grown.mp hm with hu | ⟨-, rfl⟩
    · exact h.apart e he f h1 hf u hu
    · exact N.freshKernel f h1 hf

/-- No page is mapped by a new table. -/
theorem leaf_eq (x : ℕ) : m'.leaf pml4Table x = m.leaf pml4Table x := by
  have hG := N.grows
  unfold leaf
  cases hu : Radix.node 512 (m.child pml4Table) pml4Table 3 (x / 512) with
  | some u =>
    have hmem := h.forest.node_mem le_rfl hu
    rw [hG.node_mono h.forest le_rfl hu, Option.bind_some, Option.bind_some]
    apply page_congr
    apply N.data_of_mem le_rfl hmem
    rintro ⟨rfl, -⟩
    have := h.forest.apart 3 le_rfl d N.depth.le u hmem N.mem
    have := N.depth
    omega
  | none =>
    cases hu' : Radix.node 512 (m'.child pml4Table) pml4Table 3 (x / 512) with
    | none => rfl
    | some u =>
      rcases hG.node_or h.forest le_rfl hu' with hold | rfl
      · rw [hu] at hold
        cases hold
      · rw [Option.bind_some, page, read, if_neg (N.not_present _)]
        rfl

end NewTable
/-- The tables that the kernel's entry leads to, and that the pages to come are none of them. -/
structure KernelTables (m : PageTables) (kernelPdpTable : UInt64) (kernel : ℕ → Set UInt64) : Prop where
  root : (kernelPdpTable &&& pageAddrPos) + kernelVma ∈ kernel 1
  next : ∀ d, 1 ≤ d → d < 3 → ∀ t ∈ kernel d, ∀ i < 512, m.present t i → ¬ large (m.entry t i) →
    m.next t i ∈ kernel (d + 1)
  fresh : Fresh m.supply (fun _ => ∅) kernel

/-- The tables of a new address space. -/
def newUser (pml4Table : UInt64) (d : ℕ) : Set UInt64 := if d = 0 then {pml4Table} else ∅

lemma mem_newUser : u ∈ newUser pml4Table d ↔ d = 0 ∧ u = pml4Table := by
  unfold newUser
  split_ifs with hd
  · simp [hd]
  · simp [hd]

theorem construct_wellFormed {kernelPdpTable : UInt64} {ps : List UInt64}
    (hk : KernelTables m kernelPdpTable kernel) (hs : m.supply = p :: ps) (hp : p ≠ 0) :
    (construct kernelPdpTable m).1 = p ∧
      WellFormed (construct kernelPdpTable m).2 p (newUser p) kernel ∧
      Fresh (construct kernelPdpTable m).2.supply (newUser p) kernel ∧
      ∀ x, (construct kernelPdpTable m).2.leaf p x = none := by
  have halloc : m.allocz = (p, { m with
      entry := Function.update m.entry p fun _ => 0
      supply := ps }) := by
    unfold allocz
    rw [hs]
    simp only [if_neg hp]
  have h511 : (getBits kernelVma 39 47).toNat = 511 := by decide
  have hc : construct kernelPdpTable m = (p, ({ m with
      entry := Function.update m.entry p fun _ => 0
      supply := ps } : PageTables).pageSet p 511 kernelPdpTable 2 |>.2) := by
    unfold construct
    rw [halloc]
    simp only [h511]
  rw [hc]
  have hmem : p ∈ m.supply := by simp [hs]
  set m1 : PageTables := { m with entry := Function.update m.entry p fun _ => 0, supply := ps } with hm1
  have hother : ∀ u ≠ p, (m1.pageSet p 511 kernelPdpTable 2).2.entry u = m.entry u := by
    intro u hu
    rw [pageSet_other hu, hm1]
    exact Function.update_of_ne hu _ _
  have hnone : ∀ i ≠ 511, ¬ (m1.pageSet p 511 kernelPdpTable 2).2.present p i := by
    intro i hi
    apply not_present_of_data
    rw [pageSet_same hi, hm1]
    simp only [Function.update_self, UInt64.zero_and]
  have hker : ∀ d, 1 ≤ d → d ≤ 3 → ∀ t ∈ kernel d, t ≠ p := by
    rintro d h1 hd t ht rfl
    exact hk.fresh.kernel t hmem hp d h1 hd ht
  have hchild : ∀ i, (m1.pageSet p 511 kernelPdpTable 2).2.child p p i = none := by
    intro i
    unfold child
    by_cases hi : i = 511
    · simp [hi]
    · simp [hnone i hi]
  have hforest : Radix.Forest ((m1.pageSet p 511 kernelPdpTable 2).2.child p) p 3 (newUser p) := by
    refine ⟨rfl, fun d _ t ht i c hc => ?_, fun d _ e _ t ht hu => ?_,
      fun d _ t ht u _ i j c hc _ => ?_⟩
    · rw [(mem_newUser.mp ht).2, hchild] at hc
      cases hc
    · exact (mem_newUser.mp ht).1.trans (mem_newUser.mp hu).1.symm
    · rw [(mem_newUser.mp ht).2, hchild] at hc
      cases hc
  refine ⟨rfl, ⟨hforest, fun d _ t ht i hi => ?_, fun d _ t ht => ?_, fun _ => ?_,
    fun d h1 hd t ht i hi hpr hl => ?_, fun d _ e h1 he t ht hke => ?_⟩, ⟨?_, ?_, ?_, ?_⟩, fun x => ?_⟩
  · rw [(mem_newUser.mp ht).2] at hi
    exact absurd (hchild i) hi
  · exact absurd (mem_newUser.mp ht).1 (Nat.succ_ne_zero d)
  · unfold next
    rw [@and_data pageAddrPos (by decide), pageSet_data, pageEntry_addr]
    exact hk.root
  · have hsame := hother t (hker d h1 hd.le t ht)
    have hnext : (m1.pageSet p 511 kernelPdpTable 2).2.next t i = m.next t i :=
      next_congr (by rw [hsame])
    rw [hsame] at hl
    rw [hnext]
    exact hk.next d h1 hd t ht i hi ((present_congr (by rw [hsame])).mp hpr) hl
  · exact hker e h1 he t hke (mem_newUser.mp ht).2
  · exact List.Pairwise.of_cons (hs ▸ hk.fresh.distinct)
  · exact fun q hq => hk.fresh.linear q (by rw [hs]; exact List.mem_cons_of_mem _ hq)
  · intro q hq hq0 d hd hm
    have hpq := List.rel_of_pairwise_cons (hs ▸ hk.fresh.distinct) hq
    exact hpq.resolve_left hp (mem_newUser.mp hm).2.symm
  · exact fun q hq => hk.fresh.kernel q (by rw [hs]; exact List.mem_cons_of_mem _ hq)
  · unfold leaf
    cases hu : Radix.node 512 ((m1.pageSet p 511 kernelPdpTable 2).2.child p) p 3 (x / 512) with
    | none => rfl
    | some u => exact absurd (mem_newUser.mp (hforest.node_mem le_rfl hu)).1 (by decide)

end PageTables
end EpochKernel.Mem
