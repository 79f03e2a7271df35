import EpochKernel.Library.Block
import EpochKernel.Mem.Pallocator

/-! The tiling invariant of the buddy allocator, and what each change of the free lists does to it.
Free zones and live allocations are read as aligned blocks; the library's tilings say that they
fill the managed range without overlap. -/
namespace EpochKernel.Mem
open EpochKernel.Util EpochKernel.Util.LinkedList EpochKernel.Library EpochKernel.Library.Block

/-- A live allocation: its address and order. -/
abbrev Allocation := UInt64 × UInt8

/-- The blocks stored in a family of zone lists, for units of `2 ^ fo` bytes. -/
def blocksOf (fo : ℕ) (q : ℕ → List UInt64) : Set Block :=
  {d | ∃ k, ∃ a ∈ q k, d.base = a.toNat ∧ d.exp = fo + k}

def liveBlocks (fo : ℕ) (live : List Allocation) : Set Block :=
  {d | ∃ b ∈ live, d.base = b.1.toNat ∧ d.exp = fo + b.2.toNat}

namespace Layout

/-- What `init` establishes for the constant fields. -/
structure Valid (c : Layout) : Prop where
  unit : c.firstOrderSize.toNat = 2 ^ c.foBits.toNat
  start_dvd : 2 ^ c.foBits.toNat ∣ c.startAddr.toNat
  end_dvd : 2 ^ c.foBits.toNat ∣ c.endAddr.toNat
  end_le : c.endAddr.toNat + 2 ^ 31 ≤ 2 ^ 64
  meta_le : c.endAddr.toNat + (c.endAddr.toNat - c.startAddr.toNat) / 2 ^ c.foBits.toNat ≤ 2 ^ 64
  order_lt : c.maxOrder.toNat < maxSupportedMemBits
  maximal : ∀ d : Block, c.startAddr.toNat ≤ d.base → d.top ≤ c.endAddr.toNat →
    d.exp ≤ c.foBits.toNat + c.maxOrder.toNat

variable {c : Layout}

/-- The `int` shift gives the size of a block as long as that is at most 1 GiB. -/
lemma getOrderSize_toNat {order : UInt8} (h : c.foBits.toNat + order.toNat ≤ 30) :
    (c.getOrderSize order).toNat = 2 ^ (c.foBits.toNat + order.toNat) := by
  have he : order.toUInt32 + c.foBits.toUInt32 = UInt32.ofNat (c.foBits.toNat + order.toNat) := by
    apply UInt32.toNat_inj.mp
    simp only [UInt32.toNat_add, UInt8.toNat_toUInt32, UInt32.toNat_ofNat']
    omega
  rw [getOrderSize, he, intShl_toNat (by omega)]

lemma Valid.getMeta_toNat (h : c.Valid) {a : UInt64} (hlo : c.startAddr.toNat ≤ a.toNat)
    (hhi : a.toNat < c.endAddr.toNat) :
    (c.getMeta a).toNat =
      (a.toNat - c.startAddr.toNat) / 2 ^ c.foBits.toNat + c.endAddr.toNat := by
  have hsub : (a - c.startAddr).toNat = a.toNat - c.startAddr.toNat :=
    UInt64.toNat_sub_of_le _ _ (UInt64.le_iff_toNat_le.mpr hlo)
  have hp := Nat.two_pow_pos c.foBits.toNat
  have hlt : (a.toNat - c.startAddr.toNat) / 2 ^ c.foBits.toNat <
      (c.endAddr.toNat - c.startAddr.toNat) / 2 ^ c.foBits.toNat := by
    refine Nat.div_lt_div_of_lt_of_dvd (Nat.dvd_sub h.end_dvd h.start_dvd) ?_
    omega
  have hm := h.meta_le
  rw [getMeta, UInt64.toNat_add, UInt64.toNat_div, hsub, h.unit, Nat.mod_eq_of_lt (by omega)]

/-- Two addresses share a metadata byte exactly when they lie in the same unit. -/
lemma Valid.getMeta_inj (h : c.Valid) {a b : UInt64} (ha : c.startAddr.toNat ≤ a.toNat)
    (ha' : a.toNat < c.endAddr.toNat) (hb : c.startAddr.toNat ≤ b.toNat)
    (hb' : b.toNat < c.endAddr.toNat) :
    c.getMeta a = c.getMeta b ↔
      a.toNat / 2 ^ c.foBits.toNat = b.toNat / 2 ^ c.foBits.toNat := by
  rw [← UInt64.toNat_inj, h.getMeta_toNat ha ha', h.getMeta_toNat hb hb']
  obtain ⟨s, hs⟩ := h.start_dvd
  have hp := Nat.two_pow_pos c.foBits.toNat
  have hdiv : ∀ x, c.startAddr.toNat ≤ x →
      (x - c.startAddr.toNat) / 2 ^ c.foBits.toNat + s = x / 2 ^ c.foBits.toNat := by
    intro x hx
    rw [← Nat.add_mul_div_left _ _ hp, ← hs]
    congr 1
    omega
  have h1 := hdiv _ ha
  have h2 := hdiv _ hb
  omega

end Layout

namespace Pallocator

/-- The bytes managed by the allocator. -/
def lo (p : Pallocator) : ℕ := p.startAddr.toNat
def hi (p : Pallocator) : ℕ := p.endAddr.toNat
def fo (p : Pallocator) : ℕ := p.foBits.toNat

/-- The invariant, for the zone sequences `q` stored in `lists`. -/
structure Holds (p : Pallocator) (live : List Allocation) (q : ℕ → List UInt64) : Prop where
  layout : p.toLayout.Valid
  family : Family p.links p.lists q
  zone : ∀ k, ∀ a ∈ q k, 2 ^ (p.fo + k) ∣ a.toNat ∧ (p.n a).toNat = 2 ^ (p.fo + k)
  allocation : ∀ b ∈ live, 2 ^ (p.fo + b.2.toNat) ∣ b.1.toNat
  tiles : Tiles (blocksOf p.fo q ∪ liveBlocks p.fo live) p.lo p.hi
  separate : ∀ d ∈ blocksOf p.fo q, d ∉ liveBlocks p.fo live
  nodup : live.Nodup
  alloced : ∀ a : UInt64, 2 ^ p.fo ∣ a.toNat → p.lo ≤ a.toNat → a.toNat < p.hi →
    ((p.metadata (p.getMeta a)).alloced = true ↔ ∃ b ∈ live, b.1 = a)
  order : ∀ b ∈ live, (p.metadata (p.getMeta b.1)).order = b.2

/-- The block of order `k` at address `a`. -/
def block (p : Pallocator) (k : ℕ) (a : UInt64) (h : 2 ^ (p.fo + k) ∣ a.toNat) : Block :=
  ⟨a.toNat, p.fo + k, h⟩

end Pallocator

section Sets
variable {fo k : ℕ} {q : ℕ → List UInt64} {d : Block} {a : UInt64}

lemma exists_of_exp (hd : d ∈ blocksOf fo q) (he : d.exp = fo + k) :
    ∃ a ∈ q k, d.base = a.toNat := by
  obtain ⟨k', a, ha, hb, he'⟩ := hd
  obtain rfl : k' = k := by omega
  exact ⟨a, ha, hb⟩

/-- What holds of the zones of all lists holds after the change of one list, if it holds of the zones
of the new list. -/
lemma forall_mem_update {P : ℕ → UInt64 → Prop} {as : List UInt64} (hq : ∀ j, ∀ a ∈ q j, P j a)
    (has : ∀ a ∈ as, P k a) : ∀ j, ∀ a ∈ Function.update q k as j, P j a := by
  intro j a ha
  by_cases hj : j = k
  · subst hj
    rw [Function.update_self] at ha
    exact has a ha
  · rw [Function.update_of_ne hj] at ha
    exact hq j a ha

lemma blocksOf_append (fo : ℕ) (hb : d.base = a.toNat) (he : d.exp = fo + k) :
    blocksOf fo (Function.update q k (q k ++ [a])) = blocksOf fo q ∪ {d} := by
  ext e
  constructor
  · rintro ⟨k', a', ha', hb', he'⟩
    by_cases hk : k' = k
    · subst hk
      rw [Function.update_self, List.mem_append, List.mem_singleton] at ha'
      rcases ha' with ha' | rfl
      · exact Or.inl ⟨k', a', ha', hb', he'⟩
      · exact Or.inr (Block.ext (hb'.trans hb.symm) (he'.trans he.symm))
    · rw [Function.update_of_ne hk] at ha'
      exact Or.inl ⟨k', a', ha', hb', he'⟩
  · rintro (⟨k', a', ha', hb', he'⟩ | rfl)
    · refine ⟨k', a', ?_, hb', he'⟩
      by_cases hk : k' = k
      · subst hk
        simp [ha']
      · simpa [hk] using ha'
    · exact ⟨k, a, by simp, hb, he⟩

lemma blocksOf_erase (fo : ℕ) {H : Links UInt64} {L : ℕ → LinkedList UInt64} (hf : Family H L q)
    (hb : d.base = a.toNat) (he : d.exp = fo + k) :
    blocksOf fo (Function.update q k ((q k).erase a)) = blocksOf fo q \ {d} := by
  ext e
  constructor
  · rintro ⟨k', a', ha', hb', he'⟩
    by_cases hk : k' = k
    · subst hk
      rw [Function.update_self, (hf.nodup k').mem_erase_iff] at ha'
      refine ⟨⟨k', a', ha'.2, hb', he'⟩, ?_⟩
      rintro rfl
      exact ha'.1 (UInt64.toNat_inj.mp (hb'.symm.trans hb))
    · rw [Function.update_of_ne hk] at ha'
      refine ⟨⟨k', a', ha', hb', he'⟩, ?_⟩
      rintro rfl
      omega
  · rintro ⟨⟨k', a', ha', hb', he'⟩, hne⟩
    refine ⟨k', a', ?_, hb', he'⟩
    by_cases hk : k' = k
    · subst hk
      rw [Function.update_self, (hf.nodup k').mem_erase_iff]
      refine ⟨?_, ha'⟩
      rintro rfl
      exact hne (Block.ext (hb'.trans hb.symm) (he'.trans he.symm))
    · simpa [hk] using ha'

lemma blocksOf_update_dropLast (fo : ℕ) {H : Links UInt64} {L : ℕ → LinkedList UInt64} {xs : List UInt64}
    (hf : Family H L q) (hq : q k = xs ++ [a]) (hb : d.base = a.toNat) (he : d.exp = fo + k) :
    blocksOf fo (Function.update q k xs) = blocksOf fo q \ {d} := by
  have hnd := hf.nodup k
  rw [hq] at hnd
  have ha : a ∉ xs := fun ha => (List.nodup_append.mp hnd).2.2 _ ha _ (by simp) rfl
  have hx : (q k).erase a = xs := by
    rw [hq, List.erase_append_right _ ha, List.erase_cons_head, List.append_nil]
  rw [← blocksOf_erase fo hf hb he, hx]

end Sets
end EpochKernel.Mem
