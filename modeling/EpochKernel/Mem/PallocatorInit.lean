import EpochKernel.Mem.PallocatorInvariant

/-! `pallocator::init`. Its loop fills the range greedily: every zone is as large as its address
and the remaining space allow, so no two zones are buddies and no larger block fits anywhere. -/
namespace EpochKernel.Mem.Pallocator
open EpochKernel.Util EpochKernel.Util.LinkedList EpochKernel.Library EpochKernel.Library.Block

lemma shrink_spec (fuel : ℕ) (limit : UInt64) {size : UInt64} {v : ℕ} (hs : size.toNat = 2 ^ v)
    (hfuel : v < fuel) (hl : 0 < limit.toNat) :
    ∃ j ≤ v, (shrink limit fuel size).toNat = 2 ^ j ∧ 2 ^ j ≤ limit.toNat ∧
      (j < v → limit.toNat < 2 ^ (j + 1)) := by
  induction fuel generalizing size v with
  | zero => omega
  | succ fuel ih =>
    by_cases hgt : size > limit
    · rw [shrink, if_pos hgt]
      rw [gt_iff_lt, UInt64.lt_iff_toNat_lt, hs] at hgt
      obtain ⟨w, rfl⟩ : ∃ w, v = w + 1 := by
        rcases v with _ | w
        · simp at hgt
          omega
        · exact ⟨w, rfl⟩
      have hhalf : (size >>> 1).toNat = 2 ^ w := by
        rw [UInt64.toNat_shiftRight, hs]
        simp [Nat.shiftRight_eq_div_pow, pow_succ]
      obtain ⟨j, hj, h1, h2, h3⟩ := ih hhalf (by omega)
      refine ⟨j, by omega, h1, h2, fun hlt => ?_⟩
      rcases Nat.eq_or_lt_of_le hj with rfl | hj
      · exact hgt
      · exact h3 hj
    · rw [shrink, if_neg hgt]
      rw [gt_iff_lt, UInt64.lt_iff_toNat_lt, hs] at hgt
      exact ⟨v, le_rfl, hs, by omega, by omega⟩

/-- A positive number is an odd multiple of a power of two. -/
lemma exists_lowest_bit {a : ℕ} (h : a ≠ 0) : ∃ v m, a = 2 ^ (v + 1) * m + 2 ^ v := by
  obtain ⟨v, m, hm, rfl⟩ := Nat.exists_eq_two_pow_mul_odd h
  obtain ⟨i, rfl⟩ := hm
  exact ⟨v, i, by ring⟩

/-- What the loop of `init` has established when it reaches the address `t`. -/
structure Filling (p : Pallocator) (q : ℕ → List UInt64) (t : UInt64) : Prop where
  unit : p.firstOrderSize.toNat = 2 ^ p.fo
  bits : p.fo < 64
  start_dvd : 2 ^ p.fo ∣ p.lo
  end_dvd : 2 ^ p.fo ∣ p.hi
  dvd : 2 ^ p.fo ∣ t.toNat
  le : t.toNat ≤ p.hi
  ge : p.lo ≤ t.toNat
  family : Family p.links p.lists q
  zone : ∀ k, ∀ a ∈ q k, 2 ^ (p.fo + k) ∣ a.toNat ∧ (p.n a).toNat = 2 ^ (p.fo + k)
  nonzero : ∀ k, 0 ∉ q k
  tiles : Tiles (blocksOf p.fo q) p.lo t.toNat
  fits : ∀ d ∈ blocksOf p.fo q, 2 ^ (d.exp + 1) ∣ d.base → p.hi < d.base + 2 ^ (d.exp + 1)
  order_le : ∀ k, q k ≠ [] → k ≤ p.maxOrder.toNat
  order_lt : p.maxOrder.toNat < maxSupportedMemBits
  max_used : p.maxOrder.toNat = 0 ∨ q p.maxOrder.toNat ≠ []
  space : p.freeSpace.toNat = t.toNat - p.lo

/-- One iteration: the new zone, and the state after it. -/
def fillZone (p : Pallocator) (t : UInt64) : Pallocator :=
  let size := shrink (p.endAddr - t) 64 (alignOf t)
  let p := { p.setN t size with freeSpace := p.freeSpace + size }
  let orderI := log2 size - p.foBits
  let p := p.append orderI t
  if orderI > p.maxOrder then { p with maxOrder := orderI } else p

lemma initLoop_succ (p : Pallocator) (t : UInt64) (fuel : ℕ) :
    initLoop (fuel + 1) t p =
      if t < p.endAddr then
        let size := shrink (p.endAddr - t) 64 (alignOf t)
        if (log2 size - p.foBits).toNat < maxSupportedMemBits then
          initLoop fuel (t + size) (p.fillZone t)
        else none
      else some p := by
  rw [initLoop]
  rfl

variable {p : Pallocator} {q : ℕ → List UInt64} {t : UInt64}

/-- The size of the next zone: the largest block that starts at `t` and ends in the range. -/
lemma Filling.size (h : Filling p q t) (hlt : t.toNat < p.hi) (ht : t ≠ 0)
    (ht' : t.toNat ≠ 2 ^ 63) :
    ∃ k, (shrink (p.endAddr - t) 64 (alignOf t)).toNat = 2 ^ (p.fo + k) ∧
      2 ^ (p.fo + k) ∣ t.toNat ∧ t.toNat + 2 ^ (p.fo + k) ≤ p.hi ∧
      (2 ^ (p.fo + k + 1) ∣ t.toNat → p.hi < t.toNat + 2 ^ (p.fo + k + 1)) ∧ p.fo + k < 64 := by
  have htn : t.toNat ≠ 0 := fun h0 => ht (UInt64.toNat_inj.mp h0)
  obtain ⟨v, m, hv⟩ := exists_lowest_bit htn
  have hsub : (p.endAddr - t).toNat = p.hi - t.toNat :=
    UInt64.toNat_sub_of_le _ _ (UInt64.le_iff_toNat_le.mpr hlt.le)
  have hvlt : v < 64 := by
    by_contra hge
    have : 2 ^ 64 ≤ 2 ^ v := Nat.pow_le_pow_right (by norm_num) (by omega)
    have := t.toNat_lt
    omega
  have hndvd : ¬ 2 ^ (v + 1) ∣ t.toNat := by
    intro hd
    rw [hv, Nat.dvd_add_right (Dvd.intro _ rfl)] at hd
    exact absurd (Nat.le_of_dvd (Nat.two_pow_pos v) hd) (by
      rw [pow_succ]
      have := Nat.two_pow_pos v
      omega)
  have hv63 : v ≠ 63 := by
    rintro rfl
    rcases m with _ | m
    · exact ht' (by simpa using hv)
    · have := t.toNat_lt
      rw [hv] at this
      omega
  have hal := alignOf_toNat hv
  rw [if_neg hv63] at hal
  obtain ⟨j, hjv, hj, hjle, hjmax⟩ := shrink_spec 64 (p.endAddr - t) hal hvlt
    (by rw [hsub]; omega)
  rw [hsub] at hjle hjmax
  have hdvdv : 2 ^ v ∣ t.toNat := by
    rw [hv]
    exact Nat.dvd_add ((pow_dvd_pow 2 (by omega)).trans (Dvd.intro _ rfl)) dvd_rfl
  -- the size is at least one unit, as both ends of the remaining space are multiples of it
  have hfo : p.fo ≤ j := by
    rcases Nat.lt_or_ge j v with hlt' | hge
    · have h1 := hjmax hlt'
      have h2 : 2 ^ p.fo ≤ p.hi - t.toNat :=
        Nat.le_of_dvd (by omega) (Nat.dvd_sub h.end_dvd h.dvd)
      have := (Nat.pow_lt_pow_iff_right (a := 2) (by norm_num)).mp (h2.trans_lt h1)
      omega
    · by_contra hlt'
      exact hndvd ((pow_dvd_pow 2 (by omega)).trans h.dvd)
  obtain ⟨k, rfl⟩ := Nat.exists_eq_add_of_le hfo
  refine ⟨k, hj, (pow_dvd_pow 2 hjv).trans hdvdv, by omega, fun hd => ?_, by omega⟩
  rcases Nat.lt_or_ge (p.fo + k) v with hlt' | hge
  · have := hjmax hlt'
    omega
  · exact absurd hd (by rwa [show p.fo + k = v by omega])

lemma order_of_size {size : UInt64} {k : ℕ} (h : size.toNat = 2 ^ (p.fo + k)) :
    (log2 size - p.foBits).toNat = k := by
  have hl := log2_toNat_two_pow h
  rw [UInt8.toNat_sub_of_le _ _ (UInt8.le_iff_toNat_le.mpr (by simp only [hl, fo]; omega)), hl]
  simp only [fo]
  omega

/-- The next zone extends the tiling. -/
lemma Filling.tiles_append (h : Filling p q t) {k : ℕ} (d : Block) (hb : d.base = t.toNat)
    (he : d.exp = p.fo + k) :
    Tiles (blocksOf p.fo q ∪ {d}) p.lo (t.toNat + 2 ^ (p.fo + k)) := by
  have htop : d.top = t.toNat + 2 ^ (p.fo + k) := by rw [top, hb, Block.size, he]
  have hpos := Nat.two_pow_pos (p.fo + k)
  have hge := h.ge
  have hsep : ∀ e ∈ blocksOf p.fo q, ∀ x ∈ e, x ∉ d := by
    intro e hin x hx hxd
    have h1 := (h.tiles.inside e hin).2
    have h2 := hx.2
    have h3 := hxd.1
    omega
  constructor
  · intro x hlo hhi
    rcases Nat.lt_or_ge x t.toNat with hlt | hge'
    · obtain ⟨e, he', hx⟩ := h.tiles.cover x hlo hlt
      exact ⟨e, Or.inl he', hx⟩
    · exact ⟨d, Or.inr rfl, by rw [mem_iff, htop, hb]; exact ⟨hge', hhi⟩⟩
  · rintro e (hin | rfl)
    · obtain ⟨h1, h2⟩ := h.tiles.inside e hin
      exact ⟨h1, by omega⟩
    · exact ⟨by omega, by omega⟩
  · rintro e (hin | rfl) f (hin' | rfl) x hx hx'
    · exact h.tiles.disjoint e hin f hin' x hx hx'
    · exact absurd hx' (hsep e hin x hx)
    · exact absurd hx (hsep f hin' x hx')
    · rfl

lemma fillZone_fields (p : Pallocator) (t : UInt64) :
    let size := shrink (p.endAddr - t) 64 (alignOf t)
    let orderI := log2 size - p.foBits
    let p' := (p.setN t size).append orderI t
    (p.fillZone t).links = p'.links ∧ (p.fillZone t).lists = p'.lists ∧
      (p.fillZone t).n = p'.n ∧ (p.fillZone t).metadata = p.metadata ∧
      (p.fillZone t).freeSpace = p.freeSpace + size ∧
      (p.fillZone t).toLayout = { p.toLayout with
        maxOrder := if orderI > p.maxOrder then orderI else p.maxOrder } := by
  intro size orderI p'
  by_cases h : orderI > p.maxOrder
  · have he : p.fillZone t = { { p' with freeSpace := p.freeSpace + size } with maxOrder := orderI } :=
      if_pos h
    rw [he, if_pos h]
    exact ⟨rfl, rfl, rfl, rfl, rfl, rfl⟩
  · have he : p.fillZone t = { p' with freeSpace := p.freeSpace + size } := if_neg h
    rw [he, if_neg h]
    exact ⟨rfl, rfl, rfl, rfl, rfl, rfl⟩

theorem Filling.step (h : Filling p q t) (hlt : t.toNat < p.hi) (ht : t ≠ 0)
    (ht' : t.toNat ≠ 2 ^ 63)
    (hord : (log2 (shrink (p.endAddr - t) 64 (alignOf t)) - p.foBits).toNat < maxSupportedMemBits) :
    ∃ q', Filling (p.fillZone t) q' (t + shrink (p.endAddr - t) 64 (alignOf t)) ∧
      2 ^ p.fo ≤ (shrink (p.endAddr - t) 64 (alignOf t)).toNat ∧
      (t + shrink (p.endAddr - t) 64 (alignOf t)).toNat =
        t.toNat + (shrink (p.endAddr - t) 64 (alignOf t)).toNat := by
  obtain ⟨k, hsize, hdvd, hle, hfit, h64⟩ := h.size hlt ht ht'
  have hk := order_of_size hsize
  obtain ⟨hlinks, hlists, hn, -, hspace, hlayout⟩ := fillZone_fields p t
  set size := shrink (p.endAddr - t) 64 (alignOf t)
  set orderI := log2 size - p.foBits
  have hpos := Nat.two_pow_pos (p.fo + k)
  have hnext : (t + size).toNat = t.toNat + 2 ^ (p.fo + k) := by
    have hhi : p.hi < 2 ^ 64 := p.endAddr.toNat_lt
    rw [UInt64.toNat_add, hsize, Nat.mod_eq_of_lt (by omega)]
  set d : Block := ⟨t.toNat, p.fo + k, hdvd⟩
  -- the new zone starts where the zones so far end
  have hnew : ∀ j, t ∉ q j := by
    intro j hj
    have h1 := (h.tiles.inside ⟨t.toNat, p.fo + j, (h.zone j t hj).1⟩ ⟨j, t, hj, rfl, rfl⟩).2
    have := Nat.two_pow_pos (p.fo + j)
    simp only [top, Block.size] at h1
    omega
  have hfo : (p.fillZone t).fo = p.fo := by rw [fo, hlayout]; rfl
  have hlo : (p.fillZone t).lo = p.lo := by rw [lo, hlayout]; rfl
  have hhi : (p.fillZone t).hi = p.hi := by rw [hi, hlayout]; rfl
  have hB := blocksOf_append p.fo (q := q) (k := orderI.toNat) (a := t) (d := d) rfl
    (by rw [hk])
  set q' := Function.update q orderI.toNat (q orderI.toNat ++ [t]) with hq'
  have hmax : (p.fillZone t).maxOrder.toNat = max p.maxOrder.toNat k := by
    rw [hlayout]
    simp only
    split_ifs with hgt <;> rw [gt_iff_lt, UInt8.lt_iff_toNat_lt] at hgt <;> omega
  refine ⟨q', ⟨?_, ?_, ?_, ?_, ?_, ?_, ?_, ?_, ?_, ?_, ?_, ?_, ?_, ?_, ?_, ?_⟩, ?_, ?_⟩
  · rw [hfo, hlayout]
    exact h.unit
  · rw [hfo]
    exact h.bits
  · rw [hfo, hlo]
    exact h.start_dvd
  · rw [hfo, hhi]
    exact h.end_dvd
  · rw [hfo, hnext]
    exact Nat.dvd_add h.dvd (pow_dvd_pow 2 (by omega))
  · rw [hhi, hnext]
    exact hle
  · rw [hlo, hnext]
    exact h.ge.trans (by omega)
  · rw [hlinks, hlists]
    exact h.family.append orderI.toNat hnew
  · intro j a ha
    rw [hfo, hn]
    change 2 ^ (p.fo + j) ∣ a.toNat ∧ (Function.update p.n t size a).toNat = 2 ^ (p.fo + j)
    by_cases hat : a = t
    · subst hat
      have hj : j = orderI.toNat := by
        by_contra hne
        rw [hq', Function.update_of_ne hne] at ha
        exact hnew j ha
      rw [Function.update_self, hj, hk]
      exact ⟨hdvd, hsize⟩
    · rw [Function.update_of_ne hat]
      refine h.zone j a ?_
      by_cases hj : j = orderI.toNat
      · subst hj
        rw [hq', Function.update_self, List.mem_append, List.mem_singleton] at ha
        exact ha.resolve_right hat
      · rwa [hq', Function.update_of_ne hj] at ha
  · intro j hj
    by_cases hjk : j = orderI.toNat
    · subst hjk
      rw [hq', Function.update_self, List.mem_append, List.mem_singleton] at hj
      exact hj.elim (h.nonzero _) fun h0 => ht h0.symm
    · rw [hq', Function.update_of_ne hjk] at hj
      exact h.nonzero j hj
  · rw [hfo, hlo, hnext, hB]
    exact h.tiles_append d rfl rfl
  · rw [hfo, hhi, hB]
    rintro e (he | rfl)
    · exact h.fits e he
    · exact hfit
  · intro j hj
    rw [hmax]
    by_cases hjk : j = orderI.toNat
    · omega
    · rw [hq', Function.update_of_ne hjk] at hj
      exact (h.order_le j hj).trans (le_max_left _ _)
  · rw [hmax]
    exact max_lt h.order_lt (hk ▸ hord)
  · right
    rw [hmax]
    rcases Nat.le_total p.maxOrder.toNat k with hle' | hle'
    · rw [max_eq_right hle', ← hk, hq', Function.update_self]
      simp
    · rw [max_eq_left hle']
      by_cases hjk : p.maxOrder.toNat = orderI.toNat
      · rw [hjk, hq', Function.update_self]
        simp
      · rw [hq', Function.update_of_ne hjk]
        refine h.max_used.resolve_left fun h0 => hjk ?_
        omega
  · have hge := h.ge
    have hhi' : p.hi < 2 ^ 64 := p.endAddr.toNat_lt
    rw [hlo, hnext, hspace, UInt64.toNat_add, h.space, hsize, Nat.mod_eq_of_lt (by omega)]
    omega
  · rw [hsize]
    exact Nat.pow_le_pow_right (by norm_num) (by omega)
  · rw [hnext, hsize]

lemma shrink_zero (limit : UInt64) (fuel : ℕ) : shrink limit fuel 0 = 0 := by
  induction fuel with
  | zero => rfl
  | succ fuel ih =>
    have hno : ¬ (0 : UInt64) > limit := UInt64.not_lt_zero
    rw [shrink, if_neg hno]

/-- At address 0 and at the top bit `align_of` is zero and the order computed from it is no index
of `lists`. -/
lemma Filling.order_of_zero (h : Filling p q t) (ht : t = 0 ∨ t.toNat = 2 ^ 63) :
    maxSupportedMemBits ≤ (log2 (shrink (p.endAddr - t) 64 (alignOf t)) - p.foBits).toNat := by
  have hal : alignOf t = 0 := by
    rcases ht with rfl | ht
    · rfl
    · have hz := alignOf_toNat (a := t) (v := 63) (m := 0) (by rw [ht, Nat.mul_zero, Nat.zero_add])
      rw [if_pos rfl] at hz
      exact UInt64.toNat_inj.mp hz
  have hlog : (log2 0).toNat = 255 := rfl
  have hbits := h.bits
  simp only [fo] at hbits
  rw [hal, shrink_zero, UInt8.toNat_sub_of_le _ _ (UInt8.le_iff_toNat_le.mpr (by omega)), hlog]
  simp only [maxSupportedMemBits]
  omega

/-- The loop of `init` fills the range, or meets an address it cannot handle. -/
theorem Filling.loop (fuel : ℕ) (h : Filling p q t) (h12 : 12 ≤ p.fo)
    (hfuel : (p.hi - t.toNat) / 4096 < fuel) :
    (∃ p' q' t', initLoop fuel t p = some p' ∧ Filling p' q' t' ∧ t'.toNat = p'.hi ∧
      p'.metadata = p.metadata ∧
      p'.toLayout = { p.toLayout with maxOrder := p'.maxOrder }) ∨
    (initLoop fuel t p = none ∧ ∃ a : UInt64, p.lo ≤ a.toNat ∧ a.toNat < p.hi ∧
      (a = 0 ∨ a.toNat = 2 ^ 63 ∨ a.toNat + 2 ^ (p.fo + 39) ≤ p.hi)) := by
  induction fuel generalizing p q t with
  | zero => omega
  | succ fuel ih =>
    rw [initLoop_succ]
    have hhi : p.hi = p.endAddr.toNat := rfl
    by_cases hlt : t < p.endAddr
    · rw [if_pos hlt]
      rw [UInt64.lt_iff_toNat_lt] at hlt
      simp only
      by_cases hord : (log2 (shrink (p.endAddr - t) 64 (alignOf t)) - p.foBits).toNat <
          maxSupportedMemBits
      · rw [if_pos hord]
        by_cases ht : t = 0 ∨ t.toNat = 2 ^ 63
        · -- `align_of` is zero, so the order is out of bounds
          exact absurd hord (Nat.not_lt.mpr (h.order_of_zero ht))
        · obtain ⟨q', h', hge, hnext⟩ := h.step hlt (fun h0 => ht (Or.inl h0))
            (fun h0 => ht (Or.inr h0)) hord
          obtain ⟨-, -, -, hmd, -, hlayout⟩ := fillZone_fields p t
          have hfo : (p.fillZone t).fo = p.fo := by rw [fo, hlayout]; rfl
          have hlo : (p.fillZone t).lo = p.lo := by rw [lo, hlayout]; rfl
          have hhi' : (p.fillZone t).hi = p.hi := by rw [hi, hlayout]; rfl
          have h4096 : 4096 ≤ 2 ^ p.fo :=
            (by norm_num : 4096 = 2 ^ 12) ▸ Nat.pow_le_pow_right (by norm_num) h12
          have hle := h'.le
          rw [hhi', hnext] at hle
          rcases ih h' (by rw [hfo]; exact h12) (by rw [hhi', hnext]; omega) with
            ⟨p', q'', t', heq, hfill, ht', hmd', hlay'⟩ | ⟨heq, a, h1, h2, h3⟩
          · refine Or.inl ⟨p', q'', t', heq, hfill, ht', hmd'.trans hmd, ?_⟩
            rw [hlay', hlayout]
          · rw [hlo] at h1
            rw [hhi'] at h2 h3
            rw [hfo] at h3
            exact Or.inr ⟨heq, a, h1, h2, h3⟩
      · rw [if_neg hord]
        refine Or.inr ⟨rfl, t, h.ge, hlt, ?_⟩
        by_cases ht : t = 0 ∨ t.toNat = 2 ^ 63
        · exact ht.imp_right Or.inl
        · right; right
          obtain ⟨k, hsize, -, hle, -, -⟩ := h.size hlt (fun h0 => ht (Or.inl h0))
            (fun h0 => ht (Or.inr h0))
          rw [order_of_size hsize] at hord
          have : 2 ^ (p.fo + 39) ≤ 2 ^ (p.fo + k) := Nat.pow_le_pow_right (by norm_num) (by
            simp only [maxSupportedMemBits] at hord
            omega)
          omega
    · rw [if_neg hlt]
      rw [UInt64.lt_iff_toNat_lt] at hlt
      exact Or.inl ⟨p, q, t, rfl, h, by have := h.le; omega, rfl, rfl⟩

section Fields
variable {startAddr endAddr firstOrderSize : UInt64} {links : Links UInt64} {n : UInt64 → UInt64}
  {metadata : UInt64 → Metadata} {k : ℕ}

/-- The arithmetic of `init` before its loop. -/
structure Prepared (p : Pallocator) (endAddr : UInt64) : Prop where
  unit : p.firstOrderSize.toNat = 2 ^ p.fo
  page_le : 12 ≤ p.fo
  bits : p.fo < 64
  start_dvd : 2 ^ p.fo ∣ p.lo
  end_dvd : 2 ^ p.fo ∣ p.hi
  start_le : p.lo ≤ p.hi
  meta_le : p.hi + (p.hi - p.lo) / 2 ^ p.fo ≤ p.endMeta.toNat
  end_le : p.endMeta.toNat ≤ endAddr.toNat

lemma max_page (hf : firstOrderSize.toNat = 2 ^ k) :
    ∃ j, 12 ≤ j ∧ j < 64 ∧
      (if firstOrderSize > pageSize then firstOrderSize else pageSize).toNat = 2 ^ j := by
  have hk : k < 64 := by
    by_contra hk
    have : 2 ^ 64 ≤ 2 ^ k := Nat.pow_le_pow_right (by norm_num) (by omega)
    have := firstOrderSize.toNat_lt
    omega
  have hp : pageSize.toNat = 2 ^ 12 := rfl
  split_ifs with h
  · rw [gt_iff_lt, UInt64.lt_iff_toNat_lt, hp, hf] at h
    exact ⟨k, (Nat.pow_lt_pow_iff_right (by norm_num)).mp h |>.le, hk, hf⟩
  · exact ⟨12, le_rfl, by norm_num, hp⟩

/-- `8 * (diff / first_order_size)` bytes, in whole pages, fit between the start and the end. -/
lemma meta_fits {j u : ℕ} {diff fos : UInt64} (hj : 12 ≤ j) (hfos : fos.toNat = 2 ^ j)
    (hdiff : diff.toNat = 2 ^ j * u) (hu : 0 < u) :
    u ≤ (alignUp (8 * (diff / fos)) pageSize).toNat ∧
      (alignUp (8 * (diff / fos)) pageSize).toNat ≤ diff.toNat := by
  have h4096 : 2 ^ 12 ≤ 2 ^ j := Nat.pow_le_pow_right (by norm_num) hj
  have hmul : 2 ^ 12 * u ≤ 2 ^ j * u := Nat.mul_le_mul_right u h4096
  have hlt := diff.toNat_lt
  have h8 : (8 * (diff / fos)).toNat = 8 * u := by
    rw [UInt64.toNat_mul, UInt64.toNat_div, hdiff, hfos, Nat.mul_div_cancel_left _ (by omega)]
    change 8 * u % 2 ^ 64 = 8 * u
    exact Nat.mod_eq_of_lt (by omega)
  rw [alignUp_toNat (k := 12) rfl (by rw [h8]; omega), h8]
  omega

lemma initFields_prepared (links : Links UInt64) (n : UInt64 → UInt64)
    (metadata : UInt64 → Metadata) (hf : firstOrderSize.toNat = 2 ^ k)
    (ha : (initFields startAddr endAddr firstOrderSize links n metadata).startAddr <
      (initFields startAddr endAddr firstOrderSize links n metadata).endMeta) :
    Prepared (initFields startAddr endAddr firstOrderSize links n metadata) endAddr := by
  obtain ⟨j, h12, h64, hj⟩ := max_page hf
  set p := initFields startAddr endAddr firstOrderSize links n metadata with hp
  set fos := if firstOrderSize > pageSize then firstOrderSize else pageSize with hfos
  have hfo : p.fo = j := log2_toNat_two_pow hj
  have hstart : p.startAddr = alignUp startAddr fos := rfl
  have hmeta : p.endMeta = alignDown endAddr fos := rfl
  have hend : p.endAddr = alignDown (p.endMeta -
      alignUp (8 * ((p.endMeta - p.startAddr) / fos)) pageSize) fos := rfl
  rw [UInt64.lt_iff_toNat_lt] at ha
  have hd1 : 2 ^ j ∣ p.startAddr.toNat := hstart ▸ dvd_alignUp hj
  have hd2 : 2 ^ j ∣ p.endMeta.toNat := hmeta ▸ dvd_alignDown hj
  have hdiff : (p.endMeta - p.startAddr).toNat = p.endMeta.toNat - p.startAddr.toNat :=
    UInt64.toNat_sub_of_le _ _ (UInt64.le_iff_toNat_le.mpr ha.le)
  obtain ⟨u, hu⟩ := Nat.dvd_sub hd2 hd1
  have hu0 : 0 < u := by
    rcases Nat.eq_zero_or_pos u with rfl | h
    · rw [Nat.mul_zero] at hu
      omega
    · exact h
  obtain ⟨hm1, hm2⟩ := meta_fits h12 hj (hdiff.trans hu) hu0
  set M := alignUp (8 * ((p.endMeta - p.startAddr) / fos)) pageSize
  have hsub : (p.endMeta - M).toNat = p.endMeta.toNat - M.toNat :=
    UInt64.toNat_sub_of_le _ _ (UInt64.le_iff_toNat_le.mpr (by omega))
  have hle : p.endAddr.toNat ≤ p.endMeta.toNat - M.toNat := by
    rw [hend, ← hsub]
    exact alignDown_le hj
  have hge : p.startAddr.toNat ≤ p.endAddr.toNat := by
    obtain ⟨s, hs⟩ := hd1
    have hpos := Nat.two_pow_pos j
    rw [hend, alignDown_toNat hj, hsub, hs, Nat.mul_comm (_ / _)]
    exact Nat.mul_le_mul_left _ ((Nat.le_div_iff_mul_le hpos).mpr (by rw [Nat.mul_comm]; omega))
  have hdiv : (p.endAddr.toNat - p.startAddr.toNat) / 2 ^ j ≤ u := by
    have h1 : p.endAddr.toNat - p.startAddr.toNat ≤ 2 ^ j * u := by omega
    calc (p.endAddr.toNat - p.startAddr.toNat) / 2 ^ j ≤ 2 ^ j * u / 2 ^ j :=
          Nat.div_le_div_right h1
      _ = u := Nat.mul_div_cancel_left _ (Nat.two_pow_pos j)
  refine ⟨hfo ▸ hj, hfo ▸ h12, hfo ▸ h64, hfo ▸ hd1, ?_, hge, ?_, ?_⟩
  · rw [hfo, hi, hend]
    exact dvd_alignDown hj
  · rw [hfo]
    simp only [lo, hi]
    omega
  · rw [hmeta]
    exact alignDown_le hj

lemma Prepared.filling {p : Pallocator} {endAddr : UInt64} (h : Prepared p endAddr)
    (hl : p.lists = fun _ => {}) (hm : p.maxOrder = 0) (hs : p.freeSpace = 0) :
    Filling p (fun _ => []) p.startAddr where
  unit := h.unit
  bits := h.bits
  start_dvd := h.start_dvd
  end_dvd := h.end_dvd
  dvd := h.start_dvd
  le := h.start_le
  ge := le_rfl
  family := hl ▸ family_empty p.links
  zone := by simp
  nonzero := by simp
  tiles := by
    have he : blocksOf p.fo (fun _ => []) = ∅ := by
      ext d
      simp [blocksOf]
    rw [he]
    refine ⟨fun x h1 h2 => ?_, by simp, by simp⟩
    simp only [lo] at h1
    omega
  fits := by
    rintro d ⟨k, a, ha, -⟩
    simp at ha
  order_le := by simp
  order_lt := by
    rw [hm]
    decide
  max_used := Or.inl (by rw [hm]; rfl)
  space := by
    rw [hs]
    simp [lo]

end Fields

section Result
variable {startAddr endAddr firstOrderSize : UInt64} {links : Links UInt64} {n : UInt64 → UInt64}
  {metadata : UInt64 → Metadata} {k : ℕ}

/-- The greedy zones leave no room for a larger block. -/
lemma Filling.buddyFree (h : Filling p q t) (ht : t.toNat = p.hi) :
    BuddyFree (blocksOf p.fo q) :=
  (ht ▸ h.tiles).buddyFree_of_maximal h.fits

lemma Filling.small (h : Filling p q t) (ht : t.toNat = p.hi) (hlt : p.lo < p.hi)
    (hsize : ∀ k, ∀ z ∈ q k, (p.n z).toNat ≤ 2 ^ 30) : p.fo + p.maxOrder.toNat ≤ 30 := by
  have hzone : ∀ k, q k ≠ [] → p.fo + k ≤ 30 := by
    intro k hk
    obtain ⟨z, hz⟩ := List.exists_mem_of_ne_nil _ hk
    have h1 := hsize k z hz
    rw [(h.zone k z hz).2] at h1
    exact (Nat.pow_le_pow_iff_right (by norm_num)).mp h1
  rcases h.max_used with h0 | hne
  · obtain ⟨d, ⟨k, a, ha, -⟩, -⟩ := h.tiles.cover p.lo le_rfl (ht ▸ hlt)
    have := hzone k (List.ne_nil_of_mem ha)
    omega
  · exact hzone _ hne

lemma Filling.valid (h : Filling p q t) (ht : t.toNat = p.hi) (hend : p.hi + 2 ^ 31 ≤ 2 ^ 64)
    (hmeta : p.hi + (p.hi - p.lo) / 2 ^ p.fo ≤ 2 ^ 64) : p.toLayout.Valid := by
  refine ⟨h.unit, h.start_dvd, h.end_dvd, hend, hmeta, h.order_lt, fun d h1 h2 => ?_⟩
  obtain ⟨e, ⟨j, a, ha, -, he⟩, hin⟩ :=
    (ht ▸ h.tiles).exists_inside_of_buddyFree (h.buddyFree ht) d h1 h2
  have hle := hin.exp_le
  have hj := h.order_le j (List.ne_nil_of_mem ha)
  simp only [fo] at he
  omega

theorem Filling.holds (h : Filling p q t) (ht : t.toNat = p.hi) (hv : p.toLayout.Valid)
    (hfree : ∀ a : UInt64, p.lo ≤ a.toNat → a.toNat < p.hi →
      (p.metadata (p.getMeta a)).alloced = false) : Holds p [] q := by
  have hL : liveBlocks p.fo [] = ∅ := by
    ext d
    simp [liveBlocks]
  refine ⟨hv, h.family, h.zone, by simp, ?_, by simp [hL], List.nodup_nil, ?_, by simp⟩
  · rw [hL, Set.union_empty, ← ht]
    exact h.tiles
  · intro a _ hlo hhi
    simp [hfree a hlo hhi]

/-- After `init` every invariant of the allocator holds, no two zones are buddies and the metadata is
cleared. -/
theorem init_holds (h : init startAddr endAddr firstOrderSize links n metadata = some p)
    (hf : firstOrderSize.toNat = 2 ^ k) (hend : endAddr.toNat + 2 ^ 31 ≤ 2 ^ 64) :
    ∃ q t, Holds p [] q ∧ BuddyFree (blocksOf p.fo q) ∧ Filling p q t ∧ t.toNat = p.hi ∧
      ∀ a : UInt64, p.lo ≤ a.toNat → a.toNat < p.hi → p.metadata (p.getMeta a) = ⟨false, 0⟩ := by
  rw [init] at h
  set p0 := initFields startAddr endAddr firstOrderSize links n metadata with hp0
  by_cases ha : p0.endMeta > p0.startAddr
  · rw [if_pos ha] at h
    have hprep := initFields_prepared links n metadata hf ha
    rw [← hp0] at hprep
    have hfill := hprep.filling rfl rfl rfl
    rcases hfill.loop _ hprep.page_le (Nat.lt_succ_self _) with
      ⟨p', q, t, heq, hfill', ht, hmd, hlay⟩ | ⟨heq, -⟩
    · obtain rfl : p' = p := Option.some.inj (heq.symm.trans h)
      have hlo : p'.lo = p0.lo := by rw [lo, hlay]; rfl
      have hhi : p'.hi = p0.hi := by rw [hi, hlay]; rfl
      have hfo : p'.fo = p0.fo := by rw [fo, hlay]; rfl
      have hmeta := hprep.meta_le
      have hhim : p0.hi ≤ p0.endMeta.toNat := (Nat.le_add_right _ _).trans hmeta
      have hend' := hprep.end_le
      have hlt := p0.endMeta.toNat_lt
      have hv : p'.toLayout.Valid :=
        hfill'.valid ht (by rw [hhi]; omega) (by rw [hlo, hhi, hfo]; omega)
      have hclear (a : UInt64) (h1 : p'.lo ≤ a.toNat) (h2 : a.toNat < p'.hi) :
          p'.metadata (p'.getMeta a) = ⟨false, 0⟩ := by
        -- the byte lies in the range cleared by `memset`
        have hm := hv.getMeta_toNat h1 h2
        have hdiv : (a.toNat - p0.lo) / 2 ^ p0.fo < (p0.hi - p0.lo) / 2 ^ p0.fo := by
          rw [hlo] at h1
          rw [hhi] at h2
          exact Nat.div_lt_div_of_lt_of_dvd (Nat.dvd_sub hprep.end_dvd hprep.start_dvd) (by omega)
        change (p'.getMeta a).toNat = (a.toNat - p'.lo) / 2 ^ p'.fo + p'.hi at hm
        rw [hlo, hfo, hhi] at hm
        rw [hmd]
        have hin : p0.endAddr ≤ p'.getMeta a ∧ p'.getMeta a < p0.endMeta := by
          rw [UInt64.le_iff_toNat_le, UInt64.lt_iff_toNat_lt, hm]
          refine ⟨Nat.le_add_left _ _, (Nat.add_lt_add_right hdiv _).trans_le ?_⟩
          rw [Nat.add_comm]
          exact hmeta
        change (if p0.endAddr ≤ p'.getMeta a ∧ p'.getMeta a < p0.endMeta then
          (⟨false, 0⟩ : Metadata) else metadata (p'.getMeta a)) = ⟨false, 0⟩
        rw [if_pos hin]
      exact ⟨q, t, hfill'.holds ht hv fun a h1 h2 => by rw [hclear a h1 h2], hfill'.buddyFree ht,
        hfill', ht, hclear⟩
    · exact absurd (heq.symm.trans h) (by simp)
  · rw [if_neg ha] at h
    cases h

/-- `init` returns on every region that passes its assertion, unless the range contains address 0
or the top bit's address or could hold a zone of an order that `lists` has no place for. -/
theorem init_isSome (hf : firstOrderSize.toNat = 2 ^ k)
    (ha : (initFields startAddr endAddr firstOrderSize links n metadata).startAddr <
      (initFields startAddr endAddr firstOrderSize links n metadata).endMeta)
    (hrange : ∀ a : UInt64,
      (initFields startAddr endAddr firstOrderSize links n metadata).lo ≤ a.toNat →
      a.toNat < (initFields startAddr endAddr firstOrderSize links n metadata).hi →
      a ≠ 0 ∧ a.toNat ≠ 2 ^ 63 ∧
        (initFields startAddr endAddr firstOrderSize links n metadata).hi < a.toNat + 2 ^ 51) :
    (init startAddr endAddr firstOrderSize links n metadata).isSome := by
  have hprep := initFields_prepared links n metadata hf ha
  rw [init, if_pos ha]
  rcases (hprep.filling rfl rfl rfl).loop _ hprep.page_le (Nat.lt_succ_self _) with
    ⟨p', -, -, heq, -⟩ | ⟨-, a, h1, h2, h3⟩
  · exact Option.isSome_iff_exists.mpr ⟨p', heq⟩
  · obtain ⟨hne, htop, hlt⟩ := hrange a h1 h2
    have hpow := Nat.pow_le_pow_right (n := 2) (by norm_num)
      (Nat.add_le_add_right hprep.page_le 39)
    rcases h3 with h3 | h3 | h3
    · exact absurd h3 hne
    · exact absurd h3 htop
    · omega

/-- The loop of `init` keeps what its first lines make of the arguments. -/
lemma init_prepared (h : init startAddr endAddr firstOrderSize links n metadata = some p)
    (hf : firstOrderSize.toNat = 2 ^ k) : Prepared p endAddr := by
  rw [init] at h
  set p0 := initFields startAddr endAddr firstOrderSize links n metadata with hp0
  by_cases ha : p0.endMeta > p0.startAddr
  · rw [if_pos ha] at h
    have hprep := initFields_prepared links n metadata hf ha
    rw [← hp0] at hprep
    rcases (hprep.filling rfl rfl rfl).loop _ hprep.page_le (Nat.lt_succ_self _) with
      ⟨p', q, t, heq, -, -, -, hlay⟩ | ⟨heq, -⟩
    · obtain rfl : p' = p := Option.some.inj (heq.symm.trans h)
      have hlo : p'.lo = p0.lo := by rw [lo, hlay]; rfl
      have hhi : p'.hi = p0.hi := by rw [hi, hlay]; rfl
      have hfo : p'.fo = p0.fo := by rw [fo, hlay]; rfl
      have hsize : p'.firstOrderSize = p0.firstOrderSize := by rw [hlay]
      have hmeta : p'.endMeta = p0.endMeta := by rw [hlay]
      constructor
      case unit => rw [hsize, hfo]; exact hprep.unit
      case page_le => rw [hfo]; exact hprep.page_le
      case bits => rw [hfo]; exact hprep.bits
      case start_dvd => rw [hfo, hlo]; exact hprep.start_dvd
      case end_dvd => rw [hfo, hhi]; exact hprep.end_dvd
      case start_le => rw [hlo, hhi]; exact hprep.start_le
      case meta_le => rw [hlo, hhi, hfo, hmeta]; exact hprep.meta_le
      case end_le => rw [hmeta]; exact hprep.end_le
    · exact absurd (heq.symm.trans h) (by simp)
  · rw [if_neg ha] at h
    cases h

/-- The range lies between the arguments of `init`, unless aligning the start up wrapped to 0. -/
lemma init_bounds (h : init startAddr endAddr firstOrderSize links n metadata = some p)
    (hf : firstOrderSize.toNat = 2 ^ k) :
    p.hi ≤ endAddr.toNat ∧ (p.lo = 0 ∨ startAddr.toNat ≤ p.lo) := by
  have hprep' := init_prepared h hf
  refine ⟨(Nat.le_add_right _ _).trans (hprep'.meta_le.trans hprep'.end_le), ?_⟩
  rw [init] at h
  set p0 := initFields startAddr endAddr firstOrderSize links n metadata with hp0
  by_cases ha : p0.endMeta > p0.startAddr
  · rw [if_pos ha] at h
    have hprep := initFields_prepared links n metadata hf ha
    rw [← hp0] at hprep
    rcases (hprep.filling rfl rfl rfl).loop _ hprep.page_le (Nat.lt_succ_self _) with
      ⟨p', q, t, heq, -, -, -, hlay⟩ | ⟨heq, -⟩
    · obtain rfl : p' = p := Option.some.inj (heq.symm.trans h)
      have hlo : p'.lo = p0.lo := by rw [lo, hlay]; rfl
      rw [hlo]
      obtain ⟨j, -, h64, hj⟩ := max_page hf
      set fos := if firstOrderSize > pageSize then firstOrderSize else pageSize
      have hstart : p0.lo = (alignUp startAddr fos).toNat := rfl
      have hpos := Nat.two_pow_pos j
      rcases Nat.lt_or_ge (2 ^ 64) (startAddr.toNat + 2 ^ j) with hwrap | hle
      · left
        have hlt := startAddr.toNat_lt
        have hsum : (startAddr + fos - 1).toNat = startAddr.toNat + 2 ^ j - 1 - 2 ^ 64 := by
          have hadd : (startAddr + fos).toNat = startAddr.toNat + 2 ^ j - 2 ^ 64 := by
            have hj64 : 2 ^ j < 2 ^ 64 := Nat.pow_lt_pow_right (by norm_num) h64
            rw [UInt64.toNat_add, hj]
            omega
          rw [UInt64.toNat_sub_of_le _ _ (UInt64.le_iff_toNat_le.mpr (by
            rw [hadd, UInt64.toNat_one]
            omega)), hadd, UInt64.toNat_one]
          omega
        rw [hstart, alignUp_eq_alignDown, alignDown_toNat hj, hsum,
          Nat.div_eq_of_lt (by omega), Nat.zero_mul]
      · right
        rw [hstart, alignUp_toNat hj hle]
        have h1 := Nat.div_add_mod (startAddr.toNat + 2 ^ j - 1) (2 ^ j)
        have h2 := Nat.mod_lt (startAddr.toNat + 2 ^ j - 1) hpos
        rw [Nat.mul_comm] at h1
        omega
    · exact absurd (heq.symm.trans h) (by simp)
  · rw [if_neg ha] at h
    cases h

end Result

end EpochKernel.Mem.Pallocator
