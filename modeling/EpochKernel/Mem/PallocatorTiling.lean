import EpochKernel.Mem.PallocatorRegion

/-! What the zones made by `pallocator::init` look like, and on which regions its loop gets there.
The loop meets every address that it cannot handle: no zone before it reaches over it. -/
namespace EpochKernel.Mem.Pallocator
open EpochKernel.Util EpochKernel.Util.LinkedList EpochKernel.Library EpochKernel.Library.Block

variable {p : Pallocator} {q : ℕ → List UInt64} {t a : UInt64}

/-- At `a` the loop of `init` has no zone to make: `align_of` gives 0, or the order of the zone is
no index of `lists`. -/
def Stuck (unit hi : ℕ) (a : UInt64) : Prop :=
  a = 0 ∨ a.toNat = 2 ^ 63 ∨ unit * 2 ^ 39 ∣ a.toNat ∧ a.toNat + unit * 2 ^ 39 ≤ hi

lemma stuck_iff {fo hi : ℕ} : Stuck (2 ^ fo) hi a ↔
    a = 0 ∨ a.toNat = 2 ^ 63 ∨ 2 ^ (fo + 39) ∣ a.toNat ∧ a.toNat + 2 ^ (fo + 39) ≤ hi := by
  rw [Stuck, ← pow_add]

/-- A zone made before `a` ends at or before `a`. -/
lemma Stuck.next_le {k : ℕ} (hst : Stuck (2 ^ p.fo) p.hi a) (hlt : t.toNat < a.toNat)
    (hdvd : 2 ^ (p.fo + k) ∣ t.toNat) (h64 : p.fo + k < 64) (hk : k < 39) :
    t.toNat + 2 ^ (p.fo + k) ≤ a.toNat := by
  have hda : 2 ^ (p.fo + k) ∣ a.toNat := by
    rcases stuck_iff.mp hst with rfl | h63 | ⟨hd, -⟩
    · exact absurd hlt (Nat.not_lt_zero _)
    · rw [h63]
      exact pow_dvd_pow 2 (by omega)
    · exact (pow_dvd_pow 2 (by omega)).trans hd
  exact add_le_of_dvd_of_lt hdvd hda hlt

/-- The order computed at `a` is out of bounds. -/
lemma Filling.order_of_stuck (h : Filling p q t) (hlt : t.toNat < p.hi)
    (hst : Stuck (2 ^ p.fo) p.hi t) :
    maxSupportedMemBits ≤ (log2 (shrink (p.endAddr - t) 64 (alignOf t)) - p.foBits).toNat := by
  by_cases ht : t = 0 ∨ t.toNat = 2 ^ 63
  · exact h.order_of_zero ht
  · obtain ⟨hd, hle⟩ := ((stuck_iff.mp hst).resolve_left fun h0 => ht (.inl h0)).resolve_left
      fun h63 => ht (.inr h63)
    obtain ⟨k, hsize, -, -, hfit, -⟩ := h.size hlt (fun h0 => ht (.inl h0)) fun h63 => ht (.inr h63)
    rw [order_of_size hsize]
    by_contra hk
    simp only [maxSupportedMemBits, Nat.not_le] at hk
    -- the zone could be twice as large
    have hdvd : 2 ^ (p.fo + k + 1) ∣ 2 ^ (p.fo + 39) := pow_dvd_pow 2 (by omega)
    have h1 := hfit (hdvd.trans hd)
    have h2 := Nat.le_of_dvd (Nat.two_pow_pos _) hdvd
    omega

/-- The loop does not get past an address at which it is stuck. -/
theorem Filling.loop_of_stuck (fuel : ℕ) (h : Filling p q t) (hst : Stuck (2 ^ p.fo) p.hi a)
    (hta : t.toNat ≤ a.toNat) (hahi : a.toNat < p.hi) : initLoop fuel t p = none := by
  induction fuel generalizing p q t with
  | zero => rfl
  | succ fuel ih =>
    have hlt : t.toNat < p.hi := hta.trans_lt hahi
    rw [initLoop_succ, if_pos (UInt64.lt_iff_toNat_lt.mpr hlt)]
    by_cases hord : (log2 (shrink (p.endAddr - t) 64 (alignOf t)) - p.foBits).toNat <
        maxSupportedMemBits
    · simp only [hord, if_true]
      have hnst : ¬ Stuck (2 ^ p.fo) p.hi t := fun hst' =>
        absurd (h.order_of_stuck hlt hst') (Nat.not_le.mpr hord)
      have hlt' : t.toNat < a.toNat := by
        refine Nat.lt_of_le_of_ne hta fun heq => hnst ?_
        rwa [UInt64.toNat_inj.mp heq]
      have ht0 : t ≠ 0 := fun h0 => hnst (.inl h0)
      have ht63 : t.toNat ≠ 2 ^ 63 := fun h63 => hnst (.inr (.inl h63))
      obtain ⟨q', h', -, hnext⟩ := h.step hlt ht0 ht63 hord
      obtain ⟨k, hsize, hdvd, -, -, h64⟩ := h.size hlt ht0 ht63
      rw [order_of_size hsize] at hord
      obtain ⟨-, -, -, -, -, hlayout⟩ := fillZone_fields p t
      have hfo : (p.fillZone t).fo = p.fo := by rw [fo, hlayout]; rfl
      have hhi : (p.fillZone t).hi = p.hi := by rw [hi, hlayout]; rfl
      refine ih h' (by rw [hfo, hhi]; exact hst) ?_ (by rw [hhi]; exact hahi)
      rw [hnext, hsize]
      exact hst.next_le hlt' hdvd h64 hord
    · simp only [hord, if_false]

/-- The range is tiled by the zones of the lists, no block of the range is larger than the zone it
lies in, and the metadata of the range lies between the range and `end_meta`. -/
structure TilesMaximally (p : Pallocator) : Prop where
  zone : ∀ k, ∀ z ∈ p.zones k, 2 ^ (p.fo + k) ∣ z.toNat ∧ (p.n z).toNat = 2 ^ (p.fo + k)
  unit : p.firstOrderSize.toNat = 2 ^ p.fo
  tiles : Tiles (blocksOf p.fo p.zones) p.lo p.hi
  consecutive : ∀ d ∈ blocksOf p.fo p.zones, d.top < p.hi →
    ∃ e ∈ blocksOf p.fo p.zones, e.base = d.top
  space : p.freeSpace.toNat = p.hi - p.lo
  maximal : ∀ d : Block, p.firstOrderSize.toNat ≤ d.size → p.lo ≤ d.base → d.top ≤ p.hi →
    ∃ e ∈ blocksOf p.fo p.zones, d.Inside e
  inMeta : ∀ a : UInt64, p.lo ≤ a.toNat → a.toNat < p.hi →
    p.hi ≤ (p.getMeta a).toNat ∧ (p.getMeta a).toNat < p.endMeta.toNat

section Init
variable {startAddr endAddr firstOrderSize : UInt64} (links : Links UInt64) (n : UInt64 → UInt64)
  (metadata : UInt64 → Metadata) {k : ℕ}

/-- The unit, the start and the end of the managed range for the arguments of `init`. -/
def unitOf (firstOrderSize : UInt64) : UInt64 :=
  if firstOrderSize > pageSize then firstOrderSize else pageSize

def startOf (startAddr firstOrderSize : UInt64) : UInt64 := alignUp startAddr (unitOf firstOrderSize)

def endOf (startAddr endAddr firstOrderSize : UInt64) : UInt64 :=
  let endMeta := alignDown endAddr (unitOf firstOrderSize)
  let diff := endMeta - startOf startAddr firstOrderSize
  alignDown (endMeta - alignUp (8 * (diff / unitOf firstOrderSize)) pageSize)
    (unitOf firstOrderSize)

/-- The assertion of `init`. -/
def Accepted (startAddr endAddr firstOrderSize : UInt64) : Prop :=
  alignDown endAddr (unitOf firstOrderSize) > startOf startAddr firstOrderSize

instance (startAddr endAddr firstOrderSize : UInt64) :
    Decidable (Accepted startAddr endAddr firstOrderSize) :=
  inferInstanceAs (Decidable (_ < _))

/-- No address of the range stops the loop. -/
def Fillable (startAddr endAddr firstOrderSize : UInt64) : Prop :=
  ∀ a : UInt64, startOf startAddr firstOrderSize ≤ a → a < endOf startAddr endAddr firstOrderSize →
    ¬ Stuck (unitOf firstOrderSize).toNat (endOf startAddr endAddr firstOrderSize).toNat a

lemma Filling.tilesMaximally (h : Filling p q p.endAddr) (hend : p.hi + 2 ^ 31 ≤ 2 ^ 64)
    (hmeta : p.hi + (p.hi - p.lo) / 2 ^ p.fo ≤ p.endMeta.toNat) : p.TilesMaximally := by
  have hz : p.zones = q := funext fun k => (h.family.represents k).nodes_eq
  have hlt := p.endMeta.toNat_lt
  have hv := h.valid rfl hend (hmeta.trans hlt.le)
  refine ⟨hz ▸ h.zone, h.unit, hz ▸ h.tiles, hz ▸ fun d hd => h.tiles.next hd, h.space, fun d _ h1 h2 => ?_, fun a h1 h2 => ?_⟩
  · rw [hz]
    exact h.tiles.exists_inside_of_buddyFree (h.buddyFree rfl) d h1 h2
  · have hm := hv.getMeta_toNat h1 h2
    change (p.getMeta a).toNat = (a.toNat - p.lo) / 2 ^ p.fo + p.hi at hm
    have hdiv : (a.toNat - p.lo) / 2 ^ p.fo < (p.hi - p.lo) / 2 ^ p.fo :=
      Nat.div_lt_div_of_lt_of_dvd (Nat.dvd_sub h.end_dvd h.start_dvd) (by omega)
    rw [hm]
    refine ⟨Nat.le_add_left _ _, (Nat.add_lt_add_right hdiv _).trans_le ?_⟩
    rw [Nat.add_comm]
    exact hmeta

/-- `init` tiles its range maximally exactly when its loop gets stuck nowhere. -/
theorem init_tilesMaximally_iff (hf : firstOrderSize.toNat = 2 ^ k)
    (hend : endAddr.toNat ≤ 2 ^ 64 - 2 ^ 31) (ha : Accepted startAddr endAddr firstOrderSize) :
    (∃ p, init startAddr endAddr firstOrderSize links n metadata = some p ∧
      p.startAddr = startOf startAddr firstOrderSize ∧
      p.endAddr = endOf startAddr endAddr firstOrderSize ∧
      p.firstOrderSize = unitOf firstOrderSize ∧ p.TilesMaximally) ↔
    Fillable startAddr endAddr firstOrderSize := by
  have hprep := initFields_prepared links n metadata hf ha
  set p0 := initFields startAddr endAddr firstOrderSize links n metadata with hp0
  have hunit : (unitOf firstOrderSize).toNat = 2 ^ p0.fo := hprep.unit
  have hfill := hprep.filling rfl rfl rfl
  have hinit : init startAddr endAddr firstOrderSize links n metadata =
      initLoop ((p0.hi - p0.lo) / 4096 + 1) p0.startAddr p0 := if_pos ha
  rw [Fillable, hunit, hinit]
  constructor
  · rintro ⟨p, hp, -⟩ a hlo hhi hst
    rw [hfill.loop_of_stuck _ hst (UInt64.le_iff_toNat_le.mp hlo)
      (UInt64.lt_iff_toNat_lt.mp hhi)] at hp
    cases hp
  · intro hno
    obtain ⟨p, q, heq, hfill', hlay, -⟩ := hfill.fills _ hprep.page_le (Nat.lt_succ_self _) (by
      intro a h1 h2
      have hst := hno a (UInt64.le_iff_toNat_le.mpr h1) (UInt64.lt_iff_toNat_lt.mpr h2)
      rw [stuck_iff, not_or, not_or] at hst
      exact ⟨hst.1, hst.2.1, fun hd => Nat.lt_of_not_le fun hle => hst.2.2 ⟨hd, hle⟩⟩)
    have hlo : p.lo = p0.lo := by rw [lo, hlay]; rfl
    have hhi : p.hi = p0.hi := by rw [hi, hlay]; rfl
    have hfo : p.fo = p0.fo := by rw [fo, hlay]; rfl
    have hem : p.endMeta = p0.endMeta := by rw [hlay]
    have hle := (Nat.le_add_right _ _).trans (hprep.meta_le.trans hprep.end_le)
    refine ⟨p, heq, by rw [hlay]; rfl, by rw [hlay]; rfl,
      by rw [hlay]; rfl, hfill'.tilesMaximally (by rw [hhi]; omega) ?_⟩
    rw [hlo, hhi, hfo, hem]
    exact hprep.meta_le

end Init

theorem init_tilesMaximally_pages : ∃ p,
    init 4096 65536 4096 (fun _ => ⟨none, none⟩) (fun _ => 0) (fun _ => ⟨false, 0⟩) = some p ∧
    p.TilesMaximally := by
  have hno : Fillable 4096 65536 4096 := by
    intro a hlo hhi hst
    have hlo : 4096 ≤ a.toNat := UInt64.le_iff_toNat_le.mp hlo
    have hhi : a.toNat < 61440 := UInt64.lt_iff_toNat_lt.mp hhi
    have hunit : (unitOf 4096).toNat = 4096 := rfl
    rw [Stuck, hunit] at hst
    rcases hst with rfl | h63 | ⟨hd, -⟩
    · exact absurd hlo (by decide)
    · omega
    · have := Nat.le_of_dvd (by omega) hd
      omega
  obtain ⟨p, hp, -, -, -, ht⟩ := (init_tilesMaximally_iff (k := 12) (fun _ => ⟨none, none⟩)
    (fun _ => 0) (fun _ => ⟨false, 0⟩) rfl (by decide)
    (by decide : Accepted 4096 65536 4096)).mpr hno
  exact ⟨p, hp, ht⟩

/-- `align_of` gives 0 at the address of the top bit. -/
theorem not_init_tilesMaximally_top : Accepted 0x7ffffffffff00000 0x8000000000100000 4096 ∧
    ¬ ∃ p, init 0x7ffffffffff00000 0x8000000000100000 4096 (fun _ => ⟨none, none⟩) (fun _ => 0)
      (fun _ => ⟨false, 0⟩) = some p ∧ p.TilesMaximally := by
  refine ⟨by decide, ?_⟩
  rintro ⟨p, hp, -⟩
  have hnone : (init 0x7ffffffffff00000 0x8000000000100000 4096 (fun _ => ⟨none, none⟩)
      (fun _ => 0) (fun _ => ⟨false, 0⟩)).isSome = false := by decide +kernel
  rw [hp] at hnone
  cases hnone

end EpochKernel.Mem.Pallocator
