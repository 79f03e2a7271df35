import EpochKernel.Mem.AddrSpace

/-! What `map_alloc_data` leaves mapped when the zone `i` of an allocation cannot be mapped. The pages
are seen through a walk of the page tables, for which mapping is all or nothing. -/
namespace EpochKernel.Mem
open EpochKernel.Util

/-- `walk` shows what a byte is mapped to: `map_internal` maps the given bytes or changes nothing,
`unmap_internal` unmaps the given bytes and no others. -/
structure PageMap {π : Type*} (m : Memory π) (walk : π → UInt64 → Option UInt64) : Prop where
  mapped : ∀ {physAddr virtAddr n flags w w'},
    m.mapInternal physAddr virtAddr n flags w = (true, w') →
    (∀ p, p - virtAddr < n → walk w' p ≠ none) ∧ ∀ p, ¬ p - virtAddr < n → walk w' p = walk w p
  refused : ∀ {physAddr virtAddr n flags w w'},
    m.mapInternal physAddr virtAddr n flags w = (false, w') → walk w' = walk w
  unmapped : ∀ virtAddr n w p,
    walk (m.unmapInternal virtAddr n w) p = if p - virtAddr < n then none else walk w p

/-- The bytes of the physical zones `l`. -/
def total (l : List PhysAllocation) : ℕ := (l.map fun a => a.len.toNat).sum

@[simp] lemma total_nil : total [] = 0 := rfl

@[simp] lemma total_cons (a : PhysAllocation) (l : List PhysAllocation) :
    total (a :: l) = a.len.toNat + total l := rfl

lemma total_append (l l' : List PhysAllocation) : total (l ++ l') = total l + total l' := by
  simp [total]

lemma total_take_le (l : List PhysAllocation) (i : ℕ) : total (l.take i) ≤ total l := by
  conv_rhs => rw [← List.take_append_drop i l, total_append]
  exact Nat.le_add_right _ _

lemma sum_len_toNat {l : List PhysAllocation} (h : total l < 2 ^ 64) :
    ((l.map PhysAllocation.len).sum).toNat = total l := by
  induction l with
  | nil => rfl
  | cons a l ih =>
    rw [total_cons] at h
    rw [List.map_cons, List.sum_cons, UInt64.toNat_add, ih (by omega), total_cons]
    exact Nat.mod_eq_of_lt h

/-- The distance of a byte from an address `n` bytes further on. -/
lemma sub_add_toNat (p v n : UInt64) : (p - (v + n)).toNat =
    if n.toNat ≤ (p - v).toNat then (p - v).toNat - n.toNat
    else 2 ^ 64 + (p - v).toNat - n.toNat := by
  have h : p - (v + n) = p - v - n := sub_add_eq_sub_sub p v n
  have hn := n.toNat_lt
  have hp := (p - v).toNat_lt
  rw [h, UInt64.toNat_sub]
  split_ifs <;> omega

namespace AddrSpace
variable {σ π : Type*} {L : ListOps σ UInt64} {m : Memory π} {walk : π → UInt64 → Option UInt64}

/-- The loop maps the zones one behind the other, up to the one at which it fails. -/
theorem mapZones_walk (hm : PageMap m walk) (flags : UInt64) {k : ℕ} {l : List PhysAllocation}
    {virtAddr : UInt64} {w w' : π} {r : Option ℕ} (hsum : total l < 2 ^ 64)
    (h : mapZones m flags k l virtAddr w = (r, w')) :
    ∃ j, (r = none ∧ j = l.length ∨ r = some (k + j) ∧ j < l.length) ∧
      (∀ p : UInt64, (p - virtAddr).toNat < total (l.take j) → walk w' p ≠ none) ∧
      ∀ p : UInt64, ¬ (p - virtAddr).toNat < total (l.take j) → walk w' p = walk w p := by
  induction l generalizing k virtAddr w with
  | nil =>
    cases h
    exact ⟨0, .inl ⟨rfl, rfl⟩, fun p hp => absurd hp (Nat.not_lt_zero _), fun _ _ => rfl⟩
  | cons a l ih =>
    rw [total_cons] at hsum
    rw [mapZones] at h
    match hmap : m.mapInternal a.addr virtAddr a.len flags w with
    | (false, w₁) =>
      rw [hmap] at h
      cases h
      refine ⟨0, .inr ⟨rfl, Nat.succ_pos _⟩, fun p hp => absurd hp (Nat.not_lt_zero _), fun p _ => ?_⟩
      rw [hm.refused hmap]
    | (true, w₁) =>
      rw [hmap] at h
      obtain ⟨hin, hout⟩ := hm.mapped hmap
      obtain ⟨j, hr, hin', hout'⟩ := ih (by omega) h
      have hle := total_take_le l j
      refine ⟨j + 1, ?_, fun p hp => ?_, fun p hp => ?_⟩
      · rcases hr with ⟨hr, hj⟩ | ⟨hr, hj⟩
        · exact .inl ⟨hr, by rw [hj, List.length_cons]⟩
        · exact .inr ⟨by rw [hr, Nat.add_assoc, Nat.add_comm 1], by rw [List.length_cons]; omega⟩
      · rw [List.take_succ_cons, total_cons] at hp
        have hsub := sub_add_toNat p virtAddr a.len
        by_cases hfirst : (p - virtAddr).toNat < a.len.toNat
        · rw [if_neg (by omega)] at hsub
          rw [hout' p (by omega)]
          exact hin p (UInt64.lt_iff_toNat_lt.mpr hfirst)
        · rw [if_pos (by omega)] at hsub
          exact hin' p (by omega)
      · rw [List.take_succ_cons, total_cons] at hp
        have hsub := sub_add_toNat p virtAddr a.len
        rw [if_pos (by omega)] at hsub
        rw [hout' p (by omega)]
        exact hout p fun hlt => hp (by have := UInt64.lt_iff_toNat_lt.mp hlt; omega)

/-- Nothing of the zones before `i` is mapped any more, and nothing changed outside of the range of
the allocation. -/
structure RolledBack (walk : π → UInt64 → Option UInt64) (virtAddr : UInt64)
    (l : List PhysAllocation) (i : ℕ) (w w' : π) : Prop where
  gone : ∀ p : UInt64, (p - virtAddr).toNat < total (l.take i) → walk w' p = none
  kept : ∀ p : UInt64, ¬ (p - virtAddr).toNat < total l → walk w' p = walk w p

section Find
variable {s s' : AddrSpace σ π} {z : UInt64}

lemma get_world {i : ℕ} {c : Option UInt64} (h : s.get L i = some (c, s')) :
    s'.world = s.world := by
  obtain ⟨g, -, hg⟩ := Option.map_eq_some_iff.mp h
  exact (congrArg (fun r => r.2.world) hg).symm

lemma findLoop_world {i : ℕ} {last : UInt64} {r : UInt64 × UInt64 × AddrSpace σ π}
    (h : findLoop L z i last s = some r) : r.2.2.world = s.world := by
  induction i generalizing last s with
  | zero =>
    cases h
    rfl
  | succ i ih =>
    rw [findLoop] at h
    split at h
    · next c s₁ hget =>
      dsimp only at h
      split_ifs at h
      · obtain ⟨s₂, hins, hr⟩ := Option.map_eq_some_iff.mp h
        obtain ⟨l, -, hl⟩ := Option.map_eq_some_iff.mp hins
        have hworld : r.2.2.world = s₁.world := by rw [← hr, ← hl]
        exact hworld.trans (get_world hget)
      · exact (ih h).trans (get_world hget)
    · cases h

/-- `find_address` has nothing to do with the page tables. -/
lemma findAddress_world {a : UInt64} (h : s.findAddress L z = some (a, s')) :
    s'.world = s.world := by
  rw [findAddress] at h
  split at h
  · next c s₁ hget =>
    rw [← get_world hget]
    dsimp only at h
    have hfound : ∀ {r : Option (UInt64 × AddrSpace σ π)},
        (∀ f, r = some f → f.2.world = s₁.world) →
        (r.map fun x => if x.1 = 0 then ((0 : UInt64), x.2)
          else (x.1, x.2.setZone z { x.2.zone z with virtAddr := x.1 })) = some (a, s') →
        s'.world = s₁.world := by
      intro r hr hmap
      obtain ⟨f, hf, hout⟩ := Option.map_eq_some_iff.mp hmap
      have hs' := congrArg (fun r => r.2.world) hout
      dsimp only at hs'
      rw [← hs', ← hr f hf]
      split_ifs <;> rfl
    split_ifs at h
    · exact hfound (by rintro f ⟨⟩; rfl) h
    · exact hfound (by rintro f ⟨⟩; rfl) h
    · refine hfound (fun f hf => ?_) h
      obtain ⟨g, hg, hgf⟩ := Option.map_eq_some_iff.mp hf
      rw [← findLoop_world hg, ← hgf]
      split_ifs <;> rfl
  · cases h

end Find

section MapAllocData
variable {s s₁ : AddrSpace σ π} {z virtAddr : UInt64} {i : ℕ}

/-- The lengths that are unmapped leave out the first zone. -/
lemma mapAllocData_of_failed (hfind : s.findAddress L z = some (virtAddr, s₁)) (hvirt : virtAddr ≠ 0)
    {w : π} (hfail : mapZones m (s₁.zone z).flags 0 (s₁.zone z).allocations virtAddr s₁.world =
      (some i, w)) :
    ∃ s', s.mapAllocData L m z = some (0, s') ∧ s'.world = if i = 0 then w else
      m.unmapInternal virtAddr
        ((((s₁.zone z).allocations.take i).drop 1).map PhysAllocation.len).sum w := by
  rw [mapAllocData, hfind]
  dsimp only
  rw [if_neg hvirt, hfail]
  cases i with
  | zero => exact ⟨_, rfl, rfl⟩
  | succ i => exact ⟨_, rfl, rfl⟩

/-- When the zone `i` cannot be mapped, the mappings of the zones before it are undone exactly when
there are none: the loop over them stops before the first one. -/
theorem mapAllocData_rolledBack_iff (hm : PageMap m walk)
    (hfind : s.findAddress L z = some (virtAddr, s₁)) (hvirt : virtAddr ≠ 0)
    (hlen : ∀ a ∈ (s₁.zone z).allocations, 0 < a.len)
    (htotal : total (s₁.zone z).allocations < 2 ^ 64)
    (hfail : (mapZones m (s₁.zone z).flags 0 (s₁.zone z).allocations virtAddr s₁.world).1 =
      some i) :
    ∃ s', s.mapAllocData L m z = some (0, s') ∧
      (RolledBack walk virtAddr (s₁.zone z).allocations i s.world s'.world ↔ i = 0) := by
  set l := (s₁.zone z).allocations
  obtain ⟨w, hw⟩ : ∃ w, mapZones m (s₁.zone z).flags 0 l virtAddr s₁.world = (some i, w) :=
    ⟨_, Prod.ext hfail rfl⟩
  obtain ⟨s', hs', hworld⟩ := mapAllocData_of_failed hfind hvirt hw
  obtain ⟨j, hj, hin, hout⟩ := mapZones_walk hm _ htotal hw
  obtain ⟨hji, hlt⟩ : i = j ∧ j < l.length := by
    rcases hj with ⟨hn, -⟩ | ⟨hs, hlt⟩
    · cases hn
    · exact ⟨by simpa using hs, hlt⟩
  subst hji
  refine ⟨s', hs', fun hback => ?_, fun h0 => ?_⟩
  · by_contra hne
    rw [if_neg hne] at hworld
    obtain ⟨a, as, hl⟩ := List.exists_cons_of_length_pos (Nat.zero_lt_of_lt hlt)
    obtain ⟨k, rfl⟩ := Nat.exists_eq_succ_of_ne_zero hne
    rw [hl, List.take_succ_cons] at hin
    rw [show (s₁.zone z).allocations = a :: as from hl, List.take_succ_cons] at hworld
    rw [List.drop_succ_cons, List.drop_zero] at hworld
    have hapos : 0 < a.len.toNat := hlen a (by rw [hl]; simp)
    -- the last byte that was mapped lies behind the lengths of the zones 1 to `i - 1`
    have hle := total_take_le as k
    rw [hl, total_cons] at htotal
    rw [total_cons] at hin
    set p : UInt64 := virtAddr + UInt64.ofNat (a.len.toNat + total (as.take k) - 1)
    have hp : (p - virtAddr).toNat = a.len.toNat + total (as.take k) - 1 := by
      rw [show p - virtAddr = UInt64.ofNat (a.len.toNat + total (as.take k) - 1) from
        add_sub_cancel_left _ _, UInt64.toNat_ofNat']
      exact Nat.mod_eq_of_lt (by omega)
    have hgone := hback.gone p (by rw [hl, List.take_succ_cons, total_cons]; omega)
    rw [hworld, hm.unmapped, if_neg] at hgone
    · exact hin p (by omega) hgone
    · rw [UInt64.lt_iff_toNat_lt, sum_len_toNat (by omega)]
      omega
  · subst h0
    rw [if_pos rfl] at hworld
    refine ⟨fun p hp => absurd hp (Nat.not_lt_zero _), fun p _ => ?_⟩
    rw [hworld, hout p (Nat.not_lt_zero _), findAddress_world hfind]

end MapAllocData
end AddrSpace

/-- A kernel with page tables for the first `w.1` zones only; `w.2` is what they map. -/
def Memory.scarce : Memory (ℕ × (UInt64 → Option UInt64)) where
  pages := 1024
  layout := Memory.plenty.layout
  getFreeSpace _ := 0x400000
  alloc n w := if n = 0x1000 then (some kernelVma, w) else (none, w)
  free _ w := w
  room _ w := (true, w)
  mapInternal physAddr virtAddr n _
    | (0, walk) => (false, 0, walk)
    | (k + 1, walk) =>
      (true, k, fun p => if p - virtAddr < n then some (physAddr + (p - virtAddr)) else walk p)
  unmapInternal virtAddr n w := (w.1, fun p => if p - virtAddr < n then none else w.2 p)

lemma pageMap_scarce : PageMap .scarce fun w => w.2 where
  mapped := by
    rintro physAddr virtAddr n flags ⟨_ | k, walk⟩ w' h
    · cases h
    · cases h
      exact ⟨fun p hp => by simp [hp], fun p hp => if_neg hp⟩
  refused := by
    rintro physAddr virtAddr n flags ⟨_ | k, walk⟩ w' h
    · cases h
      rfl
    · cases h
  unmapped _ _ _ _ := rfl

namespace AddrSpace

/-- The zone 0x200 of two pages is about to be mapped, with page tables for `k` of its zones. -/
def sampleSpace (k : ℕ) : AddrSpace (LinkedList UInt64 × Links UInt64)
    (ℕ × (UInt64 → Option UInt64)) where
  virtAllocs := LinkedList.append 0x100 {} fun _ => ⟨none, none⟩
  zone := Function.update (fun _ => kernelZone) 0x200
    ⟨0, 0x2000, .valloc, [⟨kernelVma, 0x1000⟩, ⟨kernelVma + 0x1000, 0x1000⟩], 6, 0⟩
  world := (k, fun _ => none)
  isCurrent := false
  objs := [0x200, 0x100]
  freed := []
  stale := fun _ => false

theorem mapAllocData_rolledBack_sample : ∃ s' : AddrSpace (LinkedList UInt64 × Links UInt64) _,
    (sampleSpace 0).mapAllocData (.linked fun _ => ⟨none, none⟩) .scarce 0x200 = some (0, s') ∧
    (RolledBack (fun w => w.2) 0x1000 [⟨kernelVma, 0x1000⟩, ⟨kernelVma + 0x1000, 0x1000⟩] 0
      (sampleSpace 0).world s'.world ↔ 0 = 0) :=
  mapAllocData_rolledBack_iff pageMap_scarce (z := 0x200)
    (show (sampleSpace 0).findAddress (.linked fun _ => ⟨none, none⟩) 0x200 = some (0x1000, _)
      from rfl) (by decide) (by decide) (by decide) rfl

/-- When the second zone cannot be mapped, the first one stays mapped. -/
theorem not_mapAllocData_rolledBack_second :
    ∃ s' : AddrSpace (LinkedList UInt64 × Links UInt64) _,
    (sampleSpace 1).mapAllocData (.linked fun _ => ⟨none, none⟩) .scarce 0x200 = some (0, s') ∧
    ¬ RolledBack (fun w => w.2) 0x1000 [⟨kernelVma, 0x1000⟩, ⟨kernelVma + 0x1000, 0x1000⟩] 1
      (sampleSpace 1).world s'.world := by
  refine ⟨_, rfl, fun hback => ?_⟩
  have hgone := hback.gone 0x1000 (by decide)
  cases hgone

end AddrSpace
end EpochKernel.Mem
