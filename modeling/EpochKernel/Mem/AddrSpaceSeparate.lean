import EpochKernel.Mem.AddrSpaceZones

/-! Which runs keep the zones of an address space apart. -/
namespace EpochKernel.Mem
open EpochKernel.Util EpochKernel.Library

namespace AddrSpace
variable {π : Type*} {m : Memory π} {s s' : AddrSpace (List UInt64) π} {z : UInt64}

/-- The same zones in the list, with the same objects in use. -/
def SameZones (s s' : AddrSpace (List UInt64) π) : Prop :=
  s'.virtAllocs = s.virtAllocs ∧ s'.zone = s.zone ∧ s'.objs = s.objs

lemma SameZones.refl (s : AddrSpace (List UInt64) π) : SameZones s s := ⟨rfl, rfl, rfl⟩

lemma SameZones.trans {s'' : AddrSpace (List UInt64) π} (h : SameZones s s')
    (h' : SameZones s' s'') : SameZones s s'' :=
  ⟨h'.1.trans h.1, h'.2.1.trans h.2.1, h'.2.2.trans h.2.2⟩

lemma sameZones_syncTlbRaw (e n : UInt64) : SameZones s (s.syncTlbRaw e n) := ⟨rfl, rfl, rfl⟩

lemma Inv.of_same (h : Inv s) (hs : SameZones s s') : Inv s' :=
  h.of_eq hs.1 (fun z _ => by rw [hs.2.1]) (by rw [hs.2.2]; exact h.objs)

lemma Inv.withWorld (h : Inv s) (w : π) : Inv { s with world := w } := h.of_same ⟨rfl, rfl, rfl⟩

section Flush

lemma syncLoop_same {virtAddr : UInt64} {fuel i : ℕ}
    (h : syncLoop .sequence virtAddr fuel i s = some s') : SameZones s s' := by
  induction fuel generalizing i s with
  | zero => exact absurd h nofun
  | succ fuel ih =>
    rw [syncLoop] at h
    split_ifs at h with hi
    · rw [get_sequence] at h
      cases hz : s.virtAllocs[i]? with
      | none => simp [hz] at h
      | some z =>
        simp only [hz] at h
        split_ifs at h
        · exact (sameZones_syncTlbRaw _ _).trans (ih h)
        · exact ih h
    · obtain rfl := Option.some.inj h
      exact .refl s

lemma syncIfCurrent_same {virtAddr : UInt64}
    (h : s.syncIfCurrent .sequence virtAddr = some s') : SameZones s s' := by
  rw [syncIfCurrent] at h
  split_ifs at h
  · exact syncLoop_same h
  · obtain rfl := Option.some.inj h
    exact .refl s

end Flush

section Removal

lemma eraseIdx_eq_erase {α : Type*} [DecidableEq α] {xs : List α} {i : ℕ} {x : α}
    (hn : xs.Nodup) (hi : xs[i]? = some x) : xs.eraseIdx i = xs.erase x := by
  obtain ⟨hlt, rfl⟩ := List.getElem?_eq_some_iff.mp hi
  exact (List.erase_eq_eraseIdx_of_idxOf (hn.idxOf_getElem i hlt)).symm

/-- A zone other than the kernel zone may be taken out and deleted. -/
lemma Inv.remove_zone (h : Inv s) (hk : (s.zone z).type ≠ .kernel) :
    Inv ((s.removeP .sequence z).delete z) := by
  refine h.of_sublist List.erase_sublist rfl (fun c hc => ?_) fun c hc hck => ?_
  · obtain ⟨hne, hmem⟩ := h.nodup.mem_erase_iff.mp hc
    exact (List.mem_erase_of_ne hne).mpr (h.objs c hmem)
  · exact h.nodup.mem_erase_iff.mpr ⟨by rintro rfl; exact hk hck, hc⟩

lemma Inv.remove_at (h : Inv s) {i : ℕ} (hi : s.virtAllocs[i]? = some z)
    (hk : (s.zone z).type ≠ .kernel) :
    ∃ s', s.remove .sequence i = some s' ∧ s'.zone = s.zone ∧ Inv (s'.delete z) := by
  refine ⟨_, rfl, rfl, ?_⟩
  have := h.remove_zone hk
  rwa [removeP, show ListOps.sequence.removeP z s.virtAllocs = s.virtAllocs.eraseIdx i from
    (eraseIdx_eq_erase h.nodup hi).symm] at this

lemma release_same (virtAddr offset : UInt64) (as : List PhysAllocation)
    (s : AddrSpace (List UInt64) π) : SameZones s (release m virtAddr as offset s) := by
  induction as generalizing offset s with
  | nil => exact .refl s
  | cons a as ih => exact SameZones.trans ⟨rfl, rfl, rfl⟩ (ih _ _)

lemma Inv.freeLoop {virtAddr : UInt64} {fuel i : ℕ} (h : Inv s)
    (hr : freeLoop .sequence m virtAddr fuel i s = some s') : Inv s' := by
  induction fuel generalizing i s with
  | zero => exact absurd hr nofun
  | succ fuel ih =>
    rw [AddrSpace.freeLoop] at hr
    split_ifs at hr with hi
    · rw [get_sequence] at hr
      cases hz : s.virtAllocs[i]? with
      | none => simp [hz] at hr
      | some z =>
        simp only [hz] at hr
        split_ifs at hr with hfound
        · have hsame := release_same (m := m) virtAddr 0 (s.zone z).allocations s
          obtain ⟨s1, hs1, hzone, hinv⟩ := (h.of_same hsame).remove_at (hsame.1 ▸ hz)
            (by rw [hsame.2.1, hfound.2]; nofun)
          rw [hs1, Option.bind_some] at hr
          exact ih hinv hr
        · exact ih h hr
    · obtain rfl := Option.some.inj hr
      exact h

lemma Inv.free {mem : UInt64} (h : Inv s) (hr : s.free .sequence m mem = some s') : Inv s' := by
  rw [AddrSpace.free, Option.bind_eq_some_iff] at hr
  obtain ⟨s1, hs1, hr⟩ := hr
  exact (h.freeLoop hs1).of_same (syncIfCurrent_same hr)

lemma Inv.unmapLoop {virtAddr : UInt64} {fuel i : ℕ}
    {r : Option UInt64 × AddrSpace (List UInt64) π} (h : Inv s)
    (hr : unmapLoop .sequence m virtAddr fuel i s = some r) : Inv r.2 := by
  induction fuel generalizing i s with
  | zero => exact absurd hr nofun
  | succ fuel ih =>
    rw [AddrSpace.unmapLoop] at hr
    split_ifs at hr with hi
    · rw [get_sequence] at hr
      cases hz : s.virtAllocs[i]? with
      | none => simp [hz] at hr
      | some z =>
        simp only [hz] at hr
        split_ifs at hr with hfound
        · have h' : Inv (s.unmapInternal m (s.zone z).virtAddr (s.zone z).len) :=
            h.of_same ⟨rfl, rfl, rfl⟩
          obtain ⟨s1, hs1, -, hinv⟩ := h'.remove_at hz
            (show (s.zone z).type ≠ .kernel by rw [hfound.2]; nofun)
          rw [hs1] at hr
          obtain rfl := Option.some.inj hr
          exact hinv
        · exact ih h hr
    · obtain rfl := Option.some.inj hr
      exact h

lemma Inv.unmap {virtAddr : UInt64} {r : Option UInt64 × AddrSpace (List UInt64) π} (h : Inv s)
    (hr : s.unmap .sequence m virtAddr = some r) : Inv r.2 := by
  rw [AddrSpace.unmap] at hr
  cases hl : AddrSpace.unmapLoop .sequence m (alignDown virtAddr pageSize)
      (s.len .sequence + 1) 0 s with
  | none => simp [hl] at hr
  | some out =>
    obtain ⟨out, s1⟩ := out
    have hs1 : Inv s1 := h.unmapLoop hl
    cases out with
    | none =>
      simp only [hl, Option.map_eq_some_iff] at hr
      obtain ⟨s2, hs2, rfl⟩ := hr
      exact hs1.of_same (syncIfCurrent_same hs2)
    | some out =>
      simp only [hl, Option.some_inj] at hr
      subst hr
      exact hs1

lemma Inv.unreserveLoop {virtAddr : UInt64} {fuel i : ℕ} (h : Inv s)
    (hr : unreserveLoop .sequence virtAddr fuel i s = some s') : Inv s' := by
  induction fuel generalizing i s with
  | zero => exact absurd hr nofun
  | succ fuel ih =>
    rw [AddrSpace.unreserveLoop] at hr
    split_ifs at hr with hi
    · rw [get_sequence] at hr
      cases hz : s.virtAllocs[i]? with
      | none => simp [hz] at hr
      | some z =>
        simp only [hz] at hr
        split_ifs at hr with hfound
        · obtain ⟨s1, hs1, -, hinv⟩ := h.remove_at hz (by rw [hfound.2]; nofun)
          rw [hs1] at hr
          obtain rfl := Option.some.inj hr
          exact hinv
        · exact ih h hr
    · obtain rfl := Option.some.inj hr
      exact h

end Removal

section Insertion
variable {d : VirtZone} {n : UInt64}

lemma Inv.notMem (h : Inv s) (hz : z ∉ s.objs) : z ∉ s.virtAllocs := fun hmem => hz (h.objs z hmem)

lemma new_zone_of_mem (h : Inv s) (hz : z ∉ s.objs) {c : UInt64} (hc : c ∈ s.virtAllocs) :
    (s.new z d).zone c = s.zone c :=
  Function.update_of_ne (by rintro rfl; exact h.notMem hz hc) _ _

@[simp] lemma new_world : (s.new z d).world = s.world := rfl

lemma HasRoom.of_eq (h : HasRoom n s) (hlist : s'.virtAllocs = s.virtAllocs)
    (hzone : ∀ c ∈ s.virtAllocs, s'.zone c = s.zone c) : HasRoom n s' := by
  have hzones : s'.zones = s.zones := by
    rw [zones, zones, hlist]
    exact List.map_congr_left hzone
  rw [HasRoom, hzones, hlist]
  rcases h with h | h | h
  · exact .inl h
  · exact .inr (.inl h)
  · refine .inr (.inr ?_)
    cases hs : s.virtAllocs with
    | nil => rfl
    | cons c cs =>
      rw [hs, List.head?_cons, Option.all_some] at h
      rw [List.head?_cons, Option.all_some, hzone c (by simp [hs]), h]

lemma Inv.new (h : Inv s) (hz : z ∉ s.objs) : Inv (s.new z d) :=
  h.of_eq rfl (fun _ hc => new_zone_of_mem h hz hc) fun c hc => List.mem_cons_of_mem z (h.objs c hc)

lemma Inv.setZone (h : Inv s) (hz : z ∉ s.virtAllocs) : Inv (s.setZone z d) :=
  h.of_eq rfl (fun c hc => Function.update_of_ne (by rintro rfl; exact hz hc) _ _) h.objs

lemma Inv.delete_new (h : Inv s) (hz : z ∉ s.objs) : Inv ((s.new z d).delete z) :=
  h.of_eq rfl (fun _ hc => new_zone_of_mem h hz hc) fun c hc => by
    rw [AddrSpace.delete, AddrSpace.new, List.erase_cons_head]
    exact h.objs c hc

/-- A new zone object that is written once more. -/
lemma Inv.new_setZone (h : Inv s) (hz : z ∉ s.objs) (w : π) {d' : VirtZone} :
    Inv ({ s.new z d with world := w }.setZone z d') := by
  have hnew : Inv { s.new z d with world := w } := (h.new hz).of_same ⟨rfl, rfl, rfl⟩
  exact hnew.setZone (h.notMem hz)

lemma HasRoom.new (hroom : HasRoom n s) (h : Inv s) (hz : z ∉ s.objs) : HasRoom n (s.new z d) :=
  HasRoom.of_eq hroom rfl fun _ hc => new_zone_of_mem h hz hc

lemma HasRoom.new_setZone (hroom : HasRoom n s) (h : Inv s) (hz : z ∉ s.objs) (w : π)
    (d' : VirtZone) : HasRoom n ({ s.new z d with world := w }.setZone z d') := by
  refine HasRoom.of_eq hroom rfl fun c hc => ?_
  have hne : c ≠ z := by
    rintro rfl
    exact h.notMem hz hc
  exact (Function.update_of_ne hne _ _).trans (new_zone_of_mem h hz hc)

/-- A zone found by `find_address` and mapped, or not, and the state is as it should be. -/
lemma Inv.findAddress_type {r : UInt64 × AddrSpace (List UInt64) π} (h : Inv s)
    (hz : z ∉ s.virtAllocs) (hobj : z ∈ s.objs) (hlen : 4096 ∣ (s.zone z).len.toNat)
    (hroom : HasRoom (s.zone z).len s) (hr : s.findAddress .sequence z = some r) :
    Inv r.2 ∧ (r.2.zone z).type = (s.zone z).type := by
  rcases h.findAddress hz hobj hlen hroom hr with ⟨-, hs⟩ | ⟨-, as, bs, -, hs, hinv⟩
  · exact ⟨hs ▸ h, by rw [hs]⟩
  · refine ⟨hinv, ?_⟩
    rw [hs]
    simp

lemma Inv.mapAllocData {r : UInt64 × AddrSpace (List UInt64) π} (h : Inv s)
    (hz : z ∉ s.virtAllocs) (hobj : z ∈ s.objs) (hlen : 4096 ∣ (s.zone z).len.toNat)
    (hroom : HasRoom (s.zone z).len s) (hr : s.mapAllocData .sequence m z = some r) :
    Inv r.2 ∧ (r.2.zone z).type = (s.zone z).type := by
  rw [AddrSpace.mapAllocData] at hr
  cases hf : s.findAddress .sequence z with
  | none => simp [hf] at hr
  | some found =>
    obtain ⟨virtAddr, s1⟩ := found
    obtain ⟨hinv, htype⟩ := h.findAddress_type hz hobj hlen hroom hf
    simp only [hf] at hr
    split_ifs at hr
    · obtain rfl := Option.some.inj hr
      exact ⟨hinv, htype⟩
    · split at hr <;> obtain rfl := Option.some.inj hr
      all_goals exact ⟨hinv.of_same ⟨rfl, rfl, rfl⟩, htype⟩

/-- The call does not reach the test of `find_address` against an object, nor does it give
`insert_virt_zone` a range at address 0 or beyond the last address, or else these do no harm. -/
def Harmless (m : Memory π) (s : AddrSpace (List UInt64) π) : Call π → Prop
  | .alloc _ n _ => n = 0 ∨ m.getFreeSpace s.world < n ∨
      (collectPhysZones m (alignUp n pageSize) s.world).map (·.1) = some false ∨
      HasRoom (alignUp n pageSize) s
  | .map _ _ n _ | .reserve _ n => n = 0 ∨ HasRoom (alignUp n pageSize) s
  | .mapAt _ _ virtAddr n _ => n = 0 ∨
      place (alignDown virtAddr pageSize) (alignUp n pageSize) none s.zones = none ∨
      Proper (alignDown virtAddr pageSize) (alignUp n pageSize)
  | .reserveAt _ virtAddr n =>
      place (alignDown virtAddr pageSize) (alignUp n pageSize) none s.zones = none ∨
      Proper (alignDown virtAddr pageSize) (alignUp n pageSize)
  | .free _ | .unmap _ | .unreserve _ | .elapse .. => True

instance (m : Memory π) (s : AddrSpace (List UInt64) π) : (c : Call π) → Decidable (Harmless m s c)
  | .alloc .. => inferInstanceAs (Decidable (_ ∨ _ ∨ _ ∨ _))
  | .map .. | .reserve .. => inferInstanceAs (Decidable (_ ∨ _))
  | .mapAt .. => inferInstanceAs (Decidable (_ ∨ _ ∨ _))
  | .reserveAt .. => inferInstanceAs (Decidable (_ ∨ _))
  | .free _ | .unmap _ | .unreserve _ | .elapse .. => inferInstanceAs (Decidable True)

lemma dvd_alignUp_page (n : UInt64) : 4096 ∣ (alignUp n pageSize).toNat :=
  dvd_alignUp (k := 12) rfl

lemma dvd_alignDown_page (n : UInt64) : 4096 ∣ (alignDown n pageSize).toNat :=
  dvd_alignDown (k := 12) rfl

lemma Inv.alloc {zo : Option UInt64} {flags : UInt64} {r : UInt64 × AddrSpace (List UInt64) π}
    (h : Inv s) (hz : zo.all fun z => z ∉ s.objs) (hP : Harmless m s (.alloc zo n flags))
    (hr : s.alloc .sequence m zo n flags = some r) : Inv r.2 := by
  unfold AddrSpace.alloc at hr
  split_ifs at hr with hn
  · obtain rfl := Option.some.inj hr
    exact h
  rw [not_or] at hn
  cases zo with
  | none => cases hr
  | some z =>
    have hz : z ∉ s.objs := of_decide_eq_true hz
    replace hP := (hP.resolve_left hn.1).resolve_left hn.2
    dsimp only at hr
    cases hc : collectPhysZones m (alignUp n pageSize) s.world with
    | none => simp [new_world, hc] at hr
    | some collected =>
      obtain ⟨b, l, w⟩ := collected
      rw [new_world, hc] at hr
      cases b with
      | false =>
        obtain rfl := Option.some.inj hr
        exact (h.delete_new hz).withWorld w
      | true =>
        rw [hc] at hP
        have hroom : HasRoom (alignUp n pageSize) s := hP.resolve_left (by simp)
        have hroom' := hroom.new_setZone h hz w (d := { s.zone z with
          type := .valloc, allocations := [], len := alignUp n pageSize, flags := flags })
          { s.zone z with
            type := .valloc, allocations := l, len := alignUp n pageSize, flags := flags }
        dsimp only at hr
        split at hr
        · exact absurd hr nofun
        · next out s1 hm =>
          obtain ⟨h1, htype⟩ := (h.new_setZone hz w).mapAllocData (h.notMem hz) List.mem_cons_self
            (by simp [AddrSpace.setZone, AddrSpace.new, dvd_alignUp_page])
            (by simpa [AddrSpace.setZone, AddrSpace.new] using hroom') hm
          split_ifs at hr with hout
          · obtain rfl := Option.some.inj hr
            refine h1.remove_zone ?_
            rw [htype]
            simp [AddrSpace.setZone, AddrSpace.new]
          · obtain ⟨s2, hs2, rfl⟩ := Option.map_eq_some_iff.mp hr
            exact h1.of_same (syncIfCurrent_same hs2)

/-- A new zone for which `find_address` has been called. -/
lemma Inv.findAddress_new {virtAddr : UInt64} (h : Inv s) (hz : z ∉ s.objs)
    (hd : d.len = alignUp n pageSize) (hroom : HasRoom (alignUp n pageSize) s)
    (hr : (s.new z d).findAddress .sequence z = some (virtAddr, s')) :
    (virtAddr = 0 → s' = s.new z d) ∧ Inv s' ∧ (s'.zone z).type = d.type := by
  have hlen : ((s.new z d).zone z).len = alignUp n pageSize := by
    rw [AddrSpace.new, AddrSpace.setZone]
    simp [hd]
  have hdvd : 4096 ∣ ((s.new z d).zone z).len.toNat := hlen ▸ dvd_alignUp_page n
  have hroom' : HasRoom ((s.new z d).zone z).len (s.new z d) := hlen ▸ HasRoom.new hroom h hz
  obtain ⟨hinv, htype⟩ :=
    (h.new hz).findAddress_type (h.notMem hz) List.mem_cons_self hdvd hroom' hr
  refine ⟨fun h0 => ?_, hinv, htype.trans (by simp [AddrSpace.new, AddrSpace.setZone])⟩
  rcases (h.new hz).findAddress (h.notMem hz) List.mem_cons_self hdvd hroom' hr with hs | hs
  · exact hs.2
  · exact absurd h0 hs.1

lemma Inv.map {zo : Option UInt64} {physAddr flags : UInt64}
    {r : UInt64 × AddrSpace (List UInt64) π} (h : Inv s) (hz : zo.all fun z => z ∉ s.objs)
    (hP : Harmless m s (.map zo physAddr n flags))
    (hr : s.map .sequence m zo physAddr n flags = some r) : Inv r.2 := by
  unfold AddrSpace.map at hr
  split_ifs at hr with hn
  · obtain rfl := Option.some.inj hr
    exact h
  cases zo with
  | none => cases hr
  | some z =>
    have hz : z ∉ s.objs := of_decide_eq_true hz
    have hroom := hP.resolve_left hn
    dsimp only at hr
    split at hr
    · exact absurd hr nofun
    · next virtAddr s1 hf =>
      obtain ⟨hzero, h1, htype⟩ := h.findAddress_new hz rfl hroom hf
      split_ifs at hr with hva
      · obtain rfl := Option.some.inj hr
        rw [hzero hva]
        exact h.delete_new hz
      · have hkind : (s1.zone z).type ≠ .kernel := by
          rw [htype]
          nofun
        split at hr
        · next w hw =>
          obtain rfl := Option.some.inj hr
          exact (h1.withWorld w).remove_zone hkind
        · next w hw =>
          obtain ⟨s2, hs2, rfl⟩ := Option.map_eq_some_iff.mp hr
          exact (h1.withWorld w).of_same (syncIfCurrent_same hs2)

lemma Inv.reserve {zo : Option UInt64} {r : UInt64 × AddrSpace (List UInt64) π} (h : Inv s)
    (hz : zo.all fun z => z ∉ s.objs) (hP : Harmless m s (.reserve zo n))
    (hr : s.reserve .sequence zo n = some r) : Inv r.2 := by
  unfold AddrSpace.reserve at hr
  split_ifs at hr with hn
  · obtain rfl := Option.some.inj hr
    exact h
  cases zo with
  | none => cases hr
  | some z =>
    have hz : z ∉ s.objs := of_decide_eq_true hz
    have hroom := hP.resolve_left hn
    dsimp only at hr
    split at hr
    · exact absurd hr nofun
    · next virtAddr s1 hf =>
      obtain ⟨hzero, h1, -⟩ := h.findAddress_new hz rfl hroom hf
      split_ifs at hr with hva
      · obtain rfl := Option.some.inj hr
        rw [hzero hva]
        exact h.delete_new hz
      · obtain rfl := Option.some.inj hr
        exact h1

/-- A new zone for which `insert_virt_zone` has been called. -/
lemma Inv.insertVirtZone_new {b : Bool} {virtAddr : UInt64} (h : Inv s)
    (hz : z ∉ s.objs) (hva : d.virtAddr = alignDown virtAddr pageSize)
    (hd : d.len = alignUp n pageSize)
    (hP : place (alignDown virtAddr pageSize) (alignUp n pageSize) none s.zones = none ∨
      Proper (alignDown virtAddr pageSize) (alignUp n pageSize))
    (hr : (s.new z d).insertVirtZone .sequence z = some (b, s')) :
    (b = false → s' = s.new z d) ∧ Inv s' ∧ (s'.zone z).type = d.type := by
  have hzone : (s.new z d).zone z = d := by simp [AddrSpace.new, AddrSpace.setZone]
  have hzones : (s.new z d).zones = s.zones :=
    List.map_congr_left fun _ hc => new_zone_of_mem h hz hc
  obtain ⟨hsame, -, hinv, hfalse⟩ := (h.new hz).insertVirtZone (h.notMem hz) List.mem_cons_self
    (by rw [hzone, hva]; exact dvd_alignDown_page virtAddr)
    (by rw [hzone, hd]; exact dvd_alignUp_page n) (by rwa [hzone, hva, hd, hzones]) hr
  exact ⟨hfalse, hinv, by rw [hsame, hzone]⟩

lemma Inv.mapAt {zo : Option UInt64} {physAddr virtAddr flags : UInt64}
    {r : Bool × AddrSpace (List UInt64) π} (h : Inv s) (hz : zo.all fun z => z ∉ s.objs)
    (hP : Harmless m s (.mapAt zo physAddr virtAddr n flags))
    (hr : s.mapAt .sequence m zo physAddr virtAddr n flags = some r) : Inv r.2 := by
  unfold AddrSpace.mapAt at hr
  split_ifs at hr with hn
  · obtain rfl := Option.some.inj hr
    exact h
  cases zo with
  | none => cases hr
  | some z =>
    have hz : z ∉ s.objs := of_decide_eq_true hz
    have hplace := hP.resolve_left hn
    dsimp only at hr
    split at hr
    · exact absurd hr nofun
    · next s1 hf =>
      obtain rfl := Option.some.inj hr
      rw [(h.insertVirtZone_new hz rfl rfl hplace hf).1 rfl]
      exact h.delete_new hz
    · next s1 hf =>
      obtain ⟨-, h1, htype⟩ := h.insertVirtZone_new hz rfl rfl hplace hf
      have hkind : (s1.zone z).type ≠ .kernel := by
        rw [htype]
        nofun
      split at hr
      · next w hw =>
        obtain rfl := Option.some.inj hr
        exact (h1.withWorld w).remove_zone hkind
      · next w hw =>
        obtain ⟨s2, hs2, rfl⟩ := Option.map_eq_some_iff.mp hr
        exact (h1.withWorld w).of_same (syncIfCurrent_same hs2)

lemma Inv.reserveAt {zo : Option UInt64} {virtAddr : UInt64}
    {r : Bool × AddrSpace (List UInt64) π} (h : Inv s) (hz : zo.all fun z => z ∉ s.objs)
    (hP : Harmless m s (.reserveAt zo virtAddr n))
    (hr : s.reserveAt .sequence zo virtAddr n = some r) : Inv r.2 := by
  unfold AddrSpace.reserveAt at hr
  cases zo with
  | none => cases hr
  | some z =>
    have hz : z ∉ s.objs := of_decide_eq_true hz
    dsimp only at hr
    split at hr
    · exact absurd hr nofun
    · next s1 hf =>
      obtain rfl := Option.some.inj hr
      rw [(h.insertVirtZone_new hz rfl rfl hP hf).1 rfl]
      exact h.delete_new hz
    · next s1 hf =>
      obtain rfl := Option.some.inj hr
      exact (h.insertVirtZone_new hz rfl rfl hP hf).2.1

end Insertion

section Separate

/-- A call that does no harm keeps the zones in order. -/
lemma Inv.of_step {c : Call π} (h : Inv s) (hP : Harmless m s c)
    (hs : step .sequence m s c = some s') : Inv s' := by
  unfold AddrSpace.step at hs
  split_ifs at hs with hz
  unfold AddrSpace.call at hs
  cases c with
  | alloc z n flags =>
    obtain ⟨r, hr, rfl⟩ := Option.map_eq_some_iff.mp hs
    exact h.alloc hz hP hr
  | free mem => exact h.free hs
  | map z physAddr n flags =>
    obtain ⟨r, hr, rfl⟩ := Option.map_eq_some_iff.mp hs
    exact h.map hz hP hr
  | mapAt z physAddr virtAddr n flags =>
    obtain ⟨r, hr, rfl⟩ := Option.map_eq_some_iff.mp hs
    exact h.mapAt hz hP hr
  | unmap virtAddr =>
    obtain ⟨r, hr, rfl⟩ := Option.map_eq_some_iff.mp hs
    exact h.unmap hr
  | reserve z n =>
    obtain ⟨r, hr, rfl⟩ := Option.map_eq_some_iff.mp hs
    exact h.reserve hz hP hr
  | reserveAt z virtAddr n =>
    obtain ⟨r, hr, rfl⟩ := Option.map_eq_some_iff.mp hs
    exact h.reserveAt hz hP hr
  | unreserve virtAddr => exact h.unreserveLoop hs
  | elapse w isCurrent =>
    obtain rfl := Option.some.inj hs
    exact h.of_same ⟨rfl, rfl, rfl⟩

/-- The constructor leaves the kernel zone alone in the list. -/
lemma init_eq {kernelZ : UInt64} {zone : UInt64 → VirtZone} {w : π} :
    init .sequence kernelZ zone w =
      some ⟨[kernelZ], Function.update zone kernelZ kernelZone, w, false,
        [kernelZ], [], fun _ => false⟩ := by
  have hplace : place kernelZone.virtAddr kernelZone.len none [] = some 0 := by decide
  rw [init, insertVirtZone_eq]
  simp only [Function.update_self, zones, ListOps.sequence, List.map_nil, hplace]
  rfl

lemma init_inv {kernelZ : UInt64} {zone : UInt64 → VirtZone} {w : π}
    (h : init .sequence kernelZ zone w = some s) : Inv s := by
  obtain rfl := Option.some.inj (init_eq.symm.trans h)
  refine ⟨List.nodup_singleton _, fun z hz => hz, [], ?_, nofun, .nil⟩
  simp [zones]

/-- What the zones of an address space are meant to be. -/
structure Separate (zones : List VirtZone) : Prop where
  aligned : ∀ z ∈ zones, 4096 ∣ z.virtAddr.toNat ∧ 4096 ∣ z.len.toNat
  sorted : zones.Pairwise fun a b => a.virtAddr ≤ b.virtAddr
  disjoint : zones.Pairwise fun a b => Disjoint a.range b.range
  getLast : zones.getLast? = some kernelZone
  bounds : ∀ z ∈ zones, z ≠ kernelZone →
    4096 ≤ z.virtAddr.toNat ∧ z.virtAddr.toNat + z.len.toNat ≤ kernelVma.toNat

lemma Separate.of_arranged {zones : List VirtZone} (h : Arranged zones) : Separate zones where
  aligned z hz := by
    by_cases hk : z = kernelZone
    · subst hk
      decide
    · exact ⟨(h.isUser hz hk).dvd_virtAddr, (h.isUser hz hk).dvd_len⟩
  sorted := h.pairwise.imp fun hab => by
    rw [VirtZone.Before] at hab
    exact UInt64.le_iff_toNat_le.mpr (by omega)
  disjoint := h.pairwise.imp fun hab => by
    rw [VirtZone.Before] at hab
    exact Set.disjoint_left.mpr fun x hx hx' => absurd (hx.2.trans_le hab) (not_lt.mpr hx'.1)
  getLast := by
    obtain ⟨us, rfl, -⟩ := h
    simp
  bounds z hz hk := ⟨(h.isUser hz hk).le_virtAddr, (h.isUser hz hk).end_le⟩

/-- As long as no call does harm, the zones stay separate. -/
theorem zones_separate {kernelZ : UInt64} {zone : UInt64 → VirtZone} {w : π} {calls : List (Call π)}
    (h : init .sequence kernelZ zone w = some s)
    (hP : Machine.Along (step .sequence m) (Harmless m) s calls) :
    Machine.Throughout (step .sequence m) (fun s => Separate s.zones) s calls := by
  intro as bs s' heq hr
  have hinv := Machine.throughout_of_along (I := Inv) (fun s c s' hI hP hs => hI.of_step hP hs)
    (init_inv h) hP as bs s' heq hr
  exact .of_arranged hinv.arranged

theorem zones_separate_calls : ∃ s : AddrSpace (List UInt64) UInt64,
    init .sequence 0x100 (fun _ => kernelZone) kernelVma = some s ∧
    Machine.Throughout (step .sequence .plenty) (fun s => Separate s.zones) s
      [.mapAt (some 0x200) kernelVma 0x400000 0x3000 6, .alloc (some 0x300) 0x2800 6,
        .reserve (some 0x400) 1, .free 0x403000, .map (some 0x300) kernelVma 0x1000 6] :=
  ⟨_, init_eq, zones_separate init_eq (by decide +kernel)⟩

/-- The last reservation finds no gap, but is put at page 1, since the object of the first zone has
an address above it. -/
theorem not_separate_reserve : ¬ ∀ s : AddrSpace (List UInt64) UInt64,
    init .sequence 0xffffff8000200000 (fun _ => kernelZone) kernelVma = some s →
    Machine.Throughout (step .sequence .plenty) (fun s => Separate s.zones) s
      [.reserve (some 0xffffff8000300000) (kernelVma - pageSize),
        .reserve (some 0xffffff8000400000) pageSize] := by
  intro h
  have h1 := h _ init_eq
  have hrun : (Machine.run (step .sequence .plenty)
      ⟨[0xffffff8000200000], Function.update (fun _ => kernelZone) 0xffffff8000200000 kernelZone,
        kernelVma, false, [0xffffff8000200000], [], fun _ => false⟩
      [.reserve (some 0xffffff8000300000) (kernelVma - pageSize),
        .reserve (some 0xffffff8000400000) pageSize]).any (fun s =>
          s.zones.map (fun z => (z.virtAddr, z.len)) = [(pageSize, pageSize),
            (pageSize, kernelVma - pageSize), (kernelVma, maxMem - kernelVma)]) = true := by
    decide +kernel
  obtain ⟨s, hs, hz⟩ := (Option.any_eq_true _ _).mp hrun
  replace hz := of_decide_eq_true hz
  have hd := (h1 _ [] s (List.append_nil _) hs).disjoint
  obtain ⟨a, zs, hzs, ha, hrest⟩ := List.map_eq_cons_iff.mp hz
  obtain ⟨b, zs', rfl, hb, -⟩ := List.map_eq_cons_iff.mp hrest
  rw [hzs] at hd
  have hab := (List.pairwise_cons.mp hd).1 b List.mem_cons_self
  rw [Prod.mk.injEq] at ha hb
  have hmem : 4096 ∈ a.range ∧ 4096 ∈ b.range := by
    rw [VirtZone.range, VirtZone.range, ha.1, ha.2, hb.1, hb.2]
    decide
  exact Set.disjoint_left.mp hab hmem.1 hmem.2

end Separate
end AddrSpace
end EpochKernel.Mem
