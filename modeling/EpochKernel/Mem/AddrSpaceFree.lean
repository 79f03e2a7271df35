import EpochKernel.Mem.AddrSpaceCalls

/-! What `free` takes away, in every history in which the cursor does not hide a zone. -/
namespace EpochKernel.Mem
open EpochKernel.Util EpochKernel.Library

namespace AddrSpace
variable {π : Type*} {m : Memory π} {K : Links UInt64}
  {s s' : AddrSpace (LinkedList UInt64 × Links UInt64) π} {t t' : AddrSpace (List UInt64) π}
  {virtAddr z a b n : UInt64} {as bs : List UInt64} {type : AllocType}

/-- The address space with its list read off. -/
def seq (s : AddrSpace (LinkedList UInt64 × Links UInt64) π) : AddrSpace (List UInt64) π :=
  { s with virtAllocs := s.virtAllocs.1.nodes s.virtAllocs.2 }

lemma Shows.seq_eq (h : Shows s t) : s.seq = { t with stale := s.stale } := by
  rw [seq, h.represents.nodes_eq, h.zone, h.world, h.isCurrent, h.objs, h.freed]

/-- The cursor does not hide a zone of this type at this address from a scan. -/
def Sees (s : AddrSpace (LinkedList UInt64 × Links UInt64) π) (virtAddr : UInt64)
    (type : AllocType) : Prop :=
  s.virtAllocs.1.Misses s.seq.virtAllocs →
    ∀ z ∈ s.seq.virtAllocs.take 2, s.isZone virtAddr type z = false

instance (s : AddrSpace (LinkedList UInt64 × Links UInt64) π) (virtAddr : UInt64)
    (type : AllocType) : Decidable (Sees s virtAddr type) :=
  inferInstanceAs (Decidable (_ → _))

/-- The call finds the zones it looks for and has room for the zones it makes; the list has fewer
than 2^31 zones, so that the distances that `operator[]` computes fit in 32 bits. -/
def Careful (m : Memory π) (s : AddrSpace (LinkedList UInt64 × Links UInt64) π) (c : Call π) :
    Prop :=
  s.seq.virtAllocs.length < 2 ^ 31 ∧ Roomy m s.seq c ∧
    match c with
    | .free mem => Sees s (alignDown mem pageSize) .valloc
    | .unmap virtAddr => Sees s (alignDown virtAddr pageSize) .map
    | .unreserve virtAddr => Sees s (alignDown virtAddr pageSize) .reserve
    | _ => True

instance (m : Memory π) (s : AddrSpace (LinkedList UInt64 × Links UInt64) π) :
    (c : Call π) → Decidable (Careful m s c)
  | .free _ | .unmap _ | .unreserve _ => inferInstanceAs (Decidable (_ ∧ _ ∧ Sees _ _ _))
  | .alloc .. | .map .. | .mapAt .. | .reserve .. | .reserveAt .. | .elapse .. =>
    inferInstanceAs (Decidable (_ ∧ _ ∧ True))

section Zones

/-- The only zones at the address of a zone with pages are empty and stand before it. -/
lemma Inv.empty_at (h : Inv t) (hlist : t.virtAllocs = as ++ z :: bs) (hlen : (t.zone z).len ≠ 0) :
    ∀ y ∈ as ++ bs, (t.zone y).virtAddr = (t.zone z).virtAddr → (t.zone y).len = 0 := by
  intro y hy hva
  have hp := h.arranged.pairwise
  rw [zones, hlist, List.map_append, List.map_cons] at hp
  obtain ⟨-, htail, hcross⟩ := List.pairwise_append.mp hp
  rcases List.mem_append.mp hy with hmem | hmem
  · have hbefore := hcross _ (List.mem_map_of_mem hmem) (t.zone z) List.mem_cons_self
    rw [VirtZone.Before, hva] at hbefore
    exact UInt64.toNat_inj.mp (show (t.zone y).len.toNat = 0 by omega)
  · have hbefore := (List.pairwise_cons.mp htail).1 _ (List.mem_map_of_mem hmem)
    rw [VirtZone.Before, hva] at hbefore
    exact absurd (UInt64.toNat_inj.mp (show (t.zone z).len.toNat = 0 by omega)) hlen

/-- Behind a zone other than the kernel zone there is another one. -/
lemma Inv.behind (h : Inv t) (hlist : t.virtAllocs = as ++ z :: bs)
    (hk : (t.zone z).type ≠ .kernel) : ∃ b bs', bs = b :: bs' := by
  obtain ⟨zs, kernelZ, hsplit, hkernel, -⟩ := h.kernel
  cases bs with
  | cons b bs => exact ⟨b, bs, rfl⟩
  | nil =>
    obtain ⟨-, hz⟩ := List.append_inj' (hlist.symm.trans hsplit) rfl
    rw [List.singleton_inj.mp hz, hkernel] at hk
    exact absurd rfl hk

lemma isZone_iff : t.isZone virtAddr type z = true ↔
    (t.zone z).virtAddr = virtAddr ∧ (t.zone z).type = type := by
  rw [isZone, decide_eq_true_eq]

/-- The allocations have pages. -/
def Solid (t : AddrSpace (List UInt64) π) : Prop :=
  ∀ z ∈ t.virtAllocs, (t.zone z).type = .valloc → (t.zone z).len ≠ 0

lemma Inv.not_isZone (h : Inv t) (hsolid : Solid t) (hlist : t.virtAllocs = as ++ z :: bs)
    (hz : t.isZone a .valloc z = true) : ∀ y ∈ as ++ bs, t.isZone a .valloc y = false := by
  intro y hy
  obtain ⟨hva, htype⟩ := isZone_iff.mp hz
  by_contra hne
  obtain ⟨hva', htype'⟩ := isZone_iff.mp (Bool.eq_true_of_not_eq_false hne)
  have hmem : y ∈ t.virtAllocs := by
    rw [hlist]
    rcases List.mem_append.mp hy with hmem | hmem <;> simp [hmem]
  exact hsolid y hmem htype' (h.empty_at hlist (hsolid z (by simp [hlist]) htype) y hy
    (hva'.trans hva.symm))

/-- Either no zone has the property, or there is a first one. -/
lemma first_zone (p : UInt64 → Bool) (xs : List UInt64) : (∀ y ∈ xs, p y = false) ∨
    ∃ as z bs, xs = as ++ z :: bs ∧ p z = true ∧ ∀ y ∈ as, p y = false := by
  cases hf : xs.find? p with
  | none => exact .inl fun y hy => Bool.eq_false_iff.mpr (List.find?_eq_none.mp hf y hy)
  | some z =>
    obtain ⟨hz, as, bs, hxs, has⟩ := List.find?_eq_some_iff_append.mp hf
    exact .inr ⟨as, z, bs, hxs, hz, fun y hy => by simpa using has y hy⟩

lemma Shows.two_le (h : Shows s t) (hsees : Sees s virtAddr type)
    (hlist : t.virtAllocs = as ++ z :: bs) (hz : t.isZone virtAddr type z = true)
    (hmiss : s.virtAllocs.1.Misses t.virtAllocs) : 2 ≤ as.length := by
  by_contra hlt
  rw [Sees, h.seq_eq] at hsees
  have hmem : z ∈ t.virtAllocs.take 2 := by
    rw [hlist]
    rcases as with _ | ⟨c, _ | ⟨d, as⟩⟩
    · simp
    · simp
    · simp at hlt
  have := hsees hmiss z hmem
  rw [h.isZone, hz] at this
  cases this

lemma Inv.without (h : Inv t) (hlist : t.virtAllocs = as ++ z :: bs)
    (hk : (t.zone z).type ≠ .kernel) : Inv (t.without z as bs) := by
  have hnd := h.nodup
  rw [hlist] at hnd
  have hz : z ∉ as := fun hmem => List.disjoint_of_nodup_append hnd hmem (by simp)
  have heq : t.without z as bs = (t.removeP .sequence z).delete z := by
    have : t.virtAllocs.erase z = as ++ bs := by
      rw [hlist, List.erase_append_right _ hz, List.erase_cons_head]
    rw [AddrSpace.without, ← this]
    rfl
  exact heq ▸ h.remove_zone hk

end Zones

section Removal

/-- What the removal of the allocations at `a` does to the list, and to the physical zones. -/
def Frees (t t' : AddrSpace (List UInt64) π) (a : UInt64) : Prop :=
  (∃ as z bs, t.virtAllocs = as ++ z :: bs ∧ t.isZone a .valloc z = true ∧
    t'.virtAllocs = as ++ bs ∧ t'.zone = t.zone ∧ t'.objs = t.objs.erase z ∧
    t'.freed = t.freed ++ (t.zone z).allocations.map (·.addr)) ∨
  ((∀ y ∈ t.virtAllocs, t.isZone a .valloc y = false) ∧ t' = t)

/-- `free` removes the allocation at the address, if there is one. All pages it unmaps stay
unflushed. -/
lemma free_sound {mem : UInt64} (h : Shows s t) (hr : Ready s t) (hI : Inv t) (hsolid : Solid t)
    (hc : Careful m s (.free mem)) :
    ∃ s' t', s.free (.linked K) m mem = some s' ∧ Shows s' t' ∧ Ready s' t' ∧ Inv t' ∧
      Frees t t' (alignDown mem pageSize) ∧
      (∀ z ∈ t.virtAllocs, t.isZone (alignDown mem pageSize) .valloc z = true → s'.stale =
        (release m (alignDown mem pageSize) (t.zone z).allocations 0 s).stale) ∧
      ((∀ y ∈ t.virtAllocs, t.isZone (alignDown mem pageSize) .valloc y = false) →
        ∀ p, s'.stale p = true → s.stale p = true) := by
  have hshort : t.virtAllocs.length < 2 ^ 31 := by
    have := hc.1
    rwa [h.seq_eq] at this
  rcases first_zone (t.isZone (alignDown mem pageSize) .valloc) t.virtAllocs with
    hnone | ⟨as, z, bs, hlist, hz, -⟩
  · obtain ⟨s', hs', hshow, hready, hle⟩ :=
      free_shows_none (K := K) (m := m) h hr (Nat.le_of_lt hshort) hnone
    refine ⟨s', t, hs', hshow, hready, hI, .inr ⟨hnone, rfl⟩, fun z hmem hz => ?_, fun _ => hle⟩
    rw [hnone z hmem] at hz
    cases hz
  · have htype := (isZone_iff.mp hz).2
    have hk : (t.zone z).type ≠ .kernel := by
      rw [htype]
      nofun
    obtain ⟨b, bs, rfl⟩ := hI.behind hlist hk
    have hothers := hI.not_isZone hsolid hlist hz
    obtain ⟨s', hs', hshow, hcoherent, -, hstale⟩ := free_shows_found (K := K) (m := m) h hr
      (Nat.le_of_lt hshort) hlist hz hothers (h.two_le hc.2.2 hlist hz)
    have hf := release_fields (m := m) (v := alignDown mem pageSize) (l := (t.zone z).allocations)
      (o := 0) t
    have hinv : Inv (release m (alignDown mem pageSize) (t.zone z).allocations 0 t) :=
      hI.of_same ⟨hf.1, hf.2.1, hf.2.2.1⟩
    refine ⟨s', _, hs', hshow, .inl hcoherent, hinv.without (hf.1.trans hlist) (by rwa [hf.2.1]), .inl ?_,
      fun y hy hyz => ?_, fun hnone => ?_⟩
    · refine ⟨as, z, b :: bs, hlist, hz, rfl, hf.2.1, ?_, hf.2.2.2.2⟩
      change (release m _ _ 0 t).objs.erase z = _
      rw [hf.2.2.1]
    · obtain rfl : y = z := by
        rw [hlist, ← List.singleton_append, ← List.append_assoc] at hy
        by_contra hne
        have := hothers y (by simp at hy; simp; tauto)
        rw [this] at hyz
        cases hyz
      refine hstale fun x hx hxa => ?_
      exact hI.empty_at hlist (hsolid y (by simp [hlist]) htype) x hx
        (hxa.trans (isZone_iff.mp hz).1.symm)
    · rw [hnone z (by simp [hlist])] at hz
      cases hz

/-- `unmap` removes the first mapping at the address, if there is one. It does not flush it. -/
lemma unmap_sound (virtAddr : UInt64) (h : Shows s t) (hr : Ready s t) (hI : Inv t)
    (hc : Careful m s (.unmap virtAddr)) :
    ((∀ y ∈ t.virtAllocs, t.isZone (alignDown virtAddr pageSize) .map y = false) ∧
      ∃ s', s.unmap (.linked K) m virtAddr = some (none, s') ∧ Shows s' t ∧ Ready s' t ∧
        ∀ p, s'.stale p = true → s.stale p = true) ∨
    ∃ as z bs s', t.virtAllocs = as ++ z :: bs ∧
      t.isZone (alignDown virtAddr pageSize) .map z = true ∧
      (∀ y ∈ as, t.isZone (alignDown virtAddr pageSize) .map y = false) ∧
      s.unmap (.linked K) m virtAddr = some (some (t.zone z).physAddr, s') ∧
      Shows s' ((t.unmapInternal m (t.zone z).virtAddr (t.zone z).len).without z as bs) ∧
      Ready s' ((t.unmapInternal m (t.zone z).virtAddr (t.zone z).len).without z as bs) ∧
      Inv ((t.unmapInternal m (t.zone z).virtAddr (t.zone z).len).without z as bs) ∧
      s'.stale = (s.unmapInternal m (t.zone z).virtAddr (t.zone z).len).stale := by
  have hshort : t.virtAllocs.length < 2 ^ 31 := by
    have := hc.1
    rwa [h.seq_eq] at this
  rcases first_zone (t.isZone (alignDown virtAddr pageSize) .map) t.virtAllocs with
    hnone | ⟨as, z, bs, hlist, hz, hfirst⟩
  · exact .inl ⟨hnone, unmap_shows_none h hr (Nat.le_of_lt hshort) hnone⟩
  · have hk : (t.zone z).type ≠ .kernel := by
      rw [(isZone_iff.mp hz).2]
      nofun
    obtain ⟨b, bs, rfl⟩ := hI.behind hlist hk
    obtain ⟨s', hs', hshow, hready, hstale, -⟩ := unmap_shows_found (K := K) (m := m) h hr
      (Nat.le_of_lt hshort) hlist hz hfirst (h.two_le hc.2.2 hlist hz)
    have hinv : Inv (t.unmapInternal m (t.zone z).virtAddr (t.zone z).len) :=
      hI.of_same ⟨rfl, rfl, rfl⟩
    exact .inr ⟨as, z, b :: bs, s', hlist, hz, hfirst, hs', hshow, hready, hinv.without hlist hk,
      hstale⟩

/-- `unreserve` removes the first reservation at the address, if there is one. -/
lemma unreserve_sound (h : Shows s t) (hr : Ready s t) (hI : Inv t)
    (hc : Careful m s (.unreserve virtAddr)) :
    ∃ s', s.unreserve (.linked K) virtAddr = some s' ∧ ((Shows s' t ∧ Ready s' t) ∨
      ∃ as z bs, t.virtAllocs = as ++ z :: bs ∧
        t.isZone (alignDown virtAddr pageSize) .reserve z = true ∧
        Shows s' (t.without z as bs) ∧ Ready s' (t.without z as bs) ∧ Inv (t.without z as bs)) := by
  have hshort : t.virtAllocs.length < 2 ^ 31 := by
    have := hc.1
    rwa [h.seq_eq] at this
  rcases first_zone (t.isZone (alignDown virtAddr pageSize) .reserve) t.virtAllocs with
    hnone | ⟨as, z, bs, hlist, hz, hfirst⟩
  · obtain ⟨s', hs', hshow, hready⟩ :=
      unreserve_shows_none (K := K) h hr (Nat.le_of_lt hshort) hnone
    exact ⟨s', hs', .inl ⟨hshow, hready⟩⟩
  · have hk : (t.zone z).type ≠ .kernel := by
      rw [(isZone_iff.mp hz).2]
      nofun
    obtain ⟨b, bs, rfl⟩ := hI.behind hlist hk
    obtain ⟨s', hs', hshow, hready, -⟩ := unreserve_shows_found (K := K) h hr
      (Nat.le_of_lt hshort) hlist hz hfirst (h.two_le hc.2.2 hlist hz)
    exact ⟨s', hs', .inr ⟨as, z, b :: bs, hlist, hz, hshow, hready, hI.without hlist hk⟩⟩

end Removal

/-- The allocations: the addresses at which they start. -/
def Allocated (t : AddrSpace (List UInt64) π) (a : UInt64) : Prop :=
  ∃ z ∈ t.virtAllocs, t.isZone a .valloc z = true

/-- What the list and its cursor are between two calls. -/
structure Sound (s : AddrSpace (LinkedList UInt64 × Links UInt64) π)
    (t : AddrSpace (List UInt64) π) : Prop where
  shows : Shows s t
  ready : Ready s t
  inv : Inv t
  solid : Solid t

section Effects
variable {out : UInt64}

lemma Result.allocated (h : Result t t' out type n) :
    Allocated t' a ↔ (out ≠ 0 ∧ type = .valloc ∧ a = out) ∨ Allocated t a := by
  have hsame {c : UInt64} (hc : c ∈ t.virtAllocs) :
      t'.isZone a .valloc c = t.isZone a .valloc c := by
    rw [isZone, isZone, h.zone c hc]
  rcases h.list with ⟨rfl, hlist⟩ | ⟨hout, z, -, hmem, hva, htype, -⟩
  · rw [or_iff_right fun hn => hn.1 rfl, Allocated, Allocated, hlist]
    exact exists_congr fun c => and_congr_right fun hc => by rw [hsame hc]
  · constructor
    · rintro ⟨c, hc, hz⟩
      rcases (hmem c).mp hc with rfl | hc
      · obtain ⟨h1, h2⟩ := isZone_iff.mp hz
        exact .inl ⟨hout, htype.symm.trans h2, h1.symm.trans hva⟩
      · exact .inr ⟨c, hc, by rwa [hsame hc] at hz⟩
    · rintro (⟨-, rfl, rfl⟩ | ⟨c, hc, hz⟩)
      · exact ⟨z, (hmem z).mpr (.inl rfl), isZone_iff.mpr ⟨hva, htype⟩⟩
      · exact ⟨c, (hmem c).mpr (.inr hc), by rwa [hsame hc]⟩

lemma Result.solid (h : Result t t' out type n) (hs : Solid t)
    (hn : type = .valloc → out ≠ 0 → alignUp n pageSize ≠ 0) : Solid t' := by
  intro c hc htype
  rcases h.list with ⟨-, hlist⟩ | ⟨hout, z, -, hmem, -, hztype, hlen⟩
  · rw [hlist] at hc
    rw [h.zone c hc] at htype ⊢
    exact hs c hc htype
  · rcases (hmem c).mp hc with rfl | hc
    · rw [hlen]
      exact hn (hztype.symm.trans htype) hout
    · rw [h.zone c hc] at htype ⊢
      exact hs c hc htype

lemma Frees.solid (h : Frees t t' a) (hs : Solid t) : Solid t' := by
  rcases h with ⟨as, z, bs, hlist, -, hlist', hzone, -⟩ | ⟨-, rfl⟩
  · intro c hc htype
    rw [hzone] at htype ⊢
    refine hs c ?_ htype
    rw [hlist'] at hc
    rw [hlist]
    rcases List.mem_append.mp hc with hmem | hmem <;> simp [hmem]
  · exact hs

lemma Frees.allocated (h : Frees t t' a) (hI : Inv t) (hs : Solid t) :
    Allocated t' b ↔ b ≠ a ∧ Allocated t b := by
  rcases h with ⟨as, z, bs, hlist, hz, hlist', hzone, -⟩ | ⟨hnone, rfl⟩
  · have hsame {c : UInt64} : t'.isZone b .valloc c = t.isZone b .valloc c := by
      rw [isZone, isZone, hzone]
    rw [Allocated, Allocated, hlist', hlist]
    constructor
    · rintro ⟨c, hc, hcz⟩
      rw [hsame] at hcz
      refine ⟨?_, c, ?_, hcz⟩
      · rintro rfl
        rw [hI.not_isZone hs hlist hz c hc] at hcz
        cases hcz
      · rcases List.mem_append.mp hc with hmem | hmem <;> simp [hmem]
    · rintro ⟨hne, c, hc, hcz⟩
      refine ⟨c, ?_, by rwa [hsame]⟩
      rcases List.mem_append.mp hc with hmem | hmem
      · exact List.mem_append_left _ hmem
      · rcases List.mem_cons.mp hmem with rfl | hmem
        · exact absurd ((isZone_iff.mp hcz).1.symm.trans (isZone_iff.mp hz).1) hne
        · exact List.mem_append_right _ hmem
  · refine ⟨fun hb => ⟨?_, hb⟩, fun hb => hb.2⟩
    rintro rfl
    obtain ⟨c, hc, hcz⟩ := hb
    rw [hnone c hc] at hcz
    cases hcz

lemma Solid.without (h : Solid t) (hlist : t.virtAllocs = as ++ z :: bs) :
    Solid (t.without z as bs) := by
  intro c hc htype
  refine h c ?_ htype
  rw [hlist]
  rcases List.mem_append.mp hc with hmem | hmem <;> simp [hmem]

lemma allocated_without (hlist : t.virtAllocs = as ++ z :: bs) (hz : (t.zone z).type ≠ .valloc) :
    Allocated (t.without z as bs) a ↔ Allocated t a := by
  constructor
  · rintro ⟨c, hc, hcz⟩
    refine ⟨c, ?_, hcz⟩
    rw [hlist]
    rcases List.mem_append.mp hc with hmem | hmem <;> simp [hmem]
  · rintro ⟨c, hc, hcz⟩
    refine ⟨c, ?_, hcz⟩
    rw [hlist] at hc
    rcases List.mem_append.mp hc with hmem | hmem
    · exact List.mem_append_left _ hmem
    · rcases List.mem_cons.mp hmem with rfl | hmem
      · exact absurd (isZone_iff.mp hcz).2 hz
      · exact List.mem_append_right _ hmem

end Effects

end AddrSpace
end EpochKernel.Mem
