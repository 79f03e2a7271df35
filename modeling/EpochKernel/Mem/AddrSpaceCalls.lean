import EpochKernel.Mem.AddrSpaceLinked

/-! The calls on an address space over `linked_list` as it is, and which of them keep the list and its
cursor in order. -/
namespace EpochKernel.Mem
open EpochKernel.Util EpochKernel.Library

namespace AddrSpace
variable {π : Type*} {m : Memory π} {K : Links UInt64}
  {s s' : AddrSpace (LinkedList UInt64 × Links UInt64) π} {t t' : AddrSpace (List UInt64) π}
  {virtAddr z a n : UInt64} {fuel i : ℕ}

section Placed

/-- The zone `z` has been given the address `a` and a place in the list, or nothing has happened. -/
structure Placed (z : UInt64) (t t' : AddrSpace (List UInt64) π) (a : UInt64) : Prop where
  inv : Inv t'
  objs : t'.objs = t.objs
  freed : t'.freed = t.freed
  zone : ∀ c, c ≠ z → t'.zone c = t.zone c
  place : (a = 0 ∧ t'.virtAllocs = t.virtAllocs) ∨ (a ≠ 0 ∧ z ∈ t'.virtAllocs ∧
    (∀ c, c ∈ t'.virtAllocs ↔ c = z ∨ c ∈ t.virtAllocs) ∧
    t'.zone z = { t.zone z with virtAddr := a })

lemma findAddress_placed (h : Inv t) (hz : z ∉ t.virtAllocs) (hobj : z ∈ t.objs)
    (hlen : 4096 ∣ (t.zone z).len.toNat) (hroom : HasRoom (t.zone z).len t)
    (hr : t.findAddress .sequence z = some (a, t')) : Placed z t t' a ∧ t'.world = t.world := by
  rcases h.findAddress hz hobj hlen hroom hr with ⟨ha, ht⟩ | ⟨ha, as, bs, hlist, ht, hinv⟩
  · obtain rfl : t' = t := ht
    exact ⟨⟨h, rfl, rfl, fun _ _ => rfl, .inl ⟨ha, rfl⟩⟩, rfl⟩
  · dsimp only at ht hinv
    subst ht
    refine ⟨⟨hinv, rfl, rfl, fun c hc => Function.update_of_ne hc _ _, .inr ⟨ha, by simp, ?_, ?_⟩⟩, rfl⟩
    · intro c
      rw [hlist]
      simp
      tauto
    · exact Function.update_self ..

lemma Shows.withStale (h : Shows s t) (stale : UInt64 → Bool) : Shows s { t with stale := stale } :=
  { h with }

lemma Shows.withWorld (h : Shows s t) (w : π) : Shows { s with world := w } { t with world := w } :=
  { h with world := rfl }

/-- The zone that `find_address` has put between two others can be taken back. -/
lemma removeP_shows {cs ds : List UInt64} {d : UInt64} (h : Shows s t)
    (hlist : t.virtAllocs = cs ++ z :: d :: ds) (hcur : s.virtAllocs.1.current = some d)
    (hcurI : s.virtAllocs.1.currentI = cs.length) :
    Shows (s.removeP (.linked K) z) (t.removeP .sequence z) ∧
      (s.removeP (.linked K) z).virtAllocs.1.Coherent (t.removeP .sequence z).virtAllocs := by
  have hrep := h.represents
  have hnd := hrep.nodup
  rw [hlist] at hrep hnd
  have hz : z ∉ cs := fun hmem => List.disjoint_of_nodup_append hnd hmem (by simp)
  have herase : (t.removeP .sequence z).virtAllocs = cs ++ d :: ds := by
    change t.virtAllocs.erase z = _
    rw [hlist, List.erase_append_right _ hz, List.erase_cons_head]
  have hdz : d ≠ z := by
    rintro rfl
    exact absurd (List.nodup_append.mp hnd).2.1 (by simp)
  obtain ⟨hrep', -⟩ := LinkedList.removeP_represents hrep
  have hlen : s.virtAllocs.1.len ≠ 0 := by
    rw [hrep.len_eq]
    simp
  obtain ⟨hc1, hc2⟩ := LinkedList.removeP_cursor z (H := s.virtAllocs.2) hlen
  refine ⟨{ h with represents := by rw [herase]; exact hrep' }, ?_⟩
  rw [herase]
  refine coherent_of_cursor rfl ?_ (hc2.trans hcurI)
  change (LinkedList.removeP z s.virtAllocs.1 s.virtAllocs.2).1.current = _
  rw [hc1, hcur, if_neg (by simpa using hdz)]

end Placed

section Insertion
variable {zo : Option UInt64} {out flags physAddr : UInt64} {type : AllocType}

/-- What a call that asks for a zone of `n` bytes leaves behind: one more zone, at the address
returned, or the same zones. -/
structure Result (t t' : AddrSpace (List UInt64) π) (out : UInt64) (type : AllocType) (n : UInt64) :
    Prop where
  inv : Inv t'
  freed : t'.freed = t.freed
  zone : ∀ c ∈ t.virtAllocs, t'.zone c = t.zone c
  list : (out = 0 ∧ t'.virtAllocs = t.virtAllocs) ∨ (out ≠ 0 ∧ ∃ z ∉ t.virtAllocs,
    (∀ c, c ∈ t'.virtAllocs ↔ c = z ∨ c ∈ t.virtAllocs) ∧ (t'.zone z).virtAddr = out ∧
    (t'.zone z).type = type ∧ (t'.zone z).len = alignUp n pageSize)

lemma Result.refl (h : Inv t) : Result t t 0 type n :=
  ⟨h, rfl, fun _ _ => rfl, .inl ⟨rfl, rfl⟩⟩

lemma Shows.new (h : Shows s t) (d : VirtZone) : Shows (s.new z d) (t.new z d) :=
  { h.setZone d with objs := by rw [AddrSpace.new, AddrSpace.new, h.objs] }

/-- The calls for which `find_address` finds room, or fails where that does no harm: `alloc` takes a
zone out of the list that was never in it, and taking back a mapping at page 1 spoils the cursor. -/
def Roomy (m : Memory π) (t : AddrSpace (List UInt64) π) : Call π → Prop
  | .alloc _ n flags => n = 0 ∨ m.getFreeSpace t.world < n ∨
      (collectPhysZones m (alignUp n pageSize) t.world).map (·.1) = some false ∨
      (alignUp n pageSize ≠ 0 ∧ (¬ Full (alignUp n pageSize) t.zones ∨
        (TestsLow (alignUp n pageSize) t ∧ FitsLow (alignUp n pageSize) t ∧
          (collectPhysZones m (alignUp n pageSize) t.world).all fun r =>
            (mapZones m flags 0 r.2.1 pageSize r.2.2).1 = none)))
  | .map _ physAddr n flags => n = 0 ∨ ¬ Full (alignUp n pageSize) t.zones ∨
      ¬ TestsLow (alignUp n pageSize) t ∨ (FitsLow (alignUp n pageSize) t ∧
        (m.mapInternal (alignDown physAddr pageSize) pageSize (alignUp n pageSize) flags
          t.world).1 = true)
  | .reserve _ n => n = 0 ∨ ¬ Full (alignUp n pageSize) t.zones ∨
      ¬ TestsLow (alignUp n pageSize) t ∨ FitsLow (alignUp n pageSize) t
  | .mapAt .. | .reserveAt .. => False
  | .free _ | .unmap _ | .unreserve _ | .elapse .. => True

instance (m : Memory π) (t : AddrSpace (List UInt64) π) : (c : Call π) → Decidable (Roomy m t c)
  | .alloc .. => inferInstanceAs (Decidable (_ ∨ _ ∨ _ ∨ (_ ∧ (_ ∨ (_ ∧ _ ∧ _)))))
  | .map .. => inferInstanceAs (Decidable (_ ∨ _ ∨ _ ∨ (_ ∧ _)))
  | .reserve .. => inferInstanceAs (Decidable (_ ∨ _ ∨ _ ∨ _))
  | .mapAt .. | .reserveAt .. => inferInstanceAs (Decidable False)
  | .free _ | .unmap _ | .unreserve _ | .elapse .. => inferInstanceAs (Decidable True)

lemma hasRoom_of_low (h : ¬ Full n t.zones ∨ ¬ TestsLow n t ∨ FitsLow n t) : HasRoom n t := by
  rw [HasRoom]
  rcases h with h | h | h
  · exact .inr (.inl h)
  · by_cases hone : t.virtAllocs.length = 1
    · exact .inl hone
    · refine .inr (.inr ?_)
      simp only [TestsLow, hone, if_false] at h
      cases hl : t.virtAllocs with
      | nil => rfl
      | cons c cs =>
        rw [hl, List.head?_cons, Option.all_some, decide_eq_true_eq] at h
        rw [List.head?_cons, Option.all_some, decide_eq_true_eq]
        exact .inr h
  · refine .inr (.inr ?_)
    rw [FitsLow] at h
    cases hl : t.virtAllocs with
    | nil => rfl
    | cons c cs =>
      rw [hl, List.head?_cons, Option.all_some, decide_eq_true_eq] at h
      rw [List.head?_cons, Option.all_some, decide_eq_true_eq]
      exact .inl h

/-- `map_alloc_data` finds the place that it finds on a sequence. -/
lemma mapAllocData_shows (h : Shows s t) (hI : Inv t) (hr : Ready s t)
    (hshort : t.virtAllocs.length ≤ 2 ^ 31) (hz : z ∉ t.virtAllocs) (hobj : z ∈ t.objs)
    (hlen : 4096 ∣ (t.zone z).len.toNat) (hroom : HasRoom (t.zone z).len t) :
    ∃ a out s' t', s.mapAllocData (.linked K) m z = some (out, s') ∧ Shows s' t' ∧
      Found z s' t t' a ∧ Placed z t t' a ∧ (out = a ∨ (out = 0 ∧
        (mapZones m (t.zone z).flags 0 (t.zone z).allocations a t.world).1 ≠ none)) := by
  obtain ⟨a, s1, t1, hs1, ht1, hshow, hfound⟩ :=
    findAddress_shows (K := K) h hI hr hz hshort
  obtain ⟨hplaced, hworld⟩ := findAddress_placed hI hz hobj hlen hroom ht1
  rw [mapAllocData, hs1]
  dsimp only
  split_ifs with ha
  · exact ⟨a, 0, s1, t1, rfl, hshow, hfound, hplaced, .inl ha.symm⟩
  · obtain ⟨-, -, -, hzone⟩ := hplaced.place.resolve_left fun hn => ha hn.1
    have hsame : (s1.zone z).allocations = (t.zone z).allocations ∧
        (s1.zone z).flags = (t.zone z).flags ∧ s1.world = t.world := by
      rw [hshow.zone, hzone, hshow.world, hworld]
      exact ⟨rfl, rfl, rfl⟩
    rw [hsame.1, hsame.2.1, hsame.2.2]
    have hkeep (w : π) : Placed z t { t1 with world := w } a :=
      { hplaced with inv := hplaced.inv.withWorld w }
    split
    · next w hw =>
      exact ⟨a, a, _, _, rfl, hshow.withWorld w, hfound.congr rfl rfl, hkeep w, .inl rfl⟩
    · next w hw =>
      exact ⟨a, 0, _, _, rfl, hshow.withWorld w, hfound.congr rfl rfl, hkeep w,
        .inr ⟨rfl, by rw [hw]; exact Option.some_ne_none _⟩⟩
    · next i w hw =>
      exact ⟨a, 0, _, _, rfl, (hshow.withWorld w).unmapInternal _ _, hfound.congr rfl rfl,
        { hkeep w with inv := (hkeep w).inv.of_same ⟨rfl, rfl, rfl⟩ },
        .inr ⟨rfl, by rw [hw]; exact Option.some_ne_none _⟩⟩

/-- A new zone of `n` bytes that is not in the list yet. -/
structure Prepared (z : UInt64) (t t' : AddrSpace (List UInt64) π) (type : AllocType) (n : UInt64) :
    Prop where
  list : t'.virtAllocs = t.virtAllocs
  freed : t'.freed = t.freed
  zone : ∀ c ∈ t.virtAllocs, t'.zone c = t.zone c
  notMem : z ∉ t.virtAllocs
  type_eq : (t'.zone z).type = type
  len_eq : (t'.zone z).len = alignUp n pageSize

section Prepared
variable {t2 : AddrSpace (List UInt64) π} (hprep : Prepared z t t2 type n)

include hprep

lemma Prepared.zones : t2.zones = t.zones := by
  rw [AddrSpace.zones, AddrSpace.zones, hprep.list]
  exact List.map_congr_left hprep.zone

lemma Prepared.testsLow : TestsLow (t2.zone z).len t2 ↔ TestsLow (alignUp n pageSize) t := by
  rw [TestsLow, TestsLow, hprep.len_eq, hprep.list]
  cases hl : t.virtAllocs with
  | nil => exact Iff.rfl
  | cons c cs =>
    rw [List.head?_cons, Option.all_some, Option.all_some, hprep.zone c (by simp [hl])]

lemma Prepared.full : Full (t2.zone z).len t2.zones ↔ Full (alignUp n pageSize) t.zones := by
  rw [hprep.len_eq, hprep.zones]

lemma Prepared.hasRoom (h : HasRoom (alignUp n pageSize) t) : HasRoom (t2.zone z).len t2 :=
  hprep.len_eq ▸ HasRoom.of_eq h hprep.list hprep.zone

lemma Prepared.dvd_len : 4096 ∣ (t2.zone z).len.toNat := hprep.len_eq ▸ dvd_alignUp_page n

lemma Prepared.zone_ne {c : UInt64} (hc : c ∈ t.virtAllocs) : c ≠ z := fun he =>
  hprep.notMem (he ▸ hc)

lemma Placed.result (hp : Placed z t2 t' a) : Result t t' a type n := by
  refine ⟨hp.inv, hp.freed.trans hprep.freed, fun c hc => ?_, ?_⟩
  · exact (hp.zone c (hprep.zone_ne hc)).trans (hprep.zone c hc)
  · rcases hp.place with ⟨ha, hl⟩ | ⟨ha, -, hmem, hzone⟩
    · exact .inl ⟨ha, hl.trans hprep.list⟩
    · refine .inr ⟨ha, z, hprep.notMem, fun c => by rw [hmem, hprep.list], ?_⟩
      rw [hzone]
      exact ⟨rfl, hprep.type_eq, hprep.len_eq⟩

lemma Placed.type_eq (hp : Placed z t2 t' a) (ha : a ≠ 0) : (t'.zone z).type = type := by
  obtain ⟨-, -, -, hzone⟩ := hp.place.resolve_left fun hn => ha hn.1
  rw [hzone]
  exact hprep.type_eq

/-- A zone that has been placed and taken back. -/
lemma Placed.result_remove (hp : Placed z t2 t' a) (hk : (t'.zone z).type ≠ .kernel)
    (herase : t'.virtAllocs.erase z = t2.virtAllocs) :
    Result t ((t'.removeP .sequence z).delete z) 0 type n :=
  ⟨hp.inv.remove_zone hk, hp.freed.trans hprep.freed, fun c hc =>
    (hp.zone c (hprep.zone_ne hc)).trans (hprep.zone c hc), .inl ⟨rfl, herase.trans hprep.list⟩⟩

end Prepared

lemma Inv.delete (h : Inv t) (hz : z ∉ t.virtAllocs) : Inv (t.delete z) :=
  h.of_eq rfl (fun _ _ => rfl) fun c hc => by
    have hne : c ≠ z := fun he => hz (he ▸ hc)
    exact (List.mem_erase_of_ne hne).mpr (h.objs c hc)

/-- A zone for which there was no place. -/
lemma Placed.result_delete {t2 : AddrSpace (List UInt64) π} (hprep : Prepared z t t2 type n)
    (hp : Placed z t2 t' 0) : Result t (t'.delete z) 0 type n := by
  have hlist : t'.virtAllocs = t.virtAllocs := by
    rcases hp.place with ⟨-, hl⟩ | ⟨ha, -⟩
    · exact hl.trans hprep.list
    · exact absurd rfl ha
  refine ⟨hp.inv.delete (hlist ▸ hprep.notMem), hp.freed.trans hprep.freed, fun c hc => ?_,
    .inl ⟨rfl, hlist⟩⟩
  exact (hp.zone c (hprep.zone_ne hc)).trans (hprep.zone c hc)

lemma Found.length_le {s1 : AddrSpace (LinkedList UInt64 × Links UInt64) π}
    (h : Found z s1 t t' a) : t'.virtAllocs.length ≤ t.virtAllocs.length + 1 := by
  cases h with
  | nowhere _ _ hlist _ => rw [hlist]; exact Nat.le_succ _
  | first _ _ hlist _ => rw [hlist, List.length_cons]
  | between _ hlist _ hlist' _ _ =>
    rw [hlist, hlist']
    simp
    omega

lemma Found.erase {s1 : AddrSpace (LinkedList UInt64 × Links UInt64) π}
    (h : Found z s1 t t' a) (hz : z ∉ t.virtAllocs) :
    t'.virtAllocs.erase z = t.virtAllocs := by
  cases h with
  | nowhere _ _ hlist _ => rw [hlist, List.erase_of_not_mem hz]
  | first _ _ hlist _ => rw [hlist, List.erase_cons_head]
  | between _ hlist _ hlist' _ _ =>
    rw [hlist']
    rw [hlist] at hz ⊢
    rw [List.erase_append_right _ fun hmem => hz (List.mem_append_left _ hmem),
      List.erase_cons_head]

/-- `alloc` does what it does on a sequence. -/
lemma alloc_shows (h : Shows s t) (hI : Inv t) (hr : Ready s t)
    (hshort : t.virtAllocs.length < 2 ^ 31) (hzo : zo.all fun z => z ∉ t.objs)
    (hP : Roomy m t (.alloc zo n flags))
    (hs : s.alloc (.linked K) m zo n flags = some (out, s')) :
    ∃ t', Shows s' t' ∧ Ready s' t' ∧ Result t t' out .valloc n ∧
      (out ≠ 0 → alignUp n pageSize ≠ 0) := by
  unfold AddrSpace.alloc at hs
  rw [h.world] at hs
  split_ifs at hs with hn
  · obtain ⟨rfl, rfl⟩ := Prod.mk.inj (Option.some.inj hs)
    exact ⟨t, h, hr, .refl hI, fun h0 => absurd rfl h0⟩
  rw [not_or] at hn
  cases zo with
  | none => cases hs
  | some z =>
    have hzobj : z ∉ t.objs := of_decide_eq_true hzo
    have hz := hI.notMem hzobj
    replace hP := (hP.resolve_left hn.1).resolve_left hn.2
    dsimp only at hs
    rw [h.zone] at hs
    set d : VirtZone := { t.zone z with
      type := .valloc, allocations := [], len := alignUp n pageSize, flags := flags } with hd
    rw [show (AddrSpace.new s z d).world = t.world from h.world] at hs
    cases hc : collectPhysZones m (alignUp n pageSize) t.world with
    | none => simp [hc] at hs
    | some collected =>
      obtain ⟨b, l, w⟩ := collected
      rw [hc] at hs hP
      cases b with
      | false =>
        obtain ⟨rfl, rfl⟩ := Prod.mk.inj (Option.some.inj hs)
        exact ⟨delete { t.new z d with world := w } z, ((h.new d).withWorld w).delete z, hr,
          ⟨(hI.delete_new hzobj).withWorld w, rfl, fun c hc => new_zone_of_mem hI hzobj hc,
            .inl ⟨rfl, rfl⟩⟩, fun h0 => absurd rfl h0⟩
      | true =>
        replace hP := hP.resolve_left (by simp)
        obtain ⟨hne, hP⟩ := hP
        rw [Option.all_some, decide_eq_true_eq] at hP
        dsimp only at hs
        have hsame : (AddrSpace.new s z d).zone z = d := Function.update_self ..
        rw [hsame] at hs
        set t2 : AddrSpace (List UInt64) π :=
          { t.new z d with world := w }.setZone z { d with allocations := l } with ht2
        have hshow2 : Shows (AddrSpace.setZone { s.new z d with world := w } z
            { d with allocations := l }) t2 := ((h.new d).withWorld w).setZone _
        have hzone2 : t2.zone z = { d with allocations := l } := Function.update_self ..
        have hprep : Prepared z t t2 .valloc n := by
          refine ⟨rfl, rfl, fun c hc => ?_, hz, by rw [hzone2], by rw [hzone2]⟩
          have hne : c ≠ z := fun he => hz (he ▸ hc)
          exact (Function.update_of_ne hne _ _).trans (new_zone_of_mem hI hzobj hc)
        have hroom : HasRoom (alignUp n pageSize) t :=
          hasRoom_of_low (hP.imp_right fun hlow => .inr hlow.2.1)
        obtain ⟨a, o, s3, t3, hs3, hshow3, hfound, hplaced, hout⟩ :=
          mapAllocData_shows (K := K) (m := m) hshow2 (hI.new_setZone hzobj w) hr
            (Nat.le_of_lt hshort) hz List.mem_cons_self hprep.dvd_len (hprep.hasRoom hroom)
        rw [hs3] at hs
        dsimp only at hs
        split_ifs at hs with ho
        · obtain ⟨rfl, rfl⟩ := Prod.mk.inj (Option.some.inj hs)
          have herase := hfound.erase hz
          cases hfound with
          | nowhere hfull htest =>
            exact absurd hP (not_or.mpr ⟨not_not_intro (hprep.full.mp hfull),
              fun hlow => htest (hprep.testsLow.mpr hlow.1)⟩)
          | first hfull htest =>
            have hmapped := (hP.resolve_left (not_not_intro (hprep.full.mp hfull))).2.2
            have hno := (hout.resolve_left (by rw [ho]; decide)).2
            rw [hzone2] at hno
            exact absurd hmapped hno
          | between ha hlist hpos hlist' hcur hcurI =>
            obtain ⟨hshow4, hc4⟩ := removeP_shows (K := K) hshow3 hlist' hcur hcurI
            have hkind : (t3.zone z).type ≠ .kernel := by
              rw [hplaced.type_eq hprep ha]
              nofun
            exact ⟨_, hshow4.delete z, .inl hc4, hplaced.result_remove hprep hkind herase,
              fun h0 => absurd rfl h0⟩
        · obtain ⟨s4, hs4, he⟩ := Option.map_eq_some_iff.mp hs
          obtain ⟨rfl, rfl⟩ := Prod.mk.inj he
          have hoa : o = a := hout.resolve_right fun hn => ho hn.1
          rw [← hoa] at hfound hplaced
          obtain ⟨s5, hs5, hshow5, hready5, -⟩ := syncIfCurrent_shows (K := K) o
            hshow3 hfound.ready (hfound.length_le.trans hshort)
          obtain rfl : s5 = s4 := Option.some.inj (hs5.symm.trans hs4)
          exact ⟨t3, hshow5, hready5, hplaced.result hprep, fun _ => hne⟩

/-- `map` does what it does on a sequence. -/
lemma map_shows (h : Shows s t) (hI : Inv t) (hr : Ready s t)
    (hshort : t.virtAllocs.length < 2 ^ 31) (hzo : zo.all fun z => z ∉ t.objs)
    (hP : Roomy m t (.map zo physAddr n flags))
    (hs : s.map (.linked K) m zo physAddr n flags = some (out, s')) :
    ∃ t', Shows s' t' ∧ Ready s' t' ∧ Result t t' out .map n := by
  unfold AddrSpace.map at hs
  split_ifs at hs with hn
  · obtain ⟨rfl, rfl⟩ := Prod.mk.inj (Option.some.inj hs)
    exact ⟨t, h, hr, .refl hI⟩
  cases zo with
  | none => cases hs
  | some z =>
    have hzobj : z ∉ t.objs := of_decide_eq_true hzo
    have hz := hI.notMem hzobj
    replace hP := hP.resolve_left hn
    dsimp only at hs
    rw [h.zone] at hs
    set d : VirtZone := { t.zone z with
      type := .map, allocations := [], physAddr := alignDown physAddr pageSize,
      len := alignUp n pageSize } with hd
    have hzone2 : (t.new z d).zone z = d := Function.update_self ..
    have hprep : Prepared z t (t.new z d) .map n :=
      ⟨rfl, rfl, fun c hc => new_zone_of_mem hI hzobj hc, hz, by rw [hzone2], by rw [hzone2]⟩
    have hroom : HasRoom (alignUp n pageSize) t :=
      hasRoom_of_low (hP.imp_right (Or.imp_right And.left))
    obtain ⟨a, s1, t1, hs1, ht1, hshow1, hfound⟩ := findAddress_shows (K := K)
      (h.new d) (hI.new hzobj) hr hz (Nat.le_of_lt hshort)
    obtain ⟨hplaced, hworld⟩ := findAddress_placed (hI.new hzobj) hz List.mem_cons_self
      hprep.dvd_len (hprep.hasRoom hroom) ht1
    rw [hs1] at hs
    dsimp only at hs
    split_ifs at hs with ha
    · obtain ⟨rfl, rfl⟩ := Prod.mk.inj (Option.some.inj hs)
      subst ha
      exact ⟨_, hshow1.delete z, hfound.ready, hplaced.result_delete hprep⟩
    · have hlen1 : (s1.zone z).len = alignUp n pageSize := by
        obtain ⟨-, -, -, hzone⟩ := hplaced.place.resolve_left fun hn => ha hn.1
        rw [hshow1.zone, hzone]
        exact hprep.len_eq
      have hworld1 : s1.world = t.world := hshow1.world.trans hworld
      rw [hlen1, hworld1] at hs
      split at hs
      · next w hw =>
        obtain ⟨rfl, rfl⟩ := Prod.mk.inj (Option.some.inj hs)
        have herase := hfound.erase hz
        cases hfound with
        | nowhere => exact absurd rfl ha
        | first hfull htest =>
          have hmapped := ((hP.resolve_left (not_not_intro (hprep.full.mp hfull))).resolve_left
            (not_not_intro (hprep.testsLow.mp htest))).2
          rw [hw] at hmapped
          exact absurd hmapped Bool.false_ne_true
        | between _ hlist hpos hlist' hcur hcurI =>
          obtain ⟨hshow4, hc4⟩ := removeP_shows (K := K) (hshow1.withWorld w) hlist' hcur hcurI
          have hkind : (t1.zone z).type ≠ .kernel := by
            rw [hplaced.type_eq hprep ha]
            nofun
          have hres := hplaced.result_remove hprep hkind herase
          exact ⟨_, hshow4.delete z, .inl hc4, { hres with inv := hres.inv.withWorld w }⟩
      · next w hw =>
        obtain ⟨s4, hs4, he⟩ := Option.map_eq_some_iff.mp hs
        obtain ⟨rfl, rfl⟩ := Prod.mk.inj he
        have hfound2 : Found z { s1 with world := w } (t.new z d) { t1 with world := w } a :=
          hfound.congr rfl rfl
        obtain ⟨s5, hs5, hshow5, hready5, -⟩ := syncIfCurrent_shows (K := K) a
          (hshow1.withWorld w) hfound2.ready (hfound.length_le.trans hshort)
        obtain rfl : s5 = s4 := Option.some.inj (hs5.symm.trans hs4)
        have hres := hplaced.result hprep
        exact ⟨_, hshow5, hready5, { hres with inv := hres.inv.withWorld w }⟩

/-- `reserve` does what it does on a sequence. -/
lemma reserve_shows (h : Shows s t) (hI : Inv t) (hr : Ready s t)
    (hshort : t.virtAllocs.length < 2 ^ 31) (hzo : zo.all fun z => z ∉ t.objs)
    (hP : Roomy m t (.reserve zo n))
    (hs : s.reserve (.linked K) zo n = some (out, s')) :
    ∃ t', Shows s' t' ∧ Ready s' t' ∧ Result t t' out .reserve n := by
  unfold AddrSpace.reserve at hs
  split_ifs at hs with hn
  · obtain ⟨rfl, rfl⟩ := Prod.mk.inj (Option.some.inj hs)
    exact ⟨t, h, hr, .refl hI⟩
  cases zo with
  | none => cases hs
  | some z =>
    have hzobj : z ∉ t.objs := of_decide_eq_true hzo
    have hz := hI.notMem hzobj
    replace hP := hP.resolve_left hn
    dsimp only at hs
    rw [h.zone] at hs
    set d : VirtZone := { t.zone z with
      type := .reserve, allocations := [], len := alignUp n pageSize } with hd
    have hzone2 : (t.new z d).zone z = d := Function.update_self ..
    have hprep : Prepared z t (t.new z d) .reserve n :=
      ⟨rfl, rfl, fun c hc => new_zone_of_mem hI hzobj hc, hz, by rw [hzone2], by rw [hzone2]⟩
    obtain ⟨a, s1, t1, hs1, ht1, hshow1, hfound⟩ := findAddress_shows (K := K)
      (h.new d) (hI.new hzobj) hr hz (Nat.le_of_lt hshort)
    obtain ⟨hplaced, -⟩ := findAddress_placed (hI.new hzobj) hz List.mem_cons_self
      hprep.dvd_len (hprep.hasRoom (hasRoom_of_low hP)) ht1
    rw [hs1] at hs
    dsimp only at hs
    split_ifs at hs with ha
    · obtain ⟨rfl, rfl⟩ := Prod.mk.inj (Option.some.inj hs)
      subst ha
      exact ⟨_, hshow1.delete z, hfound.ready, hplaced.result_delete hprep⟩
    · obtain ⟨rfl, rfl⟩ := Prod.mk.inj (Option.some.inj hs)
      exact ⟨t1, hshow1, hfound.ready, hplaced.result hprep⟩

end Insertion

end AddrSpace
end EpochKernel.Mem
