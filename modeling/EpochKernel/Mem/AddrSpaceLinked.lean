import EpochKernel.Mem.AddrSpaceSeparate
import EpochKernel.Util.Scan

/-! An address space over `linked_list` as it is, next to the same address space over a sequence. -/
namespace EpochKernel.Mem
open EpochKernel.Util EpochKernel.Library

namespace AddrSpace

section Loops
variable {σ π : Type*} {L : ListOps σ UInt64} {m : Memory π} {s : AddrSpace σ π}
  {virtAddr z : UInt64} {l : σ} {fuel i j : ℕ}

/-- The object `z` is a zone of the given type that starts at `virtAddr`. -/
def isZone (s : AddrSpace σ π) (virtAddr : UInt64) (type : AllocType) (z : UInt64) : Bool :=
  (s.zone z).virtAddr = virtAddr ∧ (s.zone z).type = type

lemma get_eq_some {x : UInt64} (h : L.get i s.virtAllocs = some (some x, l)) :
    s.get L i = some (some x, { s with virtAllocs := l }) := by
  rw [get, h, Option.map_some]

/-- One step of a scan. -/
lemma scan_succ {p : UInt64 → Bool} {r : Option (ℕ × UInt64)}
    (h : L.scan p (fuel + 1) i s.virtAllocs = some (r, l)) :
    (¬ i < s.len L ∧ r = none ∧ l = s.virtAllocs) ∨
    (i < s.len L ∧ ∃ x l', L.get i s.virtAllocs = some (some x, l') ∧
      ((p x = true ∧ r = some (i, x) ∧ l = l') ∨
        (p x = false ∧ L.scan p fuel (i + 1) l' = some (r, l)))) := by
  rw [ListOps.scan] at h
  split_ifs at h with hi
  · refine .inr ⟨hi, ?_⟩
    split at h
    · next x l' hget =>
      refine ⟨x, l', hget, ?_⟩
      split_ifs at h with hp
      · obtain ⟨rfl, rfl⟩ := Prod.mk.inj (Option.some.inj h)
        exact .inl ⟨hp, rfl, rfl⟩
      · exact .inr ⟨Bool.eq_false_iff.mpr hp, h⟩
    · cases h
  · obtain ⟨rfl, rfl⟩ := Prod.mk.inj (Option.some.inj h)
    exact .inl ⟨hi, rfl, rfl⟩

lemma freeLoop_of_none
    (h : L.scan (s.isZone virtAddr .valloc) fuel i s.virtAllocs = some (none, l)) :
    freeLoop L m virtAddr fuel i s = some { s with virtAllocs := l } := by
  induction fuel generalizing i s with
  | zero => cases h
  | succ fuel ih =>
    rw [freeLoop]
    rcases scan_succ h with ⟨hi, -, rfl⟩ | ⟨hi, x, l', hget, ⟨-, hr, -⟩ | ⟨hp, hscan⟩⟩
    · rw [if_neg hi]
    · cases hr
    · rw [if_pos hi, get_eq_some hget]
      dsimp only
      rw [if_neg (of_decide_eq_false hp)]
      exact ih (s := { s with virtAllocs := l' }) hscan

lemma freeLoop_of_found
    (h : L.scan (s.isZone virtAddr .valloc) fuel i s.virtAllocs = some (some (j, z), l)) :
    i ≤ j ∧ j < i + fuel ∧ freeLoop L m virtAddr fuel i s =
      ((release m virtAddr (s.zone z).allocations 0 { s with virtAllocs := l }).remove L j).bind
        fun s => freeLoop L m virtAddr (fuel + i - (j + 1)) (j + 1) (s.delete z) := by
  induction fuel generalizing i s with
  | zero => cases h
  | succ fuel ih =>
    rw [freeLoop]
    rcases scan_succ h with ⟨hi, hr, -⟩ | ⟨hi, x, l', hget, ⟨hp, hr, rfl⟩ | ⟨hp, hscan⟩⟩
    · cases hr
    · obtain ⟨rfl, rfl⟩ := Prod.mk.inj (Option.some.inj hr)
      rw [if_pos hi, get_eq_some hget]
      dsimp only
      rw [if_pos (of_decide_eq_true hp), show fuel + 1 + j - (j + 1) = fuel by omega]
      exact ⟨le_rfl, by omega, rfl⟩
    · obtain ⟨h1, h2, h3⟩ := ih (s := { s with virtAllocs := l' }) hscan
      rw [if_pos hi, get_eq_some hget]
      dsimp only
      rw [if_neg (of_decide_eq_false hp), show fuel + 1 + i = fuel + (i + 1) by omega]
      exact ⟨by omega, by omega, h3⟩

lemma unmapLoop_of_none
    (h : L.scan (s.isZone virtAddr .map) fuel i s.virtAllocs = some (none, l)) :
    unmapLoop L m virtAddr fuel i s = some (none, { s with virtAllocs := l }) := by
  induction fuel generalizing i s with
  | zero => cases h
  | succ fuel ih =>
    rw [unmapLoop]
    rcases scan_succ h with ⟨hi, -, rfl⟩ | ⟨hi, x, l', hget, ⟨-, hr, -⟩ | ⟨hp, hscan⟩⟩
    · rw [if_neg hi]
    · cases hr
    · rw [if_pos hi, get_eq_some hget]
      dsimp only
      rw [if_neg (of_decide_eq_false hp)]
      exact ih (s := { s with virtAllocs := l' }) hscan

lemma unmapLoop_of_found
    (h : L.scan (s.isZone virtAddr .map) fuel i s.virtAllocs = some (some (j, z), l)) :
    unmapLoop L m virtAddr fuel i s =
      (({ s with virtAllocs := l }.unmapInternal m (s.zone z).virtAddr (s.zone z).len).remove L j).map
        fun s' : AddrSpace σ π => (some (s.zone z).physAddr, s'.delete z) := by
  induction fuel generalizing i s with
  | zero => cases h
  | succ fuel ih =>
    rw [unmapLoop]
    rcases scan_succ h with ⟨hi, hr, -⟩ | ⟨hi, x, l', hget, ⟨hp, hr, rfl⟩ | ⟨hp, hscan⟩⟩
    · cases hr
    · obtain ⟨rfl, rfl⟩ := Prod.mk.inj (Option.some.inj hr)
      rw [if_pos hi, get_eq_some hget]
      dsimp only
      rw [if_pos (of_decide_eq_true hp)]
    · rw [if_pos hi, get_eq_some hget]
      dsimp only
      rw [if_neg (of_decide_eq_false hp)]
      exact ih (s := { s with virtAllocs := l' }) hscan

lemma unreserveLoop_of_none
    (h : L.scan (s.isZone virtAddr .reserve) fuel i s.virtAllocs = some (none, l)) :
    unreserveLoop L virtAddr fuel i s = some { s with virtAllocs := l } := by
  induction fuel generalizing i s with
  | zero => cases h
  | succ fuel ih =>
    rw [unreserveLoop]
    rcases scan_succ h with ⟨hi, -, rfl⟩ | ⟨hi, x, l', hget, ⟨-, hr, -⟩ | ⟨hp, hscan⟩⟩
    · rw [if_neg hi]
    · cases hr
    · rw [if_pos hi, get_eq_some hget]
      dsimp only
      rw [if_neg (of_decide_eq_false hp)]
      exact ih (s := { s with virtAllocs := l' }) hscan

lemma unreserveLoop_of_found
    (h : L.scan (s.isZone virtAddr .reserve) fuel i s.virtAllocs = some (some (j, z), l)) :
    unreserveLoop L virtAddr fuel i s =
      ({ s with virtAllocs := l }.remove L j).map fun s' : AddrSpace σ π => s'.delete z := by
  induction fuel generalizing i s with
  | zero => cases h
  | succ fuel ih =>
    rw [unreserveLoop]
    rcases scan_succ h with ⟨hi, hr, -⟩ | ⟨hi, x, l', hget, ⟨hp, hr, rfl⟩ | ⟨hp, hscan⟩⟩
    · cases hr
    · obtain ⟨rfl, rfl⟩ := Prod.mk.inj (Option.some.inj hr)
      rw [if_pos hi, get_eq_some hget]
      dsimp only
      rw [if_pos (of_decide_eq_true hp)]
    · rw [if_pos hi, get_eq_some hget]
      dsimp only
      rw [if_neg (of_decide_eq_false hp)]
      exact ih (s := { s with virtAllocs := l' }) hscan

end Loops

section Simulation
variable {π : Type*} {m : Memory π} {K : Links UInt64}
  {s s' : AddrSpace (LinkedList UInt64 × Links UInt64) π} {t t' : AddrSpace (List UInt64) π}
  {virtAddr z : UInt64} {fuel i : ℕ}

/-- The list of `s` stores the sequence of `t`, and all else but the flushed pages is the same. -/
structure Shows (s : AddrSpace (LinkedList UInt64 × Links UInt64) π)
    (t : AddrSpace (List UInt64) π) : Prop where
  represents : s.virtAllocs.1.Represents s.virtAllocs.2 t.virtAllocs
  zone : s.zone = t.zone
  world : s.world = t.world
  isCurrent : s.isCurrent = t.isCurrent
  objs : s.objs = t.objs
  freed : s.freed = t.freed

/-- The cursor of the list is right, or lags. -/
def Ready (s : AddrSpace (LinkedList UInt64 × Links UInt64) π) (t : AddrSpace (List UInt64) π) :
    Prop := s.virtAllocs.1.Coherent t.virtAllocs ∨ s.virtAllocs.1.Lagging t.virtAllocs

lemma Ready.reading (h : Ready s t) : LinkedList.Reading 0 s.virtAllocs.1 t.virtAllocs :=
  h.imp_right fun hlag => ⟨hlag, by have := hlag.lt; omega, .inl rfl⟩

lemma Shows.len (h : Shows s t) : s.len (.linked K) = t.virtAllocs.length :=
  h.represents.len_eq

/-- The zones of `t` at the address `virtAddr`, if they are allocations or mappings, are empty. -/
def EmptyAt (t : AddrSpace (List UInt64) π) (virtAddr : UInt64) : Prop :=
  ∀ z ∈ t.virtAllocs, (t.zone z).virtAddr = virtAddr → (t.zone z).len = 0

lemma syncRaw_le {e : UInt64} {addr p : UInt64} {stale : UInt64 → Bool}
    (h : syncRaw e fuel addr stale p = true) : stale p = true := by
  induction fuel generalizing addr stale with
  | zero => exact h
  | succ fuel ih =>
    rw [syncRaw] at h
    split_ifs at h
    · have := ih h
      by_contra hne
      rw [Function.update_apply] at this
      split_ifs at this
      exact hne this
    · exact h

lemma syncTlbRaw_zero : (s.syncTlbRaw virtAddr 0).stale = s.stale := by
  rw [syncTlbRaw, add_zero]
  change syncRaw virtAddr (2 ^ 52) virtAddr s.stale = s.stale
  rw [show 2 ^ 52 = (2 ^ 52 - 1) + 1 from rfl, syncRaw,
    if_neg (show ¬ virtAddr < virtAddr from lt_irrefl virtAddr.toNat)]

/-- `sync_tlb` visits all indices and leaves the cursor where it should be. -/
lemma syncLoop_shows (virtAddr : UInt64) (fuel : ℕ) (h : Shows s t) (hr : LinkedList.Reading i s.virtAllocs.1 t.virtAllocs)
    (hshort : t.virtAllocs.length ≤ 2 ^ 31) (hi : i ≤ t.virtAllocs.length)
    (hfuel : t.virtAllocs.length < i + fuel) :
    ∃ s', syncLoop (.linked K) virtAddr fuel i s = some s' ∧ Shows s' t ∧
      s'.virtAllocs.1.Coherent t.virtAllocs ∧ (∀ p, s'.stale p = true → s.stale p = true) ∧
      (EmptyAt t virtAddr → s'.stale = s.stale) := by
  induction fuel generalizing i s with
  | zero => omega
  | succ fuel ih =>
    rw [syncLoop, h.len]
    rcases Nat.lt_or_eq_of_le hi with hlt | rfl
    · obtain ⟨x, l', hget, hx, hrep, hr'⟩ :=
        LinkedList.get_reading_succ h.represents hr hlt hshort
      have hget' : s.get (.linked K) i =
          some (some x, { s with virtAllocs := (l', s.virtAllocs.2) }) := by
        refine get_eq_some ?_
        change (LinkedList.get i s.virtAllocs.1 s.virtAllocs.2).map _ = _
        rw [hget]
        rfl
      have hnext : Shows { s with virtAllocs := (l', s.virtAllocs.2) } t := { h with represents := hrep }
      rw [if_pos hlt, hget']
      dsimp only
      split_ifs with hz
      · have hsync : Shows (syncTlbRaw (s.zone x).virtAddr (s.zone x).len
            { s with virtAllocs := (l', s.virtAllocs.2) }) t := { h with represents := hrep }
        obtain ⟨s', hs', hshow, hc, hle, hempty⟩ := ih hsync hr' hlt (by omega)
        refine ⟨s', hs', hshow, hc, fun p hp => syncRaw_le (hle p hp), fun he => ?_⟩
        have hzero : (s.zone x).len = 0 := by
          rw [h.zone]
          exact he x hx (by rw [← h.zone]; exact hz.2)
        rw [hempty he, hzero, syncTlbRaw_zero]
      · exact ih hnext hr' hlt (by omega)
    · rw [if_neg (lt_irrefl _)]
      exact ⟨s, rfl, h, hr.coherent, fun _ hp => hp, fun _ => rfl⟩

lemma syncIfCurrent_shows (virtAddr : UInt64) (h : Shows s t) (hr : Ready s t) (hshort : t.virtAllocs.length ≤ 2 ^ 31) :
    ∃ s', s.syncIfCurrent (.linked K) virtAddr = some s' ∧ Shows s' t ∧ Ready s' t ∧
      (∀ p, s'.stale p = true → s.stale p = true) ∧
      (EmptyAt t (alignDown virtAddr pageSize) → s'.stale = s.stale) ∧
      (s.virtAllocs.1.Coherent t.virtAllocs → s'.virtAllocs.1.Coherent t.virtAllocs) := by
  rw [syncIfCurrent]
  split_ifs with hcur
  · obtain ⟨s', hs', hshow, hc, hle, hempty⟩ := syncLoop_shows (K := K)
      (alignDown virtAddr pageSize) (s.len (.linked K) + 1) h hr.reading hshort (Nat.zero_le _) (by rw [h.len (K := K)]; omega)
    exact ⟨s', hs', hshow, .inl hc, hle, hempty, fun _ => hc⟩
  · exact ⟨s, rfl, h, hr, fun _ hp => hp, fun _ => rfl, id⟩

variable {as bs : List UInt64} {b : UInt64} {type : AllocType}

lemma Shows.isZone (h : Shows s t) : s.isZone virtAddr type = t.isZone virtAddr type := by
  funext y
  rw [AddrSpace.isZone, AddrSpace.isZone, h.zone]

lemma Shows.delete (h : Shows s t) (z : UInt64) : Shows (s.delete z) (t.delete z) :=
  { h with objs := by rw [AddrSpace.delete, AddrSpace.delete, h.objs] }

lemma Shows.unmapInternal (h : Shows s t) (v n : UInt64) :
    Shows (s.unmapInternal m v n) (t.unmapInternal m v n) :=
  { h with world := by rw [AddrSpace.unmapInternal, AddrSpace.unmapInternal, h.world] }

lemma scan_isZone_none (h : Shows s t) (hr : LinkedList.Reading i s.virtAllocs.1 t.virtAllocs)
    (hi : i ≤ t.virtAllocs.length) (hshort : t.virtAllocs.length ≤ 2 ^ 31)
    (hnone : ∀ y ∈ t.virtAllocs, t.isZone virtAddr type y = false) (fuel : ℕ)
    (hfuel : t.virtAllocs.length < i + fuel) :
    ∃ l, (ListOps.linked K).scan (s.isZone virtAddr type) fuel i s.virtAllocs = some (none, l) ∧
      Shows { s with virtAllocs := l } t ∧ l.1.Coherent t.virtAllocs := by
  have hp : ∀ y ∈ t.virtAllocs, s.isZone virtAddr type y = false := by
    rwa [h.isZone]
  obtain ⟨l', hscan, hrep, hc⟩ :=
    LinkedList.scan_none (K := K) h.represents hr hi hshort hp hfuel
  exact ⟨_, hscan, { h with represents := hrep }, hc⟩

/-- A scan for the only zone of a type at an address finds it, unless it misses the first zone and
the zone is one of the first two. -/
lemma scan_isZone_found (h : Shows s t) (hr : Ready s t) (hshort : t.virtAllocs.length ≤ 2 ^ 31)
    (hlist : t.virtAllocs = as ++ z :: b :: bs) (hz : t.isZone virtAddr type z = true)
    (hothers : ∀ y ∈ as, t.isZone virtAddr type y = false)
    (hmiss : s.virtAllocs.1.Misses t.virtAllocs → 2 ≤ as.length) :
    ∃ l j, (ListOps.linked K).scan (s.isZone virtAddr type) (s.len (.linked K) + 1) 0
      s.virtAllocs = some (some (j, z), l) ∧ Shows { s with virtAllocs := l } t ∧
      l.1.current = some z ∧ l.1.currentI = j ∧ (j = as.length ∨ (j + 1 = as.length ∧ 0 < j)) ∧
      (s.virtAllocs.1.Coherent t.virtAllocs → j = as.length) := by
  have hsame : s.isZone virtAddr type = t.isZone virtAddr type := h.isZone
  have hrep := h.represents
  have hread := hr.reading
  rw [hlist] at hrep hread hshort hmiss
  obtain ⟨l', j, hscan, hrep', hcur, hcurI, hj⟩ := LinkedList.scan_found (K := K)
    (p := s.isZone virtAddr type) hrep hread (Nat.zero_le _) hshort (by rw [hsame, hz])
    (by rwa [hsame]) (fun hlag hc => by have := hmiss ⟨hlag, hc rfl⟩; omega)
    (f := s.len (.linked K) + 1) (by rw [h.len (K := K), hlist]; simp)
  rw [← hlist] at hrep'
  refine ⟨_, j, hscan, { h with represents := hrep' }, hcur, hcurI, hj.imp_right ?_, fun hc => ?_⟩
  · rintro ⟨hj, hlag, hc⟩
    have := hmiss ⟨hlag, hc rfl⟩
    exact ⟨hj, by omega⟩
  · rw [hlist] at hc
    exact hj.resolve_right fun hlag => hc.not_lagging hrep hlag.2.1

lemma remove_shows {j : ℕ} (h : Shows s t) (hlist : t.virtAllocs = as ++ z :: b :: bs)
    (hcur : s.virtAllocs.1.current = some z) (hcurI : s.virtAllocs.1.currentI = j)
    (hj : j = as.length ∨ (j + 1 = as.length ∧ 0 < j)) :
    ∃ l, s.remove (.linked K) j = some { s with virtAllocs := l } ∧
      Shows { s with virtAllocs := l } { t with virtAllocs := as ++ b :: bs } ∧
      LinkedList.Reading (j + 1) l.1 (as ++ b :: bs) ∧
      (j = as.length → l.1.Coherent (as ++ b :: bs)) := by
  obtain ⟨l', H', hrem, hrep, hread, hc⟩ :=
    LinkedList.remove_found (hlist ▸ h.represents) hcur hcurI hj
  refine ⟨(l', H'), ?_, { h with represents := hrep }, hread, hc⟩
  change (((LinkedList.remove j s.virtAllocs.1 s.virtAllocs.2).map _).map _) = _
  rw [hrem]
  rfl

lemma release_shows {as : List PhysAllocation} {o : UInt64} (h : Shows s t) :
    Shows (release m virtAddr as o s) (release m virtAddr as o t) := by
  induction as generalizing o s t with
  | nil => exact h
  | cons a as ih =>
    refine ih ⟨h.represents, h.zone, ?_, h.isCurrent, h.objs, ?_⟩
    · change m.free _ (m.unmapInternal _ _ s.world) = m.free _ (m.unmapInternal _ _ t.world)
      rw [h.world]
    · change s.freed ++ _ = t.freed ++ _
      rw [h.freed]

lemma release_fields {v o : UInt64} {l : List PhysAllocation} {σ : Type*} (s : AddrSpace σ π) :
    (release m v l o s).virtAllocs = s.virtAllocs ∧ (release m v l o s).zone = s.zone ∧
      (release m v l o s).objs = s.objs ∧ (release m v l o s).isCurrent = s.isCurrent ∧
      (release m v l o s).freed = s.freed ++ l.map (·.addr) := by
  induction l generalizing o s with
  | nil => exact ⟨rfl, rfl, rfl, rfl, (List.append_nil _).symm⟩
  | cons a l ih =>
    obtain ⟨h1, h2, h3, h4, h5⟩ := ih (o := o + a.len)
      ((s.unmapInternal m (v + o) a.len).memFree m a.addr)
    refine ⟨h1, h2, h3, h4, h5.trans ?_⟩
    rw [List.map_cons, List.append_cons]
    rfl

lemma release_with {as : List PhysAllocation} {o : UInt64} {σ : Type*} (s : AddrSpace σ π)
    (l : σ) : release m virtAddr as o { s with virtAllocs := l } =
      { release m virtAddr as o s with virtAllocs := l } := by
  induction as generalizing o s with
  | nil => rfl
  | cons a as ih =>
    exact ih (o := o + a.len) ((s.unmapInternal m (virtAddr + o) a.len).memFree m a.addr)

/-- The state after the zone `z` has been taken out from between `as` and `bs` and deleted. -/
def without (t : AddrSpace (List UInt64) π) (z : UInt64) (as bs : List UInt64) :
    AddrSpace (List UInt64) π :=
  { t with virtAllocs := as ++ bs, objs := t.objs.erase z }

/-- `free` of the address of the only allocation there. -/
lemma free_shows_found {mem : UInt64} (h : Shows s t) (hr : Ready s t)
    (hshort : t.virtAllocs.length ≤ 2 ^ 31) (hlist : t.virtAllocs = as ++ z :: b :: bs)
    (hz : t.isZone (alignDown mem pageSize) .valloc z = true)
    (hothers : ∀ y ∈ as ++ b :: bs, t.isZone (alignDown mem pageSize) .valloc y = false)
    (hmiss : s.virtAllocs.1.Misses t.virtAllocs → 2 ≤ as.length) :
    ∃ s', s.free (.linked K) m mem = some s' ∧
      Shows s' ((release m (alignDown mem pageSize) (t.zone z).allocations 0 t).without z as (b :: bs)) ∧
      s'.virtAllocs.1.Coherent (as ++ b :: bs) ∧
      (∀ p, s'.stale p = true →
        (release m (alignDown mem pageSize) (t.zone z).allocations 0 s).stale p = true) ∧
      (EmptyAt (t.without z as (b :: bs)) (alignDown mem pageSize) →
        s'.stale = (release m (alignDown mem pageSize) (t.zone z).allocations 0 s).stale) := by
  set a := alignDown mem pageSize with ha
  obtain ⟨l, j, hscan, hshow, hcur, hcurI, hj, -⟩ := scan_isZone_found (K := K) h hr hshort
    hlist hz (fun y hy => hothers y (List.mem_append_left _ hy)) hmiss
  obtain ⟨-, hjlt, hloop⟩ := freeLoop_of_found (m := m) hscan
  set u := release m a (t.zone z).allocations 0 t with hu
  set v := release m a (t.zone z).allocations 0 s with hv
  have hshow1 : Shows { v with virtAllocs := l } u := by
    rw [hv, ← release_with]
    exact release_shows hshow
  have hulist : u.virtAllocs = as ++ z :: b :: bs := (release_fields t).1.trans hlist
  obtain ⟨l2, hrem, hshow2, hread, -⟩ := remove_shows (K := K) hshow1 hulist hcur hcurI hj
  have hshow3 : Shows (delete { v with virtAllocs := l2 } z) (u.without z as (b :: bs)) := by
    have hobjs : v.objs = t.objs := (release_fields s).2.2.1.trans h.objs
    have hobjs' : u.objs = t.objs := (release_fields t).2.2.1
    refine { hshow2 with objs := ?_ }
    change v.objs.erase z = u.objs.erase z
    rw [hobjs, hobjs']
  set w := delete { v with virtAllocs := l2 } z with hw
  set t' := u.without z as (b :: bs) with ht'
  have htlist : t'.virtAllocs = as ++ b :: bs := rfl
  have htzone : t'.zone = t.zone := (release_fields t).2.1
  have hlt : t'.virtAllocs.length + 1 = t.virtAllocs.length := by
    rw [hlist, htlist]
    simp
    omega
  have hlen : s.len (.linked K) = t.virtAllocs.length := h.len
  have hjle : j + 1 ≤ t'.virtAllocs.length := by
    rw [htlist]
    simp
    omega
  have hnone : ∀ y ∈ t'.virtAllocs, t'.isZone a .valloc y = false := by
    intro y hy
    rw [← hothers y hy, isZone, isZone, htzone]
  obtain ⟨l3, hscan3, hshow4, hc4⟩ := scan_isZone_none (K := K) hshow3 hread hjle (by omega)
    hnone (s.len (.linked K) + 1 + 0 - (j + 1)) (by omega)
  obtain ⟨s', hs', hshow', -, hle, hempty, hc'⟩ := syncIfCurrent_shows (K := K) a
    hshow4 (.inl hc4) (by omega)
  refine ⟨s', ?_, hshow', hc' hc4, hle, fun he => hempty ?_⟩
  · have hza : (s.zone z).allocations = (t.zone z).allocations := by rw [h.zone]
    rw [hza, release_with, hrem, Option.bind_some, freeLoop_of_none hscan3] at hloop
    rw [AddrSpace.free, hloop, Option.bind_some]
    exact hs'
  · rw [alignDown_alignDown]
    intro y hy hya
    rw [htzone] at hya ⊢
    exact he y hy hya

/-- `free` of an address at which there is no allocation. -/
lemma free_shows_none {mem : UInt64} (h : Shows s t) (hr : Ready s t)
    (hshort : t.virtAllocs.length ≤ 2 ^ 31)
    (hnone : ∀ y ∈ t.virtAllocs, t.isZone (alignDown mem pageSize) .valloc y = false) :
    ∃ s', s.free (.linked K) m mem = some s' ∧ Shows s' t ∧ Ready s' t ∧
      ∀ p, s'.stale p = true → s.stale p = true := by
  have hlen : s.len (.linked K) = t.virtAllocs.length := h.len
  obtain ⟨l, hscan, hshow, hc⟩ := scan_isZone_none (K := K) h hr.reading (Nat.zero_le _)
    hshort hnone (s.len (.linked K) + 1) (by omega)
  obtain ⟨s', hs', hshow', hready', hle, -⟩ := syncIfCurrent_shows (K := K)
    (alignDown mem pageSize) hshow (.inl hc) hshort
  refine ⟨s', ?_, hshow', hready', hle⟩
  rw [AddrSpace.free, freeLoop_of_none hscan, Option.bind_some]
  exact hs'

/-- `unmap` of the address of the only mapping there; it does not flush anything. -/
lemma unmap_shows_found (h : Shows s t) (hr : Ready s t) (hshort : t.virtAllocs.length ≤ 2 ^ 31)
    (hlist : t.virtAllocs = as ++ z :: b :: bs)
    (hz : t.isZone (alignDown virtAddr pageSize) .map z = true)
    (hothers : ∀ y ∈ as, t.isZone (alignDown virtAddr pageSize) .map y = false)
    (hmiss : s.virtAllocs.1.Misses t.virtAllocs → 2 ≤ as.length) :
    ∃ s', s.unmap (.linked K) m virtAddr = some (some (t.zone z).physAddr, s') ∧
      Shows s' ((t.unmapInternal m (t.zone z).virtAddr (t.zone z).len).without z as (b :: bs)) ∧
      Ready s' ((t.unmapInternal m (t.zone z).virtAddr (t.zone z).len).without z as (b :: bs)) ∧
      s'.stale = (s.unmapInternal m (t.zone z).virtAddr (t.zone z).len).stale ∧
      (s.virtAllocs.1.Coherent t.virtAllocs → s'.virtAllocs.1.Coherent (as ++ b :: bs)) := by
  have hlen : s.len (.linked K) = t.virtAllocs.length := h.len
  obtain ⟨l, j, hscan, hshow, hcur, hcurI, hj, hright⟩ := scan_isZone_found (K := K) h hr hshort
    hlist hz hothers hmiss
  have hshow1 := hshow.unmapInternal (m := m) (t.zone z).virtAddr (t.zone z).len
  obtain ⟨l2, hrem, hshow2, hread, hc⟩ := remove_shows (K := K) hshow1 hlist hcur hcurI hj
  refine ⟨_, ?_, hshow2.delete z, hread.imp_right fun hlag => hlag.1, rfl, fun h => hc (hright h)⟩
  rw [AddrSpace.unmap, unmapLoop_of_found hscan, h.zone]
  rw [h.zone] at hrem
  rw [hrem]
  rfl

lemma unmap_shows_none (h : Shows s t) (hr : Ready s t) (hshort : t.virtAllocs.length ≤ 2 ^ 31)
    (hnone : ∀ y ∈ t.virtAllocs, t.isZone (alignDown virtAddr pageSize) .map y = false) :
    ∃ s', s.unmap (.linked K) m virtAddr = some (none, s') ∧ Shows s' t ∧ Ready s' t ∧
      ∀ p, s'.stale p = true → s.stale p = true := by
  have hlen : s.len (.linked K) = t.virtAllocs.length := h.len
  obtain ⟨l, hscan, hshow, hc⟩ := scan_isZone_none (K := K) h hr.reading (Nat.zero_le _)
    hshort hnone (s.len (.linked K) + 1) (by omega)
  obtain ⟨s', hs', hshow', hready', hle, -⟩ := syncIfCurrent_shows (K := K)
    (alignDown virtAddr pageSize) hshow (.inl hc) hshort
  refine ⟨s', ?_, hshow', hready', hle⟩
  rw [AddrSpace.unmap, unmapLoop_of_none hscan]
  change Option.map _ _ = _
  rw [hs']
  rfl

lemma unreserve_shows_found (h : Shows s t) (hr : Ready s t) (hshort : t.virtAllocs.length ≤ 2 ^ 31)
    (hlist : t.virtAllocs = as ++ z :: b :: bs)
    (hz : t.isZone (alignDown virtAddr pageSize) .reserve z = true)
    (hothers : ∀ y ∈ as, t.isZone (alignDown virtAddr pageSize) .reserve y = false)
    (hmiss : s.virtAllocs.1.Misses t.virtAllocs → 2 ≤ as.length) :
    ∃ s', s.unreserve (.linked K) virtAddr = some s' ∧ Shows s' (t.without z as (b :: bs)) ∧
      Ready s' (t.without z as (b :: bs)) ∧
      (s.virtAllocs.1.Coherent t.virtAllocs → s'.virtAllocs.1.Coherent (as ++ b :: bs)) := by
  have hlen : s.len (.linked K) = t.virtAllocs.length := h.len
  obtain ⟨l, j, hscan, hshow, hcur, hcurI, hj, hright⟩ := scan_isZone_found (K := K) h hr hshort
    hlist hz hothers hmiss
  obtain ⟨l2, hrem, hshow2, hread, hc⟩ := remove_shows (K := K) hshow hlist hcur hcurI hj
  refine ⟨_, ?_, hshow2.delete z, hread.imp_right fun hlag => hlag.1, fun h => hc (hright h)⟩
  rw [AddrSpace.unreserve, unreserveLoop_of_found hscan, hrem]
  rfl

lemma unreserve_shows_none (h : Shows s t) (hr : Ready s t) (hshort : t.virtAllocs.length ≤ 2 ^ 31)
    (hnone : ∀ y ∈ t.virtAllocs, t.isZone (alignDown virtAddr pageSize) .reserve y = false) :
    ∃ s', s.unreserve (.linked K) virtAddr = some s' ∧ Shows s' t ∧ Ready s' t := by
  have hlen : s.len (.linked K) = t.virtAllocs.length := h.len
  obtain ⟨l, hscan, hshow, hc⟩ := scan_isZone_none (K := K) h hr.reading (Nat.zero_le _)
    hshort hnone (s.len (.linked K) + 1) (by omega)
  exact ⟨_, unreserveLoop_of_none hscan, hshow, .inl hc⟩

section Placement
variable {c : UInt64} {cs : List UInt64}

/-- A read of the list: the cursor is right from then on. -/
lemma get_shows (h : Shows s t) (hlist : t.virtAllocs = as ++ c :: cs)
    (hread : LinkedList.get as.length s.virtAllocs.1 s.virtAllocs.2 = some (t.virtAllocs[as.length]?,
      { s.virtAllocs.1 with current := t.virtAllocs[as.length]?, currentI := as.length })) :
    ∃ l, s.get (.linked K) as.length = some (some c, { s with virtAllocs := l }) ∧
      Shows { s with virtAllocs := l } t ∧ l.1.current = some c ∧ l.1.currentI = as.length := by
  have hc : t.virtAllocs[as.length]? = some c := by
    rw [hlist, List.getElem?_append_right le_rfl, Nat.sub_self, List.getElem?_cons_zero]
  rw [hc] at hread
  refine ⟨_, get_eq_some (l := ({ s.virtAllocs.1 with current := some c, currentI := as.length },
    s.virtAllocs.2)) ?_, { h with represents := h.represents.of_fields rfl rfl rfl }, rfl, rfl⟩
  change (LinkedList.get as.length s.virtAllocs.1 s.virtAllocs.2).map _ = _
  rw [hread]
  rfl

lemma get_shows_coherent (h : Shows s t) (hlist : t.virtAllocs = as ++ c :: cs)
    (hshort : t.virtAllocs.length ≤ 2 ^ 31) (hc : s.virtAllocs.1.Coherent t.virtAllocs) :
    ∃ l, s.get (.linked K) as.length = some (some c, { s with virtAllocs := l }) ∧
      Shows { s with virtAllocs := l } t ∧ l.1.current = some c ∧ l.1.currentI = as.length := by
  have hlt : as.length < t.virtAllocs.length := by
    rw [hlist]
    simp
  have hlen := h.represents.len_eq
  exact get_shows h hlist (LinkedList.get_coherent h.represents (by omega) hc hlt
    (hc.straight hlen (by omega) (by omega)))

lemma get_shows_last (h : Shows s t) (hlist : t.virtAllocs = as ++ [c])
    (hshort : t.virtAllocs.length ≤ 2 ^ 31) (hr : Ready s t) :
    ∃ l, s.get (.linked K) as.length = some (some c, { s with virtAllocs := l }) ∧
      Shows { s with virtAllocs := l } t ∧ l.1.current = some c ∧ l.1.currentI = as.length := by
  rcases hr with hc | hlag
  · exact get_shows_coherent h hlist hshort hc
  · exact get_shows h hlist (LinkedList.get_lagging_last h.represents hlag (by rw [hlist]; simp))

lemma coherent_of_cursor {l : LinkedList UInt64} {xs : List UInt64}
    (hxs : xs = as ++ c :: cs) (hc : l.current = some c) (hi : l.currentI = as.length) :
    l.Coherent xs := by
  right
  rw [hc, hi, hxs, List.getElem?_append_right le_rfl, Nat.sub_self, List.getElem?_cons_zero]

/-- The loop of `find_address` does what it does on a sequence; after an insertion the cursor
stands behind the new zone and lags. -/
lemma findLoop_shows (h : Shows s t) (hc : s.virtAllocs.1.Coherent t.virtAllocs)
    (hshort : t.virtAllocs.length ≤ 2 ^ 31) (hz : z ∉ t.virtAllocs)
    (hlist : t.virtAllocs = as ++ b :: bs) :
    ∃ a c s' t', findLoop (.linked K) z as.length b s = some (a, c, s') ∧
      findLoop .sequence z as.length b t = some (a, c, t') ∧ Shows s' t' ∧
      ((∃ cs d ds, t.virtAllocs = cs ++ d :: ds ∧ 0 < cs.length ∧
        t' = { t with virtAllocs := cs ++ z :: d :: ds } ∧ s'.virtAllocs.1.current = some d ∧
        s'.virtAllocs.1.currentI = cs.length) ∨
        (a = 0 ∧ t' = t ∧ s'.virtAllocs.1.Coherent t.virtAllocs)) := by
  induction as using List.reverseRecOn generalizing b bs s with
  | nil => exact ⟨0, b, s, t, rfl, rfl, h, .inr ⟨rfl, rfl, hc⟩⟩
  | append_singleton as c ih =>
    rw [List.append_assoc, List.singleton_append] at hlist
    obtain ⟨l, hget, hshow, hcur, hcurI⟩ := get_shows_coherent (K := K) h hlist hshort hc
    rw [List.length_append, List.length_singleton, findLoop, findLoop, hget, get_append hlist]
    dsimp only
    by_cases hfit : (t.zone z).len ≤ (t.zone b).virtAddr - ((t.zone c).virtAddr + (t.zone c).len)
    · have hfit' : (s.zone z).len ≤ (s.zone b).virtAddr - ((s.zone c).virtAddr + (s.zone c).len) := by
        rwa [h.zone]
      rw [if_pos hfit, if_pos hfit']
      have hrep := hshow.represents
      rw [hlist] at hrep
      obtain ⟨l', H', hins, hrep', hlag, hcurI'⟩ :=
        LinkedList.insert_cursor hrep hcur hcurI (hlist ▸ hz)
      have hidx : t.virtAllocs.insertIdx (as.length + 1) z = as ++ [c] ++ z :: b :: bs := by
        have := insertIdx_length_append (as ++ [c]) (b :: bs) z
        rwa [List.length_append, List.length_singleton, List.append_assoc, List.singleton_append,
          ← hlist] at this
      have hcur' : l'.current = some b := by
        rw [hlag.current, hcurI', List.getElem?_append_right (by omega)]
        simp [Nat.add_assoc]
      refine ⟨(t.zone c).virtAddr + (t.zone c).len, c, { s with virtAllocs := (l', H') },
        { t with virtAllocs := as ++ [c] ++ z :: b :: bs }, ?_, ?_, ?_, .inl ?_⟩
      · change Option.map _ (Option.map _ (Option.map _ (LinkedList.insert _ _ l.1 l.2))) = _
        rw [hins, h.zone]
        rfl
      · change some (_, c, { t with virtAllocs := t.virtAllocs.insertIdx (as.length + 1) z }) = _
        rw [hidx]
      · refine { h with represents := ?_ }
        simpa using hrep'
      · exact ⟨as ++ [c], b, bs, by simpa using hlist, by simp, rfl, hcur', by simpa using hcurI'⟩
    · have hfit' : ¬ (s.zone z).len ≤
          (s.zone b).virtAddr - ((s.zone c).virtAddr + (s.zone c).len) := by
        rwa [h.zone]
      rw [if_neg hfit, if_neg hfit']
      exact ih hshow (coherent_of_cursor hlist hcur hcurI) hlist

/-- The test of `find_address` for the room below the first zone. It takes the address of the zone
only if there is no other, or else that of its object. -/
def TestsLow (n : UInt64) (t : AddrSpace (List UInt64) π) : Prop :=
  t.virtAllocs.head?.all fun c =>
    n ≤ (if t.virtAllocs.length = 1 then (t.zone c).virtAddr else c) - pageSize

/-- There is room for `n` bytes from page 1 to the first zone. -/
def FitsLow (n : UInt64) (t : AddrSpace (List UInt64) π) : Prop :=
  t.virtAllocs.head?.all fun c => 4096 + n.toNat ≤ (t.zone c).virtAddr.toNat

instance (n : UInt64) (t : AddrSpace (List UInt64) π) : Decidable (TestsLow n t) :=
  inferInstanceAs (Decidable (_ = true))

instance (n : UInt64) (t : AddrSpace (List UInt64) π) : Decidable (FitsLow n t) :=
  inferInstanceAs (Decidable (_ = true))

/-- Where `find_address` has left the zone `z` and the cursor. -/
inductive Found (z : UInt64) (s' : AddrSpace (LinkedList UInt64 × Links UInt64) π)
    (t t' : AddrSpace (List UInt64) π) : UInt64 → Prop
  | nowhere : Full (t.zone z).len t.zones → ¬ TestsLow (t.zone z).len t →
      t'.virtAllocs = t.virtAllocs → s'.virtAllocs.1.Coherent t'.virtAllocs → Found z s' t t' 0
  | first : Full (t.zone z).len t.zones → TestsLow (t.zone z).len t →
      t'.virtAllocs = z :: t.virtAllocs → s'.virtAllocs.1.Coherent t'.virtAllocs →
      Found z s' t t' pageSize
  | between {a d : UInt64} {cs ds : List UInt64} : a ≠ 0 → t.virtAllocs = cs ++ d :: ds →
      0 < cs.length → t'.virtAllocs = cs ++ z :: d :: ds → s'.virtAllocs.1.current = some d →
      s'.virtAllocs.1.currentI = cs.length → Found z s' t t' a

lemma Found.ready {a : UInt64} (h : Found z s' t t' a) : Ready s' t' := by
  cases h with
  | nowhere _ _ _ hc => exact .inl hc
  | first _ _ _ hc => exact .inl hc
  | between _ _ hpos hlist hcur hcurI =>
    refine .inr ⟨?_, ?_⟩
    · rw [hlist, hcurI]
      simp
    · rw [hcur, hcurI, hlist, List.getElem?_append_right (by omega)]
      simp

lemma Found.congr {a : UInt64} {s'' : AddrSpace (LinkedList UInt64 × Links UInt64) π}
    {t'' : AddrSpace (List UInt64) π} (h : Found z s' t t' a)
    (hs : s''.virtAllocs = s'.virtAllocs) (ht : t''.virtAllocs = t'.virtAllocs) :
    Found z s'' t t'' a := by
  cases h with
  | nowhere hfull htest hlist hc =>
    exact .nowhere hfull htest (ht.trans hlist) (by rwa [hs, ht])
  | first hfull htest hlist hc => exact .first hfull htest (ht.trans hlist) (by rwa [hs, ht])
  | between hne hlist hpos hlist' hcur hcurI =>
    exact .between hne hlist hpos (ht.trans hlist') (by rwa [hs]) (by rwa [hs])

lemma Shows.prepend (h : Shows s t) (hz : z ∉ t.virtAllocs)
    (hc : s.virtAllocs.1.Coherent t.virtAllocs) :
    Shows (s.prepend (.linked K) z) (t.prepend .sequence z) ∧
      (s.prepend (.linked K) z).virtAllocs.1.Coherent (z :: t.virtAllocs) :=
  ⟨{ h with represents := LinkedList.prepend_represents h.represents hz },
    LinkedList.Coherent.prepend hc⟩

lemma Shows.setZone (h : Shows s t) (d : VirtZone) : Shows (s.setZone z d) (t.setZone z d) :=
  { h with zone := by rw [AddrSpace.setZone, AddrSpace.setZone, h.zone] }

lemma Shows.setVirtAddr (h : Shows s t) (a : UInt64) :
    Shows (s.setZone z { s.zone z with virtAddr := a })
      (t.setZone z { t.zone z with virtAddr := a }) := by
  rw [h.zone]
  exact h.setZone _

/-- The loop of `find_address` gives no address only if no gap is large enough. -/
lemma findLoop_full {a c : UInt64} (hI : Inv t) (hlist : t.virtAllocs = as ++ [b])
    (hr : findLoop .sequence z as.length b t = some (a, c, t')) :
    (a ≠ 0 ∧ z ∈ t'.virtAllocs) ∨
      (t' = t ∧ Full (t.zone z).len t.zones ∧ (as ++ [b]).head? = some c) := by
  rcases findLoop_spec (z := z) hlist with ⟨cs, d, e, ds, hsplit, hfit, hres⟩ | ⟨hfull, d, hd, hres⟩
  · rw [hres, Option.some_inj, Prod.mk.injEq, Prod.mk.injEq] at hr
    obtain ⟨rfl, -, rfl⟩ := hr
    have harr := hI.arranged
    rw [zones, hlist, hsplit, List.map_append, List.map_cons, List.map_cons] at harr
    -- an empty zone fits into every gap
    refine .inl ⟨(harr.fill (a := { t.zone z with virtAddr := (t.zone d).endAddr, len := 0 })
      (dvd_zero _) (UInt64.le_iff_toNat_le.mpr (Nat.zero_le _)) rfl).1, ?_⟩
    simp
  · rw [hres, Option.some_inj, Prod.mk.injEq, Prod.mk.injEq] at hr
    refine .inr ⟨hr.2.2.symm, ?_, hr.2.1 ▸ hd⟩
    rw [zones, hlist]
    exact hfull

/-- `find_address` finds what it finds on a sequence. -/
lemma findAddress_shows (h : Shows s t) (hI : Inv t) (hr : Ready s t) (hz : z ∉ t.virtAllocs)
    (hshort : t.virtAllocs.length ≤ 2 ^ 31) :
    ∃ a s' t', s.findAddress (.linked K) z = some (a, s') ∧
      t.findAddress .sequence z = some (a, t') ∧ Shows s' t' ∧ Found z s' t t' a := by
  obtain ⟨zs, kernelZ, hsplit, hkernel, -⟩ := hI.kernel
  have hlen : s.len (.linked K) = zs.length + 1 := by
    rw [h.len, hsplit]
    simp
  have hlen' : t.len .sequence = zs.length + 1 := by
    change t.virtAllocs.length = zs.length + 1
    rw [hsplit]
    simp
  obtain ⟨l, hget, hshow, hcur, hcurI⟩ := get_shows_last (K := K) h hsplit hshort hr
  have hcoh := coherent_of_cursor hsplit hcur hcurI
  have hkind : (t.zone kernelZ).type = .kernel := by
    rw [hkernel]
    rfl
  have hkind' : (s.zone kernelZ).type = .kernel := by rw [h.zone, hkind]
  rw [AddrSpace.findAddress, AddrSpace.findAddress, hlen, hlen', Nat.add_sub_cancel, hget,
    get_append hsplit]
  dsimp only
  rw [if_neg (not_not_intro hkind), if_neg (not_not_intro hkind')]
  have hlen1 : len (.linked K) { s with virtAllocs := l } = zs.length + 1 := by
    rw [hshow.len, hsplit]
    simp
  rw [hlen1, hlen', Nat.add_sub_cancel]
  by_cases hzs : zs = []
  · subst hzs
    have hfull : Full (t.zone z).len t.zones := by
      rw [zones, hsplit]
      exact List.isChain_singleton _
    have htest : TestsLow (t.zone z).len t ↔ (t.zone z).len ≤ (t.zone kernelZ).virtAddr - pageSize := by
      rw [TestsLow, hsplit]
      simp
    rw [List.length_nil, if_pos rfl, if_pos rfl]
    by_cases hfit : (t.zone z).len ≤ (t.zone kernelZ).virtAddr - pageSize
    · have hfit' : (s.zone z).len ≤ (s.zone kernelZ).virtAddr - pageSize := by rwa [h.zone]
      obtain ⟨hshow2, hc2⟩ := hshow.prepend (K := K) hz hcoh
      rw [if_pos hfit, if_pos hfit']
      exact ⟨pageSize, _, _, rfl, rfl, hshow2.setVirtAddr pageSize, .first hfull (htest.mpr hfit) rfl hc2⟩
    · have hfit' : ¬ (s.zone z).len ≤ (s.zone kernelZ).virtAddr - pageSize := by rwa [h.zone]
      rw [if_neg hfit, if_neg hfit']
      exact ⟨0, _, t, rfl, rfl, hshow, .nowhere hfull (mt htest.mp hfit) rfl hcoh⟩
  · have hone : ¬ zs.length + 1 = 1 := by
      rw [Nat.add_eq_right]
      exact mt List.length_eq_zero_iff.mp hzs
    rw [if_neg hone, if_neg hone]
    obtain ⟨a, c, s2, t2, hs2, ht2, hshow2, hcase⟩ :=
      findLoop_shows (K := K) hshow hcoh hshort hz hsplit
    rw [hs2, ht2]
    rcases hcase with ⟨cs, d, ds, hlist, hpos, ht', hcur', hcurI'⟩ | ⟨ha, ht', hcoh'⟩
    · have hne : a ≠ 0 := by
        rcases findLoop_full hI hsplit ht2 with hfound | hnone
        · exact hfound.1
        · have hlen2 := congrArg (fun t => t.virtAllocs.length) (hnone.1.symm.trans ht')
          rw [hlist] at hlen2
          simp at hlen2
      simp only [Option.map_some, hne, false_and, if_false]
      exact ⟨a, _, _, rfl, rfl, hshow2.setVirtAddr a,
        .between hne hlist hpos (by rw [ht']; rfl) hcur' hcurI'⟩
    · subst ha ht'
      obtain ⟨-, hfull, hhead⟩ :=
        (findLoop_full hI hsplit ht2).resolve_left fun hfound => hz hfound.2
      have htest : TestsLow (t2.zone z).len t2 ↔ (t2.zone z).len ≤ c - pageSize := by
        have hlong : ¬ t2.virtAllocs.length = 1 := by
          rw [hsplit]
          simpa using hzs
        simp only [TestsLow, hlong, if_false]
        rw [hsplit, hhead, Option.all_some, decide_eq_true_eq]
      simp only [Option.map_some, true_and]
      by_cases hfit : (t2.zone z).len ≤ c - pageSize
      · have hfit' : (s2.zone z).len ≤ c - pageSize := by rwa [hshow2.zone]
        obtain ⟨hshow3, hc3⟩ := hshow2.prepend (K := K) hz hcoh'
        simp only [if_pos hfit, if_pos hfit']
        exact ⟨pageSize, _, _, rfl, rfl, hshow3.setVirtAddr pageSize, .first hfull (htest.mpr hfit) rfl hc3⟩
      · have hfit' : ¬ (s2.zone z).len ≤ c - pageSize := by rwa [hshow2.zone]
        simp only [if_neg hfit, if_neg hfit', if_true]
        exact ⟨0, _, t2, rfl, rfl, hshow2, .nowhere hfull (mt htest.mp hfit) rfl hcoh'⟩

end Placement

end Simulation

end AddrSpace
end EpochKernel.Mem
