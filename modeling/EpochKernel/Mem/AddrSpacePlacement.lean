import EpochKernel.Mem.AddrSpaceLinked
import EpochKernel.Util.Positional

/-! `insert_virt_zone` on the list as it is. Its scan stops with the cursor on the zone that it
inserts in front of, from where `linked_list::insert` steps one node too far back. -/
namespace EpochKernel.Mem
open EpochKernel.Util EpochKernel.Library

namespace AddrSpace
variable {π : Type*} {K : Links UInt64} {s s' : AddrSpace (LinkedList UInt64 × Links UInt64) π}
  {t : AddrSpace (List UInt64) π} {z : UInt64} {as bs : List UInt64} {fuel : ℕ}

/-- The read of the first zone finds it. So it is for a cursor that is unset or right. -/
def ReadsFirst (s : AddrSpace (LinkedList UInt64 × Links UInt64) π)
    (t : AddrSpace (List UInt64) π) : Prop :=
  LinkedList.get 0 s.virtAllocs.1 s.virtAllocs.2 = some (t.virtAllocs[0]?,
    { s.virtAllocs.1 with current := t.virtAllocs[0]?, currentI := 0 })

/-- The range of the zone `z` meets no zone of the list. -/
def IsFree (t : AddrSpace (List UInt64) π) (z : UInt64) : Prop :=
  ∀ c ∈ t.virtAllocs, Disjoint (t.zone z).range (t.zone c).range

/-- `insert_virt_zone` answers whether the range is free, and inserts the zone in order if so. -/
def Accepts (K : Links UInt64) (s : AddrSpace (LinkedList UInt64 × Links UInt64) π)
    (t : AddrSpace (List UInt64) π) (z : UInt64) : Prop :=
  ∃ ok s', s.insertVirtZone (.linked K) z = some (ok, s') ∧ (ok = true ↔ t.IsFree z) ∧
    (ok = true → ∃ as bs, t.virtAllocs = as ++ bs ∧
      s'.virtAllocs.1.Represents s'.virtAllocs.2 (as ++ z :: bs) ∧
      (∀ c ∈ as, (t.zone c).Before (t.zone z)) ∧ ∀ c ∈ bs, (t.zone z).Before (t.zone c)) ∧
    (ok = false → s'.virtAllocs.1.Represents s'.virtAllocs.2 t.virtAllocs)

/-- Where the loop of `insert_virt_zone` goes, for the place it finds from `last` on. -/
inductive Stops (K : Links UInt64) (t : AddrSpace (List UInt64) π) (z : UInt64) (k : ℕ) :
    Option ℕ → Option (Bool × AddrSpace (LinkedList UInt64 × Links UInt64) π) → Prop
  | refused {s' : AddrSpace (LinkedList UInt64 × Links UInt64) π} :
      Shows s' t → Stops K t z k none (some (false, s'))
  | before {s' : AddrSpace (LinkedList UInt64 × Links UInt64) π} {c : UInt64}
      {cs ds : List UInt64} {i : ℕ} : Shows s' t → t.virtAllocs = cs ++ c :: ds → cs.length = k + i →
      s'.virtAllocs.1.current = some c → s'.virtAllocs.1.currentI = cs.length →
      Stops K t z k (some i) ((s'.insert (.linked K) cs.length z).map fun s => (true, s))
  | behind {s' : AddrSpace (LinkedList UInt64 × Links UInt64) π} {i : ℕ} :
      t.virtAllocs.length = k + i →
      Stops K t z k (some i) (some (true, s'.append (.linked K) z))

/-- The read that follows the read of the index before. -/
lemma get_shows_next {c d : UInt64} (h : Shows s t) (hlist : t.virtAllocs = as ++ c :: d :: bs)
    (hcur : s.virtAllocs.1.current = some c) (hcurI : s.virtAllocs.1.currentI = as.length) :
    LinkedList.get (as.length + 1) s.virtAllocs.1 s.virtAllocs.2 =
      some (t.virtAllocs[as.length + 1]?, { s.virtAllocs.1 with
        current := t.virtAllocs[as.length + 1]?, currentI := as.length + 1 }) := by
  have hlt : as.length + 1 < t.virtAllocs.length := by
    rw [hlist, List.length_append, List.length_cons, List.length_cons]
    omega
  refine LinkedList.get_coherent h.represents h.represents.length_le
    (coherent_of_cursor hlist hcur hcurI) hlt (.inr (.inr ?_))
  have hd : ((as.length + 1 : ℕ) : ℤ) - s.virtAllocs.1.position = 1 := by
    rw [LinkedList.position, if_neg (by simp [hcur]), hcurI]
    omega
  rw [hd]
  exact LinkedList.sign_ofInt (by norm_num) (by norm_num)

lemma Stops.shift {k : ℕ} {r : Option ℕ}
    {out : Option (Bool × AddrSpace (LinkedList UInt64 × Links UInt64) π)}
    (h : Stops K t z (k + 1) r out) : Stops K t z k (r.map (· + 1)) out := by
  cases h with
  | refused h => exact .refused h
  | before h hlist hlen hcur hcurI => exact .before h hlist (by dsimp only; omega) hcur hcurI
  | behind hlen => exact .behind (by dsimp only; omega)

/-- The loop of `insert_virt_zone` stops where `place` says. -/
lemma insertLoop_stops (h : Shows s t) (hlist : t.virtAllocs = as ++ bs) (hfuel : bs.length < fuel)
    (last : Option UInt64)
    (hread : bs ≠ [] → LinkedList.get as.length s.virtAllocs.1 s.virtAllocs.2 =
      some (t.virtAllocs[as.length]?, { s.virtAllocs.1 with
        current := t.virtAllocs[as.length]?, currentI := as.length })) :
    Stops K t z as.length (place (t.zone z).virtAddr (t.zone z).len
        (last.map fun c => (t.zone c).endAddr) (bs.map t.zone))
      ((insertLoop (.linked K) z fuel as.length last s).map (insertEnd (.linked K) z)) := by
  have hlast : (last.all fun c => (t.zone c).virtAddr + (t.zone c).len ≤ (t.zone z).virtAddr) =
      (last.map fun c => (t.zone c).endAddr).all fun e => e ≤ (t.zone z).virtAddr := by
    cases last <;> rfl
  induction bs generalizing as s fuel last with
  | nil =>
    obtain ⟨fuel, rfl⟩ : ∃ f, fuel = f + 1 := ⟨fuel - 1, by omega⟩
    rw [List.append_nil] at hlist
    have hlen : ¬ as.length < s.len (.linked K) := by
      rw [h.len, hlist]
      exact lt_irrefl _
    rw [insertLoop, if_neg hlen, Option.map_some, List.map_nil, place, ← hlast, insertEnd, h.zone]
    split_ifs
    · exact .behind (by rw [hlist, Nat.add_zero])
    · exact .refused h
  | cons b bs ih =>
    obtain ⟨fuel, rfl⟩ : ∃ f, fuel = f + 1 := ⟨fuel - 1, by omega⟩
    have hlen : as.length < s.len (.linked K) := by
      rw [h.len, hlist, List.length_append, List.length_cons]
      omega
    obtain ⟨s₁, hget, hshow, hcur, hcurI⟩ : ∃ s₁, s.get (.linked K) as.length = some (some b, s₁) ∧
        Shows s₁ t ∧ s₁.virtAllocs.1.current = some b ∧ s₁.virtAllocs.1.currentI = as.length := by
      obtain ⟨l, hl⟩ := get_shows (K := K) h hlist (hread (List.cons_ne_nil _ _))
      exact ⟨_, hl⟩
    have hend (c : UInt64) : (t.zone c).virtAddr + (t.zone c).len = (t.zone c).endAddr := rfl
    rw [insertLoop, if_pos hlen, hget, List.map_cons, place, ← hlast]
    dsimp only
    simp only [hshow.zone, hend]
    by_cases h1 : (t.zone b).virtAddr ≤ (t.zone z).virtAddr ∧
        (t.zone z).virtAddr < (t.zone b).endAddr
    · rw [if_pos h1, if_pos h1]
      exact .refused hshow
    rw [if_neg h1, if_neg h1]
    by_cases h2 : (last.all fun c => (t.zone c).endAddr ≤ (t.zone z).virtAddr) ∧
        (t.zone z).endAddr < (t.zone b).virtAddr
    · rw [if_pos h2, if_pos h2, Option.map_map]
      exact .before hshow hlist (Nat.add_zero _).symm hcur hcurI
    rw [if_neg h2, if_neg h2]
    have hlist' : t.virtAllocs = as ++ [b] ++ bs := by
      rw [hlist, List.append_assoc, List.singleton_append]
    have hrec := ih hshow hlist' (Nat.lt_of_succ_lt_succ hfuel) (some b) ?_ rfl
    · rw [List.length_append, List.length_singleton] at hrec
      exact hrec.shift
    · intro hne
      obtain ⟨d, ds, rfl⟩ := List.exists_cons_of_ne_nil hne
      rw [List.length_append, List.length_singleton]
      exact get_shows_next hshow hlist hcur hcurI

section Places
variable {i : ℕ} (harr : Arranged t.zones) (ha : (t.zone z).IsUser)

include harr ha

/-- The place is in front of all zones exactly when the range ends below where they start. -/
lemma place_front : place (t.zone z).virtAddr (t.zone z).len none t.zones = some 0 ↔
    ∀ c ∈ t.virtAllocs,
      (t.zone z).virtAddr.toNat + (t.zone z).len.toNat < (t.zone c).virtAddr.toNat := by
  have hend := ha.endAddr
  have hpair := harr.pairwise
  obtain ⟨us, hus, -⟩ := harr
  obtain ⟨c, cs, hcs⟩ := List.exists_cons_of_ne_nil (l := t.virtAllocs) (by
    rintro hnil
    rw [zones, hnil] at hus
    simp at hus)
  rw [zones, hcs, List.map_cons] at hpair ⊢
  rw [place, List.forall_mem_cons]
  constructor
  · intro hp
    split_ifs at hp with h1 h2
    · have hlt : (t.zone z).endAddr.toNat < (t.zone c).virtAddr.toNat :=
        UInt64.lt_iff_toNat_lt.mp h2.2
      refine ⟨by omega, fun d hd => ?_⟩
      have hcd := (List.pairwise_cons.mp hpair).1 _ (List.mem_map_of_mem hd)
      rw [VirtZone.Before] at hcd
      omega
    · rw [Option.map_eq_some_iff] at hp
      obtain ⟨j, -, hj⟩ := hp
      exact absurd hj (Nat.succ_ne_zero j)
  · rintro ⟨hlt, -⟩
    have hbelow : ¬ ((t.zone c).virtAddr ≤ (t.zone z).virtAddr ∧
        (t.zone z).virtAddr < (t.zone c).endAddr) := by
      rintro ⟨h1, -⟩
      have hle := UInt64.le_iff_toNat_le.mp h1
      omega
    rw [if_neg hbelow, if_pos ⟨rfl, UInt64.lt_iff_toNat_lt.mpr (hend.trans_lt hlt)⟩]

/-- The zones below the place lie before the range, the others behind it. -/
lemma place_splits (hn : (t.zone z).len ≠ 0)
    (hp : place (t.zone z).virtAddr (t.zone z).len none t.zones = some i) :
    i < t.virtAllocs.length ∧ (∀ c ∈ t.virtAllocs.take i, (t.zone c).Before (t.zone z)) ∧
      ∀ c ∈ t.virtAllocs.drop i, (t.zone z).Before (t.zone c) := by
  obtain ⟨us, hus, hu, hs⟩ := harr
  have hproper : Proper (t.zone z).virtAddr (t.zone z).len :=
    ⟨ha.le_virtAddr, ha.end_le.trans_lt kernelVma.toNat_lt⟩
  rw [hus] at hp
  obtain ⟨as, bs, rfl, rfl, has, hbs, -, -⟩ := place_spec hproper hu hs (fun h => absurd h hn) hp
  have hlen : t.virtAllocs.length = as.length + bs.length + 1 := by
    have := congrArg List.length hus
    simpa [zones, Nat.add_assoc] using this
  refine ⟨by omega, fun c hc => has _ ?_, fun c hc => ?_⟩
  · have hmem : t.zone c ∈ t.zones.take as.length := by
      rw [zones, ← List.map_take]
      exact List.mem_map_of_mem hc
    rwa [hus, List.append_assoc, List.take_left] at hmem
  · have hmem : t.zone c ∈ t.zones.drop as.length := by
      rw [zones, ← List.map_drop]
      exact List.mem_map_of_mem hc
    rw [hus, List.append_assoc, List.drop_left] at hmem
    rcases List.mem_append.mp hmem with hb | hk
    · exact hbs _ hb
    · rw [List.mem_singleton.mp hk]
      exact ha.end_le

end Places

lemma Before.disjoint {a b : VirtZone} (h : a.Before b) : Disjoint a.range b.range := by
  rw [VirtZone.Before] at h
  exact Set.disjoint_left.mpr fun x hx hx' => absurd (hx.2.trans_le h) (not_lt.mpr hx'.1)

/-- A range that is given a place is free. -/
lemma isFree_of_splits {i : ℕ} (has : ∀ c ∈ t.virtAllocs.take i, (t.zone c).Before (t.zone z))
    (hbs : ∀ c ∈ t.virtAllocs.drop i, (t.zone z).Before (t.zone c)) : t.IsFree z := by
  intro c hc
  rw [← List.take_append_drop i t.virtAllocs] at hc
  rcases List.mem_append.mp hc with hc | hc
  · exact (Before.disjoint (has c hc)).symm
  · exact Before.disjoint (hbs c hc)

/-- The insertion in front of the node under the cursor links the new node to the one before that,
which has to lie below it. -/
lemma not_ordered_of_insert {cs ds : List UInt64} {c : UInt64} (h : Shows s t)
    (hlist : t.virtAllocs = cs ++ c :: ds) (hcs : cs ≠ [])
    (hcur : s.virtAllocs.1.current = some c) (hcurI : s.virtAllocs.1.currentI = cs.length)
    (hbelow : ∀ d ∈ cs, (t.zone d).Before (t.zone z)) (hn : (t.zone z).len ≠ 0)
    (hins : s.insert (.linked K) cs.length z = some s') (hsplit : t.virtAllocs = as ++ bs)
    (hne : bs ≠ []) (hbs : ∀ d ∈ bs, (t.zone z).Before (t.zone d)) :
    ¬ s'.virtAllocs.1.Represents s'.virtAllocs.2 (as ++ z :: bs) := by
  intro hrep
  obtain ⟨cs, d, rfl⟩ := List.eq_nil_or_concat cs |>.resolve_left hcs
  obtain ⟨b, bs, rfl⟩ := List.exists_cons_of_ne_nil hne
  rw [List.concat_eq_append] at hlist hcurI hbelow hins
  rw [List.length_append, List.length_singleton] at hcurI hins
  have hc : t.virtAllocs[cs.length + 1]? = some c := by
    rw [hlist, List.getElem?_append_right (by simp)]
    simp
  have hd : t.virtAllocs[cs.length]? = some d := by
    rw [hlist, List.append_assoc, List.getElem?_append_right le_rfl, Nat.sub_self]
    rfl
  rw [AddrSpace.insert, Option.map_eq_some_iff] at hins
  obtain ⟨l', hl, rfl⟩ := hins
  change Option.map _ (LinkedList.insert (cs.length + 1) z s.virtAllocs.1 s.virtAllocs.2) = _ at hl
  obtain ⟨⟨ok, l', H'⟩, hins, rfl⟩ := Option.map_eq_some_iff.mp hl
  have hnext := LinkedList.insert_at_cursor h.represents
    (List.getElem?_eq_some_iff.mp hc).1 (hcur.trans hc.symm) hcurI hins
  rw [hd] at hnext
  -- the new node is linked to the node that it should follow
  obtain rfl : d = b := by
    have hlinked := (List.isChain_iff_forall_rel_of_append_cons_cons.mp hrep.linked rfl).1
    exact Option.some.inj (hnext.symm.trans hlinked)
  have hbefore := hbelow d (by simp)
  have hbehind := hbs d List.mem_cons_self
  rw [VirtZone.Before] at hbefore hbehind
  exact hn (UInt64.toNat_inj.mp (show (t.zone z).len.toNat = 0 by omega))

/-- The scan refuses a range that touches the zone behind it, and what it inserts above another zone
comes one node too low: the ranges that are answered right are those that meet a zone and those that
end below all zones. -/
theorem accepts_iff (h : Shows s t) (hread : ReadsFirst s t) (harr : Arranged t.zones)
    (ha : (t.zone z).IsUser) (hn : (t.zone z).len ≠ 0) (hz : z ∉ t.virtAllocs) :
    Accepts K s t z ↔ ¬ t.IsFree z ∨ ∀ c ∈ t.virtAllocs,
      (t.zone z).virtAddr.toNat + (t.zone z).len.toNat < (t.zone c).virtAddr.toNat := by
  have hstops : Stops K t z 0 (place (t.zone z).virtAddr (t.zone z).len none t.zones)
      (s.insertVirtZone (.linked K) z) := by
    have hlist : t.virtAllocs = [] ++ t.virtAllocs := rfl
    refine insertLoop_stops h hlist ?_ none fun _ => hread
    rw [h.len]
    exact Nat.lt_succ_self _
  rw [← place_front harr ha, Accepts]
  generalize hplace : place (t.zone z).virtAddr (t.zone z).len none t.zones = r at hstops
  generalize s.insertVirtZone (.linked K) z = out at hstops
  cases hstops with
  | refused hs' =>
    rw [or_iff_left (by simp)]
    constructor
    · rintro ⟨ok, s', he, hiff, -, -⟩ hfree
      obtain ⟨rfl, rfl⟩ := Prod.mk.inj (Option.some.inj he)
      exact absurd (hiff.mpr hfree) (by simp)
    · intro hfree
      exact ⟨false, _, rfl, by simpa using hfree, fun hok => absurd hok Bool.false_ne_true,
        fun _ => hs'.represents⟩
  | behind hlen =>
    have hlt := (place_splits harr ha hn hplace).1
    omega
  | @before s₁ c cs ds i hs' hlist hlen hcur hcurI =>
    obtain ⟨-, hbelow, habove⟩ := place_splits harr ha hn hplace
    have hfree := isFree_of_splits hbelow habove
    rw [Nat.zero_add] at hlen
    rw [or_iff_right (not_not.mpr hfree)]
    constructor
    · rintro ⟨ok, s', he, -, hin, -⟩
      obtain ⟨s₂, hins, he⟩ := Option.map_eq_some_iff.mp he
      obtain ⟨rfl, rfl⟩ := Prod.mk.inj he
      obtain ⟨as, bs, hsplit, hrep, has, hbs⟩ := hin rfl
      have hcs : cs = [] := by
        by_contra hne
        refine not_ordered_of_insert hs' hlist hne hcur hcurI ?_ hn hins hsplit ?_ hbs hrep
        · intro d hd
          refine hbelow d ?_
          rw [hlist, ← hlen, List.take_left]
          exact hd
        · rintro rfl
          have hbefore := has c (by rw [← List.append_nil as, ← hsplit, hlist]; simp)
          have hbehind := habove c (by rw [hlist, ← hlen, List.drop_left]; exact List.mem_cons_self)
          rw [VirtZone.Before] at hbefore hbehind
          exact hn (UInt64.toNat_inj.mp (show (t.zone z).len.toNat = 0 by omega))
      rw [← hlen, hcs]
      rfl
    · intro hi
      obtain rfl : i = 0 := Option.some.inj hi
      obtain rfl := List.length_eq_zero_iff.mp hlen
      have hins : s₁.insert (.linked K) 0 z = some (s₁.prepend (.linked K) z) := by
        have hpos : (0 : ℕ) ≠ s₁.virtAllocs.1.len := by
          rw [hs'.represents.len_eq, hlist]
          simp
        rw [AddrSpace.insert, ListOps.linked]
        dsimp only
        rw [LinkedList.insert, if_neg (Nat.not_lt_zero _), if_neg hpos, if_pos rfl]
        rfl
      refine ⟨true, _, by rw [List.length_nil, hins]; rfl, by simpa using hfree, fun _ => ?_,
        fun hok => absurd hok.symm Bool.false_ne_true⟩
      exact ⟨[], t.virtAllocs, rfl, LinkedList.prepend_represents hs'.represents hz, by simp, habove⟩

/-- A cursor that is unset, or right and below 2^32, reads the first zone. -/
lemma readsFirst_of_coherent (h : Shows s t) (hne : t.virtAllocs ≠ [])
    (hc : s.virtAllocs.1.Coherent t.virtAllocs) (hs : LinkedList.Straight 0 s.virtAllocs.1) :
    ReadsFirst s t :=
  LinkedList.get_coherent h.represents h.represents.length_le hc (List.length_pos_of_ne_nil hne) hs

section Samples

/-- A reserved page. -/
def pageZone (virtAddr : UInt64) : VirtZone where
  virtAddr := virtAddr
  len := 0x1000
  type := .reserve
  allocations := []
  flags := 0
  physAddr := 0

/-- Zones at the objects 1 and 2 below the kernel zone at 3, and a new zone at 4. -/
def sampleZone (virtAddr : UInt64) (z : UInt64) : VirtZone :=
  if z = 1 then pageZone 0x3000 else if z = 2 then pageZone 0x5000
  else if z = 3 then kernelZone else pageZone virtAddr

def sampleLinks : Links UInt64 := fun z => ⟨some (z - 1), some (z + 1)⟩

/-- The zones of the sample in order, over `linked_list` and as a sequence. -/
def sampleLinked (virtAddr : UInt64) : AddrSpace (LinkedList UInt64 × Links UInt64) Unit :=
  ⟨(⟨3, some 1, some 3, none, 0⟩, sampleLinks), sampleZone virtAddr, (), false, [4, 3, 2, 1], [],
    fun _ => false⟩

def sampleSequence (virtAddr : UInt64) : AddrSpace (List UInt64) Unit :=
  ⟨[1, 2, 3], sampleZone virtAddr, (), false, [4, 3, 2, 1], [], fun _ => false⟩

lemma sample_shows (virtAddr : UInt64) : Shows (sampleLinked virtAddr) (sampleSequence virtAddr) where
  represents := ⟨rfl, fun _ => rfl, fun _ => rfl, by
    simp [LinkedList.Linked, sampleLinked, sampleSequence, sampleLinks],
    show [1, 2, 3].Nodup by decide⟩
  zone := rfl
  world := rfl
  isCurrent := rfl
  objs := rfl
  freed := rfl

lemma sample_arranged (virtAddr : UInt64) : Arranged (sampleSequence virtAddr).zones :=
  ⟨[pageZone 0x3000, pageZone 0x5000], rfl, by
    simp only [List.forall_mem_cons, List.not_mem_nil, IsEmpty.forall_iff, implies_true, and_true]
    exact ⟨⟨by decide, by decide, by decide, by decide⟩, ⟨by decide, by decide, by decide, by decide⟩⟩,
    by simp [VirtZone.Before, pageZone]⟩

/-- Page 1 is free and ends below the first zone. -/
theorem accepts_page : Accepts sampleLinks (sampleLinked 0x1000) (sampleSequence 0x1000) 4 :=
  (accepts_iff (sample_shows _) (readsFirst_of_coherent (sample_shows _) (List.cons_ne_nil _ _)
    (.inl rfl) (.inr (.inr (by decide)))) (sample_arranged _)
    ⟨by decide, by decide, by decide, by decide⟩ (by decide) (by decide)).mpr
    (.inr (by
      simp only [sampleSequence, List.forall_mem_cons, List.not_mem_nil, IsEmpty.forall_iff,
        implies_true, and_true]
      exact ⟨by decide, by decide, by decide⟩))

/-- Page 7 is free, but its zone comes between the two zones below it. -/
theorem not_accepts_above :
    ¬ Accepts sampleLinks (sampleLinked 0x7000) (sampleSequence 0x7000) 4 := by
  rintro ⟨ok, s', hins, -, hin, -⟩
  have hrun : ((sampleLinked 0x7000).insertVirtZone (.linked sampleLinks) 4).map (fun r =>
      (r.1, r.2.virtAllocs.1.nodes r.2.virtAllocs.2)) = some (true, [1, 4, 2, 3]) := by decide +kernel
  rw [hins] at hrun
  obtain ⟨rfl, hnodes⟩ := Prod.mk.inj (Option.some.inj hrun)
  obtain ⟨as, bs, hsplit, hrep, -, hbs⟩ := hin rfl
  rw [hrep.nodes_eq] at hnodes
  have hmem : (2 : UInt64) ∈ bs := by
    change [1, 2, 3] = as ++ bs at hsplit
    rcases as with _ | ⟨a, _ | ⟨b, as⟩⟩
    · simp at hnodes
    · simp at hnodes
      simp [hnodes]
    · simp only [List.cons_append, List.cons.injEq] at hnodes hsplit
      exact absurd (hsplit.2.1.trans hnodes.2.1) (by decide)
  exact absurd (hbs 2 hmem) (by unfold VirtZone.Before; decide)

end Samples

end AddrSpace
end EpochKernel.Mem
