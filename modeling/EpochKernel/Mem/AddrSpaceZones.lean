import EpochKernel.Mem.AddrSpace

/-! The zones of an address space whose list is a sequence: where `insert_virt_zone` and
`find_address` place a zone, and which calls keep the zones apart. -/
namespace EpochKernel.Mem
open EpochKernel.Util EpochKernel.Library

namespace VirtZone

/-- The end of the zone as the code computes it. -/
def endAddr (z : VirtZone) : UInt64 := z.virtAddr + z.len

/-- The addresses of the zone, as a range that does not wrap around. -/
def range (z : VirtZone) : Set ℕ := Set.Ico z.virtAddr.toNat (z.virtAddr.toNat + z.len.toNat)

/-- A zone of whole pages above page 0 and below the kernel. -/
structure IsUser (z : VirtZone) : Prop where
  dvd_virtAddr : 4096 ∣ z.virtAddr.toNat
  dvd_len : 4096 ∣ z.len.toNat
  le_virtAddr : 4096 ≤ z.virtAddr.toNat
  end_le : z.virtAddr.toNat + z.len.toNat ≤ kernelVma.toNat

/-- The range of `a` ends before the range of `b` starts. -/
def Before (a b : VirtZone) : Prop := a.virtAddr.toNat + a.len.toNat ≤ b.virtAddr.toNat

lemma IsUser.endAddr {z : VirtZone} (h : z.IsUser) :
    z.endAddr.toNat = z.virtAddr.toNat + z.len.toNat := by
  have hk : kernelVma.toNat < 2 ^ 64 := kernelVma.toNat_lt
  have := h.end_le
  rw [VirtZone.endAddr, UInt64.toNat_add]
  omega

end VirtZone

/-- The zones are user zones in ascending order, followed by the kernel zone. -/
def Arranged (zones : List VirtZone) : Prop :=
  ∃ us, zones = us ++ [AddrSpace.kernelZone] ∧ (∀ u ∈ us, u.IsUser) ∧ us.Pairwise VirtZone.Before

section Place

/-- Where `insert_virt_zone` puts a zone, given the end of the zone before the list. -/
def place (virtAddr len : UInt64) : Option UInt64 → List VirtZone → Option ℕ
  | last, [] => if (last.all fun e => e ≤ virtAddr) ∧ virtAddr + len ≤ maxMem then some 0 else none
  | last, c :: cs =>
    if c.virtAddr ≤ virtAddr ∧ virtAddr < c.endAddr then none
    else if (last.all fun e => e ≤ virtAddr) ∧ virtAddr + len < c.virtAddr then some 0
    else (place virtAddr len (some c.endAddr) cs).map (· + 1)

/-- The range starts above page 0 and does not run past the last address. -/
def Proper (virtAddr len : UInt64) : Prop :=
  4096 ≤ virtAddr.toNat ∧ virtAddr.toNat + len.toNat < 2 ^ 64

instance (virtAddr len : UInt64) : Decidable (Proper virtAddr len) :=
  inferInstanceAs (Decidable (_ ∧ _))

variable {a : VirtZone} {us : List VirtZone} {i : ℕ}

lemma Proper.endAddr (h : Proper a.virtAddr a.len) :
    (a.virtAddr + a.len).toNat = a.virtAddr.toNat + a.len.toNat := by
  have := h.2
  rw [UInt64.toNat_add]
  omega

/-- Among user zones and the kernel zone a proper zone is placed between two of them. -/
lemma place_spec (ha : Proper a.virtAddr a.len) (hu : ∀ u ∈ us, u.IsUser)
    (hs : us.Pairwise VirtZone.Before) {last : Option UInt64}
    (hlast : a.len = 0 → last.all fun e => e ≤ a.virtAddr)
    (hp : place a.virtAddr a.len last (us ++ [AddrSpace.kernelZone]) = some i) :
    ∃ as bs, us = as ++ bs ∧ i = as.length ∧ (∀ u ∈ as, u.Before a) ∧ (∀ u ∈ bs, a.Before u) ∧
      a.virtAddr.toNat + a.len.toNat ≤ kernelVma.toNat ∧
      (as = [] → last.all fun e => e ≤ a.virtAddr) := by
  have hae := ha.endAddr
  induction us generalizing last i with
  | nil =>
    rw [List.nil_append, place] at hp
    split_ifs at hp with h1 h2
    · obtain rfl : 0 = i := Option.some.inj hp
      have hlt : (a.virtAddr + a.len).toNat < kernelVma.toNat := UInt64.lt_iff_toNat_lt.mp h2.2
      exact ⟨[], [], rfl, rfl, by simp, by simp, by omega, fun _ => h2.1⟩
    · -- behind the kernel zone only an empty zone would fit, and there is room for it before
      exfalso
      rw [place, Option.map_eq_some_iff] at hp
      obtain ⟨j, hj, -⟩ := hp
      split_ifs at hj with h3
      have hge : maxMem.toNat ≤ a.virtAddr.toNat :=
        UInt64.le_iff_toNat_le.mp (of_decide_eq_true h3.1)
      have hle : (a.virtAddr + a.len).toNat ≤ maxMem.toNat := UInt64.le_iff_toNat_le.mp h3.2
      have hzero : a.len = 0 := UInt64.toNat_inj.mp (show a.len.toNat = 0 by omega)
      refine h2 ⟨hlast hzero, UInt64.lt_iff_toNat_lt.mpr (hle.trans_lt ?_)⟩
      decide
  | cons c us ih =>
    rw [List.forall_mem_cons] at hu
    obtain ⟨hc, hs⟩ := List.pairwise_cons.mp hs
    have hce := hu.1.endAddr
    have hck := hu.1.end_le
    rw [List.cons_append, place] at hp
    split_ifs at hp with h1 h2
    · obtain rfl : 0 = i := Option.some.inj hp
      have hlt : (a.virtAddr + a.len).toNat < c.virtAddr.toNat := UInt64.lt_iff_toNat_lt.mp h2.2
      refine ⟨[], c :: us, rfl, rfl, by simp, ?_, by omega, fun _ => h2.1⟩
      rw [List.forall_mem_cons]
      refine ⟨by rw [VirtZone.Before]; omega, fun u hmem => ?_⟩
      have := hc u hmem
      rw [VirtZone.Before] at this ⊢
      omega
    · rw [Option.map_eq_some_iff] at hp
      obtain ⟨j, hj, rfl⟩ := hp
      rw [UInt64.le_iff_toNat_le, UInt64.lt_iff_toNat_lt] at h1
      rw [not_and, UInt64.lt_iff_toNat_lt, not_lt] at h2
      have hnext : a.len = 0 → (some c.endAddr).all fun e => e ≤ a.virtAddr := by
        intro hzero
        have hcv := h2 (hlast hzero)
        have hz : a.len.toNat = 0 := by rw [hzero]; rfl
        refine decide_eq_true (UInt64.le_iff_toNat_le.mpr ?_)
        by_contra hlt
        exact h1 ⟨by omega, by omega⟩
      obtain ⟨as, bs, rfl, rfl, has, hbs, hak, hnil⟩ := ih hu.2 hs hnext hj
      have hca : c.Before a := by
        rw [VirtZone.Before]
        cases as with
        | nil =>
          have := UInt64.le_iff_toNat_le.mp (of_decide_eq_true (hnil rfl))
          omega
        | cons d as =>
          have h3 := hc d (by simp)
          have h4 := has d (by simp)
          rw [VirtZone.Before] at h3 h4
          omega
      exact ⟨c :: as, bs, rfl, rfl, List.forall_mem_cons.mpr ⟨hca, has⟩, hbs, hak, by simp⟩

/-- A zone that lies between its neighbours keeps the zones arranged. -/
lemma Arranged.insert {as bs : List VirtZone} (ha : a.IsUser) (hu : ∀ u ∈ as ++ bs, u.IsUser)
    (hs : (as ++ bs).Pairwise VirtZone.Before) (has : ∀ u ∈ as, u.Before a)
    (hbs : ∀ u ∈ bs, a.Before u) : Arranged (as ++ a :: bs ++ [AddrSpace.kernelZone]) := by
  obtain ⟨h1, h2, h12⟩ := List.pairwise_append.mp hs
  refine ⟨as ++ a :: bs, rfl, fun u hmem => ?_, ?_⟩
  · rw [List.mem_append, List.mem_cons] at hmem
    rcases hmem with hmem | rfl | hmem
    · exact hu u (List.mem_append_left _ hmem)
    · exact ha
    · exact hu u (List.mem_append_right _ hmem)
  · refine List.pairwise_append.mpr ⟨h1, List.pairwise_cons.mpr ⟨hbs, h2⟩, fun u hmem v hv => ?_⟩
    rw [List.mem_cons] at hv
    rcases hv with rfl | hv
    · exact has u hmem
    · exact h12 u hmem v hv

variable {zones as bs : List VirtZone}

lemma Arranged.pairwise (h : Arranged zones) : zones.Pairwise VirtZone.Before := by
  obtain ⟨us, rfl, hu, hs⟩ := h
  refine List.pairwise_append.mpr ⟨hs, List.pairwise_singleton _ _, fun u hmem k hk => ?_⟩
  obtain rfl := List.mem_singleton.mp hk
  exact (hu u hmem).end_le

lemma Arranged.isUser (h : Arranged zones) {u : VirtZone} (hu : u ∈ zones)
    (hk : u ≠ AddrSpace.kernelZone) : u.IsUser := by
  obtain ⟨us, rfl, huser, -⟩ := h
  rcases List.mem_append.mp hu with hmem | hmem
  · exact huser u hmem
  · exact absurd (List.mem_singleton.mp hmem) hk

/-- A zone may be put before the last one where it lies between its neighbours. -/
lemma Arranged.insert_before (as : List VirtZone) (h : Arranged (as ++ bs)) (hne : bs ≠ []) (ha : a.IsUser)
    (has : ∀ u ∈ as, u.Before a) (hbs : ∀ u ∈ bs, a.Before u) : Arranged (as ++ a :: bs) := by
  obtain ⟨us, hus, hu, hs⟩ := h
  have hlast : as ++ bs = as ++ bs.dropLast ++ [bs.getLast hne] := by
    rw [List.append_assoc, List.dropLast_append_getLast]
  obtain ⟨rfl, hk⟩ := List.append_inj' (hus.symm.trans hlast) rfl
  have hb : bs = bs.dropLast ++ [AddrSpace.kernelZone] := by
    rw [hk, List.dropLast_append_getLast]
  have hins := Arranged.insert ha hu hs has fun u hmem => hbs u (List.dropLast_subset _ hmem)
  rwa [List.append_assoc, List.cons_append, ← hb] at hins

lemma not_kernelZone_before (u : VirtZone) : ¬ AddrSpace.kernelZone.Before u := by
  have hk : AddrSpace.kernelZone.virtAddr.toNat + AddrSpace.kernelZone.len.toNat =
      2 ^ 64 + 2 ^ 48 := rfl
  have := u.virtAddr.toNat_lt
  rw [VirtZone.Before]
  omega

lemma Arranged.virtAddr_le (h : Arranged zones) {u : VirtZone} (hu : u ∈ zones) :
    4096 ≤ u.virtAddr.toNat ∧ u.virtAddr.toNat ≤ kernelVma.toNat := by
  by_cases hk : u = AddrSpace.kernelZone
  · subst hk
    exact ⟨by decide, le_rfl⟩
  · have := (h.isUser hu hk).le_virtAddr
    have := (h.isUser hu hk).end_le
    omega

/-- A zone that fits between two neighbours may start where the first one ends. -/
lemma Arranged.fill {c d : VirtZone} (h : Arranged (as ++ c :: d :: bs))
    (hlen : 4096 ∣ a.len.toNat) (hfit : a.len ≤ d.virtAddr - c.endAddr)
    (hva : a.virtAddr = c.endAddr) : a.virtAddr ≠ 0 ∧ Arranged (as ++ c :: a :: d :: bs) := by
  obtain ⟨-, htail, hcross⟩ := List.pairwise_append.mp h.pairwise
  obtain ⟨hc, hd⟩ := List.pairwise_cons.mp htail
  have hcd := hc d (by simp)
  have hcu : c.IsUser := h.isUser (by simp) (by rintro rfl; exact not_kernelZone_before d hcd)
  have hend : a.virtAddr.toNat = c.virtAddr.toNat + c.len.toNat := hva ▸ hcu.endAddr
  have hbound := (h.virtAddr_le (u := d) (by simp)).2
  have had : a.Before d := by
    rw [VirtZone.Before] at hcd ⊢
    have hle : c.endAddr ≤ d.virtAddr := UInt64.le_iff_toNat_le.mpr (hcu.endAddr ▸ hcd)
    have := UInt64.le_iff_toNat_le.mp hfit
    rw [UInt64.toNat_sub_of_le _ _ hle, hcu.endAddr] at this
    omega
  have hau : a.IsUser := by
    have := hcu.le_virtAddr
    rw [VirtZone.Before] at had
    exact ⟨hend ▸ dvd_add hcu.dvd_virtAddr hcu.dvd_len, hlen, by omega, by omega⟩
  refine ⟨?_, ?_⟩
  · have := hau.le_virtAddr
    rintro hzero
    rw [hzero] at this
    exact absurd this (by decide)
  have hbs : ∀ u ∈ d :: bs, a.Before u := by
    intro u hu
    rcases List.mem_cons.mp hu with rfl | hmem
    · exact had
    · have := (List.pairwise_cons.mp hd).1 u hmem
      rw [VirtZone.Before] at this had ⊢
      omega
  have has : ∀ u ∈ as ++ [c], u.Before a := by
    intro u hu
    rcases List.mem_append.mp hu with hmem | hmem
    · have := hcross u hmem c (by simp)
      rw [VirtZone.Before] at this ⊢
      omega
    · obtain rfl := List.mem_singleton.mp hmem
      exact hend.ge
  have := Arranged.insert_before (as ++ [c]) (by simpa using h) (by simp) hau has hbs
  simpa using this

/-- A zone that fits below the first one may start at page 1. -/
lemma Arranged.prepend {b : VirtZone} (h : Arranged (b :: bs)) (hlen : 4096 ∣ a.len.toNat)
    (hfit : 4096 + a.len.toNat ≤ b.virtAddr.toNat) (hva : a.virtAddr = pageSize) :
    Arranged (a :: b :: bs) := by
  have hpage : a.virtAddr.toNat = 4096 := by rw [hva]; rfl
  have hbound := (h.virtAddr_le (u := b) (by simp)).2
  refine Arranged.insert_before [] h (by simp)
    ⟨by rw [hpage], hlen, hpage.ge, by omega⟩ nofun fun u hu => ?_
  rw [VirtZone.Before]
  rcases List.mem_cons.mp hu with rfl | hmem
  · omega
  · have := (List.pairwise_cons.mp h.pairwise).1 u hmem
    rw [VirtZone.Before] at this
    omega

end Place

namespace AddrSpace
variable {π : Type*} {m : Memory π} {s s' : AddrSpace (List UInt64) π} {z : UInt64}

/-- The zones of an address space whose list is a sequence. -/
def zones (s : AddrSpace (List UInt64) π) : List VirtZone := s.virtAllocs.map s.zone

lemma insertIdx_length_append {α : Type*} (as bs : List α) (x : α) :
    (as ++ bs).insertIdx as.length x = as ++ x :: bs := by
  induction as with
  | nil => rfl
  | cons a as ih => rw [List.cons_append, List.length_cons, List.insertIdx_succ_cons, ih]; rfl

lemma get_sequence (i : ℕ) (s : AddrSpace (List UInt64) π) :
    s.get .sequence i = some (s.virtAllocs[i]?, s) := rfl

lemma get_append {as bs : List UInt64} {b : UInt64} (h : s.virtAllocs = as ++ b :: bs) :
    s.get .sequence as.length = some (some b, s) := by
  rw [get_sequence, h, List.getElem?_append_right le_rfl, Nat.sub_self, List.getElem?_cons_zero]

/-- The loop of `insert_virt_zone` on a sequence finds the place. -/
lemma insertLoop_eq (as : List UInt64) {bs : List UInt64} (h : s.virtAllocs = as ++ bs) (fuel : ℕ)
    (hfuel : bs.length < fuel) (last : Option UInt64) :
    (insertLoop .sequence z fuel as.length last s).map (insertEnd .sequence z) =
      some (match place (s.zone z).virtAddr (s.zone z).len
          (last.map fun c => (s.zone c).endAddr) (bs.map s.zone) with
        | none => (false, s)
        | some i => (true, { s with virtAllocs := s.virtAllocs.insertIdx (as.length + i) z })) := by
  have hlast : (last.all fun c => (s.zone c).virtAddr + (s.zone c).len ≤ (s.zone z).virtAddr) =
      (last.map fun c => (s.zone c).endAddr).all fun e => e ≤ (s.zone z).virtAddr := by
    cases last <;> rfl
  induction bs generalizing as fuel last with
  | nil =>
    obtain ⟨fuel, rfl⟩ := Nat.exists_eq_succ_of_ne_zero (Nat.ne_of_gt (Nat.zero_lt_of_lt hfuel))
    rw [List.append_nil] at h
    have hlen : ¬ as.length < s.len .sequence := by
      change ¬ as.length < s.virtAllocs.length
      rw [h]
      exact lt_irrefl _
    rw [insertLoop, if_neg hlen, Option.map_some, List.map_nil, place, ← hlast, insertEnd]
    split_ifs with h1
    · change some (true, { s with virtAllocs := s.virtAllocs ++ [z] }) =
        some (true, { s with virtAllocs := s.virtAllocs.insertIdx as.length z })
      rw [h, List.insertIdx_length_self]
    · rfl
  | cons b bs ih =>
    obtain ⟨fuel, rfl⟩ := Nat.exists_eq_succ_of_ne_zero (Nat.ne_of_gt (Nat.zero_lt_of_lt hfuel))
    have hlen : as.length < s.len .sequence := by
      change as.length < s.virtAllocs.length
      rw [h]
      simp
    have hend (c : UInt64) : (s.zone c).virtAddr + (s.zone c).len = (s.zone c).endAddr := rfl
    rw [insertLoop, if_pos hlen, get_append h, List.map_cons, place, ← hlast]
    simp only [hend]
    by_cases h1 : (s.zone b).virtAddr ≤ (s.zone z).virtAddr ∧
        (s.zone z).virtAddr < (s.zone b).endAddr
    · rw [if_pos h1, if_pos h1]
      rfl
    rw [if_neg h1, if_neg h1]
    by_cases h2 : (last.all fun c => (s.zone c).endAddr ≤ (s.zone z).virtAddr) ∧
        (s.zone z).endAddr < (s.zone b).virtAddr
    · rw [if_pos h2, if_pos h2]
      rfl
    rw [if_neg h2, if_neg h2]
    have hrec := ih (as ++ [b]) (by rw [h, List.append_assoc]; rfl) fuel
      (Nat.lt_of_succ_lt_succ hfuel) (some b) rfl
    rw [List.length_append, List.length_singleton] at hrec
    rw [hrec, Option.map_some]
    cases place (s.zone z).virtAddr (s.zone z).len (some (s.zone b).endAddr) (bs.map s.zone) with
    | none => rfl
    | some i =>
      change some (true, { s with virtAllocs := s.virtAllocs.insertIdx (as.length + 1 + i) z }) =
        some (true, { s with virtAllocs := s.virtAllocs.insertIdx (as.length + (i + 1)) z })
      rw [Nat.add_assoc, Nat.add_comm 1 i]

/-- What `insert_virt_zone` does to a sequence. -/
lemma insertVirtZone_eq :
    s.insertVirtZone .sequence z =
        some (match place (s.zone z).virtAddr (s.zone z).len none s.zones with
      | none => (false, s)
      | some i => (true, { s with virtAllocs := s.virtAllocs.insertIdx i z })) := by
  have h := insertLoop_eq (s := s) (z := z) [] rfl (s.virtAllocs.length + 1)
    (Nat.lt_succ_self _) none
  simp only [List.length_nil, Nat.zero_add, Option.map_none] at h
  exact h

/-- Between no two neighbours there is room for `n` bytes. -/
def Full (n : UInt64) (zones : List VirtZone) : Prop :=
  zones.IsChain fun a b => ¬ n ≤ b.virtAddr - a.endAddr

instance (n : UInt64) (zones : List VirtZone) : Decidable (Full n zones) :=
  inferInstanceAs (Decidable (List.IsChain _ _))

/-- The loop of `find_address` on a sequence takes the last gap that is large enough. -/
lemma findLoop_spec {as bs : List UInt64} {b : UInt64} (h : s.virtAllocs = as ++ b :: bs) :
    (∃ cs c d ds, as ++ [b] = cs ++ c :: d :: ds ∧
      (s.zone z).len ≤ (s.zone d).virtAddr - (s.zone c).endAddr ∧
      findLoop .sequence z as.length b s = some ((s.zone c).endAddr, c,
        { s with virtAllocs := cs ++ c :: z :: d :: ds ++ bs })) ∨
    (Full (s.zone z).len ((as ++ [b]).map s.zone) ∧ ∃ c, (as ++ [b]).head? = some c ∧
      findLoop .sequence z as.length b s = some (0, c, s)) := by
  induction as using List.reverseRecOn generalizing b bs with
  | nil => exact .inr ⟨List.isChain_singleton _, b, rfl, rfl⟩
  | append_singleton as c ih =>
    rw [List.append_assoc, List.singleton_append] at h
    rw [List.length_append, List.length_singleton, findLoop, get_append h]
    dsimp only
    by_cases hfit : (s.zone z).len ≤
        (s.zone b).virtAddr - ((s.zone c).virtAddr + (s.zone c).len)
    · refine .inl ⟨as, c, b, [], by simp, hfit, ?_⟩
      rw [if_pos hfit]
      have hins : s.virtAllocs.insertIdx (as.length + 1) z = as ++ c :: z :: b :: [] ++ bs := by
        have := insertIdx_length_append (as ++ [c]) (b :: bs) z
        rw [List.length_append, List.length_singleton, List.append_assoc, List.singleton_append,
          ← h] at this
        rw [this]
        simp
      change some ((s.zone c).endAddr, c,
        { s with virtAllocs := s.virtAllocs.insertIdx (as.length + 1) z }) = _
      rw [hins]
    · rw [if_neg hfit]
      rcases ih h with ⟨cs, d, e, ds, hsplit, hgap, hres⟩ | ⟨hfull, d, hhead, hres⟩
      · refine .inl ⟨cs, d, e, ds ++ [b], by rw [hsplit]; simp, hgap, ?_⟩
        rw [hres]
        simp
      · refine .inr ⟨?_, d, ?_, hres⟩
        · rw [List.append_assoc, List.singleton_append, List.map_append, List.map_cons,
            List.map_singleton]
          rw [List.map_append, List.map_singleton] at hfull
          exact List.isChain_append_cons_cons.mpr ⟨hfull, hfit, List.isChain_singleton _⟩
        · rw [List.head?_append, hhead]
          rfl

/-- The state between two calls. -/
structure Inv (s : AddrSpace (List UInt64) π) : Prop where
  nodup : s.virtAllocs.Nodup
  objs : ∀ z ∈ s.virtAllocs, z ∈ s.objs
  arranged : Arranged s.zones

lemma Inv.kernel (h : Inv s) : ∃ zs kernelZ, s.virtAllocs = zs ++ [kernelZ] ∧
    s.zone kernelZ = kernelZone ∧ kernelZ ∉ zs := by
  obtain ⟨us, hus, -⟩ := h.arranged
  obtain ⟨zs, ks, hsplit, -, hks⟩ := List.map_eq_append_iff.mp hus
  obtain ⟨kernelZ, ks, rfl, hk, hnil⟩ := List.map_eq_cons_iff.mp hks
  obtain rfl := List.map_eq_nil_iff.mp hnil
  have hn := h.nodup
  rw [hsplit] at hn
  exact ⟨zs, kernelZ, hsplit, hk, fun hmem => List.disjoint_of_nodup_append hn hmem (by simp)⟩

lemma Inv.of_eq (h : Inv s) (hlist : s'.virtAllocs = s.virtAllocs)
    (hzone : ∀ z ∈ s.virtAllocs, s'.zone z = s.zone z) (hobjs : ∀ z ∈ s.virtAllocs, z ∈ s'.objs) :
    Inv s' := by
  refine ⟨hlist ▸ h.nodup, by rwa [hlist], ?_⟩
  have : s'.zones = s.zones := by
    rw [zones, zones, hlist]
    exact List.map_congr_left hzone
  exact this ▸ h.arranged

/-- Zones other than the kernel zone may be taken out of the list. -/
lemma Inv.of_sublist (h : Inv s) (hsub : s'.virtAllocs.Sublist s.virtAllocs)
    (hzone : s'.zone = s.zone) (hobjs : ∀ z ∈ s'.virtAllocs, z ∈ s'.objs)
    (hk : ∀ z ∈ s.virtAllocs, (s.zone z).type = .kernel → z ∈ s'.virtAllocs) : Inv s' := by
  obtain ⟨zs, kernelZ, hsplit, hkernel, hnot⟩ := h.kernel
  have hmem : kernelZ ∈ s'.virtAllocs := hk kernelZ (by simp [hsplit]) (by rw [hkernel]; rfl)
  obtain ⟨us, hus, hu, hs⟩ := h.arranged
  rw [hsplit] at hsub
  obtain ⟨as, bs, hs', has, hbs⟩ := List.sublist_append_iff.mp hsub
  have hkb : bs = [kernelZ] := by
    rcases List.sublist_singleton.mp hbs with rfl | rfl
    · rw [hs', List.append_nil] at hmem
      exact absurd (has.subset hmem) hnot
    · rfl
  have hmap : us = zs.map s.zone := by
    rw [zones, hsplit, List.map_append] at hus
    exact (List.append_inj' hus rfl).1.symm
  refine ⟨(hsub.trans (by rw [hsplit])).nodup h.nodup, hobjs, as.map s.zone, ?_, ?_, ?_⟩
  · rw [zones, hs', hkb, hzone, List.map_append, List.map_singleton, hkernel]
  · exact fun u hmem => hu u (hmap ▸ (has.map s.zone).subset hmem)
  · exact hs.sublist (hmap ▸ has.map s.zone)

lemma Inv.insert_zone {bs : List UInt64} {a : VirtZone} (as : List UInt64) (h : Inv s)
    (hlist : s.virtAllocs = as ++ bs) (hz : z ∉ s.virtAllocs) (hobj : z ∈ s.objs)
    (harr : Arranged (as.map s.zone ++ a :: bs.map s.zone)) :
    Inv { s with virtAllocs := as ++ z :: bs, zone := Function.update s.zone z a } := by
  have hsame : ∀ c ∈ s.virtAllocs, Function.update s.zone z a c = s.zone c := fun c hc =>
    Function.update_of_ne (by rintro rfl; exact hz hc) _ _
  rw [hlist] at hz hsame
  have hmap : (as ++ z :: bs).map (Function.update s.zone z a) =
      as.map s.zone ++ a :: bs.map s.zone := by
    rw [List.map_append, List.map_cons, Function.update_self,
      List.map_congr_left fun c hc => hsame c (List.mem_append_left _ hc),
      List.map_congr_left fun c hc => hsame c (List.mem_append_right _ hc)]
  have hperm : (as ++ z :: bs).Perm (z :: (as ++ bs)) := List.perm_middle
  refine ⟨hperm.nodup_iff.mpr (List.nodup_cons.mpr ⟨hz, hlist ▸ h.nodup⟩), fun c hc => ?_, ?_⟩
  · rcases List.mem_cons.mp (hperm.mem_iff.mp hc) with rfl | hc
    · exact hobj
    · exact h.objs c (hlist ▸ hc)
  · change Arranged ((as ++ z :: bs).map (Function.update s.zone z a))
    rwa [hmap]

/-- `insert_virt_zone` puts a proper zone where it belongs, or leaves the list alone. -/
lemma Inv.insertVirtZone {r : Bool × AddrSpace (List UInt64) π} (h : Inv s)
    (hz : z ∉ s.virtAllocs) (hobj : z ∈ s.objs) (hva : 4096 ∣ (s.zone z).virtAddr.toNat)
    (hlen : 4096 ∣ (s.zone z).len.toNat)
    (hP : place (s.zone z).virtAddr (s.zone z).len none s.zones = none ∨
      Proper (s.zone z).virtAddr (s.zone z).len)
    (hr : s.insertVirtZone .sequence z = some r) :
    r.2.zone = s.zone ∧ r.2.objs = s.objs ∧ Inv r.2 ∧ (r.1 = false → r.2 = s) := by
  rw [insertVirtZone_eq, Option.some_inj] at hr
  subst hr
  cases hplace : place (s.zone z).virtAddr (s.zone z).len none s.zones with
  | none => exact ⟨rfl, rfl, h, fun _ => rfl⟩
  | some i =>
    have hproper := hP.resolve_left (by rw [hplace]; nofun)
    obtain ⟨us, hus, hu, hs⟩ := h.arranged
    rw [hus] at hplace
    obtain ⟨as, bs, rfl, rfl, has, hbs, hend, -⟩ := place_spec hproper hu hs (fun _ => rfl) hplace
    rw [List.append_assoc] at hus
    obtain ⟨zs, ws, hsplit, rfl, hws⟩ := List.map_eq_append_iff.mp hus
    refine ⟨rfl, rfl, ?_, nofun⟩
    have harr := Arranged.insert ⟨hva, hlen, hproper.1, hend⟩ hu hs has hbs
    rw [List.append_assoc, List.cons_append, ← hws] at harr
    have hins := h.insert_zone _ hsplit hz hobj harr
    rw [Function.update_eq_self] at hins
    rw [List.length_map]
    dsimp only
    rwa [hsplit, insertIdx_length_append]

/-- There is room for a zone of `n` bytes where `find_address` looks for it: the list is empty but
for the kernel zone, a gap between two zones is large enough, the room below the first zone is, or
the test against the address of the object of the first zone fails. -/
def HasRoom (n : UInt64) (s : AddrSpace (List UInt64) π) : Prop :=
  s.virtAllocs.length = 1 ∨ ¬ Full n s.zones ∨
    s.virtAllocs.head?.all fun c =>
      4096 + n.toNat ≤ (s.zone c).virtAddr.toNat ∨ ¬ n ≤ c - pageSize

instance (n : UInt64) (s : AddrSpace (List UInt64) π) : Decidable (HasRoom n s) :=
  inferInstanceAs (Decidable (_ ∨ _ ∨ _))

lemma Inv.prepend_zone {c : UInt64} {cs : List UInt64} (h : Inv s) (hlist : s.virtAllocs = c :: cs)
    (hz : z ∉ s.virtAllocs) (hobj : z ∈ s.objs) (hlen : 4096 ∣ (s.zone z).len.toNat)
    (hfit : 4096 + (s.zone z).len.toNat ≤ (s.zone c).virtAddr.toNat) :
    Inv { s with
      virtAllocs := [] ++ z :: s.virtAllocs
      zone := Function.update s.zone z { s.zone z with virtAddr := pageSize } } := by
  refine h.insert_zone [] rfl hz hobj ?_
  have harr := h.arranged
  rw [zones, hlist, List.map_cons] at harr
  rw [hlist, List.map_cons]
  exact harr.prepend hlen hfit rfl

/-- `find_address` gives a zone the address of a place where it fits, or leaves the list alone. -/
lemma Inv.findAddress {r : UInt64 × AddrSpace (List UInt64) π} (h : Inv s)
    (hz : z ∉ s.virtAllocs) (hobj : z ∈ s.objs) (hlen : 4096 ∣ (s.zone z).len.toNat)
    (hroom : HasRoom (s.zone z).len s) (hr : s.findAddress .sequence z = some r) :
    (r.1 = 0 ∧ r.2 = s) ∨ (r.1 ≠ 0 ∧
      ∃ as bs, s.virtAllocs = as ++ bs ∧ r.2 = { s with
        virtAllocs := as ++ z :: bs
        zone := Function.update s.zone z { s.zone z with virtAddr := r.1 } } ∧ Inv r.2) := by
  obtain ⟨zs, kernelZ, hsplit, hkernel, -⟩ := h.kernel
  have hget : s.get .sequence (s.len .sequence - 1) = some (some kernelZ, s) := by
    have : s.len .sequence - 1 = zs.length := by
      change s.virtAllocs.length - 1 = zs.length
      rw [hsplit]
      simp
    rw [this]
    exact get_append hsplit
  have hlenEq : s.len .sequence = zs.length + 1 := by
    change s.virtAllocs.length = zs.length + 1
    rw [hsplit]
    simp
  rw [AddrSpace.findAddress, hget] at hr
  dsimp only at hr
  rw [if_neg (by rw [hkernel]; simp [kernelZone]), hlenEq] at hr
  by_cases hzs : zs = []
  · subst hzs
    rw [List.length_nil, if_pos rfl] at hr
    split_ifs at hr with hfit
    · obtain rfl := Option.some.inj hr
      refine .inr ⟨(by decide : pageSize ≠ 0), [], s.virtAllocs, rfl, rfl, ?_⟩
      refine h.prepend_zone hsplit hz hobj hlen ?_
      have hle : (s.zone z).len.toNat ≤ (kernelVma - pageSize).toNat := by
        rw [hkernel] at hfit
        exact UInt64.le_iff_toNat_le.mp hfit
      have hval : (kernelVma - pageSize).toNat + 4096 = kernelVma.toNat := rfl
      have hk : (s.zone kernelZ).virtAddr = kernelVma := by rw [hkernel]; rfl
      rw [hk]
      omega
    · obtain rfl := Option.some.inj hr
      exact .inl ⟨rfl, rfl⟩
  · obtain ⟨c, cs, hcs⟩ : ∃ c cs, s.virtAllocs = c :: cs := by
      cases hv : s.virtAllocs with
      | nil => simp [hsplit] at hv
      | cons c cs => exact ⟨c, cs, rfl⟩
    rw [if_neg (by rw [Nat.add_eq_right]; exact mt List.length_eq_zero_iff.mp hzs),
      Nat.add_sub_cancel] at hr
    rcases findLoop_spec (z := z) hsplit with ⟨ds, d, e, es, hsp, hfit, hres⟩ | ⟨hfull, d, hd, hres⟩
    · have hlist : s.virtAllocs = ds ++ [d] ++ (e :: es) := by
        rw [hsplit, hsp]
        simp
      have harr := h.arranged
      rw [zones, hlist, List.append_assoc, List.map_append, List.singleton_append, List.map_cons,
        List.map_cons] at harr
      obtain ⟨hne, hnew⟩ :=
        harr.fill (a := { s.zone z with virtAddr := (s.zone d).endAddr }) hlen hfit rfl
      rw [hres, Option.map_some, if_neg (by simp [hne]), Option.map_some, if_neg hne] at hr
      obtain rfl := Option.some.inj hr
      refine .inr ⟨hne, ds ++ [d], e :: es, hlist, ?_, ?_⟩
      · simp [setZone]
      · have hinv := h.insert_zone (a := { s.zone z with virtAddr := (s.zone d).endAddr })
          (ds ++ [d]) hlist hz hobj (by simpa using hnew)
        simpa [setZone] using hinv
    · have hhead : d = c := by
        rw [← hsplit, hcs] at hd
        exact (Option.some.inj hd).symm
      subst hhead
      have hfullz : Full (s.zone z).len s.zones := by
        rw [zones, hsplit]
        exact hfull
      rw [hres, Option.map_some] at hr
      by_cases hfit : (s.zone z).len ≤ d - pageSize
      · rw [if_pos ⟨rfl, hfit⟩, Option.map_some, if_neg (show ¬ pageSize = 0 by decide)] at hr
        obtain rfl := Option.some.inj hr
        refine .inr ⟨(by decide : pageSize ≠ 0), [], s.virtAllocs, rfl, rfl, ?_⟩
        refine h.prepend_zone hcs hz hobj hlen ?_
        have hlen1 : s.virtAllocs.length ≠ 1 := by
          rw [hsplit]
          simpa using hzs
        have hlow := (hroom.resolve_left hlen1).resolve_left (not_not_intro hfullz)
        rw [hcs, List.head?_cons, Option.all_some, decide_eq_true_eq] at hlow
        exact hlow.resolve_right (not_not_intro hfit)
      · rw [if_neg (fun hn => hfit hn.2), Option.map_some, if_pos rfl] at hr
        obtain rfl := Option.some.inj hr
        exact .inl ⟨rfl, rfl⟩

end AddrSpace
end EpochKernel.Mem
