import EpochKernel.Mem.PallocatorInvariant

/-! What splitting, merging, allocating and freeing one zone does to the tiling. Each lemma names
the blocks that leave and enter the free set; the recursions over orders only use these. -/
namespace EpochKernel.Mem.Pallocator
open EpochKernel.Util EpochKernel.Util.LinkedList EpochKernel.Library EpochKernel.Library.Block

variable {p : Pallocator} {live : List Allocation} {q : ℕ → List UInt64}

namespace Holds
variable {k : ℕ} {a : UInt64}

lemma block_mem (h : Holds p live q) (ha : a ∈ q k) :
    p.block k a (h.zone k a ha).1 ∈ blocksOf p.fo q := ⟨k, a, ha, rfl, rfl⟩

lemma bounds (h : Holds p live q) (ha : a ∈ q k) :
    p.lo ≤ a.toNat ∧ a.toNat + 2 ^ (p.fo + k) ≤ p.hi :=
  h.tiles.inside _ (Or.inl (h.block_mem ha))

lemma live_mem (h : Holds p live q) {b : Allocation} (hb : b ∈ live) :
    p.block b.2.toNat b.1 (h.allocation b hb) ∈ liveBlocks p.fo live := ⟨b, hb, rfl, rfl⟩

lemma live_bounds (h : Holds p live q) {b : Allocation} (hb : b ∈ live) :
    p.lo ≤ b.1.toNat ∧ b.1.toNat + 2 ^ (p.fo + b.2.toNat) ≤ p.hi :=
  h.tiles.inside _ (Or.inr (h.live_mem hb))

lemma nonempty (h : Holds p live q) (ha : a ∈ q k) : p.startAddr.toNat < p.endAddr.toNat := by
  have hb := h.bounds ha
  have hp := Nat.two_pow_pos (p.fo + k)
  simp only [lo, hi] at hb
  omega

lemma live_nonempty (h : Holds p live q) {b : Allocation} (hb : b ∈ live) :
    p.startAddr.toNat < p.endAddr.toNat := by
  have hb := h.live_bounds hb
  have hp := Nat.two_pow_pos (p.fo + b.2.toNat)
  simp only [lo, hi] at hb
  omega

/-- No zone is in a list above `max_order`. -/
lemma order_le (h : Holds p live q) (ha : a ∈ q k) : k ≤ p.maxOrder.toNat := by
  have hb := h.bounds ha
  have hm : p.fo + k ≤ p.fo + p.maxOrder.toNat :=
    h.layout.maximal (p.block k a (h.zone k a ha).1) hb.1 hb.2
  omega

lemma live_order_le (h : Holds p live q) {b : Allocation} (hb : b ∈ live) :
    b.2.toNat ≤ p.maxOrder.toNat := by
  have hbd := h.live_bounds hb
  have hm : p.fo + b.2.toNat ≤ p.fo + p.maxOrder.toNat :=
    h.layout.maximal (p.block b.2.toNat b.1 (h.allocation b hb)) hbd.1 hbd.2
  omega

lemma zones_eq (h : Holds p live q) (k : ℕ) : p.zones k = q k := (h.family.represents k).nodes_eq

lemma len_eq_zero (h : Holds p live q) : (p.lists k).len = 0 ↔ q k = [] :=
  (h.family.represents k).len_eq_zero

/-- A zone whose block meets the block of another zone is that zone. -/
lemma zone_eq (h : Holds p live q) (ha : a ∈ q k) {d : Block} (hd : d ∈ blocksOf p.fo q)
    (hm : a.toNat ∈ d) : d.base = a.toNat ∧ d.exp = p.fo + k := by
  have he := h.tiles.disjoint _ (Or.inl (h.block_mem ha)) d (Or.inl hd) a.toNat (base_mem _) hm
  rw [← he]
  exact ⟨rfl, rfl⟩

end Holds

/-- The bytes of the blocks in use. -/
def heldBytes (fo : ℕ) (live : List Allocation) : Set ℕ := {x | ∃ d ∈ liveBlocks fo live, x ∈ d}

/-- The memory that the allocator keeps its headers in is the same at the bytes `S`. -/
structure Spares (S : Set ℕ) (p p' : Pallocator) : Prop where
  links : ∀ a : UInt64, a.toNat ∈ S → p'.links a = p.links a
  n : ∀ a : UInt64, a.toNat ∈ S → p'.n a = p.n a

lemma Spares.refl (S : Set ℕ) (p : Pallocator) : Spares S p p := ⟨fun _ _ => rfl, fun _ _ => rfl⟩

lemma Spares.trans {S : Set ℕ} {p1 p2 p3 : Pallocator} (h : Spares S p1 p2) (h' : Spares S p2 p3) :
    Spares S p1 p3 :=
  ⟨fun a ha => (h'.links a ha).trans (h.links a ha), fun a ha => (h'.n a ha).trans (h.n a ha)⟩

lemma Spares.mono {S S' : Set ℕ} {p1 p2 : Pallocator} (h : Spares S p1 p2) (hS : S' ⊆ S) :
    Spares S' p1 p2 :=
  ⟨fun a ha => h.links a (hS ha), fun a ha => h.n a (hS ha)⟩

/-- Writing the size of a zone outside of `S`. -/
lemma setN_spares {S : Set ℕ} {z : UInt64} (hz : z.toNat ∉ S) (v : UInt64) :
    Spares S p (p.setN z v) :=
  ⟨fun _ _ => rfl, fun a ha => Function.update_of_ne (fun he => hz (by rwa [← he])) _ _⟩

/-- Appending a zone writes to it and to another zone of the list. -/
lemma append_spares {S : Set ℕ} {o : UInt8} {z : UInt64} (hf : Family p.links p.lists q)
    (hz : ∀ j, z ∉ q j) (hzS : z.toNat ∉ S) (hS : ∀ j, ∀ y ∈ q j, y.toNat ∉ S) :
    Spares S p (p.append o z) :=
  ⟨fun _ ha => append_links_of_notMem (hf.represents _) (hz _) (fun hy => hS _ _ hy ha)
    fun he => hzS (he ▸ ha), fun _ _ => rfl⟩

/-- Removing a zone writes to its neighbours in the list. -/
lemma removeP_spares {S : Set ℕ} {order : UInt8} {z : UInt64} (hf : Family p.links p.lists q)
    (hz : z ∈ q order.toNat) (hS : ∀ j, ∀ y ∈ q j, y.toNat ∉ S) :
    Spares S p (p.removeP order z) := by
  obtain ⟨as, bs, -, hq, -⟩ := List.exists_erase_eq hz
  have hr := hf.represents order.toNat
  rw [hq] at hr
  exact ⟨fun a ha => (removeP_represents hr).2 a fun hy => hS _ a (hq ▸ hy) ha, fun _ _ => rfl⟩

lemma Holds.notMem_held (h : Holds p live q) {d : Block} (hd : d ∈ blocksOf p.fo q) {x : ℕ}
    (hx : x ∈ d) : x ∉ heldBytes p.fo live := by
  rintro ⟨e, he, hxe⟩
  obtain rfl := h.tiles.disjoint d (Or.inl hd) e (Or.inr he) x hx hxe
  exact h.separate d hd he

lemma Holds.zone_notMem_held (h : Holds p live q) {k : ℕ} {a : UInt64} (ha : a ∈ q k) :
    a.toNat ∉ heldBytes p.fo live := h.notMem_held (h.block_mem ha) (base_mem _)

section Split
variable {order : UInt8} {xs : List UInt64} {z : UInt64} {o : ℕ}

lemma splitZone_eq (hz : (p.pop order).1 = some z) :
    p.splitZone order =
      ((((p.pop order).2.setN z (p.n z >>> 1)).setN (z ^^^ (p.n z >>> 1)) (p.n z >>> 1)).append
        (order - 1) z).append (order - 1) (z ^^^ (p.n z >>> 1)) := by
  have hp : p.pop order = (some z, (p.pop order).2) := Prod.ext hz rfl
  rw [splitZone, hp]
  simp

lemma append_family (order : UInt8) (hf : Family p.links p.lists q) {x : UInt64} (hx : ∀ j, x ∉ q j) :
    Family (p.append order x).links (p.append order x).lists
      (Function.update q order.toNat (q order.toNat ++ [x])) := hf.append order.toNat hx

lemma pop_family (hf : Family p.links p.lists q) (hq : q order.toNat = xs ++ [z]) :
    (p.pop order).1 = some z ∧
    Family (p.pop order).2.links (p.pop order).2.lists (Function.update q order.toNat xs) :=
  hf.pop hq

lemma removeP_family (hf : Family p.links p.lists q) (hz : z ∈ q order.toNat) :
    Family (p.removeP order z).links (p.removeP order z).lists
      (Function.update q order.toNat ((q order.toNat).erase z)) := hf.removeP hz

/-- A popped zone is in no list any more. -/
lemma notMem_of_pop (hf : Family p.links p.lists q) {k : ℕ} (hq : q k = xs ++ [z]) (j : ℕ) :
    z ∉ Function.update q k xs j := by
  have hnd := hf.nodup k
  rw [hq] at hnd
  by_cases hj : j = k
  · subst hj
    rw [Function.update_self]
    exact fun hz => (List.nodup_append.mp hnd).2.2 _ hz _ (by simp) rfl
  · rw [Function.update_of_ne hj]
    exact fun hz => hj (hf.disjoint j k z hz (by simp [hq]))

/-- The halves of the last zone: the second starts in the middle. -/
lemma Holds.halves (h : Holds p live q) (ho : order.toNat = o + 1) (hz : z ∈ q order.toNat) :
    (p.n z >>> 1).toNat = 2 ^ (p.fo + o) ∧
    (z ^^^ (p.n z >>> 1)).toNat = z.toNat + 2 ^ (p.fo + o) := by
  obtain ⟨hdvd, hn⟩ := h.zone _ z hz
  have hhalf : (p.n z >>> 1).toNat = 2 ^ (p.fo + o) := by
    rw [UInt64.toNat_shiftRight, hn, ho]
    simp [Nat.shiftRight_eq_div_pow, ← Nat.add_assoc, pow_succ]
  refine ⟨hhalf, ?_⟩
  rw [UInt64.toNat_xor, hhalf]
  exact (nat_xor_two_pow ((pow_dvd_pow 2 (by omega)).trans hdvd)).1 (by rwa [ho] at hdvd)

/-- Splitting the last zone of a list moves its halves to the list below. -/
theorem Holds.splitZone (h : Holds p live q) (ho : order.toNat = o + 1)
    (hq : q order.toNat = xs ++ [z]) :
    ∃ q' z2, Holds (p.splitZone order) live q' ∧ (p.splitZone order).toLayout = p.toLayout ∧
      (p.splitZone order).freeSpace = p.freeSpace ∧
      (p.splitZone order).metadata = p.metadata ∧
      Spares (heldBytes p.fo live) p (p.splitZone order) ∧
      q' (o + 1) = xs ∧ q' o = q o ++ [z, z2] ∧ (∀ k, k ≠ o → k ≠ o + 1 → q' k = q k) ∧
      ∃ d ∈ blocksOf p.fo q, ∃ hd : d.exp = p.fo + o + 1, d.base = z.toNat ∧
        blocksOf p.fo q' = blocksOf p.fo q \ {d} ∪ {d.lower _ hd, d.upper _ hd} := by
  have hz : z ∈ q order.toNat := by simp [hq]
  obtain ⟨hhalf, hz2⟩ := h.halves ho hz
  obtain ⟨hpop, hf0⟩ := pop_family h.family hq
  set s := p.n z >>> 1
  set z2 := z ^^^ s
  have hpred : (order - 1).toNat = o := by
    rw [UInt8.toNat_sub_of_le _ _ (UInt8.le_iff_toNat_le.mpr (by simp [ho])), ho]
    simp
  set d := p.block order.toNat z (h.zone _ z hz).1 with hd
  have hdF : d ∈ blocksOf p.fo q := h.block_mem hz
  have hexp : d.exp = p.fo + o + 1 := by
    simp only [hd, block, ho]
    omega
  -- the two appended zones are in no list
  have hz1 := notMem_of_pop h.family hq
  have hz2q : ∀ j, z2 ∉ q j := by
    intro j hj
    have hm : z2.toNat ∈ d := (mem_halves hexp).mpr (Or.inr (by
      rw [hz2]
      exact base_mem (d.upper _ hexp)))
    have he := h.zone_eq hj hdF hm
    have : z.toNat = z.toNat + 2 ^ (p.fo + o) := he.1.trans hz2
    have := Nat.two_pow_pos (p.fo + o)
    omega
  have hne : z ≠ z2 := by
    intro he
    rw [← he] at hz2
    have := Nat.two_pow_pos (p.fo + o)
    omega
  set q1 := Function.update q order.toNat xs with hq1
  have hsub1 : ∀ j, ∀ a ∈ q1 j, a ∈ q j :=
    forall_mem_update (fun _ _ ha => ha) fun a ha => by simp [hq, ha]
  have hf1 := append_family (p := ((p.pop order).2.setN z s).setN z2 s) (order - 1) hf0 hz1
  set q2 := Function.update q1 (order - 1).toNat (q1 (order - 1).toNat ++ [z]) with hq2
  have hsub2 : ∀ j, ∀ a ∈ q2 j, a ∈ q j ∨ a = z := by
    refine forall_mem_update (fun j a ha => Or.inl (hsub1 j a ha)) fun a ha => ?_
    rw [List.mem_append, List.mem_singleton] at ha
    exact ha.imp_left (hsub1 _ a)
  have hz2q2 : ∀ j, z2 ∉ q2 j := fun j hj => (hsub2 j z2 hj).elim (hz2q j) (Ne.symm hne)
  have hf2 := append_family (order - 1) hf1 hz2q2
  set q3 := Function.update q2 (order - 1).toNat (q2 (order - 1).toNat ++ [z2]) with hq3
  have hB1 := blocksOf_update_dropLast p.fo (d := d) h.family hq rfl rfl
  have hB2 := blocksOf_append p.fo (q := q1) (k := (order - 1).toNat) (a := z)
    (d := d.lower _ hexp) rfl (by rw [hpred]; rfl)
  have hB3 := blocksOf_append p.fo (q := q2) (k := (order - 1).toNat) (a := z2)
    (d := d.upper _ hexp) (by rw [hz2]; rfl) (by rw [hpred]; rfl)
  have hB : blocksOf p.fo q3 = blocksOf p.fo q \ {d} ∪ {d.lower _ hexp, d.upper _ hexp} := by
    rw [hB3, hB2, hB1, Set.union_assoc]
    rfl
  obtain ⟨htiles, hsep⟩ := h.tiles.split h.separate hdF hexp
  have hq3o : q3 o = q o ++ [z, z2] := by
    have hne' : o ≠ order.toNat := by omega
    simp [hq3, hq2, hq1, hpred, hne']
  have hq3k : ∀ k, k ≠ o → q3 k = q1 k := by
    intro k hk
    simp [hq3, hq2, hpred, hk]
  have heq := splitZone_eq hpop
  -- the zones and the halves lie in free memory
  have hq1S : ∀ j, ∀ y ∈ q1 j, y.toNat ∉ heldBytes p.fo live :=
    fun j y hy => h.zone_notMem_held (hsub1 j y hy)
  have hzS : z.toNat ∉ heldBytes p.fo live := h.zone_notMem_held hz
  have hz2S : z2.toNat ∉ heldBytes p.fo live := h.notMem_held hdF ((mem_halves hexp).mpr (Or.inr (by
    rw [hz2]
    exact base_mem (d.upper _ hexp))))
  have hq2S : ∀ j, ∀ y ∈ q2 j, y.toNat ∉ heldBytes p.fo live := by
    intro j y hy
    obtain hy | rfl := hsub2 j y hy
    · exact h.zone_notMem_held hy
    · exact hzS
  have hspares : Spares (heldBytes p.fo live) p (p.splitZone order) := by
    rw [heq]
    have h0 : Spares (heldBytes p.fo live) p (p.pop order).2 := ⟨fun _ _ => rfl, fun _ _ => rfl⟩
    exact (((h0.trans (setN_spares hzS s)).trans (setN_spares hz2S s)).trans
      (append_spares hf0 hz1 hzS hq1S)).trans (append_spares hf1 hz2q2 hz2S hq2S)
  refine ⟨q3, z2, ?_, by rw [heq]; rfl, by rw [heq]; rfl, by rw [heq]; rfl, hspares, ?_, hq3o, ?_,
    d, hdF, hexp, rfl, hB⟩
  · rw [heq]
    refine ⟨h.layout, hf2, ?_, h.allocation, hB ▸ htiles, hB ▸ hsep, h.nodup, h.alloced, h.order⟩
    intro k a ha
    change 2 ^ (p.fo + k) ∣ a.toNat ∧
      (Function.update (Function.update p.n z s) z2 s a).toNat = 2 ^ (p.fo + k)
    have hkeep : ∀ j, a ∈ q1 j → 2 ^ (p.fo + j) ∣ a.toNat ∧
        (Function.update (Function.update p.n z s) z2 s a).toNat = 2 ^ (p.fo + j) := by
      intro j hj
      have haz : a ≠ z := fun he => hz1 j (he ▸ hj)
      have haz2 : a ≠ z2 := fun he => hz2q j (he ▸ hsub1 j a hj)
      rw [Function.update_of_ne haz2, Function.update_of_ne haz]
      exact h.zone j a (hsub1 j a hj)
    by_cases hk : k = o
    · subst hk
      have hq1k : q1 k = q k := by rw [hq1, Function.update_of_ne (by omega)]
      have hdz : 2 ^ (p.fo + k) ∣ z.toNat := (pow_dvd_pow 2 (by omega)).trans (h.zone _ z hz).1
      rw [hq3o, List.mem_append, ← hq1k] at ha
      rcases ha with ha | ha
      · exact hkeep k ha
      rcases List.mem_pair.mp ha with rfl | rfl
      · rw [Function.update_of_ne hne, Function.update_self]
        exact ⟨hdz, hhalf⟩
      · rw [Function.update_self, hz2]
        exact ⟨Nat.dvd_add hdz dvd_rfl, hhalf⟩
    · exact hkeep k (hq3k k hk ▸ ha)
  · rw [hq3k _ (by omega), hq1, ho, Function.update_self]
  · intro k hk hk'
    rw [hq3k k hk, hq1, Function.update_of_ne (by omega)]

end Split

section Transfer
variable {order : UInt8} {xs : List UInt64} {out : UInt64} {b : Allocation} {d : Block} {fo : ℕ}

lemma liveBlocks_cons (hd : d.base = b.1.toNat ∧ d.exp = fo + b.2.toNat) :
    liveBlocks fo (b :: live) = liveBlocks fo live ∪ {d} := by
  ext e
  constructor
  · rintro ⟨b', hb', hbase, hexp⟩
    rcases List.mem_cons.mp hb' with rfl | hb'
    · exact Or.inr (Block.ext (hbase.trans hd.1.symm) (hexp.trans hd.2.symm))
    · exact Or.inl ⟨b', hb', hbase, hexp⟩
  · rintro (⟨b', hb', hbase, hexp⟩ | rfl)
    · exact ⟨b', List.mem_cons_of_mem _ hb', hbase, hexp⟩
    · exact ⟨b, List.mem_cons_self, hd⟩

lemma liveBlocks_erase (hnd : live.Nodup) (hd : d.base = b.1.toNat ∧ d.exp = fo + b.2.toNat) :
    liveBlocks fo (live.erase b) = liveBlocks fo live \ {d} := by
  ext e
  constructor
  · rintro ⟨b', hb', hbase, hexp⟩
    obtain ⟨hne, hb'⟩ := hnd.mem_erase_iff.mp hb'
    refine ⟨⟨b', hb', hbase, hexp⟩, ?_⟩
    rintro rfl
    refine hne (Prod.ext (UInt64.toNat_inj.mp (hbase.symm.trans hd.1)) ?_)
    exact UInt8.toNat_inj.mp (by omega)
  · rintro ⟨⟨b', hb', hbase, hexp⟩, hne⟩
    refine ⟨b', hnd.mem_erase_iff.mpr ⟨?_, hb'⟩, hbase, hexp⟩
    rintro rfl
    exact hne (Block.ext (hbase.trans hd.1.symm) (hexp.trans hd.2.symm))

/-- Two first units have different metadata bytes. -/
lemma Holds.getMeta_ne (h : Holds p live q) {a a' : UInt64} (ha : 2 ^ p.fo ∣ a.toNat)
    (hlo : p.lo ≤ a.toNat) (hhi : a.toNat < p.hi) (ha' : 2 ^ p.fo ∣ a'.toNat)
    (hlo' : p.lo ≤ a'.toNat) (hhi' : a'.toNat < p.hi) (hne : a ≠ a') :
    p.getMeta a ≠ p.getMeta a' := by
  intro he
  have hdiv := (h.layout.getMeta_inj hlo hhi hlo' hhi').mp he
  refine hne (UInt64.toNat_inj.mp ?_)
  rw [← Nat.div_mul_cancel ha, ← Nat.div_mul_cancel ha']
  exact congrArg (· * 2 ^ p.fo) hdiv

/-- The last zone of a list becomes a live allocation. -/
theorem Holds.takeZone (h : Holds p live q) (hq : q order.toNat = xs ++ [out]) (v : UInt64) :
    Holds { (p.pop order).2.setMeta out ⟨true, order &&& 0x7f⟩ with freeSpace := v }
      ((out, order) :: live) (Function.update q order.toNat xs) := by
  have hout : out ∈ q order.toNat := by simp [hq]
  have hdvd := (h.zone _ out hout).1
  have hdvd' : 2 ^ p.fo ∣ out.toNat := (pow_dvd_pow 2 (by omega)).trans hdvd
  have hbd := h.bounds hout
  have hpos := Nat.two_pow_pos (p.fo + order.toNat)
  have hmask : order &&& 0x7f = order := by
    have h1 := h.order_le hout
    have h2 := h.layout.order_lt
    simp only [maxSupportedMemBits] at h2
    apply UInt8.toNat_inj.mp
    rw [UInt8.toNat_and]
    exact Nat.and_two_pow_sub_one_of_lt_two_pow (n := 7) (by omega)
  set d := p.block order.toNat out hdvd with hd
  have hdF : d ∈ blocksOf p.fo q := h.block_mem hout
  have hB := blocksOf_update_dropLast p.fo (d := d) h.family hq rfl rfl
  have hL : liveBlocks p.fo ((out, order) :: live) = liveBlocks p.fo live ∪ {d} :=
    liveBlocks_cons ⟨rfl, rfl⟩
  have hnew : ∀ b ∈ live, b.1 ≠ out := by
    intro b hb he
    have hlb := h.live_mem hb
    have he := h.tiles.disjoint _ (Or.inl hdF) _ (Or.inr hlb) out.toNat (base_mem d)
      (he ▸ base_mem _)
    exact h.separate d hdF (he ▸ hlb)
  refine ⟨h.layout, (pop_family h.family hq).2, ?_, ?_, ?_, ?_, ?_, ?_, ?_⟩
  · exact forall_mem_update h.zone fun a ha => h.zone _ a (by simp [hq, ha])
  · intro b hb
    rcases List.mem_cons.mp hb with rfl | hb
    · exact hdvd
    · exact h.allocation b hb
  · change Tiles (blocksOf p.fo _ ∪ liveBlocks p.fo _) p.lo p.hi
    have hset : blocksOf p.fo q \ {d} ∪ (liveBlocks p.fo live ∪ {d}) =
        blocksOf p.fo q ∪ liveBlocks p.fo live := by
      ext e
      have : e = d → e ∈ blocksOf p.fo q := fun he => he ▸ hdF
      simp only [Set.mem_union, Set.mem_sdiff, Set.mem_singleton_iff]
      tauto
    rw [hB, hL, hset]
    exact h.tiles
  · change ∀ e ∈ blocksOf p.fo _, e ∉ liveBlocks p.fo _
    rw [hB, hL]
    rintro e ⟨he, hne⟩ (hel | hel)
    · exact h.separate e he hel
    · exact hne hel
  · exact List.nodup_cons.mpr ⟨fun hm => hnew _ hm rfl, h.nodup⟩
  · intro a ha hlo hhi
    change ((Function.update p.metadata (p.getMeta out) _) (p.getMeta a)).alloced = true ↔ _
    by_cases hao : a = out
    · subst hao
      simp
    · have hne := h.getMeta_ne ha hlo hhi hdvd' hbd.1 (by omega) hao
      rw [Function.update_of_ne hne, h.alloced a ha hlo hhi]
      simp [Ne.symm hao]
  · intro b hb
    change ((Function.update p.metadata (p.getMeta out) _) (p.getMeta b.1)).order = b.2
    rcases List.mem_cons.mp hb with rfl | hb
    · simpa using hmask
    · have hlb := h.live_bounds hb
      have hdb : 2 ^ p.fo ∣ b.1.toNat := (pow_dvd_pow 2 (by omega)).trans (h.allocation b hb)
      have hpb := Nat.two_pow_pos (p.fo + b.2.toNat)
      have hne := h.getMeta_ne hdb hlb.1 (by omega) hdvd' (by omega) (by omega) (hnew b hb)
      rw [Function.update_of_ne hne]
      exact h.order b hb

/-- `mem` points into the first unit of the allocation `b`. -/
def InFirstUnit (p : Pallocator) (b : Allocation) (mem : UInt64) : Prop :=
  b.1.toNat ≤ mem.toNat ∧ mem.toNat < b.1.toNat + 2 ^ p.fo

instance (p : Pallocator) (b : Allocation) (mem : UInt64) : Decidable (p.InFirstUnit b mem) :=
  inferInstanceAs (Decidable (_ ∧ _))

variable {mem : UInt64}

lemma Holds.live_dvd (h : Holds p live q) (hb : b ∈ live) : 2 ^ p.fo ∣ b.1.toNat :=
  (pow_dvd_pow 2 (by omega)).trans (h.allocation b hb)

/-- The first unit lies inside the block. -/
lemma Holds.first_unit_le (h : Holds p live q) (hb : b ∈ live) : b.1.toNat + 2 ^ p.fo ≤ p.hi := by
  have hbd := h.live_bounds hb
  have : 2 ^ p.fo ≤ 2 ^ (p.fo + b.2.toNat) := Nat.pow_le_pow_right (by norm_num) (by omega)
  omega

/-- Any address in the first unit finds the metadata byte of the allocation. -/
lemma Holds.getMeta_eq (h : Holds p live q) (hb : b ∈ live) (hm : p.InFirstUnit b mem) :
    p.getMeta mem = p.getMeta b.1 := by
  have hlo := (h.live_bounds hb).1
  have hhi := h.first_unit_le hb
  have h1 := hm.1
  have h2 := hm.2
  refine (h.layout.getMeta_inj (hlo.trans hm.1) (hm.2.trans_le hhi) hlo (h1.trans_lt (h2.trans_le hhi))).mpr ?_
  obtain ⟨m, hm'⟩ := h.live_dvd hb
  have hp := Nat.two_pow_pos p.fo
  change mem.toNat / 2 ^ p.fo = b.1.toNat / 2 ^ p.fo
  rw [hm', Nat.mul_div_cancel_left _ hp]
  apply Nat.div_eq_of_lt_le
  · rw [Nat.mul_comm]
    omega
  · rw [Nat.add_mul, Nat.mul_comm]
    omega

/-- The first unit of an allocation determines it. -/
lemma Holds.eq_of_inFirstUnit (h : Holds p live q) {b' : Allocation} (mem : UInt64) (hb : b ∈ live)
    (hb' : b' ∈ live) (hm : p.InFirstUnit b mem) (hm' : p.InFirstUnit b' mem) : b = b' := by
  have hle : ∀ c : Allocation, 2 ^ p.fo ≤ 2 ^ (p.fo + c.2.toNat) := fun c =>
    Nat.pow_le_pow_right (by norm_num) (by omega)
  have he := h.tiles.disjoint _ (Or.inr (h.live_mem hb)) _ (Or.inr (h.live_mem hb')) mem.toNat
    ⟨hm.1, hm.2.trans_le (Nat.add_le_add_left (hle b) _)⟩
    ⟨hm'.1, hm'.2.trans_le (Nat.add_le_add_left (hle b') _)⟩
  have h1 : b.1.toNat = b'.1.toNat := congrArg Block.base he
  have h2 : p.fo + b.2.toNat = p.fo + b'.2.toNat := congrArg Block.exp he
  exact Prod.ext (UInt64.toNat_inj.mp h1) (UInt8.toNat_inj.mp (by omega))

/-- The bit found through any address tells whether it is in the first unit of an allocation. -/
lemma Holds.alloced_iff (h : Holds p live q) (hlo : p.lo ≤ mem.toNat) (hhi : mem.toNat < p.hi) :
    (p.metadata (p.getMeta mem)).alloced = true ↔ ∃ b ∈ live, p.InFirstUnit b mem := by
  constructor
  · intro hal
    have hunit := h.layout.unit
    set a := alignDown mem p.firstOrderSize
    have hdvd : 2 ^ p.fo ∣ a.toNat := dvd_alignDown hunit
    have hle : a.toNat ≤ mem.toNat := alignDown_le hunit
    have hmod : mem.toNat < a.toNat + 2 ^ p.fo := by
      have ha : a.toNat = mem.toNat / 2 ^ p.fo * 2 ^ p.fo := alignDown_toNat hunit
      have hd := Nat.div_add_mod mem.toNat (2 ^ p.fo)
      have hlt := Nat.mod_lt mem.toNat (Nat.two_pow_pos p.fo)
      rw [ha, Nat.mul_comm]
      omega
    have hloa : p.lo ≤ a.toNat := by
      by_contra hlt
      have := add_le_of_dvd_of_lt hdvd h.layout.start_dvd (Nat.lt_of_not_le hlt)
      have hs : p.lo = p.startAddr.toNat := rfl
      simp only [fo] at *
      omega
    have hmeta : p.getMeta mem = p.getMeta a := by
      refine (h.layout.getMeta_inj hlo hhi hloa (hle.trans_lt hhi)).mpr ?_
      have ha : a.toNat = mem.toNat / 2 ^ p.fo * 2 ^ p.fo := alignDown_toNat hunit
      change _ = a.toNat / 2 ^ p.fo
      rw [ha, Nat.mul_div_cancel _ (Nat.two_pow_pos _)]
      rfl
    rw [hmeta] at hal
    obtain ⟨b, hb, he⟩ := (h.alloced a hdvd hloa (hle.trans_lt hhi)).mp hal
    rw [← he] at hle hmod
    exact ⟨b, hb, hle, hmod⟩
  · rintro ⟨b, hb, hm⟩
    rw [h.getMeta_eq hb hm]
    have hp := Nat.two_pow_pos p.fo
    exact (h.alloced b.1 (h.live_dvd hb) (h.live_bounds hb).1
      (Nat.lt_of_lt_of_le (by omega) (h.first_unit_le hb))).mpr ⟨b, hb, rfl⟩

/-- Aligning any address of the first unit down to the block size gives the block. -/
lemma Holds.alignDown_eq (h : Holds p live q) (hb : b ∈ live) (hm : p.InFirstUnit b mem)
    (hsmall : p.fo + b.2.toNat ≤ 30) : alignDown mem (p.getOrderSize b.2) = b.1 := by
  have hs := p.getOrderSize_toNat hsmall
  obtain ⟨m, hm'⟩ := h.allocation b hb
  have hp := Nat.two_pow_pos (p.fo + b.2.toNat)
  have hle : 2 ^ p.fo ≤ 2 ^ (p.fo + b.2.toNat) := Nat.pow_le_pow_right (by norm_num) (by omega)
  have h1 := hm.1
  have h2 := hm.2
  apply UInt64.toNat_inj.mp
  rw [alignDown_toNat hs]
  change mem.toNat / 2 ^ (p.fo + b.2.toNat) * 2 ^ (p.fo + b.2.toNat) = b.1.toNat
  have hq : mem.toNat / 2 ^ (p.fo + b.2.toNat) = m := by
    apply Nat.div_eq_of_lt_le
    · rw [Nat.mul_comm]
      omega
    · rw [Nat.add_mul, Nat.mul_comm]
      omega
  rw [hq, hm', Nat.mul_comm]

/-- A live allocation becomes the last zone of the list of its order. -/
theorem Holds.putZone (h : Holds p live q) (hb : b ∈ live) (hm : p.InFirstUnit b mem)
    (hsmall : p.fo + b.2.toNat ≤ 30) :
    Holds (((p.setMeta mem ⟨false, b.2⟩).setN b.1 (p.getOrderSize b.2)).append b.2 b.1)
      (live.erase b) (Function.update q b.2.toNat (q b.2.toNat ++ [b.1])) := by
  have hdvd := h.allocation b hb
  have hbd := h.live_bounds hb
  have hpos := Nat.two_pow_pos (p.fo + b.2.toNat)
  have hsize := p.getOrderSize_toNat hsmall
  set d := p.block b.2.toNat b.1 hdvd
  have hdL : d ∈ liveBlocks p.fo live := h.live_mem hb
  have hB := blocksOf_append p.fo (q := q) (k := b.2.toNat) (a := b.1) (d := d) rfl rfl
  have hL : liveBlocks p.fo (live.erase b) = liveBlocks p.fo live \ {d} :=
    liveBlocks_erase h.nodup ⟨rfl, rfl⟩
  have hnew : ∀ j, b.1 ∉ q j := by
    intro j hj
    have hz := h.block_mem hj
    have he := h.tiles.disjoint _ (Or.inl hz) _ (Or.inr hdL) b.1.toNat (base_mem _) (base_mem d)
    exact h.separate _ hz (he ▸ hdL)
  have hother : ∀ b' ∈ live.erase b, b' ∈ live ∧ b'.1 ≠ b.1 := by
    intro b' hb'
    obtain ⟨hne, hb'⟩ := h.nodup.mem_erase_iff.mp hb'
    refine ⟨hb', fun he => hne ?_⟩
    have hp := Nat.two_pow_pos p.fo
    exact h.eq_of_inFirstUnit b.1 hb' hb ⟨by rw [he], by rw [he]; omega⟩
      ⟨le_rfl, by omega⟩
  refine ⟨h.layout, append_family (p := (p.setMeta mem ⟨false, b.2⟩).setN b.1 _) b.2 h.family hnew,
    ?_, ?_, ?_, ?_, h.nodup.erase _, ?_, ?_⟩
  · change ∀ k, ∀ a ∈ Function.update q b.2.toNat (q b.2.toNat ++ [b.1]) k, 2 ^ (p.fo + k) ∣ a.toNat ∧
      (Function.update p.n b.1 (p.getOrderSize b.2) a).toNat = 2 ^ (p.fo + k)
    have hold : ∀ j, ∀ a ∈ q j, 2 ^ (p.fo + j) ∣ a.toNat ∧
        (Function.update p.n b.1 (p.getOrderSize b.2) a).toNat = 2 ^ (p.fo + j) := by
      intro j a hj
      rw [Function.update_of_ne (fun he => hnew j (by rw [← he]; exact hj))]
      exact h.zone j a hj
    refine forall_mem_update hold fun a ha => ?_
    rw [List.mem_append, List.mem_singleton] at ha
    rcases ha with ha | rfl
    · exact hold _ a ha
    · rw [Function.update_self]
      exact ⟨hdvd, hsize⟩
  · exact fun b' hb' => h.allocation b' (hother b' hb').1
  · change Tiles (blocksOf p.fo _ ∪ liveBlocks p.fo _) p.lo p.hi
    have hset : blocksOf p.fo q ∪ {d} ∪ liveBlocks p.fo live \ {d} =
        blocksOf p.fo q ∪ liveBlocks p.fo live := by
      ext e
      have : e = d → e ∈ liveBlocks p.fo live := fun he => he ▸ hdL
      simp only [Set.mem_union, Set.mem_sdiff, Set.mem_singleton_iff]
      tauto
    rw [hB, hL, hset]
    exact h.tiles
  · change ∀ e ∈ blocksOf p.fo _, e ∉ liveBlocks p.fo _
    rw [hB, hL]
    rintro e (he | he) ⟨hel, hne⟩
    · exact h.separate e he hel
    · exact hne he
  · intro a ha hlo hhi
    change ((Function.update p.metadata (p.getMeta mem) _) (p.getMeta a)).alloced = true ↔ _
    rw [h.getMeta_eq hb hm]
    by_cases hab : a = b.1
    · subst hab
      simp only [Function.update_self, Bool.false_eq_true, false_iff]
      rintro ⟨b', hb', he⟩
      exact (hother b' hb').2 he
    · have hne := h.getMeta_ne ha hlo hhi (h.live_dvd hb) hbd.1 (by omega) hab
      rw [Function.update_of_ne hne, h.alloced a ha hlo hhi]
      constructor
      · rintro ⟨b', hb', rfl⟩
        exact ⟨b', h.nodup.mem_erase_iff.mpr ⟨fun he => hab (by rw [he]), hb'⟩, rfl⟩
      · rintro ⟨b', hb', rfl⟩
        exact ⟨b', (hother b' hb').1, rfl⟩
  · intro b' hb'
    obtain ⟨hb'l, hne⟩ := hother b' hb'
    have hbd' := h.live_bounds hb'l
    have hpb := Nat.two_pow_pos (p.fo + b'.2.toNat)
    change ((Function.update p.metadata (p.getMeta mem) _) (p.getMeta b'.1)).order = b'.2
    rw [h.getMeta_eq hb hm, Function.update_of_ne (h.getMeta_ne (h.live_dvd hb'l) hbd'.1
      (by omega) (h.live_dvd hb) hbd.1 (by omega) hne)]
    exact h.order b' hb'l

end Transfer
end EpochKernel.Mem.Pallocator
