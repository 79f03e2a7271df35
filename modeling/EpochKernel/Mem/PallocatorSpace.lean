import EpochKernel.Mem.PallocatorRun

/-! The counter behind `get_free_space`. The sizes of the free zones are the length of the range
minus the blocks held by clients, whatever splits and merges happened; the counter follows the
allocations but no deallocation. -/
namespace EpochKernel.Mem
open EpochKernel.Util EpochKernel.Util.LinkedList EpochKernel.Library EpochKernel.Library.Block

namespace Pallocator
variable {p : Pallocator} {live : List Allocation} {q : ℕ → List UInt64} {order : UInt8}
  {mem : UInt64}

/-- The sum of the sizes of the zones in the free lists. -/
def freeBytes (p : Pallocator) : ℕ :=
  ((List.range (p.maxOrder.toNat + 1)).map fun k =>
    ((p.zones k).map fun zone => (p.n zone).toNat).sum).sum

/-- The same for the zones of `2 ^ e` bytes and more. -/
def bytesFrom (p : Pallocator) (e : ℕ) : ℕ :=
  ((List.range (p.maxOrder.toNat + 1)).map fun k =>
    if e ≤ p.fo + k then ((p.zones k).map fun zone => (p.n zone).toNat).sum else 0).sum

/-- `mem::get_free_space`, over the allocators of the machine. -/
def memGetFreeSpace (allocators : List Pallocator) : UInt64 :=
  allocators.foldl (fun out p => out + p.getFreeSpace) 0

/-- The bytes held by clients. -/
def liveBytes (fo : ℕ) (live : List Allocation) : ℕ :=
  (live.map fun b => 2 ^ (fo + b.2.toNat)).sum

/-- The free zones of order `k` as blocks. -/
def freeList (h : Holds p live q) (k : ℕ) : List Block :=
  (q k).pmap (fun a ha => p.block k a ha) fun a ha => (h.zone k a ha).1

def liveList (h : Holds p live q) : List Block :=
  live.pmap (fun b hb => p.block b.2.toNat b.1 hb) h.allocation

lemma mem_freeList (h : Holds p live q) {k : ℕ} {d : Block} :
    d ∈ freeList h k ↔ ∃ a ∈ q k, d.base = a.toNat ∧ d.exp = p.fo + k := by
  rw [freeList, List.mem_pmap]
  constructor
  · rintro ⟨a, ha, rfl⟩
    exact ⟨a, ha, rfl, rfl⟩
  · rintro ⟨a, ha, hb, he⟩
    exact ⟨a, ha, Block.ext hb.symm he.symm⟩

lemma mem_liveList (h : Holds p live q) {d : Block} :
    d ∈ liveList h ↔ d ∈ liveBlocks p.fo live := by
  rw [liveList, List.mem_pmap]
  constructor
  · rintro ⟨b, hb, rfl⟩
    exact ⟨b, hb, rfl, rfl⟩
  · rintro ⟨b, hb, hbase, hexp⟩
    exact ⟨b, hb, Block.ext hbase.symm hexp.symm⟩

lemma sum_freeList (h : Holds p live q) (k : ℕ) :
    ((freeList h k).map size).sum = ((q k).map fun z => (p.n z).toNat).sum := by
  rw [freeList, List.map_pmap]
  congr 1
  rw [← List.pmap_eq_map (p := fun a => 2 ^ (p.fo + k) ∣ a.toNat) (H := fun a ha => (h.zone k a ha).1)]
  refine List.pmap_congr_left _ fun a ha _ _ => ?_
  rw [(h.zone k a ha).2]
  rfl

lemma sum_liveList (h : Holds p live q) : ((liveList h).map size).sum = liveBytes p.fo live := by
  rw [liveList, List.map_pmap, liveBytes]
  congr 1
  rw [← List.pmap_eq_map (p := fun b : Allocation => 2 ^ (p.fo + b.2.toNat) ∣ b.1.toNat)
    (H := h.allocation)]
  rfl

lemma freeList_nodup (h : Holds p live q) (k : ℕ) : (freeList h k).Nodup :=
  (h.family.nodup k).pmap fun _ _ _ _ he => UInt64.toNat_inj.mp (congrArg Block.base he)

lemma liveList_nodup (h : Holds p live q) : (liveList h).Nodup := by
  refine h.nodup.pmap fun a _ b _ he => ?_
  have h1 : a.1.toNat = b.1.toNat := congrArg Block.base he
  have h2 : p.fo + a.2.toNat = p.fo + b.2.toNat := congrArg Block.exp he
  exact Prod.ext (UInt64.toNat_inj.mp h1) (UInt8.toNat_inj.mp (by omega))

/-- Free and held bytes together are the whole range. -/
theorem Holds.freeBytes_add (h : Holds p live q) :
    p.freeBytes + liveBytes p.fo live = p.hi - p.lo := by
  set free := (List.range (p.maxOrder.toNat + 1)).flatMap (freeList h) with hfree
  have hmem : ∀ d, d ∈ free ↔ d ∈ blocksOf p.fo q := by
    intro d
    simp only [hfree, List.mem_flatMap, List.mem_range, mem_freeList]
    constructor
    · rintro ⟨k, -, a, ha, hb, he⟩
      exact ⟨k, a, ha, hb, he⟩
    · rintro ⟨k, a, ha, hb, he⟩
      exact ⟨k, Nat.lt_succ_of_le (h.order_le ha), a, ha, hb, he⟩
  have hnd : (free ++ liveList h).Nodup := by
    refine List.nodup_append.mpr ⟨?_, liveList_nodup h, ?_⟩
    · refine List.nodup_flatMap.mpr ⟨fun k _ => freeList_nodup h k, ?_⟩
      refine List.nodup_range.imp fun {j k} hjk => ?_
      intro d hj hk
      obtain ⟨-, -, -, he⟩ := (mem_freeList h).mp hj
      obtain ⟨-, -, -, he'⟩ := (mem_freeList h).mp hk
      omega
    · rintro d hd e he rfl
      exact h.separate d ((hmem d).mp hd) ((mem_liveList h).mp he)
  have hset : {d | d ∈ free ++ liveList h} = blocksOf p.fo q ∪ liveBlocks p.fo live := by
    ext d
    rw [Set.mem_ofPred_eq, List.mem_append, hmem, mem_liveList]
    rfl
  have hsum := Tiles.sum_size (hset ▸ h.tiles) hnd
  rw [List.map_append, List.sum_append, sum_liveList] at hsum
  rw [← hsum, freeBytes, hfree, List.flatMap, List.map_flatten, List.sum_flatten, List.map_map,
    List.map_map]
  congr 2
  refine List.map_congr_left fun k _ => ?_
  rw [h.zones_eq, ← sum_freeList h]
  rfl

lemma Holds.sum_zones (h : Holds p live q) (k : ℕ) :
    ((p.zones k).map fun zone => (p.n zone).toNat).sum = (q k).length * 2 ^ (p.fo + k) := by
  rw [h.zones_eq, List.map_congr_left fun a ha => (h.zone k a ha).2, List.map_const', List.sum_replicate,
    smul_eq_mul]

lemma bytesFrom_anti {e e' : ℕ} (he : e ≤ e') : p.bytesFrom e' ≤ p.bytesFrom e := by
  refine List.sum_le_sum fun k _ => ?_
  split_ifs with h h'
  · exact le_rfl
  · exact absurd (he.trans h) h'
  · exact Nat.zero_le _
  · exact le_rfl

/-- All zones have `2 ^ fo` bytes at least. -/
lemma bytesFrom_fo : p.bytesFrom p.fo = p.freeBytes := by
  unfold bytesFrom freeBytes
  simp only [Nat.le_add_right, if_true]

lemma bytesFrom_eq_zero {e : ℕ} (h : ∀ k, e ≤ p.fo + k → p.zones k = []) : p.bytesFrom e = 0 := by
  refine List.sum_eq_zero fun x hx => ?_
  obtain ⟨k, -, rfl⟩ := List.mem_map.mp hx
  split_ifs with hk
  · rw [h k hk]
    rfl
  · rfl

lemma Holds.dvd_bytesFrom (h : Holds p live q) (e : ℕ) : 2 ^ e ∣ p.bytesFrom e := by
  refine List.dvd_sum fun x hx => ?_
  obtain ⟨k, -, rfl⟩ := List.mem_map.mp hx
  split_ifs with hk
  · rw [h.sum_zones]
    exact Dvd.dvd.mul_left (pow_dvd_pow 2 hk) _
  · exact dvd_zero _

/-- If the zones of lower orders stay, what is taken comes from the others. -/
lemma Holds.bytesFrom_add {p' : Pallocator} {live' : List Allocation} {q' : ℕ → List UInt64} {o e b : ℕ}
    (h : Holds p live q) (h' : Holds p' live' q') (hl : p'.toLayout = p.toLayout)
    (hq : ∀ k < o, q' k = q k) (he : e ≤ p.fo + o) (hb : p'.freeBytes + b = p.freeBytes) :
    p'.bytesFrom e + b = p.bytesFrom e := by
  have hfo : p'.fo = p.fo := congrArg (·.foBits.toNat) hl
  have hmax : p'.maxOrder = p.maxOrder := congrArg (·.maxOrder) hl
  have hsplit (r : Pallocator) : r.freeBytes = r.bytesFrom e +
      ((List.range (r.maxOrder.toNat + 1)).map fun k =>
        if e ≤ r.fo + k then 0 else ((r.zones k).map fun zone => (r.n zone).toNat).sum).sum := by
    rw [freeBytes, bytesFrom, ← List.sum_map_add]
    congr 2
    funext k
    split_ifs
    · rfl
    · exact (Nat.zero_add _).symm
  have hlow : ((List.range (p'.maxOrder.toNat + 1)).map fun k =>
      if e ≤ p'.fo + k then 0 else ((p'.zones k).map fun zone => (p'.n zone).toNat).sum).sum =
      ((List.range (p.maxOrder.toNat + 1)).map fun k =>
        if e ≤ p.fo + k then 0 else ((p.zones k).map fun zone => (p.n zone).toNat).sum).sum := by
    rw [hmax, hfo]
    congr 2
    funext k
    split_ifs with hk
    · rfl
    · rw [h.sum_zones, h'.sum_zones, hq k (by omega), hfo]
  rw [hsplit p, hsplit p', hlow] at hb
  omega

lemma liveBytes_cons (fo : ℕ) (b : Allocation) (live : List Allocation) :
    liveBytes fo (b :: live) = 2 ^ (fo + b.2.toNat) + liveBytes fo live := List.sum_cons

lemma liveBytes_erase (fo : ℕ) {b : Allocation} (hb : b ∈ live) :
    2 ^ (fo + b.2.toNat) + liveBytes fo (live.erase b) = liveBytes fo live := by
  rw [← liveBytes_cons]
  exact ((List.perm_cons_erase hb).map _).sum_eq.symm

section Top
variable {z : UInt64}

lemma div_not (x : ℕ) (hx : x < 2 ^ 64) :
    (2 ^ 64 - 1 - x) / 2 ^ 31 + x / 2 ^ 31 = 2 ^ 33 - 1 := by omega

/-- For blocks of 2 GiB the shift overflows `int`, and the buddy address flips all high bits. -/
lemma xor_top (z : UInt64) :
    (z ^^^ intShl (UInt32.ofNat 31)).toNat / 2 ^ 31 + z.toNat / 2 ^ 31 = 2 ^ 33 - 1 := by
  have hs : intShl (UInt32.ofNat 31) = ~~~ (2 ^ 31 - 1 : UInt64) := by decide
  have hx : z ^^^ ~~~ (2 ^ 31 - 1 : UInt64) = ~~~ (z ^^^ (2 ^ 31 - 1)) := by
    rw [UInt64.xor_not]
  have hm : (z ^^^ (2 ^ 31 - 1)).toNat / 2 ^ 31 = z.toNat / 2 ^ 31 := by
    have h31 : (2 ^ 31 - 1 : UInt64).toNat = 2 ^ 31 - 1 := by decide
    rw [UInt64.toNat_xor, h31, Nat.xor_div_two_pow]
    norm_num
  rw [hs, hx, UInt64.toNat_not, ← hm]
  exact div_not _ (UInt64.toNat_lt _)

/-- Such an address is outside every range of canonical addresses, so merging stops there. -/
lemma Holds.mergeOrder_top (h : Holds p live q) (hz : z ∈ q order.toNat)
    (htop : p.fo + order.toNat = 31) (hcanon : p.hi ≤ 2 ^ 47 ∨ 2 ^ 64 - 2 ^ 47 ≤ p.lo) (fuel : ℕ) :
    p.mergeOrder fuel z order p.maxOrder = p := by
  cases fuel with
  | zero => rfl
  | succ fuel =>
    have hsize : p.getOrderSize order = intShl (UInt32.ofNat 31) := by
      rw [Layout.getOrderSize]
      congr 1
      apply UInt32.toNat_inj.mp
      simp only [fo] at htop
      rw [UInt32.toNat_add, UInt8.toNat_toUInt32, UInt8.toNat_toUInt32, UInt32.toNat_ofNat']
      omega
    have hx := xor_top z
    have hbd := h.bounds hz
    have hpos := Nat.two_pow_pos (p.fo + order.toNat)
    simp only [Pallocator.mergeOrder, hsize]
    generalize z ^^^ intShl (UInt32.ofNat 31) = m at hx ⊢
    have hs31 : (intShl (UInt32.ofNat 31)).toNat = 2 ^ 64 - 2 ^ 31 := by decide
    have hout : m < p.startAddr ∨ m + intShl (UInt32.ofNat 31) > p.endAddr := by
      rw [gt_iff_lt, UInt64.lt_iff_toNat_lt, UInt64.lt_iff_toNat_lt, UInt64.toNat_add, hs31]
      simp only [lo, hi] at hbd hcanon
      have hm := m.toNat_lt
      omega
    by_cases hord : order > p.maxOrder
    · rw [if_pos hord]
    · rw [if_neg hord, if_pos hout]

/-- Merging a zone of at most 2 GiB keeps the invariant, whatever the sizes of the others. -/
theorem Holds.mergeOrder_keeps (fuel : ℕ) (order : UInt8) (h : Holds p live q) (hz : z ∈ q order.toNat)
    (hle : p.fo + order.toNat ≤ 31) (hcanon : p.hi ≤ 2 ^ 47 ∨ 2 ^ 64 - 2 ^ 47 ≤ p.lo) :
    ∃ q', Holds (p.mergeOrder fuel z order p.maxOrder) live q' ∧
      SameFields p (p.mergeOrder fuel z order p.maxOrder) := by
  induction fuel generalizing p q order z with
  | zero => exact ⟨q, h, SameFields.refl p⟩
  | succ fuel ih =>
    rcases Nat.eq_or_lt_of_le hle with htop | hlt
    · rw [h.mergeOrder_top hz htop hcanon]
      exact ⟨q, h, SameFields.refl p⟩
    have hle' : p.fo + order.toNat ≤ 30 := by omega
    by_cases hB : (p.block order.toNat z (h.zone _ z hz).1).buddy ∈ blocksOf p.fo q
    · obtain ⟨zf, zs, hf, hs, hsum, hdvd, -, heq⟩ := h.mergeOrder_step hz hle' hB fuel
      obtain ⟨q1, h1, hz1, hsucc, -, -⟩ := h.mergeZones hf hs hsum hdvd hle'
      rw [heq]
      obtain ⟨q', h', hs'⟩ := ih (order + 1) h1 (hsucc ▸ hz1)
        (show p.fo + (order + 1).toNat ≤ 31 by omega) hcanon
      exact ⟨q', h', (mergeZones_same p order zf zs).trans hs'⟩
    · rw [h.mergeOrder_stop hz hle' hB]
      exact ⟨q, h, SameFields.refl p⟩

end Top

end Pallocator
namespace Session
variable {s s' : Session}

/-- `get_free_space ()` is the sum of the sizes of the free zones. -/
def Accounted (s : Session) : Prop := s.p.getFreeSpace.toNat = s.p.freeBytes

instance (s : Session) : Decidable s.Accounted := inferInstanceAs (Decidable (_ = _))

/-- A request that can be served asks for less than 2 GiB. -/
def SmallRequest (s : Session) (order : UInt8) : Prop :=
  (∃ k, order.toNat ≤ k ∧ s.p.zones k ≠ []) → s.p.fo + order.toNat ≤ 30

/-- The operations that the counter follows. -/
def Harmless (s : Session) : Op → Prop
  | .alloc n => n ≠ 0 → s.SmallRequest (s.p.getOrder n)
  | .oalloc order => s.SmallRequest order
  | .free mem => ∀ b ∈ s.live, ¬ s.p.InFirstUnit b mem
  | .write .. => True

/-- The states in which the counter is still right have this invariant. -/
structure Counting (s : Session) : Prop where
  inv : s.Inv
  small : ∀ b ∈ s.live, s.p.fo + b.2.toNat ≤ 30
  canonical : s.p.lo < s.p.hi → s.p.hi ≤ 2 ^ 47 ∨ 2 ^ 64 - 2 ^ 47 ≤ s.p.lo

lemma Inv.freeBytes_add (h : s.Inv) :
    s.p.freeBytes + Pallocator.liveBytes s.p.fo s.live = s.p.hi - s.p.lo := by
  obtain ⟨q, hq, -⟩ := h
  exact hq.freeBytes_add

/-- Beyond 1 GiB the result of `get_order_size` is not the size of the block. -/
lemma intShl_ne {k : ℕ} (h : 31 ≤ k) (h' : k < 64) :
    (intShl (UInt32.ofNat k)).toNat ≠ 2 ^ k := by
  have hd : ∀ i : Fin 33, (intShl (UInt32.ofNat (31 + i.val))).toNat ≠ 2 ^ (31 + i.val) := by decide
  have := hd ⟨k - 31, by omega⟩
  rwa [show 31 + (k - 31) = k by omega] at this

/-- A served request lowers the counter by the size of the block exactly if that is small. -/
lemma Counting.receive_oalloc (h : s.Counting) (hQ : s.Accounted) (order : UInt8) :
    (s.SmallRequest order → (s.receive order (s.p.oalloc order)).Counting ∧
      (s.receive order (s.p.oalloc order)).Accounted) ∧
    (¬ s.SmallRequest order → ¬ (s.receive order (s.p.oalloc order)).Accounted) := by
  have hrec := h.inv.receive_oalloc order
  have hsum := h.inv.freeBytes_add
  obtain ⟨q, hq, hB⟩ := id h.inv
  have hz : s.p.zones = q := funext hq.zones_eq
  rcases hq.oalloc hB order with ⟨p', q', out, heq, h', -, hl, hspace, -, -, -, k, hk, hne⟩ |
    ⟨heq, hall⟩
  · rw [heq] at hrec ⊢
    have hserved : ∃ k, order.toNat ≤ k ∧ s.p.zones k ≠ [] := ⟨k, hk, by rw [hz]; exact hne⟩
    have hfo : p'.fo = s.p.fo := congrArg (·.foBits.toNat) hl
    have hlo : p'.lo = s.p.lo := congrArg (·.startAddr.toNat) hl
    have hhi : p'.hi = s.p.hi := congrArg (·.endAddr.toNat) hl
    have hsum' := hrec.1.freeBytes_add
    simp only [receive, Pallocator.liveBytes_cons, hfo, hlo, hhi] at hsum'
    have hbytes : s.p.freeBytes = p'.freeBytes + 2 ^ (s.p.fo + order.toNat) := by omega
    have hlt := s.p.freeSpace.toNat_lt
    have hQ' : s.p.freeSpace.toNat = s.p.freeBytes := hQ
    constructor
    · intro hsmall
      have hle := hsmall hserved
      have hsize := s.p.getOrderSize_toNat hle
      refine ⟨⟨hrec.1, ?_, ?_⟩, ?_⟩
      · intro b hb
        simp only [receive, hfo] at hb ⊢
        rcases List.mem_cons.mp hb with rfl | hb
        · exact hle
        · exact h.small b hb
      · simp only [receive, hlo, hhi]
        exact h.canonical
      · change p'.freeSpace.toNat = p'.freeBytes
        have hfo' : s.p.foBits.toNat = s.p.fo := rfl
        rw [hfo'] at hsize
        rw [hspace, UInt64.toNat_sub_of_le _ _ (UInt64.le_iff_toNat_le.mpr (by omega)), hsize]
        omega
    · intro hbig hacc
      have hexp : 31 ≤ s.p.fo + order.toNat := by
        by_contra hn
        exact hbig fun _ => by omega
      have hacc' : p'.freeSpace.toNat = p'.freeBytes := hacc
      have hexp' : s.p.fo + order.toNat < 64 := by
        refine (Nat.pow_lt_pow_iff_right (a := 2) (by norm_num)).mp ?_
        omega
      have hs : s.p.getOrderSize order = intShl (UInt32.ofNat (s.p.fo + order.toNat)) := by
        rw [Layout.getOrderSize]
        congr 1
        apply UInt32.toNat_inj.mp
        have hfo' : s.p.fo = s.p.foBits.toNat := rfl
        rw [UInt32.toNat_add, UInt8.toNat_toUInt32, UInt8.toNat_toUInt32, UInt32.toNat_ofNat']
        omega
      refine intShl_ne hexp hexp' ?_
      rw [← hs]
      rw [hspace, UInt64.toNat_sub] at hacc'
      have hglt := (s.p.getOrderSize order).toNat_lt
      have hpos := Nat.two_pow_pos (s.p.fo + order.toNat)
      omega
  · rw [heq] at hrec ⊢
    refine ⟨fun _ => ⟨h, hQ⟩, fun hbig => absurd (fun hserved => ?_) hbig⟩
    obtain ⟨k, hk, hne⟩ := hserved
    rw [hz] at hne
    exact absurd (hall k hk) hne

/-- Freeing a live allocation returns its bytes to the lists but not to the counter. -/
lemma Counting.free_live (h : s.Counting) (hQ : s.Accounted) {b : Allocation} (hb : b ∈ s.live)
    {mem : UInt64} (hm : s.p.InFirstUnit b mem) :
    ¬ Accounted ⟨s.p.free mem, s.p.release s.live mem⟩ := by
  obtain ⟨q, hq, hB⟩ := id h.inv
  have hle := h.small b hb
  have hsum := hq.freeBytes_add
  have hput := hq.putZone hb hm hle
  have hcanon := h.canonical (hq.live_nonempty hb)
  obtain ⟨q', h', hs⟩ := Pallocator.Holds.mergeOrder_keeps 256 b.2 (z := b.1) hput (by simp)
    (show s.p.fo + b.2.toNat ≤ 31 by omega) hcanon
  have hfree := hq.free_some hb hm hle
  have h'' : (s.p.free mem).Holds (s.live.erase b) q' := by
    rw [hfree]
    exact h'
  have hfo : (s.p.free mem).fo = s.p.fo := by
    rw [hfree]
    exact hs.fo_eq
  have hlo : (s.p.free mem).lo = s.p.lo := by
    rw [hfree]
    exact hs.lo_eq
  have hhi : (s.p.free mem).hi = s.p.hi := by
    rw [hfree]
    exact hs.hi_eq
  have hspace : (s.p.free mem).freeSpace = s.p.freeSpace := by
    rw [hfree]
    exact hs.freeSpace
  have hsum' := h''.freeBytes_add
  have herase := Pallocator.liveBytes_erase s.p.fo hb
  rw [hfo, hlo, hhi] at hsum'
  intro hacc
  have hacc' : (s.p.free mem).freeSpace.toNat = (s.p.free mem).freeBytes := hacc
  have hQ' : s.p.freeSpace.toNat = s.p.freeBytes := hQ
  rw [hspace] at hacc'
  have hpos := Nat.two_pow_pos (s.p.fo + b.2.toNat)
  omega

lemma Counting.alloc (h : s.Counting) (hQ : s.Accounted) (n : UInt64) :
    (s.Harmless (.alloc n) → (s.receive (s.p.getOrder n) (s.p.alloc n)).Counting ∧
      (s.receive (s.p.getOrder n) (s.p.alloc n)).Accounted) ∧
    (¬ s.Harmless (.alloc n) → ¬ (s.receive (s.p.getOrder n) (s.p.alloc n)).Accounted) := by
  obtain ⟨h1, h2⟩ := h.receive_oalloc hQ (s.p.getOrder n)
  by_cases hn : n = 0
  · rw [Pallocator.alloc, if_pos hn]
    exact ⟨fun _ => ⟨h, hQ⟩, fun hbad => absurd (fun hne => absurd hn hne) hbad⟩
  · rw [Pallocator.alloc, if_neg hn]
    exact ⟨fun hP => h1 (hP hn), fun hbad => h2 fun hsmall => hbad fun _ => hsmall⟩

theorem Counting.step (h : s.Counting) (hQ : s.Accounted) {op : Op} (hP : s.Harmless op)
    (hs : s.step op = some s') : s'.Counting ∧ s'.Accounted := by
  cases op with
  | alloc n =>
    obtain rfl := Option.some.inj hs
    exact (h.alloc hQ n).1 hP
  | oalloc order =>
    obtain rfl := Option.some.inj hs
    exact (h.receive_oalloc hQ order).1 hP
  | free mem =>
    obtain rfl := Option.some.inj hs
    obtain ⟨q, hq, -⟩ := id h.inv
    rw [hq.free_none hP, Pallocator.release_of_forall hP]
    exact ⟨h, hQ⟩
  | write a node v =>
    rw [Session.step, Option.ite_none_right_eq_some] at hs
    obtain ⟨⟨b, hb, hba⟩, hs⟩ := hs
    obtain rfl := Option.some.inj hs
    obtain ⟨q, hq, hB⟩ := id h.inv
    have hq' := hq.write hb hba node v
    have hsum := hq.freeBytes_add
    have hsum' := hq'.freeBytes_add
    refine ⟨⟨⟨q, hq', hB⟩, h.small, h.canonical⟩, Eq.trans hQ ?_⟩
    exact Nat.add_right_cancel (hsum.trans hsum'.symm)

theorem Counting.step_bad (h : s.Counting) (hQ : s.Accounted) {op : Op} (hP : ¬ s.Harmless op) :
    ∃ s', s.step op = some s' ∧ ¬ s'.Accounted := by
  cases op with
  | alloc n => exact ⟨_, rfl, (h.alloc hQ n).2 hP⟩
  | oalloc order => exact ⟨_, rfl, (h.receive_oalloc hQ order).2 hP⟩
  | free mem =>
    simp only [Harmless, not_forall, not_not] at hP
    obtain ⟨b, hb, hm⟩ := hP
    exact ⟨_, rfl, h.free_live hQ hb hm⟩
  | write a node v => exact absurd trivial hP

end Session

section Runs
variable {startAddr endAddr firstOrderSize : UInt64} {links : Links UInt64} {n : UInt64 → UInt64}
  {metadata : UInt64 → Metadata} {k : ℕ} {p : Pallocator} {ops : List Op} {s : Session}

/-- Right after `init` the counter is exact. -/
lemma counting_of_init
    (hinit : Pallocator.init startAddr endAddr firstOrderSize links n metadata = some p)
    (hf : firstOrderSize.toNat = 2 ^ k) (hend : endAddr.toNat + 2 ^ 31 ≤ 2 ^ 64)
    (hcanon : endAddr.toNat ≤ 2 ^ 47 ∨ 2 ^ 64 - 2 ^ 47 ≤ startAddr.toNat) :
    Session.Counting ⟨p, []⟩ ∧ Session.Accounted ⟨p, []⟩ := by
  obtain ⟨q, t, hq, hB, hfill, ht, -⟩ := Pallocator.init_holds hinit hf hend
  have hsum := hq.freeBytes_add
  have hspace := hfill.space
  refine ⟨⟨⟨q, hq, hB⟩, by simp, fun hlt => ?_⟩, ?_⟩
  · obtain ⟨hle, hge⟩ := Pallocator.init_bounds hinit hf
    refine hcanon.imp (fun h => hle.trans h) fun h => ?_
    rcases hge with h0 | hge
    · -- a range that starts at 0 would have a zone at 0
      exfalso
      obtain ⟨d, ⟨j, a, ha, hb, -⟩, hd⟩ := hfill.tiles.cover p.lo le_rfl (ht ▸ hlt)
      have ha0 : a = 0 := UInt64.toNat_inj.mp (by
        have := hd.1
        change a.toNat = 0
        omega)
      exact hfill.nonzero j (ha0 ▸ ha)
    · exact h.trans hge
  · change p.freeSpace.toNat = p.freeBytes
    have hz : Pallocator.liveBytes p.fo [] = 0 := rfl
    omega

/-- `get_free_space ()` is right throughout a run exactly if the run frees no live allocation and
is handed no block of 2 GiB or more. -/
theorem accounted_iff_harmless
    (hinit : Pallocator.init startAddr endAddr firstOrderSize links n metadata = some p)
    (hf : firstOrderSize.toNat = 2 ^ k) (hend : endAddr.toNat + 2 ^ 31 ≤ 2 ^ 64)
    (hcanon : endAddr.toNat ≤ 2 ^ 47 ∨ 2 ^ 64 - 2 ^ 47 ≤ startAddr.toNat) (ops : List Op) :
    Machine.Throughout Session.step Session.Accounted ⟨p, []⟩ ops ↔
      Machine.Along Session.step Session.Harmless ⟨p, []⟩ ops := by
  obtain ⟨hC, hQ⟩ := counting_of_init hinit hf hend hcanon
  exact Machine.throughout_iff_along (I := Session.Counting)
    (fun s op s' hI hQ hP hs => hI.step hQ hP hs) (fun s op hI hQ hP => hI.step_bad hQ hP) hC hQ

theorem accounted_iff_harmless_pages : ∃ p,
    Pallocator.init 4096 65536 4096 (fun _ => ⟨none, none⟩) (fun _ => 0) (fun _ => ⟨false, 0⟩) =
      some p ∧
    (Machine.Throughout Session.step Session.Accounted ⟨p, []⟩ [.alloc 1, .free 57344] ↔
      Machine.Along Session.step Session.Harmless ⟨p, []⟩ [.alloc 1, .free 57344]) := by
  obtain ⟨p, hp⟩ := Option.isSome_iff_exists.mp (show (Pallocator.init 4096 65536 4096
    (fun _ => ⟨none, none⟩) (fun _ => 0) (fun _ => ⟨false, 0⟩)).isSome by decide +kernel)
  exact ⟨p, hp, accounted_iff_harmless (k := 12) hp rfl (by decide) (by decide) _⟩

/-- Fourteen pages; one is taken and returned. All of them are free again, but one page is missing
from the counter. -/
theorem not_accounted_after_free : ∃ p,
    Pallocator.init 4096 65536 4096 (fun _ => ⟨none, none⟩) (fun _ => 0) (fun _ => ⟨false, 0⟩) =
      some p ∧
    ¬ Machine.Throughout Session.step Session.Accounted ⟨p, []⟩ [.alloc 1, .free 57344] := by
  have h : ((Pallocator.init 4096 65536 4096 (fun _ => ⟨none, none⟩) (fun _ => 0)
      (fun _ => ⟨false, 0⟩)).bind fun p =>
        Machine.run Session.step ⟨p, []⟩ [.alloc 1, .free 57344]).map
      (fun s => (s.p.freeBytes, s.p.getFreeSpace.toNat)) = some (57344, 53248) := by
    decide +kernel
  obtain ⟨s, hs, hval⟩ := Option.map_eq_some_iff.mp h
  obtain ⟨p, hp, hrun⟩ := Option.bind_eq_some_iff.mp hs
  refine ⟨p, hp, fun ht => ?_⟩
  have hacc : s.p.getFreeSpace.toNat = s.p.freeBytes := ht _ [] s (List.append_nil _) hrun
  rw [Prod.mk.injEq] at hval
  omega

/-- Over several allocators the check of `addr_space::alloc` against `mem::get_free_space` refuses
no request for memory that is free, as long as every counter is right. -/
theorem not_refused_of_accounted (allocators : List Pallocator)
    (hacc : ∀ p ∈ allocators, p.getFreeSpace.toNat = p.freeBytes)
    (hsum : (allocators.map Pallocator.freeBytes).sum < 2 ^ 64) (n : UInt64)
    (hn : n.toNat ≤ (allocators.map Pallocator.freeBytes).sum) :
    ¬ n > Pallocator.memGetFreeSpace allocators := by
  have hfold : ∀ (as : List Pallocator) (out : UInt64),
      (∀ p ∈ as, p.getFreeSpace.toNat = p.freeBytes) →
      out.toNat + (as.map Pallocator.freeBytes).sum < 2 ^ 64 →
      (as.foldl (fun out p => out + p.getFreeSpace) out).toNat =
        out.toNat + (as.map Pallocator.freeBytes).sum := by
    intro as
    induction as with
    | nil => simp
    | cons p as ih =>
      intro out hacc hlt
      rw [List.map_cons, List.sum_cons] at hlt ⊢
      have hp := hacc p List.mem_cons_self
      have hadd : (out + p.getFreeSpace).toNat = out.toNat + p.freeBytes := by
        rw [UInt64.toNat_add, hp, Nat.mod_eq_of_lt (by omega)]
      rw [List.foldl_cons, ih _ (fun r hr => hacc r (List.mem_cons_of_mem _ hr)) (by omega), hadd]
      omega
  have htotal := hfold allocators 0 hacc (by simpa using hsum)
  rw [gt_iff_lt, UInt64.lt_iff_toNat_lt, Pallocator.memGetFreeSpace, htotal, UInt64.toNat_zero]
  omega

end Runs

end EpochKernel.Mem
