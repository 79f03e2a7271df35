import EpochKernel.Library.Run
import EpochKernel.Mem.PallocatorInit
import EpochKernel.Mem.PallocatorOrders

/-! Runs of the buddy allocator with arbitrary arguments. A session records which blocks clients
hold; they may overwrite the memory of these blocks at any time. -/
namespace EpochKernel.Mem
open EpochKernel.Util EpochKernel.Util.LinkedList EpochKernel.Library EpochKernel.Library.Block

namespace Pallocator
variable {p : Pallocator} {live : List Allocation} {q : ℕ → List UInt64} {order : UInt8}
  {mem : UInt64}

lemma pop_none (hf : Family p.links p.lists q) (hq : q order.toNat = []) : p.pop order = (none, p) := by
  have hr := hf.represents order.toNat
  rw [hq] at hr
  rw [Pallocator.pop, pop_nil hr]
  simp

lemma oalloc_tail {p' : Pallocator} {out : UInt64} (hp : (p'.pop order).1 = some out) :
    (match p'.pop order with
      | (none, p) => (none, p)
      | (some out, p) =>
        let p := p.setMeta out ⟨true, order &&& 0x7f⟩
        (some out, { p with freeSpace := p.freeSpace - p.getOrderSize order })) =
      (some out, { (p'.pop order).2.setMeta out ⟨true, order &&& 0x7f⟩ with
        freeSpace := p'.freeSpace - p'.getOrderSize order }) := by
  have h : p'.pop order = (some out, (p'.pop order).2) := Prod.ext hp rfl
  rw [h]
  rfl

/-- `oalloc` either hands out a block of the requested order or leaves everything as it is, and
then there is no free zone of that order or above. The zones of lower orders stay. -/
theorem Holds.oalloc (h : Holds p live q) (hB : BuddyFree (blocksOf p.fo q)) (order : UInt8) :
    (∃ p' q' out, p.oalloc order = (some out, p') ∧ Holds p' ((out, order) :: live) q' ∧
      BuddyFree (blocksOf p.fo q') ∧ p'.toLayout = p.toLayout ∧
      p'.freeSpace = p.freeSpace - p.getOrderSize order ∧
      p'.metadata = Function.update p.metadata (p.getMeta out) ⟨true, order &&& 0x7f⟩ ∧
      Spares (heldBytes p.fo live) p p' ∧ (∀ k < order.toNat, q' k = q k) ∧
      ∃ k, order.toNat ≤ k ∧ q k ≠ []) ∨
    (p.oalloc order = (none, p) ∧ ∀ k, order.toNat ≤ k → q k = []) := by
  by_cases hord : order > p.maxOrder
  · refine Or.inr ⟨by rw [Pallocator.oalloc, if_pos hord], fun k hk => ?_⟩
    by_contra hne
    obtain ⟨a, ha⟩ := List.exists_mem_of_ne_nil _ hne
    have := h.order_le ha
    rw [gt_iff_lt, UInt8.lt_iff_toNat_lt] at hord
    omega
  have hle : order.toNat ≤ p.maxOrder.toNat := by
    rw [gt_iff_lt, UInt8.lt_iff_toNat_lt] at hord
    omega
  have hlt := h.layout.order_lt
  simp only [maxSupportedMemBits] at hlt
  rw [Pallocator.oalloc, if_neg hord]
  by_cases hlen : (p.lists order.toNat).len = 0
  · have hq := h.len_eq_zero.mp hlen
    have hsucc : (order + 1).toNat = order.toNat + 1 := by
      rw [UInt8.toNat_add, UInt8.toNat_one]
      omega
    rcases h.populateOrder 256 hB hsucc hq (by omega) with
      ⟨p', q', z, z2, heq, h', hs, hsp, hqo, hqk, hpair, k, hk, hne⟩ | ⟨heq, hall⟩
    · -- the second half of the new pair is handed out, the first half stays
      have hqo' : q' order.toNat = [z] ++ [z2] := hqo
      obtain ⟨hpop, -⟩ := pop_family h'.family hqo'
      have h'' := h'.takeZone hqo' (p'.freeSpace - p'.getOrderSize order)
      refine Or.inl ⟨_, _, z2, ?_, h'', ?_, hs.layout, ?_, ?_, ⟨hsp.links, hsp.n⟩,
        fun j hj => (Function.update_of_ne hj.ne ..).trans (hqk j hj), k, by omega, hne⟩
      · simp only [if_pos hlen, heq]
        exact oalloc_tail hpop
      · have hz2 : z2 ∈ q' order.toNat := by simp [hqo]
        have hF := blocksOf_update_dropLast p.fo (k := order.toNat)
          (d := p'.block order.toNat z2 (h'.zone _ z2 hz2).1) h'.family hqo' rfl
          (by rw [← hs.fo_eq]; rfl)
        rw [hF]
        exact buddyFree_of_pair hqo hpair rfl (by rw [← hs.fo_eq]; rfl)
      · change p'.freeSpace - p'.getOrderSize order = _
        rw [hs.freeSpace, hs.layout]
      · change Function.update p'.metadata (p'.getMeta z2) _ = _
        rw [hs.metadata, hs.layout]
    · refine Or.inr ⟨?_, fun k hk => ?_⟩
      · simp only [if_pos hlen, heq, pop_none h.family hq]
      · rcases Nat.eq_or_lt_of_le hk with rfl | hk
        · exact hq
        · exact hall k (by omega)
  · have hq : q order.toNat ≠ [] := fun he => hlen (h.len_eq_zero.mpr he)
    have hqo := (List.dropLast_append_getLast hq).symm
    obtain ⟨hpop, -⟩ := pop_family h.family hqo
    refine Or.inl ⟨_, _, _, ?_, h.takeZone hqo (p.freeSpace - p.getOrderSize order), ?_, rfl, rfl,
      rfl, ⟨fun _ _ => rfl, fun _ _ => rfl⟩, fun j hj => Function.update_of_ne hj.ne .., order.toNat,
      le_rfl, hq⟩
    · simp only [if_neg hlen]
      exact oalloc_tail hpop
    · have hz : (q order.toNat).getLast hq ∈ q order.toNat := List.getLast_mem hq
      have hF := blocksOf_update_dropLast p.fo (k := order.toNat)
        (d := p.block order.toNat _ (h.zone _ _ hz).1) h.family hqo rfl rfl
      rw [hF]
      exact hB.mono Set.sdiff_subset

/-- The allocations left after `free (mem)`. -/
def release (p : Pallocator) (live : List Allocation) (mem : UInt64) : List Allocation :=
  live.filter fun b => !p.InFirstUnit b mem

lemma Holds.release_eq (h : Holds p live q) {b : Allocation} (hb : b ∈ live)
    (hm : p.InFirstUnit b mem) : p.release live mem = live.erase b := by
  rw [release, h.nodup.erase_eq_filter]
  refine List.filter_congr fun c hc => ?_
  by_cases hcm : p.InFirstUnit c mem
  · have := h.eq_of_inFirstUnit _ hc hb hcm hm
    simp [this, hm]
  · have : c ≠ b := fun he => hcm (he ▸ hm)
    simp [hcm, this]

lemma release_of_forall (hn : ∀ b ∈ live, ¬ p.InFirstUnit b mem) : p.release live mem = live := by
  rw [release, List.filter_eq_self]
  intro b hb
  simpa using hn b hb

/-- `free` of an address outside every first unit changes nothing. -/
theorem Holds.free_none (h : Holds p live q) (hn : ∀ b ∈ live, ¬ p.InFirstUnit b mem) :
    p.free mem = p := by
  rw [Pallocator.free]
  by_cases hout : mem < p.startAddr ∨ mem ≥ p.endAddr
  · rw [if_pos hout]
  rw [if_neg hout]
  rw [not_or, ge_iff_le, UInt64.lt_iff_toNat_lt, UInt64.le_iff_toNat_le] at hout
  have hal : ¬ (p.metadata (p.getMeta mem)).alloced = true := by
    rw [h.alloced_iff (Nat.not_lt.mp hout.1) (Nat.not_le.mp hout.2)]
    rintro ⟨b, hb, hm⟩
    exact hn b hb hm
  simp [hal]

/-- `free` of an address in a first unit puts the block on its list and merges from there. -/
theorem Holds.free_some (h : Holds p live q) {b : Allocation} (hb : b ∈ live)
    (hm : p.InFirstUnit b mem) (hsmall : p.fo + b.2.toNat ≤ 30) :
    p.free mem = (((p.setMeta mem ⟨false, b.2⟩).setN b.1 (p.getOrderSize b.2)).append b.2 b.1).mergeOrder
      256 b.1 b.2 p.maxOrder := by
  have hlo := (h.live_bounds hb).1
  have hhi := h.first_unit_le hb
  have h1 := hm.1
  have h2 := hm.2
  have hout : ¬ (mem < p.startAddr ∨ mem ≥ p.endAddr) := by
    rw [not_or, ge_iff_le, UInt64.lt_iff_toNat_lt, UInt64.le_iff_toNat_le]
    simp only [lo, hi] at hlo hhi
    omega
  have hal : (p.metadata (p.getMeta mem)).alloced = true :=
    (h.alloced_iff (by omega) (by omega)).mpr ⟨b, hb, hm⟩
  have hord : (p.metadata (p.getMeta mem)).order = b.2 := by
    rw [h.getMeta_eq hb hm]
    exact h.order b hb
  have hdown := h.alignDown_eq hb hm hsmall
  rw [Pallocator.free, if_neg hout]
  simp only [hal, hord, Bool.not_true, Bool.false_eq_true, if_false, setMeta_toLayout, hdown,
    append_toLayout, setN_toLayout]

theorem Holds.free (h : Holds p live q) (hB : BuddyFree (blocksOf p.fo q)) {b : Allocation}
    (hb : b ∈ live) (hm : p.InFirstUnit b mem) (hsmall : p.fo + p.maxOrder.toNat ≤ 30) :
    ∃ q', Holds (p.free mem) (live.erase b) q' ∧ BuddyFree (blocksOf p.fo q') ∧
      (p.free mem).toLayout = p.toLayout ∧ (p.free mem).freeSpace = p.freeSpace ∧
      (p.free mem).metadata = Function.update p.metadata (p.getMeta mem) ⟨false, b.2⟩ ∧
      Spares (heldBytes p.fo (live.erase b)) p (p.free mem) := by
  have hle : p.fo + b.2.toNat ≤ 30 := by
    have := h.live_order_le hb
    omega
  have hput := h.putZone hb hm hle
  have hF := blocksOf_append p.fo (q := q) (k := b.2.toNat) (a := b.1)
    (d := p.block b.2.toNat b.1 (h.allocation b hb)) rfl rfl
  have hlt := h.layout.order_lt
  simp only [maxSupportedMemBits] at hlt
  rw [h.free_some hb hm hle]
  have hfresh : b.1.toNat ∉ heldBytes p.fo (live.erase b) := by
    rintro ⟨d, ⟨c, hc, hbase, hexp⟩, hx⟩
    obtain ⟨hne, hc⟩ := h.nodup.mem_erase_iff.mp hc
    have he := h.tiles.disjoint _ (Or.inr ⟨c, hc, hbase, hexp⟩) _ (Or.inr (h.live_mem hb)) _ hx
      (base_mem (p.block b.2.toNat b.1 (h.allocation b hb)))
    have h1 : d.base = b.1.toNat := congrArg Block.base he
    have h2 : d.exp = p.fo + b.2.toNat := congrArg Block.exp he
    exact hne (Prod.ext (UInt64.toNat_inj.mp (hbase.symm.trans h1)) (UInt8.toNat_inj.mp (by omega)))
  have hnew : ∀ j, b.1 ∉ q j := fun j hj =>
    h.zone_notMem_held hj ⟨_, h.live_mem hb, base_mem _⟩
  have hsub : heldBytes p.fo (live.erase b) ⊆ heldBytes p.fo live := by
    rintro x ⟨d, ⟨c, hc, hd⟩, hx⟩
    exact ⟨d, ⟨c, List.mem_of_mem_erase hc, hd⟩, hx⟩
  have hsize := setN_spares (p := p.setMeta mem ⟨false, b.2⟩) hfresh (p.getOrderSize b.2)
  have happend := append_spares (p := (p.setMeta mem ⟨false, b.2⟩).setN b.1 (p.getOrderSize b.2))
    (o := b.2) h.family hnew hfresh fun j y hy hx => h.zone_notMem_held hy (hsub hx)
  have hput' : Spares (heldBytes p.fo (live.erase b)) p
      (((p.setMeta mem ⟨false, b.2⟩).setN b.1 (p.getOrderSize b.2)).append b.2 b.1) :=
    ⟨fun a ha => (hsize.trans happend).links a ha, fun a ha => (hsize.trans happend).n a ha⟩
  obtain ⟨q', h', hB', hs, hsp⟩ := Holds.mergeOrder 256 b.2 (z := b.1)
    (A := p.block b.2.toNat b.1 (h.allocation b hb)) hput (by simp)
    (show p.maxOrder.toNat < b.2.toNat + 256 by omega) rfl rfl hsmall
    (by
      change BuddyFree (blocksOf p.fo _ \ _)
      rw [hF]
      refine hB.mono ?_
      rintro e ⟨he | he, hne⟩
      · exact he
      · exact absurd he hne)
  exact ⟨q', h', hB', hs.layout, hs.freeSpace, hs.metadata, hput'.trans hsp⟩

/-- Clients may overwrite memory inside their blocks. -/
theorem Holds.write (h : Holds p live q) {b : Allocation} (hb : b ∈ live) {a : UInt64}
    (ha : a.toNat ∈ p.block b.2.toNat b.1 (h.allocation b hb)) (node : ListNode UInt64)
    (v : UInt64) :
    Holds { p with links := Function.update p.links a node, n := Function.update p.n a v } live q := by
  have hne : ∀ k, ∀ z ∈ q k, z ≠ a := by
    rintro k z hz rfl
    have hl := h.live_mem hb
    have he := h.tiles.disjoint _ (Or.inl (h.block_mem hz)) _ (Or.inr hl) z.toNat (base_mem _) ha
    exact h.separate _ (h.block_mem hz) (he ▸ hl)
  refine ⟨h.layout, ⟨fun k => (h.family.represents k).congr fun z hz => ?_, h.family.disjoint⟩, ?_,
    h.allocation, h.tiles, h.separate, h.nodup, h.alloced, h.order⟩
  · exact Function.update_of_ne (hne k z hz) _ _
  · intro k z hz
    change _ ∧ (Function.update p.n a v z).toNat = _
    rw [Function.update_of_ne (hne k z hz)]
    exact h.zone k z hz

end Pallocator

/-- The allocator together with the blocks that clients hold. -/
structure Session where
  p : Pallocator
  live : List Allocation

inductive Op
  | alloc (n : UInt64)
  | oalloc (order : UInt8)
  | free (mem : UInt64)
  | write (a : UInt64) (node : ListNode UInt64) (n : UInt64)

namespace Session

/-- The session after a request of a block of the given order. -/
def receive (s : Session) (order : UInt8) : Option UInt64 × Pallocator → Session
  | (none, p) => ⟨p, s.live⟩
  | (some out, p) => ⟨p, (out, order) :: s.live⟩

/-- `a` lies in a block held by a client. -/
def Owns (s : Session) (a : UInt64) : Prop :=
  ∃ b ∈ s.live, b.1.toNat ≤ a.toNat ∧ a.toNat < b.1.toNat + 2 ^ (s.p.fo + b.2.toNat)

instance (s : Session) (a : UInt64) : Decidable (s.Owns a) :=
  inferInstanceAs (Decidable (∃ b ∈ s.live, _))

def step : Machine Session Op
  | s, .alloc n => some (s.receive (s.p.getOrder n) (s.p.alloc n))
  | s, .oalloc order => some (s.receive order (s.p.oalloc order))
  | s, .free mem => some ⟨s.p.free mem, s.p.release s.live mem⟩
  | s, .write a node v =>
    if s.Owns a then
      some { s with p := { s.p with
        links := Function.update s.p.links a node, n := Function.update s.p.n a v } }
    else none

/-- What holds between two operations. -/
def Inv (s : Session) : Prop :=
  ∃ q, s.p.Holds s.live q ∧ BuddyFree (blocksOf s.p.fo q)

/-- The blocks of the highest order are at most 1 GiB. -/
def Small (s : Session) : Prop := s.p.lo < s.p.hi → s.p.fo + s.p.maxOrder.toNat ≤ 30

variable {s s' : Session}

lemma Small.of_layout (h : s.Small) (hl : s'.p.toLayout = s.p.toLayout) : s'.Small := by
  intro hlt
  have hlo : s'.p.lo = s.p.lo := congrArg (·.startAddr.toNat) hl
  have hhi : s'.p.hi = s.p.hi := congrArg (·.endAddr.toNat) hl
  have hfo : s'.p.fo = s.p.fo := congrArg (·.foBits.toNat) hl
  have hm : s'.p.maxOrder = s.p.maxOrder := congrArg (·.maxOrder) hl
  rw [hfo, hm]
  exact h (by omega)

lemma Inv.receive_oalloc (h : s.Inv) (order : UInt8) :
    (s.receive order (s.p.oalloc order)).Inv ∧
      (s.receive order (s.p.oalloc order)).p.toLayout = s.p.toLayout := by
  obtain ⟨q, hq, hB⟩ := h
  rcases hq.oalloc hB order with ⟨p', q', out, heq, h', hB', hl, -⟩ | ⟨heq, -⟩
  · rw [heq]
    refine ⟨⟨q', h', ?_⟩, hl⟩
    have hfo : p'.fo = s.p.fo := congrArg (·.foBits.toNat) hl
    change BuddyFree (blocksOf p'.fo q')
    rw [hfo]
    exact hB'
  · rw [heq]
    exact ⟨⟨q, hq, hB⟩, rfl⟩

lemma Inv.receive_alloc (h : s.Inv) (n : UInt64) :
    (s.receive (s.p.getOrder n) (s.p.alloc n)).Inv ∧
      (s.receive (s.p.getOrder n) (s.p.alloc n)).p.toLayout = s.p.toLayout := by
  by_cases hn : n = 0
  · rw [Pallocator.alloc, if_pos hn]
    exact ⟨h, rfl⟩
  · rw [Pallocator.alloc, if_neg hn]
    exact h.receive_oalloc _

lemma Inv.free (h : s.Inv) (hsmall : s.Small) (mem : UInt64) :
    Inv ⟨s.p.free mem, s.p.release s.live mem⟩ ∧ (s.p.free mem).toLayout = s.p.toLayout := by
  obtain ⟨q, hq, hB⟩ := h
  by_cases hm : ∃ b ∈ s.live, s.p.InFirstUnit b mem
  · obtain ⟨b, hb, hm⟩ := hm
    obtain ⟨q', h', hB', hl, -⟩ := hq.free hB hb hm (hsmall (hq.live_nonempty hb))
    refine ⟨⟨q', by rw [hq.release_eq hb hm]; exact h', ?_⟩, hl⟩
    have hfo : (s.p.free mem).fo = s.p.fo := congrArg (·.foBits.toNat) hl
    change BuddyFree (blocksOf (s.p.free mem).fo q')
    rw [hfo]
    exact hB'
  · have hn : ∀ b ∈ s.live, ¬ s.p.InFirstUnit b mem := fun b hb hbm => hm ⟨b, hb, hbm⟩
    rw [hq.free_none hn, Pallocator.release_of_forall hn]
    exact ⟨⟨q, hq, hB⟩, rfl⟩

theorem Inv.step (h : s.Inv) (hsmall : s.Small) {op : Op} (hs : s.step op = some s') :
    s'.Inv ∧ s'.p.toLayout = s.p.toLayout := by
  cases op with
  | alloc n =>
    obtain rfl := Option.some.inj hs
    exact h.receive_alloc n
  | oalloc order =>
    obtain rfl := Option.some.inj hs
    exact h.receive_oalloc order
  | free mem =>
    obtain rfl := Option.some.inj hs
    exact h.free hsmall mem
  | write a node v =>
    rw [Session.step, Option.ite_none_right_eq_some] at hs
    obtain ⟨⟨b, hb, hba⟩, hs⟩ := hs
    obtain rfl := Option.some.inj hs
    obtain ⟨q, hq, hB⟩ := h
    exact ⟨⟨q, hq.write hb hba node v, hB⟩, rfl⟩

/-- Every state of a run has the invariant and the layout of the first state. -/
theorem Inv.run (h : s.Inv) (hsmall : s.Small) {ops : List Op}
    (hr : Machine.run Session.step s ops = some s') : s'.Inv ∧ s'.p.toLayout = s.p.toLayout := by
  have hI := Machine.run_invariant (I := fun t => t.Inv ∧ t.p.toLayout = s.p.toLayout)
    (fun t op t' ht hs => ?_) ⟨h, rfl⟩ hr
  · exact hI
  · obtain ⟨h', hl⟩ := ht.1.step (hsmall.of_layout ht.2) hs
    exact ⟨h', hl.trans ht.2⟩

end Session

section Runs
variable {startAddr endAddr firstOrderSize : UInt64} {links : Links UInt64} {n : UInt64 → UInt64}
  {metadata : UInt64 → Metadata} {k : ℕ} {p : Pallocator} {ops : List Op} {s : Session}

lemma small_of_init
    (hinit : Pallocator.init startAddr endAddr firstOrderSize links n metadata = some p)
    (hf : firstOrderSize.toNat = 2 ^ k) (hend : endAddr.toNat + 2 ^ 31 ≤ 2 ^ 64)
    (hsize : ∀ k, ∀ z ∈ p.zones k, (p.n z).toNat ≤ 2 ^ 30) : Session.Small ⟨p, []⟩ := by
  obtain ⟨q, t, hq, -, hfill, ht, -⟩ := Pallocator.init_holds hinit hf hend
  intro hlt
  refine hfill.small ht hlt fun k z hz => hsize k z ?_
  rw [hq.zones_eq]
  exact hz

/-- In a range below 1 GiB no zone is larger than that. -/
lemma size_le_of_init
    (hinit : Pallocator.init startAddr endAddr firstOrderSize links n metadata = some p)
    (hf : firstOrderSize.toNat = 2 ^ k) (hend : endAddr.toNat ≤ 2 ^ 30) :
    ∀ k, ∀ z ∈ p.zones k, (p.n z).toNat ≤ 2 ^ 30 := by
  obtain ⟨q, t, hq, -⟩ := Pallocator.init_holds hinit hf (by omega)
  have hhi := (Pallocator.init_bounds hinit hf).1
  intro k z hz
  rw [hq.zones_eq] at hz
  have hb := (hq.bounds hz).2
  rw [(hq.zone k z hz).2]
  omega

/-- The tiling, read from the lists and the metadata as the code finds them. -/
structure Session.Tiled (s : Session) : Prop where
  lists : ∀ k, Represents s.p.links (s.p.lists k) (s.p.zones k)
  above : ∀ k, s.p.maxOrder.toNat < k → s.p.zones k = []
  unit : s.p.firstOrderSize.toNat = 2 ^ s.p.fo
  zone : ∀ k, ∀ z ∈ s.p.zones k,
    2 ^ (s.p.fo + k) ∣ z.toNat ∧ (s.p.n z).toNat = s.p.firstOrderSize.toNat * 2 ^ k
  allocation : ∀ b ∈ s.live, 2 ^ (s.p.fo + b.2.toNat) ∣ b.1.toNat
  tiles : Tiles (blocksOf s.p.fo s.p.zones ∪ liveBlocks s.p.fo s.live)
    s.p.startAddr.toNat s.p.endAddr.toNat
  separate : ∀ d ∈ blocksOf s.p.fo s.p.zones, d ∉ liveBlocks s.p.fo s.live
  nodup : s.live.Nodup
  alloced : ∀ mem : UInt64, s.p.startAddr ≤ mem → mem < s.p.endAddr →
    ((s.p.metadata (s.p.getMeta mem)).alloced = true ↔ ∃ b ∈ s.live, s.p.InFirstUnit b mem)
  order : ∀ b ∈ s.live, (s.p.metadata (s.p.getMeta b.1)).order = b.2

lemma Session.Inv.tiled (h : s.Inv) : s.Tiled := by
  obtain ⟨q, hq, -⟩ := h
  have hz : s.p.zones = q := funext hq.zones_eq
  have hunit : s.p.firstOrderSize.toNat = 2 ^ s.p.fo := hq.layout.unit
  refine ⟨fun k => hz ▸ hq.family.represents k, fun k hk => ?_, hunit, fun k z hzk => ?_,
    hq.allocation, hz ▸ hq.tiles, hz ▸ hq.separate, hq.nodup, fun mem h1 h2 => ?_, hq.order⟩
  · rw [hz]
    by_contra hne
    obtain ⟨a, ha⟩ := List.exists_mem_of_ne_nil _ hne
    have := hq.order_le ha
    omega
  · rw [hz] at hzk
    rw [hunit, ← pow_add]
    exact hq.zone k z hzk
  · exact hq.alloced_iff h1 h2

/-- After any run the free zones and the live allocations tile the range, the metadata describes
the live allocations, and `free` acts on the first units of these only. -/
theorem tiled_of_run
    (hinit : Pallocator.init startAddr endAddr firstOrderSize links n metadata = some p)
    (hf : firstOrderSize.toNat = 2 ^ k) (hend : endAddr.toNat + 2 ^ 31 ≤ 2 ^ 64)
    (hsize : ∀ k, ∀ z ∈ p.zones k, (p.n z).toNat ≤ 2 ^ 30)
    (hrun : Machine.run Session.step ⟨p, []⟩ ops = some s) :
    s.Tiled ∧ s.p.toLayout = p.toLayout ∧
    ∀ mem : UInt64,
      ((∀ b ∈ s.live, ¬ s.p.InFirstUnit b mem) → s.p.free mem = s.p) ∧
      ∀ b ∈ s.live, s.p.InFirstUnit b mem →
        s.step (.free mem) = some ⟨s.p.free mem, s.live.erase b⟩ ∧
        Session.Tiled ⟨s.p.free mem, s.live.erase b⟩ := by
  obtain ⟨q0, -, hq0, hB0, -⟩ := Pallocator.init_holds hinit hf hend
  have hsmall0 := small_of_init hinit hf hend hsize
  obtain ⟨hI, hl⟩ := Session.Inv.run ⟨q0, hq0, hB0⟩ hsmall0 hrun
  refine ⟨hI.tiled, hl, fun mem => ?_⟩
  obtain ⟨q, hq, -⟩ := id hI
  refine ⟨hq.free_none, fun b hb hm => ?_⟩
  have hfree := (hI.free (hsmall0.of_layout hl) mem).1
  rw [hq.release_eq hb hm] at hfree
  exact ⟨by rw [Session.step, hq.release_eq hb hm], hfree.tiled⟩

theorem tiled_of_run_pages : ∃ p s,
    Pallocator.init 4096 65536 4096 (fun _ => ⟨none, none⟩) (fun _ => 0) (fun _ => ⟨false, 0⟩) =
      some p ∧
    Machine.run Session.step ⟨p, []⟩ [.alloc 5000, .free 4096, .oalloc 0, .free 50000] = some s ∧
    s.Tiled := by
  obtain ⟨p, hp⟩ := Option.isSome_iff_exists.mp (show (Pallocator.init 4096 65536 4096
    (fun _ => ⟨none, none⟩) (fun _ => 0) (fun _ => ⟨false, 0⟩)).isSome by decide +kernel)
  have hf : (4096 : UInt64).toNat = 2 ^ 12 := rfl
  exact ⟨p, _, hp, rfl, (tiled_of_run hp hf (by decide) (size_le_of_init hp hf (by decide))
    (show Machine.run Session.step ⟨p, []⟩ [.alloc 5000, .free 4096, .oalloc 0, .free 50000] =
      some _ from rfl)).1⟩

/-- No two free zones are buddies, `oalloc` fails only when it must, and a session that has
returned all its blocks is back at the zones made by `init`. -/
theorem coalesced_of_run
    (hinit : Pallocator.init startAddr endAddr firstOrderSize links n metadata = some p)
    (hf : firstOrderSize.toNat = 2 ^ k) (hend : endAddr.toNat + 2 ^ 31 ≤ 2 ^ 64)
    (hsize : ∀ k, ∀ z ∈ p.zones k, (p.n z).toNat ≤ 2 ^ 30)
    (hrun : Machine.run Session.step ⟨p, []⟩ ops = some s) :
    (∀ k, ∀ z ∈ s.p.zones k, ∀ w ∈ s.p.zones k,
      w.toNat ≠ z.toNat ^^^ (s.p.firstOrderSize.toNat * 2 ^ k)) ∧
    (∀ k, s.p.maxOrder.toNat < k → s.p.zones k = []) ∧
    (∀ order, ((s.p.oalloc order).1 = none ↔ ∀ k, order.toNat ≤ k → s.p.zones k = []) ∧
      ((s.p.oalloc order).1 = none → (s.p.oalloc order).2 = s.p)) ∧
    (s.live = [] → ∀ k z, z ∈ s.p.zones k ↔ z ∈ p.zones k) := by
  obtain ⟨q0, -, hq0, hB0, -⟩ := Pallocator.init_holds hinit hf hend
  obtain ⟨hI, hl⟩ := Session.Inv.run ⟨q0, hq0, hB0⟩ (small_of_init hinit hf hend hsize) hrun
  have htiled := hI.tiled
  obtain ⟨q, hq, hB⟩ := hI
  have hz : s.p.zones = q := funext hq.zones_eq
  refine ⟨fun k z hzk w hwk he => ?_, htiled.above, fun order => ?_, fun hlive => ?_⟩
  · rw [hz] at hzk hwk
    refine hB _ (hq.block_mem hzk) ⟨k, w, hwk, ?_, rfl⟩
    rw [he, htiled.unit, ← pow_add]
    exact (Pallocator.xor_size (s.p.block k z (hq.zone k z hzk).1)).symm
  · rw [hz]
    rcases hq.oalloc hB order with ⟨p', q', out, heq, -, -, -, -, -, -, -, j, hj, hne⟩ |
      ⟨heq, hall⟩
    · rw [heq]
      exact ⟨⟨fun h0 => absurd h0 (by simp), fun hall => absurd (hall j hj) hne⟩,
        fun h0 => absurd h0 (by simp)⟩
    · rw [heq]
      exact ⟨⟨fun _ => hall, fun _ => rfl⟩, fun _ => rfl⟩
  · have hfo : s.p.fo = p.fo := congrArg (·.foBits.toNat) hl
    have hlo : s.p.lo = p.lo := congrArg (·.startAddr.toNat) hl
    have hhi : s.p.hi = p.hi := congrArg (·.endAddr.toNat) hl
    have hL : ∀ fo, liveBlocks fo [] = ∅ := by
      intro fo
      ext d
      simp [liveBlocks]
    have h1 := hq.tiles
    have h2 := hq0.tiles
    rw [hlive, hL, Set.union_empty, hfo, hlo, hhi] at h1
    rw [hL, Set.union_empty] at h2
    rw [hfo] at hB
    have hset := h1.eq_of_buddyFree h2 hB hB0
    have hmem : ∀ r : ℕ → List UInt64, (∀ k, ∀ a ∈ r k, 2 ^ (p.fo + k) ∣ a.toNat) → ∀ k z,
        z ∈ r k ↔ ∃ d ∈ blocksOf p.fo r, d.base = z.toNat ∧ d.exp = p.fo + k := by
      intro r hr k z
      constructor
      · exact fun hzk => ⟨⟨z.toNat, p.fo + k, hr k z hzk⟩, ⟨k, z, hzk, rfl, rfl⟩, rfl, rfl⟩
      · rintro ⟨d, hd, hb, he⟩
        obtain ⟨a, ha, hab⟩ := exists_of_exp hd he
        rwa [UInt64.toNat_inj.mp (hb.symm.trans hab)]
    intro k z
    rw [hz, show p.zones = q0 from funext hq0.zones_eq,
      hmem q (fun k a ha => hfo ▸ (hq.zone k a ha).1), hmem q0 (fun k a ha => (hq0.zone k a ha).1),
      hset]

theorem coalesced_of_run_pages : ∃ p s,
    Pallocator.init 4096 65536 4096 (fun _ => ⟨none, none⟩) (fun _ => 0) (fun _ => ⟨false, 0⟩) =
      some p ∧
    Machine.run Session.step ⟨p, []⟩ [.alloc 5000, .free 4096, .oalloc 0, .free 50000] = some s ∧
    ∀ k, s.p.maxOrder.toNat < k → s.p.zones k = [] := by
  obtain ⟨p, hp⟩ := Option.isSome_iff_exists.mp (show (Pallocator.init 4096 65536 4096
    (fun _ => ⟨none, none⟩) (fun _ => 0) (fun _ => ⟨false, 0⟩)).isSome by decide +kernel)
  have hf : (4096 : UInt64).toNat = 2 ^ 12 := rfl
  exact ⟨p, _, hp, rfl, (coalesced_of_run hp hf (by decide) (size_le_of_init hp hf (by decide))
    (show Machine.run Session.step ⟨p, []⟩ [.alloc 5000, .free 4096, .oalloc 0, .free 50000] =
      some _ from rfl)).2.1⟩

end Runs
end EpochKernel.Mem
