import EpochKernel.Mem.PallocatorRealloc

/-! The invariant of a pool of allocators and their clients, over the calls and over what `realloc`
does with the memory in between. -/
namespace EpochKernel.Mem
open EpochKernel.Util EpochKernel.Util.LinkedList EpochKernel.Library EpochKernel.Library.Block

namespace Pallocator
variable {p : Pallocator} {live live' : List Allocation} {q : ℕ → List UInt64} {b : Allocation}
  {mem n : UInt64}

/-- The blocks in use can be listed in any order. -/
lemma Holds.perm (h : Holds p live q) (hp : live'.Perm live) : Holds p live' q := by
  have hmem (b : Allocation) : b ∈ live' ↔ b ∈ live := hp.mem_iff
  have hlive : liveBlocks p.fo live' = liveBlocks p.fo live := by
    ext d
    simp only [liveBlocks, hmem]
  refine { h with allocation := fun b hb => h.allocation b ((hmem b).mp hb), tiles := ?_,
                  separate := ?_, nodup := hp.nodup_iff.mpr h.nodup,
                  alloced := fun a h1 h2 h3 => ?_, order := fun b hb => h.order b ((hmem b).mp hb) }
  · rw [hlive]
    exact h.tiles
  · rw [hlive]
    exact h.separate
  · rw [h.alloced a h1 h2 h3]
    simp only [hmem]

/-- Only the headers of the free zones matter to the allocator. -/
lemma Holds.overwrite (h : Holds p live q) {links : Links UInt64} {size : UInt64 → UInt64}
    (hw : ∀ k, ∀ z ∈ q k, links z = p.links z ∧ size z = p.n z) :
    Holds { p with links := links, n := size } live q := by
  refine ⟨h.layout, ⟨fun k => (h.family.represents k).congr fun z hz => (hw k z hz).1,
    h.family.disjoint⟩, fun k z hz => ?_, h.allocation, h.tiles, h.separate, h.nodup, h.alloced,
    h.order⟩
  change _ ∧ (size z).toNat = _
  rw [(hw k z hz).2]
  exact h.zone k z hz

/-- An allocator of a pool: its zones and blocks fill its range, which does not begin at `NULL`, and
no metadata byte names an order above 1 GiB. -/
structure Kept (p : Pallocator) (live : List Allocation) : Prop where
  inv : Session.Inv ⟨p, live⟩
  small : Session.Small ⟨p, live⟩
  page : 12 ≤ p.fo
  pos : p.lo < p.hi → 0 < p.lo
  recorded : ∀ a : UInt64, p.lo ≤ a.toNat → a.toNat < p.hi →
    p.fo + (p.metadata (p.getMeta a)).order.toNat ≤ 30

lemma Kept.perm (h : p.Kept live) (hp : live'.Perm live) : p.Kept live' := by
  obtain ⟨q, hq, hB⟩ := h.inv
  exact { h with inv := ⟨q, hq.perm hp, hB⟩, small := h.small }

/-- The fields that depend on the layout and on the metadata, after a change of one byte. -/
lemma Kept.of_update (h : p.Kept live) {p' : Pallocator} (hinv : Session.Inv ⟨p', live'⟩)
    (hl : p'.toLayout = p.toLayout) {a : UInt64} {m : Metadata}
    (hm : p'.metadata = Function.update p.metadata (p.getMeta a) m)
    (ho : p.fo + m.order.toNat ≤ 30) : p'.Kept live' := by
  have hlo : p'.lo = p.lo := congrArg (·.startAddr.toNat) hl
  have hhi : p'.hi = p.hi := congrArg (·.endAddr.toNat) hl
  have hfo : p'.fo = p.fo := congrArg (·.foBits.toNat) hl
  refine ⟨hinv, Session.Small.of_layout (s := ⟨p, live⟩) h.small hl, hfo ▸ h.page, hlo ▸ hhi ▸ h.pos,
    fun x h1 h2 => ?_⟩
  rw [hlo] at h1
  rw [hhi] at h2
  rw [hm, hl, hfo, Function.update_apply]
  split_ifs
  · exact ho
  · exact h.recorded x h1 h2

/-- `oalloc` hands out a block of the order asked for, or changes nothing. -/
lemma Kept.oalloc (h : p.Kept live) (order : UInt8) :
    (∃ p' out, p.oalloc order = (some out, p') ∧ out ≠ 0 ∧ p'.Kept ((out, order) :: live) ∧
      p'.toLayout = p.toLayout ∧ Spares (heldBytes p.fo live) p p') ∨
    p.oalloc order = (none, p) := by
  obtain ⟨q, hq, hB⟩ := h.inv
  rcases hq.oalloc hB order with ⟨p', q', out, heq, h', hB', hl, -, hm, hsp, -⟩ | ⟨heq, -⟩
  · have hlo : p'.lo = p.lo := congrArg (·.startAddr.toNat) hl
    have hhi : p'.hi = p.hi := congrArg (·.endAddr.toNat) hl
    have hfo : p'.fo = p.fo := congrArg (·.foBits.toNat) hl
    have hin := (h'.live_bounds List.mem_cons_self).1
    have hle := h'.live_order_le List.mem_cons_self
    have hne := h'.live_nonempty List.mem_cons_self
    have hsmall' : Session.Small ⟨p', live⟩ :=
      Session.Small.of_layout (s := ⟨p, live⟩) h.small hl
    have hsmall : p'.fo + p'.maxOrder.toNat ≤ 30 := hsmall' hne
    refine .inl ⟨p', out, heq, ?_, h.of_update ⟨q', h', by rw [hfo]; exact hB'⟩ hl hm ?_, hl, hsp⟩
    · rintro rfl
      rw [hlo] at hin
      have hlt : p.lo < p.hi := hlo ▸ hhi ▸ hne
      exact absurd (h.pos hlt) (Nat.not_lt.mpr hin)
    · have hmask : (order &&& 0x7f).toNat ≤ order.toNat := by
        rw [UInt8.toNat_and]
        exact Nat.and_le_left
      rw [hfo] at hsmall
      dsimp only at hle ⊢
      omega
  · exact .inr heq

/-- `alloc` hands out a block of the order that it looks for, or changes nothing. -/
lemma Kept.alloc (h : p.Kept live) (hn : n ≠ 0) :
    (∃ p' out, p.alloc n = (some out, p') ∧ out ≠ 0 ∧ p'.Kept ((out, p.getOrder n) :: live) ∧
      p'.toLayout = p.toLayout ∧ Spares (heldBytes p.fo live) p p') ∨
    p.alloc n = (none, p) := by
  rw [Pallocator.alloc, if_neg hn]
  exact h.oalloc (p.getOrder n)

lemma Kept.order_le (h : p.Kept live) (hb : b ∈ live) : p.fo + b.2.toNat ≤ 30 := by
  obtain ⟨q, hq, -⟩ := h.inv
  have hle := hq.live_order_le hb
  have hsmall : p.fo + p.maxOrder.toNat ≤ 30 := h.small (hq.live_nonempty hb)
  dsimp only at hle
  omega

/-- `free` of a block in use. -/
lemma Kept.free (h : p.Kept live) (hb : b ∈ live) (hm : p.InFirstUnit b mem) :
    (p.free mem).Kept (p.release live mem) ∧ (p.free mem).toLayout = p.toLayout ∧
      Spares (heldBytes p.fo (p.release live mem)) p (p.free mem) ∧
      (p.free mem).metadata = Function.update p.metadata (p.getMeta b.1) ⟨false, b.2⟩ := by
  obtain ⟨q, hq, hB⟩ := h.inv
  obtain ⟨q', h', hB', hl, -, hmd, hsp⟩ := hq.free hB hb hm (h.small (hq.live_nonempty hb))
  have hfo : (p.free mem).fo = p.fo := congrArg (·.foBits.toNat) hl
  rw [hq.getMeta_eq hb hm] at hmd
  rw [hq.release_eq hb hm]
  exact ⟨h.of_update ⟨q', h', by rw [hfo]; exact hB'⟩ hl hmd (h.order_le hb), hl, hsp, hmd⟩

lemma Kept.nodup (h : p.Kept live) : live.Nodup := by
  obtain ⟨q, hq, -⟩ := h.inv
  exact hq.nodup

lemma Kept.order (h : p.Kept live) (hb : b ∈ live) : (p.metadata (p.getMeta b.1)).order = b.2 := by
  obtain ⟨q, hq, -⟩ := h.inv
  exact hq.order b hb

lemma Kept.release_eq (h : p.Kept live) (hb : b ∈ live) (hm : p.InFirstUnit b mem) :
    p.release live mem = live.erase b := by
  obtain ⟨q, hq, -⟩ := h.inv
  exact hq.release_eq hb hm

/-- The bytes of a block in use are in the range of the allocator. -/
lemma Kept.bounds (h : p.Kept live) (hb : b ∈ live) :
    p.lo ≤ b.1.toNat ∧ b.1.toNat + 2 ^ (p.fo + b.2.toNat) ≤ p.hi := by
  obtain ⟨q, hq, -⟩ := h.inv
  exact hq.live_bounds hb

lemma Kept.mem_held (h : p.Kept live) (hb : b ∈ live) {x : ℕ} (h1 : b.1.toNat ≤ x)
    (h2 : x < b.1.toNat + 2 ^ (p.fo + b.2.toNat)) : x ∈ heldBytes p.fo live := by
  obtain ⟨q, hq, -⟩ := h.inv
  exact ⟨_, hq.live_mem hb, h1, h2⟩

/-- A block in use begins at a page, and so does everything in it that is read as a header. -/
lemma Kept.page_mem (h : p.Kept live) (hb : b ∈ live) {a : UInt64} (h1 : b.1.toNat ≤ a.toNat)
    (h2 : a.toNat < b.1.toNat + 2 ^ (p.fo + b.2.toNat)) :
    b.1.toNat ≤ (alignDown a pageSize).toNat ∧
      (alignDown a pageSize).toNat < b.1.toNat + 2 ^ (p.fo + b.2.toNat) := by
  obtain ⟨q, hq, -⟩ := h.inv
  have hdvd : 2 ^ 12 ∣ b.1.toNat :=
    (pow_dvd_pow 2 (h.page.trans (Nat.le_add_right _ _))).trans (hq.allocation b hb)
  have hdown := alignDown_toNat (x := a) (a := pageSize) (k := 12) rfl
  rw [hdown]
  omega

/-- `mem::alloc` takes the block from the first allocator that has one. -/
lemma memAlloc_cases {ps : List Pallocator} (h : ∀ p ∈ ps, ∃ live, p.Kept live) (hn : n ≠ 0) :
    ((memAlloc n ps).1 = none ∧ (memAlloc n ps).2 = ps) ∨
    ∃ k r r' out, ps[k]? = some r ∧ r.alloc n = (some out, r') ∧
      memAlloc n ps = (some out, ps.set k r') := by
  induction ps with
  | nil => exact .inl ⟨rfl, rfl⟩
  | cons p ps ih =>
    obtain ⟨live, hp⟩ := h p List.mem_cons_self
    rw [memAlloc]
    rcases hp.alloc hn with ⟨p', out, heq, hout, -⟩ | heq
    · have hfilter : (some out).filter (· ≠ 0) = some out := by simp [hout]
      rw [heq, hfilter]
      exact .inr ⟨0, p, p', out, rfl, heq, rfl⟩
    · rw [heq]
      rcases ih fun q hq => h q (List.mem_cons_of_mem _ hq) with
        ⟨h1, h2⟩ | ⟨k, r, r', out, hk, halloc, heq'⟩
      · refine .inl ⟨h1, ?_⟩
        exact congrArg (p :: ·) h2
      · refine .inr ⟨k + 1, r, r', out, hk, halloc, ?_⟩
        change (id (memAlloc n ps).1, p :: (memAlloc n ps).2) = _
        rw [heq']
        rfl

end Pallocator

namespace PhysMemory
variable {p p' : Pallocator} {data data' : UInt64 → UInt64} {a : UInt64}

lemma wordAt_congr (hl : p'.links (alignDown a pageSize) = p.links (alignDown a pageSize))
    (hn : p'.n (alignDown a pageSize) = p.n (alignDown a pageSize)) (hd : data' a = data a) :
    wordAt p' data' a = wordAt p data a := by
  rw [wordAt, wordAt, hl, hn, hd]

end PhysMemory

namespace Pool
open Pallocator
variable {t : Pool} {i j : ℕ} {p p' q : Pallocator} {b c : Allocation} {n mem out : UInt64}

/-- Every allocator is in order, and they manage different ranges. -/
structure Sound (t : Pool) : Prop where
  kept : ∀ i (p : Pallocator), t.allocators[i]? = some p → p.Kept (t.live i)
  apart : ∀ (i j : ℕ) (p q : Pallocator), t.allocators[i]? = some p → t.allocators[j]? = some q → i ≠ j →
    ∀ x, p.lo ≤ x → x < p.hi → q.lo ≤ x → q.hi ≤ x

lemma set_self {α : Type*} {l : List α} {a : α} (h : l[i]? = some a) : l.set i a = l := by
  obtain ⟨hlt, rfl⟩ := List.getElem?_eq_some_iff.mp h
  exact List.set_getElem_self hlt

/-- One allocator changes, and keeps its range. -/
lemma Sound.set (h : t.Sound) (hi : t.allocators[i]? = some p) {live' : List Allocation}
    (hk : p'.Kept live') (hl : p'.toLayout = p.toLayout) (data : UInt64 → UInt64) :
    Sound ⟨⟨t.allocators.set i p', data⟩, Function.update t.live i live'⟩ := by
  have hlt : i < t.allocators.length := (List.getElem?_eq_some_iff.mp hi).1
  have hget (k : ℕ) (r : Pallocator) (hr : (t.allocators.set i p')[k]? = some r) :
      (k = i ∧ r = p') ∨ (k ≠ i ∧ t.allocators[k]? = some r) := by
    by_cases hki : k = i
    · subst hki
      rw [List.getElem?_set_self hlt] at hr
      exact .inl ⟨rfl, (Option.some.inj hr).symm⟩
    · rw [List.getElem?_set_ne (Ne.symm hki)] at hr
      exact .inr ⟨hki, hr⟩
  have hlo : p'.lo = p.lo := congrArg (·.startAddr.toNat) hl
  have hhi : p'.hi = p.hi := congrArg (·.endAddr.toNat) hl
  refine ⟨fun k r hr => ?_, fun k l r s hr hs hne x => ?_⟩
  · rcases hget k r hr with ⟨rfl, rfl⟩ | ⟨hki, hr⟩
    · dsimp only
      rw [Function.update_self]
      exact hk
    · dsimp only
      rw [Function.update_of_ne hki]
      exact h.kept k r hr
  · rcases hget k r hr with ⟨rfl, rfl⟩ | ⟨hki, hr'⟩
    · rcases hget l s hs with ⟨rfl, rfl⟩ | ⟨hli, hs'⟩
      · exact absurd rfl hne
      · rw [hlo, hhi]
        exact h.apart k l p s hi hs' hne x
    · rcases hget l s hs with ⟨rfl, rfl⟩ | ⟨hli, hs'⟩
      · rw [hlo, hhi]
        exact h.apart k l r p hr' hi hne x
      · exact h.apart k l r s hr' hs' hne x

/-- A word is read through the allocator that manages it. -/
lemma Sound.word_eq (h : t.Sound) (hi : t.allocators[i]? = some p) {a : UInt64}
    (h1 : p.lo ≤ a.toNat) (h2 : a.toNat < p.hi) : t.word a = PhysMemory.wordAt p t.data a := by
  have hin : (p.startAddr ≤ a ∧ a < p.endAddr) := by
    rw [UInt64.le_iff_toNat_le, UInt64.lt_iff_toNat_lt]
    exact ⟨h1, h2⟩
  obtain ⟨r, hr⟩ : ∃ r, t.allocators.find? (fun p => p.startAddr ≤ a ∧ a < p.endAddr) = some r := by
    refine Option.isSome_iff_exists.mp (List.find?_isSome.mpr ⟨p, List.mem_of_getElem? hi, ?_⟩)
    exact decide_eq_true hin
  have hra := List.find?_some hr
  rw [decide_eq_true_eq] at hra
  obtain ⟨k, hk⟩ := List.mem_iff_getElem?.mp (List.mem_of_find?_eq_some hr)
  have hik : i = k := by
    by_contra hne
    rw [UInt64.le_iff_toNat_le, UInt64.lt_iff_toNat_lt] at hra
    exact absurd (h.apart i k p r hi hk hne a.toNat h1 h2 hra.1) (Nat.not_le.mpr hra.2)
  obtain rfl : p = r := by
    rw [hik, hk] at hi
    exact (Option.some.inj hi).symm
  rw [PhysMemory.word, hr]

/-- The order of a request of at most 1 GiB is the lowest one that is large enough. -/
lemma getOrder_bounds (c : Layout) (hn : 0 < n.toNat) (hle : n.toNat ≤ 2 ^ 30) :
    n.toNat ≤ 2 ^ (c.foBits.toNat + (c.getOrder n).toNat) ∧
      ∀ o : UInt8, o < c.getOrder n → 2 ^ (c.foBits.toNat + o.toNat) < n.toNat := by
  have hlog := log2Up_toNat hn hle
  have hclog : n.toNat ≤ 2 ^ Nat.clog 2 n.toNat := Nat.le_pow_clog (by norm_num) _
  unfold Layout.getOrder
  dsimp only
  split_ifs with hge
  · have hge' := UInt8.le_iff_toNat_le.mp hge
    have hsub := UInt8.toNat_sub_of_le _ _ hge
    rw [hlog] at hge' hsub
    rw [hsub]
    refine ⟨hclog.trans (Nat.pow_le_pow_right (by norm_num) (by omega)), fun o ho => ?_⟩
    have ho := UInt8.lt_iff_toNat_lt.mp ho
    rw [hsub] at ho
    exact (Nat.lt_clog_iff_pow_lt (by norm_num)).mp (by omega)
  · have hlt : Nat.clog 2 n.toNat < c.foBits.toNat := by
      rw [ge_iff_le, UInt8.le_iff_toNat_le, hlog] at hge
      omega
    refine ⟨hclog.trans (Nat.pow_le_pow_right (by norm_num) (by omega)), fun o ho => ?_⟩
    have ho := UInt8.lt_iff_toNat_lt.mp ho
    exact absurd ho (Nat.not_lt_zero _)

/-- The words of a block that a step spares. -/
lemma Sound.word_same {t' : Pool} (h : t.Sound) (h' : t'.Sound) (hj : t.allocators[j]? = some q)
    {q' : Pallocator} (hj' : t'.allocators[j]? = some q') (hl : q'.toLayout = q.toLayout)
    (hc : c ∈ t.live j) {S : Set ℕ} (hsp : Spares S q q')
    (hS : ∀ x, c.1.toNat ≤ x → x < c.1.toNat + 2 ^ (q.fo + c.2.toNat) → x ∈ S) {a : UInt64}
    (h1 : c.1.toNat ≤ a.toNat) (h2 : a.toNat < c.1.toNat + 2 ^ (q.fo + c.2.toNat))
    (hd : t'.data a = t.data a) : t'.word a = t.word a := by
  have hbd := (h.kept j q hj).bounds hc
  have hpage := (h.kept j q hj).page_mem hc h1 h2
  have hlo : q'.lo = q.lo := congrArg (·.startAddr.toNat) hl
  have hhi : q'.hi = q.hi := congrArg (·.endAddr.toNat) hl
  rw [h.word_eq hj (hbd.1.trans h1) (h2.trans_le hbd.2),
    h'.word_eq hj' (hlo ▸ hbd.1.trans h1) (hhi ▸ h2.trans_le hbd.2)]
  exact PhysMemory.wordAt_congr (hsp.links _ (hS _ hpage.1 hpage.2)) (hsp.n _ (hS _ hpage.1 hpage.2)) hd

/-- The call of `alloc` and that of `mem::alloc` find the block in one of the allocators. -/
lemma Sound.reallocTake (h : t.Sound) (hi : t.allocators[i]? = some p) (hn : n ≠ 0) :
    t.toPhysMemory.reallocTake i p n = (none, t.toPhysMemory) ∨
    ∃ k r r' out, t.allocators[k]? = some r ∧ r.alloc n = (some out, r') ∧
      t.toPhysMemory.reallocTake i p n =
        (some out, { t.toPhysMemory with allocators := t.allocators.set k r' }) := by
  have hfilter {out : UInt64} (ho : out ≠ 0) : (some out).filter (· ≠ 0) = some out := by simp [ho]
  rcases (h.kept i p hi).alloc hn with ⟨p', out, heq, hout, -⟩ | heq
  · right
    refine ⟨i, p, p', out, hi, heq, ?_⟩
    rw [PhysMemory.reallocTake, heq, hfilter hout]
  · have hmem : (∀ r ∈ t.allocators, ∃ l, r.Kept l) := fun r hr => by
      obtain ⟨k, hk⟩ := List.mem_iff_getElem?.mp hr
      exact ⟨_, h.kept k r hk⟩
    have htake : t.toPhysMemory.reallocTake i p n = ((memAlloc n t.allocators).1,
        { t.toPhysMemory with allocators := (memAlloc n t.allocators).2 }) := by
      rw [PhysMemory.reallocTake, heq]
      dsimp only
      rw [set_self hi]
      rfl
    rcases memAlloc_cases hmem hn with ⟨hnone, hsame⟩ | ⟨k, r, r', out, hk, halloc, heq'⟩
    · left
      rw [htake, hnone, hsame]
    · right
      exact ⟨k, r, r', out, hk, halloc, by rw [htake, heq']⟩

/-- The addresses that `memcpy` writes to. -/
lemma sub_lt_iff {x dest len : UInt64} (hfit : dest.toNat + len.toNat ≤ 2 ^ 64) :
    x - dest < len ↔ dest.toNat ≤ x.toNat ∧ x.toNat < dest.toNat + len.toNat := by
  have hx := x.toNat_lt
  have hd := dest.toNat_lt
  have hl := len.toNat_lt
  rw [UInt64.lt_iff_toNat_lt, UInt64.toNat_sub]
  omega

lemma memcpy_getElem? {w : PhysMemory} {s : Pallocator} {dest src len : UInt64} (j : ℕ) :
    (w.memcpy s dest src len).allocators[j]? = (w.allocators[j]?).map fun a => { a with
      links := fun x => if x - dest < len then s.links (src + (x - dest)) else a.links x
      n := fun x => if x - dest < len then s.n (src + (x - dest)) else a.n x } := List.getElem?_map

/-- A copy into a block in use leaves all allocators in order. -/
lemma Sound.memcpy (h : t.Sound) {k : ℕ} {r : Pallocator} (hk : t.allocators[k]? = some r)
    (hc : c ∈ t.live k) {len : UInt64} (hlen : len.toNat ≤ 2 ^ (r.fo + c.2.toNat)) (s : Pallocator)
    (src : UInt64) : Sound ⟨t.toPhysMemory.memcpy s c.1 src len, t.live⟩ := by
  have hr := h.kept k r hk
  have hbd := hr.bounds hc
  have hfit : c.1.toNat + len.toNat ≤ 2 ^ 64 := by
    have : r.hi < 2 ^ 64 := r.endAddr.toNat_lt
    omega
  have hzone (j : ℕ) (a : Pallocator) (q : ℕ → List UInt64) (hj : t.allocators[j]? = some a)
      (hq : Holds a (t.live j) q) (o : ℕ) (z : UInt64) (hz : z ∈ q o) : ¬ z - c.1 < len := by
    rw [sub_lt_iff hfit]
    rintro ⟨h1, h2⟩
    have hzbd := hq.bounds hz
    have hpos := Nat.two_pow_pos (a.fo + o)
    by_cases hjk : j = k
    · subst hjk
      obtain rfl := Option.some.inj (hj.symm.trans hk)
      exact hq.zone_notMem_held hz (hr.mem_held hc h1 (by omega))
    · have := h.apart j k a r hj hk hjk z.toNat hzbd.1 (by omega) (by omega)
      omega
  refine ⟨fun j a' hj' => ?_, fun i j a' b' hi' hj' hne x => ?_⟩
  · dsimp only at hj'
    rw [memcpy_getElem?, Option.map_eq_some_iff] at hj'
    obtain ⟨a, hj, rfl⟩ := hj'
    obtain ⟨⟨q, hq, hB⟩, hsmall, hpage, hpos, hrec⟩ := h.kept j a hj
    refine ⟨⟨q, hq.overwrite fun o z hz => ?_, hB⟩, hsmall, hpage, hpos, hrec⟩
    have hout := hzone j a q hj hq o z hz
    exact ⟨if_neg hout, if_neg hout⟩
  · dsimp only at hi' hj'
    rw [memcpy_getElem?, Option.map_eq_some_iff] at hi' hj'
    obtain ⟨a, hi, rfl⟩ := hi'
    obtain ⟨b, hj, rfl⟩ := hj'
    exact h.apart i j a b hi hj hne x

/-- The copy arrives. -/
lemma Sound.memcpy_word (h : t.Sound) {k : ℕ} {r : Pallocator} (hk : t.allocators[k]? = some r)
    (hc : c ∈ t.live k) {len : UInt64} (hlen : len.toNat ≤ 2 ^ (r.fo + c.2.toNat))
    (hi : t.allocators[i]? = some p) (hb : b ∈ t.live i)
    (hsize : len.toNat = 2 ^ (p.fo + b.2.toNat)) {x : UInt64} (hx : x.toNat < len.toNat) :
    (t.toPhysMemory.memcpy p c.1 b.1 len).word (c.1 + x) = t.word (b.1 + x) := by
  have h' := h.memcpy hk hc hlen p b.1
  have hp := h.kept i p hi
  have hr := h.kept k r hk
  have hbb := hp.bounds hb
  have hcb := hr.bounds hc
  have hphi : p.hi < 2 ^ 64 := p.endAddr.toNat_lt
  have hrhi : r.hi < 2 ^ 64 := r.endAddr.toNat_lt
  have hfit : c.1.toNat + len.toNat ≤ 2 ^ 64 := by omega
  have hbx : (b.1 + x).toNat = b.1.toNat + x.toNat := by
    rw [UInt64.toNat_add]
    omega
  have hcx : (c.1 + x).toNat = c.1.toNat + x.toNat := by
    rw [UInt64.toNat_add]
    omega
  have hk' : (t.toPhysMemory.memcpy p c.1 b.1 len).allocators[k]? = some { r with
      links := fun x => if x - c.1 < len then p.links (b.1 + (x - c.1)) else r.links x
      n := fun x => if x - c.1 < len then p.n (b.1 + (x - c.1)) else r.n x } := by
    rw [memcpy_getElem?, hk]
    rfl
  -- both blocks begin at a page
  have hdvd {s : Pallocator} {l : List Allocation} {d : Allocation} (hs : s.Kept l) (hd : d ∈ l) :
      2 ^ 12 ∣ d.1.toNat := by
    obtain ⟨q, hq, -⟩ := hs.inv
    exact (pow_dvd_pow 2 (hs.page.trans (Nat.le_add_right _ _))).trans (hq.allocation d hd)
  have hcdvd := hdvd hr hc
  have hbdvd := hdvd hp hb
  have hpage (d : UInt64) (hd : 2 ^ 12 ∣ d.toNat) (hdx : (d + x).toNat = d.toNat + x.toNat) :
      alignDown (d + x) pageSize = d + alignDown x pageSize := by
    have h1 := alignDown_toNat (x := d + x) (a := pageSize) (k := 12) rfl
    have h2 := alignDown_toNat (x := x) (a := pageSize) (k := 12) rfl
    have h3 := (d + x).toNat_lt
    refine UInt64.toNat_inj.mp ?_
    rw [h1, hdx, UInt64.toNat_add, h2]
    omega
  have hpx : (alignDown x pageSize).toNat ≤ x.toNat := alignDown_le (k := 12) rfl
  have hcopied : c.1 + alignDown x pageSize - c.1 < len ∧
      b.1 + (c.1 + alignDown x pageSize - c.1) = b.1 + alignDown x pageSize := by
    rw [show c.1 + alignDown x pageSize - c.1 = alignDown x pageSize by
      rw [add_comm, add_sub_cancel_right]]
    exact ⟨UInt64.lt_iff_toNat_lt.mpr (by omega), rfl⟩
  have hcopied' : c.1 + x - c.1 < len ∧ b.1 + (c.1 + x - c.1) = b.1 + x := by
    rw [show c.1 + x - c.1 = x by rw [add_comm, add_sub_cancel_right]]
    exact ⟨UInt64.lt_iff_toNat_lt.mpr hx, rfl⟩
  have hw := h'.word_eq hk' (a := c.1 + x) (by
      change r.lo ≤ _
      omega) (by
      change _ < r.hi
      omega)
  rw [h.word_eq hi (a := b.1 + x) (by omega) (by omega)]
  refine hw.trans ?_
  rw [PhysMemory.wordAt, PhysMemory.wordAt, hpage c.1 hcdvd hcx, hpage b.1 hbdvd hbx]
  dsimp only
  rw [if_pos hcopied.1, if_pos hcopied.1, hcopied.2]
  have hdata : (t.toPhysMemory.memcpy p c.1 b.1 len).data (c.1 + x) = t.data (b.1 + x) := by
    change (if c.1 + x - c.1 < len then t.data (b.1 + (c.1 + x - c.1)) else t.data (c.1 + x)) = _
    rw [if_pos hcopied'.1, hcopied'.2]
  rw [hdata]
  simp only [add_assoc, add_right_inj]

/-- A copy leaves the other blocks alone. -/
lemma Sound.memcpy_word_other (h : t.Sound) {k : ℕ} {r : Pallocator} (hk : t.allocators[k]? = some r)
    (hc : c ∈ t.live k) {len : UInt64} (hlen : len.toNat ≤ 2 ^ (r.fo + c.2.toNat)) (s : Pallocator)
    (src : UInt64) (hj : t.allocators[j]? = some q) {d : Allocation} (hd : d ∈ t.live j)
    (hne : ¬ (j = k ∧ d = c)) {a : UInt64} (h1 : d.1.toNat ≤ a.toNat)
    (h2 : a.toNat < d.1.toNat + 2 ^ (q.fo + d.2.toNat)) :
    (t.toPhysMemory.memcpy s c.1 src len).word a = t.word a := by
  have hr := h.kept k r hk
  have hbd := hr.bounds hc
  have hq := h.kept j q hj
  have hqd := hq.bounds hd
  have hfit : c.1.toNat + len.toNat ≤ 2 ^ 64 := by
    have : r.hi < 2 ^ 64 := r.endAddr.toNat_lt
    omega
  have hout (x : UInt64) (h1 : d.1.toNat ≤ x.toNat)
      (h2 : x.toNat < d.1.toNat + 2 ^ (q.fo + d.2.toNat)) : ¬ x - c.1 < len := by
    rw [sub_lt_iff hfit]
    rintro ⟨h3, h4⟩
    by_cases hjk : j = k
    · subst hjk
      obtain rfl := Option.some.inj (hj.symm.trans hk)
      obtain ⟨z, hz, -⟩ := hq.inv
      have he := hz.tiles.disjoint _ (Or.inr (hz.live_mem hd)) _ (Or.inr (hz.live_mem hc)) x.toNat
        ⟨h1, h2⟩ ⟨h3, by
          change x.toNat < c.1.toNat + 2 ^ (q.fo + c.2.toNat)
          omega⟩
      have he1 : d.1.toNat = c.1.toNat := congrArg Block.base he
      have he2 : q.fo + d.2.toNat = q.fo + c.2.toNat := congrArg Block.exp he
      exact hne ⟨rfl, Prod.ext (UInt64.toNat_inj.mp he1) (UInt8.toNat_inj.mp (by omega))⟩
    · have := h.apart j k q r hj hk hjk x.toNat (by omega) (by omega) (by omega)
      omega
  have h' := h.memcpy hk hc hlen s src
  have hpage := hq.page_mem hd h1 h2
  refine h.word_same h' hj (?_ : _ = some { q with
      links := fun x => if x - c.1 < len then s.links (src + (x - c.1)) else q.links x
      n := fun x => if x - c.1 < len then s.n (src + (x - c.1)) else q.n x }) rfl hd
    (S := Set.Ico d.1.toNat (d.1.toNat + 2 ^ (q.fo + d.2.toNat)))
    ⟨fun x hx => if_neg (hout x hx.1 hx.2), fun x hx => if_neg (hout x hx.1 hx.2)⟩
    (fun x hx1 hx2 => ⟨hx1, hx2⟩) h1 h2 (if_neg (hout a h1 h2))
  dsimp only
  rw [memcpy_getElem?, hj]
  rfl

/-- The allocators keep their ranges, and the blocks `K` keep their contents. -/
structure Keeps (K : ℕ → Allocation → Prop) (t t' : Pool) : Prop where
  layouts : t'.allocators.map (·.toLayout) = t.allocators.map (·.toLayout)
  word : ∀ (j : ℕ) (c : Allocation) (q : Pallocator), t.allocators[j]? = some q → K j c →
    ∀ a : UInt64, c.1.toNat ≤ a.toNat → a.toNat < c.1.toNat + 2 ^ (q.fo + c.2.toNat) →
      t'.word a = t.word a

lemma Keeps.getElem? {K : ℕ → Allocation → Prop} {t t' : Pool} (h : Keeps K t t')
    (j : ℕ) : (t'.allocators[j]?).map (·.toLayout) = (t.allocators[j]?).map (·.toLayout) := by
  rw [← List.getElem?_map, ← List.getElem?_map, h.layouts]

lemma Keeps.layout {K : ℕ → Allocation → Prop} {t t' : Pool} (h : Keeps K t t')
    (hq : t.allocators[j]? = some q) : ∃ q', t'.allocators[j]? = some q' ∧ q'.toLayout = q.toLayout := by
  have hj := h.getElem? j
  rw [hq] at hj
  exact Option.map_eq_some_iff.mp hj

lemma Keeps.live_iff {K : ℕ → Allocation → Prop} {t t' : Pool} (h : Keeps K t t') :
    t'.Live j c ↔ (∃ q, t.allocators[j]? = some q) ∧ c ∈ t'.live j := by
  have hj := congrArg Option.isSome (h.getElem? j)
  rw [Option.isSome_map, Option.isSome_map] at hj
  rw [Live, ← Option.isSome_iff_exists, ← hj, Option.isSome_iff_exists, exists_and_right]

lemma Keeps.trans {K : ℕ → Allocation → Prop} {t t1 t2 : Pool} (h : Keeps K t t1)
    (h' : Keeps K t1 t2) : Keeps K t t2 := by
  refine ⟨h'.layouts.trans h.layouts, fun j c q hq hc a ha1 ha2 => ?_⟩
  obtain ⟨q1, hq1, hl1⟩ := h.layout hq
  have hfo : q1.fo = q.fo := congrArg (·.foBits.toNat) hl1
  rw [h'.word j c q1 hq1 hc a ha1 (by rw [hfo]; exact ha2), h.word j c q hq hc a ha1 ha2]

lemma Keeps.mono {K K' : ℕ → Allocation → Prop} {t t' : Pool} (h : Keeps K t t')
    (hK : ∀ j c, K' j c → K j c) : Keeps K' t t' :=
  ⟨h.layouts, fun j c q hq hc => h.word j c q hq (hK j c hc)⟩

/-- One allocator changes, outside of the blocks `K` that are in use. -/
lemma Sound.set_keeps (h : t.Sound) (hi : t.allocators[i]? = some p) {live' : List Allocation}
    (hk : p'.Kept live') (hl : p'.toLayout = p.toLayout) {K : ℕ → Allocation → Prop} {S : Set ℕ}
    (hsp : Spares S p p') (hK : ∀ j c, K j c → c ∈ t.live j)
    (hS : ∀ c, K i c → ∀ x, c.1.toNat ≤ x → x < c.1.toNat + 2 ^ (p.fo + c.2.toNat) → x ∈ S) :
    Keeps K t ⟨⟨t.allocators.set i p', t.data⟩, Function.update t.live i live'⟩ := by
  have h' := h.set hi hk hl t.data
  have hlt : i < t.allocators.length := (List.getElem?_eq_some_iff.mp hi).1
  refine ⟨?_, fun j c q hq hc a h1 h2 => ?_⟩
  · have hself : (t.allocators.map (·.toLayout))[i]? = some p.toLayout := by
      rw [List.getElem?_map, hi]
      rfl
    dsimp only
    rw [List.map_set, hl]
    exact set_self hself
  · by_cases hji : j = i
    · subst hji
      obtain rfl := Option.some.inj (hi.symm.trans hq)
      exact h.word_same h' hi (List.getElem?_set_self hlt) hl (hK _ _ hc) hsp (hS c hc) h1 h2 rfl
    · exact h.word_same h' hq ((List.getElem?_set_ne (Ne.symm hji)).trans hq) rfl (hK _ _ hc)
        (Spares.refl Set.univ q) (fun _ _ _ => Set.mem_univ _) h1 h2 rfl

/-- The first step of a move: a block of `n` bytes is found. -/
lemma Sound.take (h : t.Sound) (hi : t.allocators[i]? = some p) (hn : 0 < n.toNat)
    (hle : n.toNat ≤ 2 ^ 30) :
    t.toPhysMemory.reallocTake i p n = (none, t.toPhysMemory) ∨
    ∃ out k r o t1, t.toPhysMemory.reallocTake i p n = (some out, t1.toPhysMemory) ∧ t1.Sound ∧
      t1.allocators[k]? = some r ∧ n.toNat ≤ 2 ^ (r.fo + o.toNat) ∧ (out, o) ∉ t.live k ∧
      t1.live = Function.update t.live k ((out, o) :: t.live k) ∧
      Keeps (fun j c => c ∈ t.live j) t t1 := by
  have hn0 : n ≠ 0 := fun h0 => by
    rw [h0] at hn
    exact absurd hn (lt_irrefl _)
  rcases h.reallocTake hi hn0 with hnone | ⟨k, r, r', out, hk, halloc, htake⟩
  · exact .inl hnone
  right
  have hr := h.kept k r hk
  rcases hr.alloc hn0 with ⟨r1, out1, heq, hout, hkept, hl, hsp⟩ | heq
  · obtain ⟨hsome, rfl⟩ := Prod.mk.inj (heq.symm.trans halloc)
    obtain rfl := Option.some.inj hsome
    have hlt : k < t.allocators.length := (List.getElem?_eq_some_iff.mp hk).1
    have hfo : r1.fo = r.fo := congrArg (·.foBits.toNat) hl
    refine ⟨out1, k, r1, r.getOrder n, ⟨⟨t.allocators.set k r1, t.data⟩, _⟩, htake,
      h.set hk hkept hl t.data, List.getElem?_set_self hlt, ?_, (List.nodup_cons.mp hkept.nodup).1,
      rfl, ?_⟩
    · rw [hfo]
      exact (getOrder_bounds r.toLayout hn hle).1
    · exact h.set_keeps hk hkept hl hsp (fun _ _ hc => hc) fun c hc x h1 h2 => hr.mem_held hc h1 h2
  · rw [halloc] at heq
    cases heq

/-- The last step of a move: the old block is freed. -/
lemma Sound.give (h : t.Sound) (hi : t.allocators[i]? = some p) (hb : b ∈ t.live i) :
    ∃ t' : Pool,
      t'.toPhysMemory = { t.toPhysMemory with allocators := t.allocators.set i (p.free b.1) } ∧
      t'.live = Function.update t.live i ((t.live i).erase b) ∧ t'.Sound ∧
      Keeps (fun j c => c ∈ t.live j ∧ ¬ (j = i ∧ c = b)) t t' := by
  have hp := h.kept i p hi
  have hfirst : p.InFirstUnit b b.1 := ⟨le_rfl, Nat.lt_add_of_pos_right (Nat.two_pow_pos _)⟩
  obtain ⟨hkept, hl, hsp, -⟩ := hp.free hb hfirst
  rw [hp.release_eq hb hfirst] at hkept hsp
  refine ⟨⟨⟨t.allocators.set i (p.free b.1), t.data⟩, _⟩, rfl, rfl, h.set hi hkept hl t.data,
    h.set_keeps hi hkept hl hsp (fun _ _ hc => hc.1) fun c hc x h1 h2 => ?_⟩
  have hfo : (p.free b.1).fo = p.fo := congrArg (·.foBits.toNat) hl
  have hmem : c ∈ (t.live i).erase b := hp.nodup.mem_erase_iff.mpr ⟨fun he => hc.2 ⟨rfl, he⟩, hc.1⟩
  have hheld := hkept.mem_held hmem h1 (by rw [hfo]; exact h2)
  rwa [hfo] at hheld

end Pool
end EpochKernel.Mem
