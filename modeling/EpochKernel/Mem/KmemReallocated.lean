import EpochKernel.Mem.KmemRealloc

/-! What becomes of the blocks and of the bytes of the heap when `krealloc` is called for a block in
use, in calls that do not make the heap grow. -/
namespace EpochKernel.Mem
open EpochKernel.Util EpochKernel.Library

namespace HeapUsers
variable {π : Type*} (e : HeapEnv π)

/-- A size after the rounding in `krealloc`. -/
def roundSize (n : UInt64) : UInt64 := max (alignUp n memChunkSize) memChunkSize

/-- The free list that `kmem_resize_move` finds. -/
def listForMove (u : HeapUsers π) (b : Chunk) (n : UInt64) : List Chunk :=
  cutAt (b.addr + roundSize b.size) (roundSize n - roundSize b.size) (u.free e)

/-- The call does not make the heap grow. -/
def Roomy (u : HeapUsers π) (b : Chunk) (n : UInt64) : Prop :=
  n ≤ roundSize b.size ∨
    (∃ c ∈ listForMove e u b n, n ≤ c.size) ∧ (listForMove e u b n).map (·.size) ≠ [roundSize n]

/-- The sizes are the same, or `kfree` accepts what is given back: the end of the block, or the old
block once the new one has been taken, when no chunk right behind the block can hold the growth. -/
def Movable (u : HeapUsers π) (b : Chunk) (n : UInt64) : Prop :=
  roundSize n = roundSize b.size ∨
  (roundSize n < roundSize b.size ∧
    Placed ⟨b.addr + roundSize n, roundSize b.size - roundSize n⟩ ⟨e.memStart, 0⟩ (u.free e)) ∨
  (roundSize b.size < roundSize n ∧
    (∀ c ∈ u.free e, ¬ (c.addr = b.addr + roundSize b.size ∧
      roundSize n - roundSize b.size ≤ c.size)) ∧
    ∀ r, takeFirst (roundSize n) (u.free e) = some r →
      Placed ⟨b.addr, roundSize b.size⟩ ⟨e.memStart, 0⟩ r.2)

/-- The chunk right behind the block holds just the growth. -/
def ExactBehind (u : HeapUsers π) (b : Chunk) (n : UInt64) : Prop :=
  roundSize b.size < roundSize n ∧ ∃ c ∈ u.free e, c.addr = b.addr + roundSize b.size ∧
    c.size = roundSize n - roundSize b.size

/-- The call returns a block of `n` bytes with the old contents, and keeps the other blocks and the
bytes of the heap. -/
def Reallocated (u : HeapUsers π) (b : Chunk) (n : UInt64) : Prop :=
  ∃ out h, Heap.krealloc e b.addr b.size n u.heap = some (out, h) ∧ out ≠ 0 ∧
    n ≤ (⟨out, n⟩ : Chunk).rounded.size ∧
    (∀ i : UInt64, 8 ∣ i.toNat → i < b.size → i < n → h.words (out + i) = u.heap.words (b.addr + i)) ∧
    (∀ d ∈ u.live.erase b, Kept u.heap.words h.words d) ∧
    WellFormed e ⟨h, ⟨out, n⟩ :: u.live.erase b⟩ ∧
    freeTotal (HeapUsers.free e ⟨h, []⟩) + (roundSize n).toNat =
      freeTotal (u.free e) + (roundSize b.size).toNat

variable {e} {u : HeapUsers π} {cs : List Chunk} {b : Chunk} {n : UInt64}

/-- The blocks in use can be any blocks in the same memory. -/
lemma Sound.relive (h : Sound e u cs) (ds : List Chunk) (hproper : ∀ d ∈ ds, d.rounded.Proper)
    (hpair : ds.Pairwise fun b d => Disjoint b.rounded.bytes d.rounded.bytes)
    (hsub : ∀ d ∈ ds, ∃ b ∈ u.live, d.rounded.bytes ⊆ b.rounded.bytes) :
    Sound e ⟨u.heap, ds⟩ cs := by
  refine { h with start := fun a ha => ⟨(h.start a ha).1, fun d hd hx => ?_⟩, proper := hproper,
                  pairwise := hpair, disjoint := fun d hd => ?_ }
  · obtain ⟨b, hb, hin⟩ := hsub d hd
    exact (h.start a ha).2 b hb (hin hx)
  · obtain ⟨b, hb, hin⟩ := hsub d hd
    exact (h.disjoint b hb).mono_left hin

/-- The users may write to their blocks. -/
lemma Sound.rewrite (h : Sound e u cs) {w' : Words}
    (hw : ∀ a : UInt64, (∀ d ∈ u.live, a.toNat ∉ d.rounded.bytes) → w' a = u.heap.words a) :
    Sound e ⟨{ u.heap with words := w' }, u.live⟩ cs := by
  refine { h with linked := ?_, size_eq := ?_ }
  · refine h.linked.congr h.ascending.proper (hw _ (h.start _ (.inl rfl)).2) fun x hx => ?_
    exact hw x fun d hd hxd => Set.disjoint_left.mp (h.disjoint d hd) hxd hx
  · exact (hw _ (h.start _ (.inr rfl)).2).trans h.size_eq

lemma roundSize_toNat (n : UInt64) :
    (roundSize n).toNat = max (alignUp n memChunkSize).toNat 16 := by
  change (if alignUp n memChunkSize ≤ memChunkSize then memChunkSize
    else alignUp n memChunkSize).toNat = _
  have h16 : memChunkSize.toNat = 16 := rfl
  split_ifs with h
  · have := UInt64.le_iff_toNat_le.mp h
    omega
  · have := mt UInt64.le_iff_toNat_le.mpr h
    omega

/-- The rounding of a block in use. -/
lemma Sound.roundSize_eq (h : Sound e u cs) (hb : b ∈ u.live) :
    roundSize b.size = alignUp b.size memChunkSize := by
  have h16 : 16 ≤ (alignUp b.size memChunkSize).toNat := (h.proper b hb).sixteen_le
  exact UInt64.toNat_inj.mp ((roundSize_toNat _).trans (max_eq_left h16))

/-- A block in use lies in the chunk that holds it. -/
lemma Sound.size_le (h : Sound e u cs) (hb : b ∈ u.live) : b.size ≤ roundSize b.size := by
  have h16 : 16 ≤ (alignUp b.size memChunkSize).toNat := (h.proper b hb).sixteen_le
  have hlt := b.size.toNat_lt
  rw [h.roundSize_eq hb]
  by_cases hfit : b.size.toNat + 2 ^ 4 ≤ 2 ^ 64
  · have hround := alignUp_toNat (x := b.size) (a := memChunkSize) (k := 4) rfl hfit
    exact UInt64.le_iff_toNat_le.mpr (by omega)
  · -- a size that wraps around would leave no chunk
    have hsum : (b.size + memChunkSize - 1).toNat = (b.size.toNat + 15) % 2 ^ 64 := by
      have hm : memChunkSize.toNat = 16 := rfl
      rw [UInt64.toNat_sub, UInt64.toNat_add, UInt64.toNat_one, hm]
      omega
    rw [alignUp_eq_alignDown, alignDown_toNat (k := 4) rfl, hsum] at h16
    omega

lemma dvd_roundSize (n : UInt64) : 16 ∣ (roundSize n).toNat := by
  have hdvd : 16 ∣ (alignUp n memChunkSize).toNat := dvd_alignUp (k := 4) rfl
  rw [roundSize_toNat]
  omega

lemma sixteen_le_roundSize (n : UInt64) : 16 ≤ (roundSize n).toNat := by
  rw [roundSize_toNat]
  exact le_max_right _ _

/-- A size that fits into memory is rounded up. -/
lemma roundSize_of_le (hn : 0 < n) {m : UInt64} (hm : 16 ∣ m.toNat) (hle : n ≤ m) :
    roundSize n = alignUp n memChunkSize ∧ n ≤ roundSize n ∧ roundSize n ≤ m := by
  have hn' : 0 < n.toNat := UInt64.lt_iff_toNat_lt.mp hn
  have hle' := UInt64.le_iff_toNat_le.mp hle
  have hlt := m.toNat_lt
  have hround := alignUp_toNat (x := n) (a := memChunkSize) (k := 4) rfl (by omega)
  have h16 : 16 ≤ (alignUp n memChunkSize).toNat := by omega
  have heq : roundSize n = alignUp n memChunkSize :=
    UInt64.toNat_inj.mp ((roundSize_toNat n).trans (max_eq_left h16))
  rw [heq]
  exact ⟨rfl, UInt64.le_iff_toNat_le.mpr (by omega), UInt64.le_iff_toNat_le.mpr (by omega)⟩

lemma alignUp_roundSize (n : UInt64) : alignUp (roundSize n) memChunkSize = roundSize n := by
  have hdvd := dvd_roundSize n
  have hlt := (roundSize n).toNat_lt
  have hround := alignUp_toNat (x := roundSize n) (a := memChunkSize) (k := 4) rfl (by omega)
  exact UInt64.toNat_inj.mp (by omega)

/-- The bytes that `kfree` puts on the list, behind the header of the list. -/
lemma Sound.giveBack_total (h : Sound e u cs) (hb : b ∈ u.live) {ds : List Chunk}
    (hds : giveBack b.rounded ⟨e.memStart, 0⟩ cs = ⟨e.memStart, 0⟩ :: ds) :
    (Placed b.rounded ⟨e.memStart, 0⟩ cs →
      freeTotal ds = freeTotal cs + b.rounded.size.toNat) ∧
    (¬ Placed b.rounded ⟨e.memStart, 0⟩ cs → ds = cs) := by
  have hproper := h.proper b hb
  have hdisj : ∀ d ∈ cs, Disjoint b.rounded.bytes d.bytes := fun d hd =>
    Set.disjoint_left.mpr fun x hx hxd => Set.disjoint_left.mp (h.disjoint b hb) hx ⟨d, hd, hxd⟩
  obtain ⟨c, cs0, rfl⟩ := List.exists_cons_of_ne_nil h.nonempty
  rw [giveBack] at hds
  rw [Placed]
  split_ifs at hds ⊢ with hlt hguard
  · exact ⟨fun hp => absurd hguard hp, fun _ => (List.cons.inj hds).2.symm⟩
  · rw [not_or] at hguard
    exact absurd (show b.rounded.addr < c.addr + 0 by rwa [add_zero]) hguard.1
  · obtain rfl := (List.cons.inj hds).2
    have hbefore : c.Before b.rounded := hproper.before_of_disjoint (hdisj c List.mem_cons_self).symm
      (Nat.not_lt.mp fun hn => hlt (UInt64.lt_iff_toNat_lt.mpr hn))
    exact giveBack_total_of_before h.ascending hproper hbefore
      fun d hd => hdisj d (List.mem_cons_of_mem _ hd)

lemma offset_mem {c : Chunk} {i : UInt64} (hc : c.Proper) (hi : i < c.size) :
    (c.addr + i).toNat ∈ c.bytes := by
  have hend := hc.end_le
  have hi := UInt64.lt_iff_toNat_lt.mp hi
  rw [Chunk.mem_bytes, UInt64.toNat_add]
  omega

lemma memcpy_of_notMem {w : Words} {dest src n a : UInt64} (hfit : dest.toNat + n.toNat ≤ 2 ^ 64)
    (ha : a.toNat ∉ (⟨dest, n⟩ : Chunk).bytes) : w.memcpy dest src n a = w a := by
  rw [Chunk.mem_bytes] at ha
  dsimp only at ha
  refine if_neg fun hlt => ?_
  have hlt := UInt64.lt_iff_toNat_lt.mp hlt
  have hd := dest.toNat_lt
  have haa := a.toNat_lt
  rw [UInt64.toNat_sub] at hlt
  omega

/-- A block in use and the others. -/
lemma Sound.pairwise_erase (h : Sound e u cs) (hb : b ∈ u.live) :
    (b :: u.live.erase b).Pairwise fun b d => Disjoint b.rounded.bytes d.rounded.bytes :=
  ((List.perm_cons_erase hb).pairwise_iff fun {_ _} hxy => Disjoint.symm hxy).mp h.pairwise

/-- `kfree` for the first block in use, with a size that is rounded already. -/
lemma Sound.kfree_first {h' : Heap π} {d : Chunk} {ds : List Chunk}
    (h : Sound e ⟨h', d :: ds⟩ cs) (hd : d.rounded = d) :
    ∃ h'' cs', Heap.kfree e d.addr d.size h' = some h'' ∧ Sound e ⟨h'', ds⟩ cs' ∧
      (∀ c ∈ ds, Kept h'.words h''.words c) ∧
      (Placed d ⟨e.memStart, 0⟩ cs → freeTotal cs' = freeTotal cs + d.size.toNat) ∧
      (¬ Placed d ⟨e.memStart, 0⟩ cs → cs' = cs) := by
  obtain ⟨⟨h'', hkfree, hkept⟩, u', cs', hs, hsound, hgive⟩ := h.kfree List.mem_cons_self
  rw [step, hkfree, Option.map_some] at hs
  obtain rfl := Option.some.inj hs
  rw [List.erase_cons_head] at hkept hsound
  obtain ⟨hplaced, hleft⟩ := h.giveBack_total List.mem_cons_self hgive
  rw [hd] at hplaced hleft
  exact ⟨h'', cs', hkfree, hsound, hkept, hplaced, hleft⟩

/-- Of a new block in front of the others the size that was asked for is kept, and one of the others
comes first. -/
lemma Sound.exchange {h' : Heap π} {out : UInt64} (h : Sound e u cs) (hb : b ∈ u.live) {cs' : List Chunk}
    (hround : roundSize n = alignUp n memChunkSize)
    (hnew : Sound e ⟨h', ⟨out, roundSize n⟩ :: u.live⟩ cs') :
    Sound e ⟨h', ⟨b.addr, roundSize b.size⟩ :: ⟨out, n⟩ :: u.live.erase b⟩ cs' := by
  have hold : (⟨b.addr, roundSize b.size⟩ : Chunk).rounded = b.rounded :=
    congrArg (Chunk.mk b.addr) ((alignUp_roundSize b.size).trans (h.roundSize_eq hb))
  have hout : (⟨out, n⟩ : Chunk).rounded = (⟨out, roundSize n⟩ : Chunk).rounded :=
    congrArg (Chunk.mk out) (hround.symm.trans (alignUp_roundSize n).symm)
  have hlive : ∀ d ∈ u.live.erase b, d ∈ u.live := fun d hd => List.mem_of_mem_erase hd
  obtain ⟨houts, -⟩ := List.pairwise_cons.mp hnew.pairwise
  obtain ⟨hbs, herase⟩ := List.pairwise_cons.mp (h.pairwise_erase hb)
  refine hnew.relive _ ?_ ?_ ?_
  · refine List.forall_mem_cons.mpr ⟨?_, List.forall_mem_cons.mpr ⟨?_, fun d hd => ?_⟩⟩
    · rw [hold]
      exact h.proper b hb
    · rw [hout]
      exact hnew.proper _ List.mem_cons_self
    · exact h.proper d (hlive d hd)
  · refine List.pairwise_cons.mpr ⟨List.forall_mem_cons.mpr ⟨?_, fun d hd => ?_⟩,
      List.pairwise_cons.mpr ⟨fun d hd => ?_, herase⟩⟩
    · rw [hold, hout]
      exact (houts b hb).symm
    · rw [hold]
      exact hbs d hd
    · rw [hout]
      exact houts d (hlive d hd)
  · refine List.forall_mem_cons.mpr ⟨⟨b, List.mem_cons_of_mem _ hb, hold ▸ subset_rfl⟩,
      List.forall_mem_cons.mpr ⟨⟨_, List.mem_cons_self, ?_⟩, fun d hd => ?_⟩⟩
    · rw [hout]
    · exact ⟨d, List.mem_cons_of_mem _ (hlive d hd), subset_rfl⟩

/-- `kmem_resize_move` where `kalloc` finds a chunk. -/
lemma Sound.move (h : Sound e u cs) (hb : b ∈ u.live) {cs' : List Chunk} {out : UInt64}
    (hround : roundSize n = alignUp n memChunkSize) (hgrow : roundSize b.size ≤ roundSize n)
    (ht : takeFirst (roundSize n) cs = some (out, cs')) (hmore : cs.map (·.size) ≠ [roundSize n]) :
    ∃ h' ds, Heap.kmemResizeMove e b.addr (roundSize b.size) (roundSize n) u.heap = some (out, h') ∧
      out ≠ 0 ∧ Sound e ⟨h', ⟨out, n⟩ :: u.live.erase b⟩ ds ∧
      (∀ i : UInt64, i < b.size → h'.words (out + i) = u.heap.words (b.addr + i)) ∧
      (∀ d ∈ u.live.erase b, Kept u.heap.words h'.words d) ∧
      (Placed ⟨b.addr, roundSize b.size⟩ ⟨e.memStart, 0⟩ cs' →
        freeTotal ds + (roundSize n).toNat = freeTotal cs + (roundSize b.size).toNat) ∧
      (¬ Placed ⟨b.addr, roundSize b.size⟩ ⟨e.memStart, 0⟩ cs' →
        freeTotal ds + (roundSize n).toNat = freeTotal cs) := by
  have horig := h.roundSize_eq hb
  have h16 := sixteen_le_roundSize n
  have hgrow' := UInt64.le_iff_toNat_le.mp hgrow
  have hup := alignUp_roundSize n
  have hn0 : roundSize n ≠ 0 := fun h0 => by
    rw [h0] at h16
    exact absurd h16 (by decide)
  obtain ⟨w1, hkalloc, hsound1, htaken, -, hkept1⟩ := h.kalloc_taken (n := roundSize n)
    (by rw [hup]; omega) hn0 (by rw [hup]; exact ht) (by rw [hup]; exact hmore)
  rw [hup] at htaken
  have hout := htaken.proper
  have hend := hout.end_le
  dsimp only at hend
  -- the copy only writes to the new block
  have hframe2 (a : UInt64) (ha : a.toNat ∉ (⟨out, roundSize n⟩ : Chunk).bytes) :
      w1.memcpy out b.addr (roundSize b.size) a = w1 a := by
    refine memcpy_of_notMem (by omega) fun hmem => ha ?_
    rw [Chunk.mem_bytes] at hmem ⊢
    dsimp only at hmem ⊢
    omega
  have hout' : (⟨out, roundSize n⟩ : Chunk).rounded = ⟨out, roundSize n⟩ :=
    congrArg (Chunk.mk out) hup
  have hsound2 := hsound1.rewrite fun a ha =>
    hframe2 a (by rw [← hout']; exact ha _ List.mem_cons_self)
  have hnew : (⟨out, n⟩ : Chunk).rounded = ⟨out, roundSize n⟩ := congrArg (Chunk.mk out) hround.symm
  have hlive : ∀ d ∈ u.live.erase b, d ∈ u.live := fun d hd => List.mem_of_mem_erase hd
  obtain ⟨houts, -⟩ := List.pairwise_cons.mp hsound1.pairwise
  have hold : (⟨b.addr, roundSize b.size⟩ : Chunk).rounded = ⟨b.addr, roundSize b.size⟩ :=
    congrArg (Chunk.mk b.addr) (alignUp_roundSize b.size)
  obtain ⟨h3, ds, hkfree, hsound4, hkept3, hplaced, hleft⟩ :=
    (h.exchange hb hround hsound2).kfree_first hold
  dsimp only at hkfree hkept3
  have htotal := freeTotal_takeFirst ht
  refine ⟨h3, ds, ?_, hout.addr_ne, hsound4, fun i hi => ?_, fun d hd a ha => ?_, fun hp => ?_,
    fun hp => ?_⟩
  · rw [Heap.kmemResizeMove, hkalloc, Option.bind_some]
    dsimp only
    rw [if_neg hout.addr_ne, hkfree, Option.map_some]
  · have hbr : b.rounded.size = roundSize b.size := horig.symm
    have hlt : i < roundSize b.size := UInt64.lt_of_lt_of_le hi (h.size_le hb)
    have hin : (out + i).toNat ∈ (⟨out, n⟩ : Chunk).rounded.bytes := by
      rw [hnew]
      exact offset_mem hout (UInt64.lt_of_lt_of_le hlt hgrow)
    have hmemcpy : w1.memcpy out b.addr (roundSize b.size) (out + i) = w1 (b.addr + i) := by
      rw [Words.memcpy, show out + i - out = i by rw [add_comm, add_sub_cancel_right], if_pos hlt]
    rw [hkept3 _ List.mem_cons_self _ hin, hmemcpy]
    exact hkept1 b hb _ (offset_mem (h.proper b hb) (hbr ▸ hlt))
  · rw [hkept3 d (List.mem_cons_of_mem _ hd) a ha, ← hkept1 d (hlive d hd) a ha]
    refine hframe2 a fun hx => ?_
    rw [← hout'] at hx
    exact Set.disjoint_left.mp (houts d (hlive d hd)) hx ha
  · rw [hplaced hp]
    dsimp only
    omega
  · rw [hleft hp]
    exact htotal

lemma alignUp_of_dvd {x : UInt64} (hx : 16 ∣ x.toNat) : alignUp x memChunkSize = x := by
  have hlt := x.toNat_lt
  have hround := alignUp_toNat (x := x) (a := memChunkSize) (k := 4) rfl (by omega)
  exact UInt64.toNat_inj.mp (by omega)

/-- The part of a block that goes when it shrinks. -/
lemma Sound.tail_proper (h : Sound e u cs) (hb : b ∈ u.live) (hlt : roundSize n < roundSize b.size) :
    (⟨b.addr + roundSize n, roundSize b.size - roundSize n⟩ : Chunk).Proper ∧
      (b.addr + roundSize n).toNat = b.addr.toNat + (roundSize n).toNat ∧
      (roundSize b.size - roundSize n).toNat = (roundSize b.size).toNat - (roundSize n).toNat := by
  have hproper := h.proper b hb
  rw [show b.rounded = ⟨b.addr, roundSize b.size⟩ from congrArg (Chunk.mk b.addr) (h.roundSize_eq hb).symm]
    at hproper
  have h16 := sixteen_le_roundSize n
  have hlt' := UInt64.lt_iff_toNat_lt.mp hlt
  have hle : roundSize n ≤ roundSize b.size := UInt64.le_iff_toNat_le.mpr (Nat.le_of_lt hlt')
  exact hproper.cut (dvd_roundSize n) (by omega) hle fun he => absurd (he ▸ hlt) (UInt64.lt_irrefl _)

/-- A block in use is split into the part that stays and the part that goes. -/
lemma Sound.split (h : Sound e u cs) (hb : b ∈ u.live)
    (hround : roundSize n = alignUp n memChunkSize) (hlt : roundSize n < roundSize b.size) :
    Sound e ⟨u.heap, ⟨b.addr + roundSize n, roundSize b.size - roundSize n⟩ :: ⟨b.addr, n⟩ ::
      u.live.erase b⟩ cs := by
  have hb' : b.rounded = ⟨b.addr, roundSize b.size⟩ :=
    congrArg (Chunk.mk b.addr) (h.roundSize_eq hb).symm
  have hproper := h.proper b hb
  rw [hb'] at hproper
  obtain ⟨htail, haddr, hsize⟩ := h.tail_proper hb hlt
  have h16 := sixteen_le_roundSize n
  have hlt' := UInt64.lt_iff_toNat_lt.mp hlt
  have hend := hproper.end_le
  dsimp only at hend
  have htail' : (⟨b.addr + roundSize n, roundSize b.size - roundSize n⟩ : Chunk).rounded =
      ⟨b.addr + roundSize n, roundSize b.size - roundSize n⟩ :=
    congrArg (Chunk.mk _) (alignUp_of_dvd htail.dvd_size)
  have hfront : (⟨b.addr, n⟩ : Chunk).rounded = ⟨b.addr, roundSize n⟩ :=
    congrArg (Chunk.mk b.addr) hround.symm
  have htailsub : (⟨b.addr + roundSize n, roundSize b.size - roundSize n⟩ : Chunk).bytes ⊆
      b.rounded.bytes := fun x hx => by
    rw [hb']
    rw [Chunk.mem_bytes] at hx ⊢
    dsimp only at hx ⊢
    omega
  have hfrontsub : (⟨b.addr, roundSize n⟩ : Chunk).bytes ⊆ b.rounded.bytes := fun x hx => by
    rw [hb']
    rw [Chunk.mem_bytes] at hx ⊢
    dsimp only at hx ⊢
    omega
  have hsplit : Disjoint (⟨b.addr + roundSize n, roundSize b.size - roundSize n⟩ : Chunk).bytes
      (⟨b.addr, roundSize n⟩ : Chunk).bytes := Set.disjoint_left.mpr fun x hx hx' => by
    rw [Chunk.mem_bytes] at hx hx'
    dsimp only at hx hx'
    omega
  have hlive : ∀ d ∈ u.live.erase b, d ∈ u.live := fun d hd => List.mem_of_mem_erase hd
  obtain ⟨hbs, herase⟩ := List.pairwise_cons.mp (h.pairwise_erase hb)
  refine h.relive _ ?_ ?_ ?_
  · refine List.forall_mem_cons.mpr ⟨?_, List.forall_mem_cons.mpr ⟨?_, fun d hd => ?_⟩⟩
    · rw [htail']
      exact htail
    · rw [hfront]
      exact ⟨hproper.addr_ne, hproper.dvd_addr, dvd_roundSize n, by dsimp only; omega,
        by dsimp only; omega⟩
    · exact h.proper d (hlive d hd)
  · refine List.pairwise_cons.mpr ⟨List.forall_mem_cons.mpr ⟨?_, fun d hd => ?_⟩,
      List.pairwise_cons.mpr ⟨fun d hd => ?_, herase⟩⟩
    · rw [htail', hfront]
      exact hsplit
    · rw [htail']
      exact (hbs d hd).mono_left htailsub
    · rw [hfront]
      exact (hbs d hd).mono_left hfrontsub
  · refine List.forall_mem_cons.mpr ⟨⟨b, hb, ?_⟩,
      List.forall_mem_cons.mpr ⟨⟨b, hb, ?_⟩, fun d hd => ⟨d, hlive d hd, subset_rfl⟩⟩⟩
    · rw [htail']
      exact htailsub
    · rw [hfront]
      exact hfrontsub

/-- The end of a block is given back. -/
lemma Sound.shrink (h : Sound e u cs) (hb : b ∈ u.live)
    (hround : roundSize n = alignUp n memChunkSize) (hlt : roundSize n < roundSize b.size) :
    ∃ h' ds, Heap.kfree e (b.addr + roundSize n) (roundSize b.size - roundSize n) u.heap = some h' ∧
      Sound e ⟨h', ⟨b.addr, n⟩ :: u.live.erase b⟩ ds ∧ Kept u.heap.words h'.words ⟨b.addr, n⟩ ∧
      (∀ d ∈ u.live.erase b, Kept u.heap.words h'.words d) ∧
      (Placed ⟨b.addr + roundSize n, roundSize b.size - roundSize n⟩ ⟨e.memStart, 0⟩ cs →
        freeTotal ds + (roundSize n).toNat = freeTotal cs + (roundSize b.size).toNat) ∧
      (¬ Placed ⟨b.addr + roundSize n, roundSize b.size - roundSize n⟩ ⟨e.memStart, 0⟩ cs →
        ds = cs) := by
  obtain ⟨htail, -, hsize⟩ := h.tail_proper hb hlt
  have htail' : (⟨b.addr + roundSize n, roundSize b.size - roundSize n⟩ : Chunk).rounded =
      ⟨b.addr + roundSize n, roundSize b.size - roundSize n⟩ :=
    congrArg (Chunk.mk _) (alignUp_of_dvd htail.dvd_size)
  obtain ⟨h3, ds, hkfree, hsound, hkept, hplaced, hleft⟩ := (h.split hb hround hlt).kfree_first htail'
  refine ⟨h3, ds, hkfree, hsound, hkept _ List.mem_cons_self,
    fun d hd => hkept d (List.mem_cons_of_mem _ hd), fun hp => ?_, hleft⟩
  have hlt' := UInt64.lt_iff_toNat_lt.mp hlt
  rw [hplaced hp]
  dsimp only
  omega

/-- Every part of `Reallocated` but the count holds of a call that leaves the heap in order. -/
lemma Sound.reallocated_iff (h : Sound e u cs) {h' : Heap π} {out : UInt64} {ds : List Chunk}
    (hr : Heap.krealloc e b.addr b.size n u.heap = some (out, h')) (hout : out ≠ 0)
    (hround : roundSize n = alignUp n memChunkSize) (hle : n ≤ roundSize n)
    (hsound : Sound e ⟨h', ⟨out, n⟩ :: u.live.erase b⟩ ds)
    (hsame : ∀ i : UInt64, 8 ∣ i.toNat → i < b.size → i < n →
      h'.words (out + i) = u.heap.words (b.addr + i))
    (hkept : ∀ d ∈ u.live.erase b, Kept u.heap.words h'.words d) :
    Reallocated e u b n ↔
      freeTotal ds + (roundSize n).toNat = freeTotal cs + (roundSize b.size).toNat := by
  have hfree : HeapUsers.free e ⟨h', []⟩ = ds := hsound.free_eq
  constructor
  · rintro ⟨out', h'', hr', -, -, -, -, -, htotal⟩
    obtain ⟨rfl, rfl⟩ := Prod.mk.inj (Option.some.inj (hr.symm.trans hr'))
    rwa [hfree, h.free_eq] at htotal
  · intro htotal
    refine ⟨out, h', hr, hout, ?_, hsame, hkept, ⟨ds, hsound⟩, ?_⟩
    · rw [hround] at hle
      exact hle
    · rwa [hfree, h.free_eq]

lemma cutAt_size_le {a m : UInt64} {d : Chunk} (hd : d ∈ cutAt a m cs) : ∃ c ∈ cs, d.size ≤ c.size := by
  induction cs with
  | nil => cases hd
  | cons c cs ih =>
    rw [cutAt] at hd
    split_ifs at hd with hcut
    · rcases List.mem_append.mp hd with hd | hd
      · rw [Chunk.cut] at hd
        split_ifs at hd with he
        · cases hd
        · obtain rfl := List.mem_singleton.mp hd
          refine ⟨c, List.mem_cons_self, UInt64.le_iff_toNat_le.mpr ?_⟩
          dsimp only
          rw [UInt64.toNat_sub_of_le _ _ hcut.2]
          exact Nat.sub_le _ _
      · exact ⟨d, List.mem_cons_of_mem _ hd, UInt64.le_refl _⟩
    · rcases List.mem_cons.mp hd with rfl | hd
      · exact ⟨d, List.mem_cons_self, UInt64.le_refl _⟩
      · obtain ⟨c', hc', hle⟩ := ih hd
        exact ⟨c', List.mem_cons_of_mem _ hc', hle⟩

/-- The size that is asked for fits into memory. -/
lemma Sound.roundSize_of_roomy (h : Sound e u cs) (hn : 0 < n) (hroom : Roomy e u b n) :
    roundSize n = alignUp n memChunkSize ∧ n ≤ roundSize n := by
  rcases hroom with hle | ⟨⟨d, hd, hle⟩, -⟩
  · obtain ⟨hround, hle', -⟩ := roundSize_of_le hn (dvd_roundSize b.size) hle
    exact ⟨hround, hle'⟩
  · rw [listForMove, h.free_eq] at hd
    obtain ⟨c, hc, hdc⟩ := cutAt_size_le hd
    obtain ⟨hround, hle', -⟩ := roundSize_of_le hn (h.ascending.proper c hc).dvd_size
      (UInt64.le_trans hle hdc)
    exact ⟨hround, hle'⟩

lemma krealloc_eq (addr orig n : UInt64) (h : Heap π) :
    Heap.krealloc e addr orig n h =
      if roundSize orig = roundSize n then some (addr, h)
      else if roundSize n < roundSize orig then
        (Heap.kfree e (addr + roundSize n) (roundSize orig - roundSize n) h).map fun h =>
          (if roundSize n = 0 then 0 else addr, h)
      else
        (h.words.kreallocLoop (alignDown addr memChunkSize) (roundSize orig)
          (roundSize n - roundSize orig) (2 ^ 60) e.memStart (h.words.next e.memStart)).bind fun w =>
            Heap.kmemResizeMove e addr (roundSize orig) (roundSize n) { h with words := w } := rfl

lemma Sound.addr_ne (h : Sound e u cs) (hb : b ∈ u.live) : b.addr ≠ 0 := (h.proper b hb).addr_ne

/-- A block whose rounded size does not change. -/
lemma Sound.reallocated_same (h : Sound e u cs) (hb : b ∈ u.live) (hn : 0 < n)
    (hroom : Roomy e u b n) (heq : roundSize n = roundSize b.size) : Reallocated e u b n := by
  obtain ⟨hround, hle⟩ := h.roundSize_of_roomy hn hroom
  have horig := h.roundSize_eq hb
  have hb' : (⟨b.addr, n⟩ : Chunk).rounded = b.rounded :=
    congrArg (Chunk.mk b.addr) (by rw [← hround, heq, horig])
  have hlive : ∀ d ∈ u.live.erase b, d ∈ u.live := fun d hd => List.mem_of_mem_erase hd
  obtain ⟨hbs, herase⟩ := List.pairwise_cons.mp (h.pairwise_erase hb)
  have hsound := h.relive (⟨b.addr, n⟩ :: u.live.erase b)
    (List.forall_mem_cons.mpr ⟨hb' ▸ h.proper b hb, fun d hd => h.proper d (hlive d hd)⟩)
    (List.pairwise_cons.mpr ⟨fun d hd => hb' ▸ hbs d hd, herase⟩)
    (List.forall_mem_cons.mpr ⟨⟨b, hb, hb' ▸ subset_rfl⟩, fun d hd => ⟨d, hlive d hd, subset_rfl⟩⟩)
  refine (h.reallocated_iff ?_ (h.addr_ne hb) hround hle hsound (fun _ _ _ _ => rfl)
    fun _ _ _ _ => rfl).mpr (by rw [heq])
  rw [krealloc_eq, if_pos heq.symm]

/-- A smaller block: its end has to come back. -/
lemma Sound.reallocated_shrink_iff (h : Sound e u cs) (hb : b ∈ u.live) (hn : 0 < n)
    (hroom : Roomy e u b n) (hlt : roundSize n < roundSize b.size) :
    Reallocated e u b n ↔
      Placed ⟨b.addr + roundSize n, roundSize b.size - roundSize n⟩ ⟨e.memStart, 0⟩ cs := by
  obtain ⟨hround, hle⟩ := h.roundSize_of_roomy hn hroom
  obtain ⟨h', ds, hkfree, hsound, hfront, hkept, hplaced, hleft⟩ := h.shrink hb hround hlt
  have hlt' := UInt64.lt_iff_toNat_lt.mp hlt
  have h16 := sixteen_le_roundSize n
  have hn0 : roundSize n ≠ 0 := fun h0 => by
    rw [h0] at h16
    exact absurd h16 (by decide)
  have hr : Heap.krealloc e b.addr b.size n u.heap = some (b.addr, h') := by
    rw [krealloc_eq, if_neg fun he => absurd (he ▸ hlt) (UInt64.lt_irrefl _), if_pos hlt, hkfree,
      Option.map_some, if_neg hn0]
  rw [h.reallocated_iff hr (h.addr_ne hb) hround hle hsound (fun i _ _ hi => ?_) hkept]
  · refine ⟨fun htotal => ?_, hplaced⟩
    by_contra hp
    rw [hleft hp] at htotal
    omega
  · have hmem : (b.addr + i).toNat ∈ (⟨b.addr, n⟩ : Chunk).rounded.bytes :=
      offset_mem (hsound.proper _ List.mem_cons_self) (by
        rw [hround] at hle
        exact UInt64.lt_of_lt_of_le hi hle)
    exact hfront _ hmem

section Larger
variable (h : Sound e u cs) (hb : b ∈ u.live) (hn : 0 < n) (hroom : Roomy e u b n)
  (hgrow : roundSize b.size < roundSize n)

include h hb hn hroom hgrow

omit h hb in
/-- First fit finds a chunk for the new block. -/
lemma takeFirst_of_roomy {cs1 : List Chunk} (hcs1 : listForMove e u b n = cs1)
    (hasc : Ascending cs1) :
    (∃ r, takeFirst (roundSize n) cs1 = some r) ∧ cs1.map (·.size) ≠ [roundSize n] := by
  rcases hroom with hle | ⟨⟨c, hc, hle⟩, hmore⟩
  · obtain ⟨-, -, hle'⟩ := roundSize_of_le hn (dvd_roundSize b.size) hle
    exact absurd (UInt64.lt_of_lt_of_le hgrow hle') (UInt64.lt_irrefl _)
  · rw [hcs1] at hc hmore
    obtain ⟨-, -, hle'⟩ := roundSize_of_le hn (hasc.proper c hc).dvd_size hle
    exact ⟨takeFirst_isSome ⟨c, hc, hle'⟩, hmore⟩

omit hn hroom in
lemma Sound.krealloc_grow :
    Heap.krealloc e b.addr b.size n u.heap =
      (u.heap.words.kreallocLoop b.addr (roundSize b.size) (roundSize n - roundSize b.size) (2 ^ 60)
        e.memStart (u.heap.words.next e.memStart)).bind fun w =>
          Heap.kmemResizeMove e b.addr (roundSize b.size) (roundSize n) { u.heap with words := w } := by
  have haddr : alignDown b.addr memChunkSize = b.addr := by
    have := alignDown_toNat (x := b.addr) (a := memChunkSize) (k := 4) rfl
    have hdvd : 16 ∣ b.addr.toNat := (h.proper b hb).dvd_addr
    exact UInt64.toNat_inj.mp (by omega)
  have hgrow' := UInt64.lt_iff_toNat_lt.mp hgrow
  rw [krealloc_eq, if_neg fun he => absurd (he ▸ hgrow) (UInt64.lt_irrefl _),
    if_neg fun hlt => by
      have := UInt64.lt_iff_toNat_lt.mp hlt
      omega, haddr]

/-- A larger block that is moved: the old block has to come back. -/
lemma Sound.reallocated_move_iff
    (hno : ∀ c ∈ cs, ¬ (c.addr = b.addr + roundSize b.size ∧
      roundSize n - roundSize b.size ≤ c.size)) :
    Reallocated e u b n ↔ ∀ r, takeFirst (roundSize n) cs = some r →
      Placed ⟨b.addr, roundSize b.size⟩ ⟨e.memStart, 0⟩ r.2 := by
  obtain ⟨hround, hle⟩ := h.roundSize_of_roomy hn hroom
  have hlist : listForMove e u b n = cs := by
    rw [listForMove, h.free_eq, cutAt_of_forall hno]
  obtain ⟨⟨⟨out, cs'⟩, ht⟩, hmore⟩ := takeFirst_of_roomy hn hroom hgrow hlist h.ascending
  have hgrow' := UInt64.lt_iff_toNat_lt.mp hgrow
  have h16 := sixteen_le_roundSize b.size
  obtain ⟨h', ds, hmove, hout, hsound, hsame, hkept, hplaced, hleft⟩ :=
    h.move hb hround (UInt64.le_iff_toNat_le.mpr (Nat.le_of_lt hgrow')) ht hmore
  have hr : Heap.krealloc e b.addr b.size n u.heap = some (out, h') := by
    have hlinked := h.linked
    have hfuel := h.fuel
    obtain ⟨c, cs0, rfl⟩ := List.exists_cons_of_ne_nil h.nonempty
    rw [h.krealloc_grow hb hgrow, hlinked.1, kreallocLoop_of_forall hlinked hno hfuel]
    exact hmove
  rw [h.reallocated_iff hr hout hround hle hsound (fun i _ hi _ => hsame i hi) hkept]
  constructor
  · intro htotal r hr'
    obtain rfl := Option.some.inj (ht.symm.trans hr')
    by_contra hp
    have := hleft hp
    omega
  · exact fun hp => hplaced (hp _ ht)

/-- Behind a chunk with more than the growth the block is moved all the same, and the growth that
was cut off is lost. -/
lemma Sound.not_reallocated_cut {c : Chunk} (hc : c ∈ cs)
    (hat : c.addr = b.addr + roundSize b.size) (hlt : roundSize n - roundSize b.size < c.size) :
    ¬ Reallocated e u b n := by
  obtain ⟨hround, hle⟩ := h.roundSize_of_roomy hn hroom
  have hgrow' := UInt64.lt_iff_toNat_lt.mp hgrow
  have hle' : roundSize b.size ≤ roundSize n := UInt64.le_iff_toNat_le.mpr (Nat.le_of_lt hgrow')
  have hdiff := UInt64.toNat_sub_of_le _ _ hle'
  have hdvd : 16 ∣ (roundSize n - roundSize b.size).toNat := by
    rw [hdiff]
    exact Nat.dvd_sub (dvd_roundSize n) (dvd_roundSize b.size)
  have hpos : 0 < (roundSize n - roundSize b.size).toNat := by omega
  have hb' : b.rounded.size = roundSize b.size := (h.roundSize_eq hb).symm
  have hdisj : ∀ d ∈ cs, Disjoint b.rounded.bytes d.bytes := fun d hd =>
    Set.disjoint_left.mpr fun x hx hxd => Set.disjoint_left.mp (h.disjoint b hb) hx ⟨d, hd, hxd⟩
  obtain ⟨hasc, hne, hbytes, -, htotal⟩ := cutAt_spec hdvd hpos h.ascending hc hat hlt
  obtain ⟨w', hloop, hlinked, hframe⟩ : ∃ w',
      u.heap.words.kreallocLoop b.addr (roundSize b.size) (roundSize n - roundSize b.size) (2 ^ 60)
          e.memStart (u.heap.words.next e.memStart) = some w' ∧
        w'.Linked e.memStart
          (cutAt (b.addr + roundSize b.size) (roundSize n - roundSize b.size) cs) ∧
        ∀ a, a ≠ e.memStart → a.toNat ∉ chunkBytes cs → w' a = u.heap.words a := by
    have hstart := (h.start _ (.inl rfl)).1
    have hlinked := h.linked
    have hfuel := h.fuel
    have hascend := h.ascending
    obtain ⟨c0, cs0, rfl⟩ := List.exists_cons_of_ne_nil h.nonempty
    rw [hlinked.1]
    exact kreallocLoop_cuts (b := b.rounded) (h.proper b hb) hb' hdvd hpos hlinked hascend hstart
      hdisj hc hat hlt hfuel
  have hsound1 : Sound e ⟨{ u.heap with words := w' }, u.live⟩
      (cutAt (b.addr + roundSize b.size) (roundSize n - roundSize b.size) cs) := by
    refine { h with linked := hlinked, size_eq := ?_, ascending := hasc, nonempty := hne,
                    start := fun a ha => ⟨fun hx => (h.start a ha).1 (hbytes _ hx), (h.start a ha).2⟩,
                    disjoint := fun d hd => (h.disjoint d hd).mono_right hbytes }
    exact (hframe _ (by simp) (h.start _ (.inr rfl)).1).trans h.size_eq
  have hlist : listForMove e u b n =
      cutAt (b.addr + roundSize b.size) (roundSize n - roundSize b.size) cs := by
    rw [listForMove, h.free_eq]
  obtain ⟨⟨⟨out, cs'⟩, ht⟩, hmore⟩ := takeFirst_of_roomy hn hroom hgrow hlist hasc
  obtain ⟨h', ds, hmove, hout, hsound, hsame, hkept, hplaced, hleft⟩ :=
    hsound1.move hb hround hle' ht hmore
  have hr : Heap.krealloc e b.addr b.size n u.heap = some (out, h') := by
    rw [h.krealloc_grow hb hgrow, hloop]
    exact hmove
  rintro ⟨out', h'', hr', -, -, -, -, -, hcount⟩
  obtain ⟨rfl, rfl⟩ := Prod.mk.inj (Option.some.inj (hr.symm.trans hr'))
  rw [show HeapUsers.free e ⟨h', []⟩ = ds from hsound.free_eq, h.free_eq] at hcount
  by_cases hp : Placed ⟨b.addr, roundSize b.size⟩ ⟨e.memStart, 0⟩ cs'
  · have := hplaced hp
    omega
  · have := hleft hp
    omega

end Larger

/-- `krealloc` keeps the contents and the memory where `Movable` says so, and only there, except
that a chunk that holds just the growth is not decided. -/
theorem krealloc_reallocated_iff (h : WellFormed e u) (hb : b ∈ u.live) (hn : 0 < n)
    (hroom : Roomy e u b n) :
    (Movable e u b n → Reallocated e u b n) ∧
      (Reallocated e u b n → Movable e u b n ∨ ExactBehind e u b n) := by
  obtain ⟨cs, h⟩ := h
  rw [Movable, ExactBehind, h.free_eq]
  constructor
  · rintro (heq | ⟨hlt, hp⟩ | ⟨hgrow, hno, hp⟩)
    · exact h.reallocated_same hb hn hroom heq
    · exact (h.reallocated_shrink_iff hb hn hroom hlt).mpr hp
    · exact (h.reallocated_move_iff hb hn hroom hgrow hno).mpr hp
  · intro hr
    by_cases heq : roundSize n = roundSize b.size
    · exact .inl (.inl heq)
    by_cases hlt : roundSize n < roundSize b.size
    · exact .inl (.inr (.inl ⟨hlt, (h.reallocated_shrink_iff hb hn hroom hlt).mp hr⟩))
    have hgrow : roundSize b.size < roundSize n := by
      have h1 := mt UInt64.lt_iff_toNat_lt.mpr hlt
      have h2 : (roundSize n).toNat ≠ (roundSize b.size).toNat := fun he => heq (UInt64.toNat_inj.mp he)
      exact UInt64.lt_iff_toNat_lt.mpr (by omega)
    by_cases hno : ∀ c ∈ cs, ¬ (c.addr = b.addr + roundSize b.size ∧
        roundSize n - roundSize b.size ≤ c.size)
    · exact .inl (.inr (.inr ⟨hgrow, hno, (h.reallocated_move_iff hb hn hroom hgrow hno).mp hr⟩))
    · obtain ⟨c, hc, hat, hle⟩ : ∃ c ∈ cs, c.addr = b.addr + roundSize b.size ∧
          roundSize n - roundSize b.size ≤ c.size := by
        by_contra hn
        exact hno fun c hc hcat => hn ⟨c, hc, hcat⟩
      by_cases hexact : c.size = roundSize n - roundSize b.size
      · exact .inr ⟨hgrow, c, hc, hat, hexact⟩
      · have hle' := UInt64.le_iff_toNat_le.mp hle
        have hne : (roundSize n - roundSize b.size).toNat ≠ c.size.toNat := fun he =>
          hexact (UInt64.toNat_inj.mp he.symm)
        exact absurd hr (h.not_reallocated_cut hb hn hroom hgrow hc hat
          (UInt64.lt_iff_toNat_lt.mpr (by omega)))

/-- A block behind all free chunks can grow. -/
theorem krealloc_reallocated_small :
    Reallocated ⟨0x1000, fun _ _ => (none, ())⟩ small ⟨0x10000, 40⟩ 100 := by
  have hsound := sound_small (fun _ _ => (none, ())) (b := ⟨0x10000, 40⟩) (by constructor <;> decide)
    fun x hx => .inr (by
      have hx : 0x10000 ≤ x ∧ x < 0x10030 := hx
      omega)
  have hfree : small.free ⟨0x1000, fun _ _ => (none, ())⟩ =
      [⟨0x2000, 0x100⟩, ⟨0x3000, 0x8000⟩] := hsound.free_eq
  refine (krealloc_reallocated_iff ⟨_, hsound⟩ List.mem_cons_self (by decide) ?_).1 ?_
  · rw [Roomy, listForMove]
    rw [show (HeapUsers.mk small.heap [⟨0x10000, 40⟩]).free ⟨0x1000, fun _ _ => (none, ())⟩ =
      [⟨0x2000, 0x100⟩, ⟨0x3000, 0x8000⟩] from hfree]
    decide
  · rw [Movable]
    rw [show (HeapUsers.mk small.heap [⟨0x10000, 40⟩]).free ⟨0x1000, fun _ _ => (none, ())⟩ =
      [⟨0x2000, 0x100⟩, ⟨0x3000, 0x8000⟩] from hfree]
    refine .inr (.inr ⟨by decide, by decide, fun r hr => ?_⟩)
    obtain rfl : (0x2000, [⟨0x2070, 0x90⟩, ⟨0x3000, 0x8000⟩]) = r := Option.some.inj hr
    rw [Placed, if_neg (by decide), Placed, if_neg (by decide)]
    trivial

/-- The two chunks, and a block right below the first of them. -/
def adjacent : HeapUsers Unit := { small with live := [⟨0x1fd0, 48⟩] }

/-- A block in front of a chunk with room for the growth loses that room, and is moved. -/
theorem not_reallocated_adjacent :
    WellFormed ⟨0x1000, fun _ _ => (none, ())⟩ adjacent ∧ (⟨0x1fd0, 48⟩ : Chunk) ∈ adjacent.live ∧
    Roomy ⟨0x1000, fun _ _ => (none, ())⟩ adjacent ⟨0x1fd0, 48⟩ 64 ∧
    ¬ Reallocated ⟨0x1000, fun _ _ => (none, ())⟩ adjacent ⟨0x1fd0, 48⟩ 64 := by
  have hsound := sound_small (fun _ _ => (none, ())) (b := ⟨0x1fd0, 48⟩) (by constructor <;> decide)
    fun x hx => .inl (by
      have hx : 0x1fd0 ≤ x ∧ x < 0x2000 := hx
      omega)
  have hfree : adjacent.free ⟨0x1000, fun _ _ => (none, ())⟩ =
      [⟨0x2000, 0x100⟩, ⟨0x3000, 0x8000⟩] := hsound.free_eq
  have hroom : Roomy ⟨0x1000, fun _ _ => (none, ())⟩ adjacent ⟨0x1fd0, 48⟩ 64 := by
    rw [Roomy, listForMove, hfree]
    decide
  exact ⟨⟨_, hsound⟩, List.mem_cons_self, hroom,
    hsound.not_reallocated_cut List.mem_cons_self (by decide) hroom (by decide)
      List.mem_cons_self (by decide) (by decide)⟩

end HeapUsers

end EpochKernel.Mem
