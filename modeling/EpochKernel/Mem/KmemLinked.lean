import EpochKernel.Mem.KmemChunks

/-! `kalloc` and `kfree` on a list of chunks that is stored in memory. -/
namespace EpochKernel.Mem
open EpochKernel.Util EpochKernel.Library

namespace Words
variable {w w' : Words} {p q a v : UInt64}

lemma setNext_apply : w.setNext p v a = if a = p then v else w a := Function.update_apply _ _ _ _

lemma setSize_apply : w.setSize p v a = if a = p + 8 then v else w a := Function.update_apply _ _ _ _

lemma memset_of_mem {s n : UInt64} (ha : a.toNat ∈ (⟨s, n⟩ : Chunk).bytes) : w.memset s n a = 0 := by
  rw [Chunk.mem_bytes] at ha
  dsimp only at ha
  refine if_pos (UInt64.lt_iff_toNat_lt.mpr ?_)
  rw [UInt64.toNat_sub_of_le _ _ (UInt64.le_iff_toNat_le.mpr ha.1)]
  omega

lemma memset_of_notMem {s n : UInt64} (hfit : s.toNat + n.toNat ≤ 2 ^ 64)
    (ha : a.toNat ∉ (⟨s, n⟩ : Chunk).bytes) : w.memset s n a = w a := by
  rw [Chunk.mem_bytes] at ha
  dsimp only at ha
  refine if_neg fun hlt => ?_
  have hlt := UInt64.lt_iff_toNat_lt.mp hlt
  have hs := s.toNat_lt
  have haa := a.toNat_lt
  rw [UInt64.toNat_sub] at hlt
  omega

end Words

section Free
variable {w w' : Words} {b c q : Chunk} {cs ds : List Chunk} {p : UInt64} {fuel : ℕ}

/-- The header of the freed block after it has been joined with the chunk behind it. -/
lemma joinNext_linked (h : w.Linked p (c :: cs)) (hasc : Ascending (c :: cs)) (hb : b.Proper)
    (hdisj : ∀ d ∈ c :: cs, Disjoint b.bytes d.bytes)
    (hw : w' = if b.addr + b.size = c.addr then
        (w.setNext b.addr (w.next c.addr)).setSize b.addr
          ((w.setNext b.addr (w.next c.addr)).size c.addr + b.size)
      else (w.setNext b.addr c.addr).setSize b.addr b.size) :
    ∃ d ds, joinNext b c cs = d :: ds ∧ d.addr = b.addr ∧ w'.size b.addr = d.size ∧
      w'.Linked b.addr ds ∧ ∀ a, a.toNat ∉ b.bytes → w' a = w a := by
  obtain ⟨-, hne, hsize, hrest⟩ := h
  have hc := hasc.head
  have hout {d : Chunk} (hd : d ∈ c :: cs) {x : UInt64} (hx : x.toNat ∈ d.bytes) :
      x.toNat ∉ b.bytes := fun hb => Set.disjoint_left.mp (hdisj d hd) hb hx
  have hframe (x : UInt64) (hx : x.toNat ∉ b.bytes) : w' x = w x := by
    have h1 : x ≠ b.addr := fun he => hx (he ▸ hb.addr_mem)
    have h2 : x ≠ b.addr + 8 := fun he => hx (he ▸ hb.size_mem)
    rw [hw]
    split_ifs
    · rw [Words.setSize_apply, if_neg h2, Words.setNext_apply, if_neg h1]
    · rw [Words.setSize_apply, if_neg h2, Words.setNext_apply, if_neg h1]
  have hcs (x : UInt64) (hx : x.toNat ∈ chunkBytes cs) : w' x = w x := by
    obtain ⟨d, hd, hxd⟩ := hx
    exact hframe x (hout (List.mem_cons_of_mem _ hd) hxd)
  have hnext : w' b.addr = if b.addr + b.size = c.addr then w.next c.addr else c.addr := by
    rw [hw]
    split_ifs
    · rw [Words.setSize_apply, if_neg hb.size_ne.symm, Words.setNext_apply, if_pos rfl]
    · rw [Words.setSize_apply, if_neg hb.size_ne.symm, Words.setNext_apply, if_pos rfl]
  have hcsize : (w.setNext b.addr (w.next c.addr)).size c.addr = c.size := by
    rw [Words.size, Words.setNext_apply, if_neg, ← hsize]
    · rfl
    · exact fun he => hout List.mem_cons_self hc.size_mem (he ▸ hb.addr_mem)
  rw [joinNext]
  split_ifs at hnext hw ⊢ with he
  · refine ⟨_, _, rfl, rfl, ?_, hrest.congr hasc.tail.proper hnext hcs, hframe⟩
    rw [hw, Words.size, Words.setSize_apply, if_pos rfl, hcsize]
  · refine ⟨_, _, rfl, rfl, ?_, ⟨hnext, hne, ?_, ?_⟩, hframe⟩
    · rw [hw, Words.size, Words.setSize_apply, if_pos rfl]
    · exact (hframe _ (hout List.mem_cons_self hc.size_mem)).trans hsize
    · exact hrest.congr hasc.tail.proper (hframe _ (hout List.mem_cons_self hc.addr_mem)) hcs

/-- The headers after the freed block has been joined with the chunk before it. -/
lemma joinPrev_linked (hb : w.size b.addr = b.size) (hbne : b.addr ≠ 0) (h : w.Linked b.addr cs)
    (hasc : Ascending (b :: cs)) (hq : w.size q.addr = q.size) (hq8 : q.addr + 8 ≠ q.addr)
    (hout : ∀ a, a = q.addr ∨ a = q.addr + 8 → a.toNat ∉ chunkBytes (b :: cs))
    (hw : w' = if q.addr + w.size q.addr = b.addr then
        (w.setNext q.addr (w.next b.addr)).setSize q.addr
          ((w.setNext q.addr (w.next b.addr)).size q.addr +
            (w.setNext q.addr (w.next b.addr)).size b.addr)
      else w.setNext q.addr b.addr) :
    ∃ d ds, joinPrev q (b :: cs) = d :: ds ∧ d.addr = q.addr ∧ w'.size q.addr = d.size ∧
      w'.Linked q.addr ds ∧ ∀ a, a ≠ q.addr → a ≠ q.addr + 8 → w' a = w a := by
  have hframe (x : UInt64) (h1 : x ≠ q.addr) (h2 : x ≠ q.addr + 8) : w' x = w x := by
    rw [hw]
    split_ifs
    · rw [Words.setSize_apply, if_neg h2, Words.setNext_apply, if_neg h1]
    · rw [Words.setNext_apply, if_neg h1]
  have hsame (x : UInt64) (hx : x.toNat ∈ chunkBytes (b :: cs)) : w' x = w x :=
    hframe x (fun he => hout x (.inl he) hx) fun he => hout x (.inr he) hx
  have hcs (x : UInt64) (hx : x.toNat ∈ chunkBytes cs) : w' x = w x :=
    hsame x (mem_chunkBytes_cons.mpr (.inr hx))
  have hbb := hasc.head
  have hbmem : b.addr.toNat ∈ chunkBytes (b :: cs) := mem_chunkBytes_cons.mpr (.inl hbb.addr_mem)
  have hbmem8 : (b.addr + 8).toNat ∈ chunkBytes (b :: cs) :=
    mem_chunkBytes_cons.mpr (.inl hbb.size_mem)
  rw [hq] at hw
  rw [joinPrev]
  split_ifs at hw ⊢ with he
  · have h1 : (w.setNext q.addr (w.next b.addr)).size q.addr = q.size := by
      rw [Words.size, Words.setNext_apply, if_neg hq8]
      exact hq
    have h2 : (w.setNext q.addr (w.next b.addr)).size b.addr = b.size := by
      rw [Words.size, Words.setNext_apply, if_neg fun he => hout _ (.inl he) hbmem8]
      exact hb
    rw [h1, h2] at hw
    refine ⟨_, _, rfl, rfl, ?_, h.congr hasc.tail.proper ?_ hcs, hframe⟩
    · rw [hw, Words.size, Words.setSize_apply, if_pos rfl]
    · rw [hw, Words.setSize_apply, if_neg hq8.symm, Words.setNext_apply, if_pos rfl]
      rfl
  · refine ⟨_, _, rfl, rfl, ?_, ⟨?_, hbne, (hsame _ hbmem8).trans hb,
      h.congr hasc.tail.proper (hsame _ hbmem) hcs⟩, hframe⟩
    · rw [hw, Words.size, Words.setNext_apply, if_neg hq8]
      exact hq
    · rw [hw, Words.next, Words.setNext_apply, if_pos rfl]

/-- The headers that `kfree` leaves behind the one at `q`. -/
structure GaveBack (b q : Chunk) (cs : List Chunk) (w : Words) (r : Option Words) : Prop where
  stored : ∃ w' d ds, r = some w' ∧ giveBack b q cs = d :: ds ∧ d.addr = q.addr ∧
    w'.size q.addr = d.size ∧ w'.Linked q.addr ds ∧ ∀ a, a ≠ q.addr → a ≠ q.addr + 8 →
      a.toNat ∉ chunkBytes (b :: cs) → w' a = w a

section Loop
variable (hb : b.Proper) (hq : w.size q.addr = q.size) (hq8 : q.addr + 8 ≠ q.addr)

include hb hq hq8

/-- The loop of `kfree` at the first chunk above the block. -/
lemma kfreeLoop_stop (h : w.Linked q.addr (c :: cs)) (hasc : Ascending (c :: cs))
    (hdisj : ∀ d ∈ c :: cs, Disjoint b.bytes d.bytes)
    (hout : ∀ a, a = q.addr ∨ a = q.addr + 8 → a.toNat ∉ chunkBytes (b :: c :: cs))
    (hlt : b.addr < c.addr) :
    GaveBack b q (c :: cs) w (w.kfreeLoop b.addr b.size (fuel + 1) q.addr c.addr) := by
  have hnext : w.next q.addr = c.addr := h.1
  have hbefore : b.Before c := hasc.head.before_of_disjoint (hdisj c List.mem_cons_self)
    (Nat.le_of_lt (UInt64.lt_iff_toNat_lt.mp hlt))
  rw [Words.kfreeLoop, if_pos hlt, hnext, hq]
  by_cases htaken : b.addr < c.addr + q.size ∨ c.addr < b.addr + b.size
  · rw [if_pos htaken]
    exact ⟨w, q, c :: cs, rfl, by rw [giveBack, if_pos hlt, if_pos htaken], rfl, hq, h,
      fun _ _ _ _ => rfl⟩
  rw [if_neg htaken]
  dsimp only
  generalize hw1 : (if b.addr + b.size = c.addr then
      (w.setNext b.addr (w.next c.addr)).setSize b.addr
        ((w.setNext b.addr (w.next c.addr)).size c.addr + b.size)
    else (w.setNext b.addr c.addr).setSize b.addr b.size) = w1
  obtain ⟨d, ds, hds, hd, hdsize, hdlinked, hframe⟩ := joinNext_linked h hasc hb hdisj hw1.symm
  have hgiven := given_joinNext hasc hb hbefore
  rw [hds] at hgiven
  have hin (x : ℕ) (hx : x ∈ chunkBytes (d :: ds)) : x ∈ chunkBytes (b :: c :: cs) :=
    mem_chunkBytes_cons.mpr (hgiven.bytes x hx).symm
  have hq8mem := hout _ (.inr rfl)
  rw [mem_chunkBytes_cons, not_or] at hq8mem
  obtain ⟨e, es, hes, he, hesize, helinked, hframe'⟩ := joinPrev_linked (b := d) (q := q)
    (by rw [hd]; exact hdsize) hgiven.ascending.head.addr_ne (by rw [hd]; exact hdlinked)
    hgiven.ascending ((hframe _ hq8mem.1).trans hq) hq8 (fun a ha hx => hout a ha (hin _ hx)) rfl
  refine ⟨_, e, es, ?_, ?_, he, hesize, helinked, fun a h1 h2 h3 => ?_⟩
  · rw [hd]
    split_ifs <;> rfl
  · rw [giveBack, if_pos hlt, if_neg htaken, hds, hes]
  · rw [hframe' a h1 h2]
    exact hframe a fun hx => h3 (mem_chunkBytes_cons.mpr (.inl hx))

/-- What the loop of `kfree` makes of the list behind the header at `q`. -/
lemma kfreeLoop_spec (h : w.Linked q.addr (c :: cs)) (hasc : Ascending (c :: cs))
    (hdisj : ∀ d ∈ c :: cs, Disjoint b.bytes d.bytes)
    (hout : ∀ a, a = q.addr ∨ a = q.addr + 8 → a.toNat ∉ chunkBytes (b :: c :: cs))
    (hfuel : cs.length < fuel) :
    GaveBack b q (c :: cs) w (w.kfreeLoop b.addr b.size fuel q.addr c.addr) := by
  induction cs generalizing q c fuel with
  | nil =>
    obtain ⟨fuel, rfl⟩ := Nat.exists_eq_succ_of_ne_zero (Nat.ne_of_gt hfuel)
    by_cases hlt : b.addr < c.addr
    · exact kfreeLoop_stop hb hq hq8 h hasc hdisj hout hlt
    · obtain ⟨hnext, hne, hsize, hend⟩ := h
      have hcb {a : UInt64} (ha : a.toNat ∈ c.bytes) : a.toNat ∉ b.bytes := fun hab =>
        Set.disjoint_left.mp (hdisj c List.mem_cons_self) hab ha
      have hc := hasc.head
      have hbnext : b.addr ≠ c.addr := fun he => hcb hc.addr_mem (he ▸ hb.addr_mem)
      have hbsize : c.addr + 8 ≠ b.addr := fun he => hcb hc.size_mem (he ▸ hb.addr_mem)
      have hbsize' : c.addr + 8 ≠ b.addr + 8 := fun he => hcb hc.size_mem (he ▸ hb.size_mem)
      have hbnext' : c.addr ≠ b.addr + 8 := fun he => hcb hc.addr_mem (he ▸ hb.size_mem)
      have hbb {a : UInt64} (ha : a.toNat ∈ b.bytes ∨ a.toNat ∈ c.bytes) :
          a.toNat ∈ chunkBytes [b, c] := by
        rw [mem_chunkBytes_cons, mem_chunkBytes_cons]
        exact ha.imp_right .inl
      have hframe (a : UInt64) (ha : a.toNat ∉ chunkBytes [b, c]) :
          ((w.setNext c.addr b.addr).setNext b.addr 0).setSize b.addr b.size a = w a := by
        have h1 : a ≠ b.addr + 8 := fun he => ha (hbb (.inl (he ▸ hb.size_mem)))
        have h2 : a ≠ b.addr := fun he => ha (hbb (.inl (he ▸ hb.addr_mem)))
        have h3 : a ≠ c.addr := fun he => ha (hbb (.inr (he ▸ hc.addr_mem)))
        rw [Words.setSize_apply, if_neg h1, Words.setNext_apply, if_neg h2, Words.setNext_apply,
          if_neg h3]
      rw [Words.kfreeLoop, if_neg hlt, if_neg hne]
      dsimp only
      rw [if_pos (show w.next c.addr = 0 from hend)]
      refine ⟨_, q, [c, b], rfl, by rw [giveBack, if_neg hlt, giveBack], rfl, ?_,
        ⟨?_, hne, ?_, ?_, hb.addr_ne, ?_, ?_⟩, fun a _ _ ha => hframe a ha⟩
      · exact (hframe _ (hout _ (.inr rfl))).trans hq
      · exact (hframe _ (hout _ (.inl rfl))).trans hnext
      · rw [Words.size, Words.setSize_apply, if_neg hbsize', Words.setNext_apply, if_neg hbsize,
          Words.setNext_apply, if_neg hc.size_ne]
        exact hsize
      · rw [Words.next, Words.setSize_apply, if_neg hbnext', Words.setNext_apply, if_neg hbnext.symm,
          Words.setNext_apply, if_pos rfl]
      · rw [Words.size, Words.setSize_apply, if_pos rfl]
      · change Words.next _ _ = 0
        rw [Words.next, Words.setSize_apply, if_neg hb.size_ne.symm, Words.setNext_apply, if_pos rfl]
  | cons e cs ih =>
    obtain ⟨fuel, rfl⟩ := Nat.exists_eq_succ_of_ne_zero (Nat.ne_of_gt (Nat.zero_lt_of_lt hfuel))
    by_cases hlt : b.addr < c.addr
    · exact kfreeLoop_stop hb hq hq8 h hasc hdisj hout hlt
    · obtain ⟨hnext, hne, hsize, hrest⟩ := h
      have hc := hasc.head
      have hin (x : UInt64) (hx : x.toNat ∈ c.bytes) : x.toNat ∉ chunkBytes (b :: e :: cs) := by
        rw [mem_chunkBytes_cons, not_or]
        exact ⟨fun hxb => Set.disjoint_left.mp (hdisj c List.mem_cons_self) hxb hx,
          Set.disjoint_left.mp hasc.disjoint hx⟩
      have hqc (x : UInt64) (hx : x = q.addr ∨ x = q.addr + 8) : x ≠ c.addr ∧ x ≠ c.addr + 8 ∧
          x.toNat ∉ chunkBytes (b :: e :: cs) := by
        have := hout x hx
        rw [mem_chunkBytes_cons, mem_chunkBytes_cons, not_or, not_or] at this
        obtain ⟨h1, h2, h3⟩ := this
        refine ⟨fun he => h2 (he ▸ hc.addr_mem), fun he => h2 (he ▸ hc.size_mem), ?_⟩
        rw [mem_chunkBytes_cons, not_or]
        exact ⟨h1, h3⟩
      obtain ⟨w', d, ds, hr, hds, hd, hdsize, hdlinked, hframe⟩ := ih hsize hc.size_ne hrest hasc.tail
        (fun x hx => hdisj x (List.mem_cons_of_mem _ hx))
        (fun a ha => hin a (ha.elim (fun he => he ▸ hc.addr_mem) fun he => he ▸ hc.size_mem))
        (Nat.lt_of_succ_lt_succ hfuel)
      have hsame (x : UInt64) (hx : x = q.addr ∨ x = q.addr + 8) : w' x = w x :=
        hframe x (hqc x hx).1 (hqc x hx).2.1 (hqc x hx).2.2
      have henext : w.next c.addr = e.addr := hrest.1
      rw [Words.kfreeLoop, if_neg hlt, if_neg hne]
      dsimp only
      rw [henext, if_neg hrest.2.1]
      refine ⟨w', q, d :: ds, hr, by rw [giveBack, if_neg hlt, hds], rfl,
        (hsame _ (.inr rfl)).trans hq, ⟨?_, ?_, ?_, ?_⟩, fun a h1 h2 h3 => ?_⟩
      · rw [hd]
        exact (hsame _ (.inl rfl)).trans hnext
      · rw [hd]
        exact hne
      · rw [hd]
        exact hdsize
      · rw [hd]
        exact hdlinked
      · rw [mem_chunkBytes_cons, mem_chunkBytes_cons, not_or, not_or] at h3
        refine hframe a (fun he => h3.2.1 (he ▸ hc.addr_mem)) (fun he => h3.2.1 (he ▸ hc.size_mem)) ?_
        rw [mem_chunkBytes_cons, not_or]
        exact ⟨h3.1, h3.2.2⟩

end Loop

end Free
section Alloc
variable {π : Type*} {e : HeapEnv π} {h : Heap π} {w : Words} {c : Chunk} {cs cs' : List Chunk}
  {p n out : UInt64} {fuel : ℕ} (hn : 16 ∣ n.toNat) (hpos : 0 < n.toNat)

include hn hpos

/-- The list after a chunk has been cut or taken out. -/
lemma cut_linked (hw : w.Linked p (c :: cs)) (hasc : Ascending (c :: cs))
    (hp : p.toNat ∉ chunkBytes (c :: cs)) (hle : n ≤ c.size) :
    let w1 := w.setSize c.addr (c.size - n)
    let w2 := if w1.size c.addr = 0 then w1.setNext p (w1.next c.addr)
      else (w1.copyChunk (c.addr + n) c.addr).setNext p (c.addr + n)
    (w2.memset c.addr n).Linked p (c.cut n ++ cs) ∧
      ∀ a, a ≠ p → a.toNat ∉ c.bytes → w2.memset c.addr n a = w a := by
  obtain ⟨-, -, hsize, hrest⟩ := hw
  have hc := hasc.head
  have hpc : p.toNat ∉ c.bytes := fun hx => hp (mem_chunkBytes_cons.mpr (.inl hx))
  have hcsp (a : UInt64) (ha : a.toNat ∈ chunkBytes cs) : a ≠ p ∧ a.toNat ∉ c.bytes :=
    ⟨fun he => hp (mem_chunkBytes_cons.mpr (.inr (he ▸ ha))),
      fun hx => Set.disjoint_left.mp hasc.disjoint hx ha⟩
  have hle' := UInt64.le_iff_toNat_le.mp hle
  have hend := hc.end_le
  have hfit : c.addr.toNat + n.toNat ≤ 2 ^ 64 := by omega
  have hfront {a : UInt64} (ha : a.toNat ∉ c.bytes) : a.toNat ∉ (⟨c.addr, n⟩ : Chunk).bytes := by
    rw [Chunk.mem_bytes] at ha ⊢
    dsimp only
    omega
  have hfree {a : UInt64} (ha : a.toNat ∉ c.bytes) : a ≠ c.addr + 8 := fun he => ha (he ▸ hc.size_mem)
  have h1size : (w.setSize c.addr (c.size - n)).size c.addr = c.size - n := by
    rw [Words.size, Words.setSize_apply, if_pos rfl]
  have h1next : (w.setSize c.addr (c.size - n)).next c.addr = w c.addr := by
    rw [Words.next, Words.setSize_apply, if_neg hc.size_ne.symm]
  dsimp only
  rw [h1size, h1next, Chunk.cut]
  by_cases he : c.size = n
  · have hzero : c.size - n = 0 := by rw [he, sub_self]
    rw [if_pos hzero, if_pos he]
    have hframe (a : UInt64) (h1 : a ≠ p) (h2 : a.toNat ∉ c.bytes) :
        Words.memset ((w.setSize c.addr (c.size - n)).setNext p (w c.addr)) c.addr n a = w a := by
      rw [Words.memset_of_notMem hfit (hfront h2), Words.setNext_apply, if_neg h1,
        Words.setSize_apply, if_neg (hfree h2)]
    refine ⟨hrest.congr hasc.tail.proper ?_ fun a ha => hframe a (hcsp a ha).1 (hcsp a ha).2, hframe⟩
    rw [Words.memset_of_notMem hfit (hfront hpc), Words.setNext_apply, if_pos rfl]
  · obtain ⟨hr, haddr, hrsize⟩ := hc.cut hn hpos hle he
    have hlt : n.toNat < c.size.toNat := lt_of_le_of_ne hle' fun h => he (UInt64.toNat_inj.mp h.symm)
    have hzero : c.size - n ≠ 0 := fun h0 => by
      have := congrArg UInt64.toNat h0
      rw [hrsize] at this
      change _ = 0 at this
      omega
    have hr8 : (c.addr + n + 8).toNat = c.addr.toNat + n.toNat + 8 := by
      rw [hr.toNat_add_eight, haddr]
    have h16 := hr.sixteen_le
    rw [hrsize] at h16
    have hin : (c.addr + n).toNat ∈ c.bytes ∧ (c.addr + n + 8).toNat ∈ c.bytes := by
      rw [Chunk.mem_bytes, Chunk.mem_bytes, haddr, hr8]
      omega
    have hnot : (c.addr + n).toNat ∉ (⟨c.addr, n⟩ : Chunk).bytes ∧
        (c.addr + n + 8).toNat ∉ (⟨c.addr, n⟩ : Chunk).bytes := by
      rw [Chunk.mem_bytes, Chunk.mem_bytes, haddr, hr8]
      dsimp only
      omega
    have hsrc : c.addr + 8 ≠ c.addr + n := fun h => by
      have := congrArg UInt64.toNat h
      rw [haddr, hc.toNat_add_eight] at this
      omega
    have hpne : c.addr + n ≠ p ∧ c.addr + n + 8 ≠ p :=
      ⟨fun h => hpc (h ▸ hin.1), fun h => hpc (h ▸ hin.2)⟩
    have hcopy : (w.setSize c.addr (c.size - n)).copyChunk (c.addr + n) c.addr =
        ((w.setSize c.addr (c.size - n)).setNext (c.addr + n) (w c.addr)).setSize (c.addr + n)
          (c.size - n) := by
      rw [Words.copyChunk, h1next, Words.size, Words.setNext_apply, if_neg hsrc]
      exact congrArg (Words.setSize _ _) h1size
    rw [if_neg hzero, if_neg he, hcopy]
    have hframe (a : UInt64) (h1 : a ≠ p) (h2 : a.toNat ∉ c.bytes) :
        Words.memset ((((w.setSize c.addr (c.size - n)).setNext (c.addr + n) (w c.addr)).setSize
          (c.addr + n) (c.size - n)).setNext p (c.addr + n)) c.addr n a = w a := by
      rw [Words.memset_of_notMem hfit (hfront h2), Words.setNext_apply, if_neg h1,
        Words.setSize_apply, if_neg fun h : a = c.addr + n + 8 => h2 (h ▸ hin.2),
        Words.setNext_apply, if_neg fun h : a = c.addr + n => h2 (h ▸ hin.1),
        Words.setSize_apply, if_neg (hfree h2)]
    refine ⟨⟨?_, hr.addr_ne, ?_, hrest.congr hasc.tail.proper ?_
      fun a ha => hframe a (hcsp a ha).1 (hcsp a ha).2⟩, hframe⟩
    · rw [Words.next, Words.memset_of_notMem hfit (hfront hpc), Words.setNext_apply, if_pos rfl]
    · rw [Words.size, Words.memset_of_notMem hfit hnot.2, Words.setNext_apply, if_neg hpne.2,
        Words.setSize_apply, if_pos rfl]
    · rw [Words.memset_of_notMem hfit hnot.1, Words.setNext_apply, if_neg hpne.1,
        Words.setSize_apply, if_neg hr.size_ne.symm, Words.setNext_apply, if_pos rfl]

/-- The loop of `kalloc` at a chunk that is large enough. -/
lemma kallocLoop_fits (hw : h.words.Linked p (c :: cs)) (hasc : Ascending (c :: cs))
    (hp : p.toNat ∉ chunkBytes (c :: cs)) (hle : n ≤ c.size)
    (hmore : ¬ (p = e.memStart ∧ cs = [] ∧ c.size = n)) :
    ∃ w', Heap.kallocLoop e n (fuel + 1) p c.addr h = some (c.addr, { h with words := w' }) ∧
      w'.Linked p (c.cut n ++ cs) ∧ (∀ a, a.toNat ∈ (⟨c.addr, n⟩ : Chunk).bytes → w' a = 0) ∧
      ∀ a, a ≠ p → a.toNat ∉ chunkBytes (c :: cs) → w' a = h.words a := by
  obtain ⟨hlinked, hframe⟩ := cut_linked hn hpos hw hasc hp hle
  obtain ⟨-, hne, hsize, hrest⟩ := hw
  refine ⟨_, ?_, hlinked, fun a ha => Words.memset_of_mem ha, fun a h1 h2 =>
    hframe a h1 fun hx => h2 (mem_chunkBytes_cons.mpr (.inl hx))⟩
  have hnext : (h.words.setSize c.addr (c.size - n)).next c.addr = h.words.next c.addr := by
    rw [Words.next, Words.setSize_apply, if_neg hasc.head.size_ne.symm]
    rfl
  have h1size : (h.words.setSize c.addr (c.size - n)).size c.addr = c.size - n := by
    rw [Words.size, Words.setSize_apply, if_pos rfl]
  rw [Heap.kallocLoop, if_neg hne, hsize, if_pos hle]
  dsimp only
  rw [h1size, hnext]
  split_ifs with hzero hlast
  · have hlen : c.size = n := by rwa [sub_eq_zero] at hzero
    refine absurd ⟨hlast.1, ?_, hlen⟩ hmore
    cases cs with
    | nil => rfl
    | cons d cs => exact absurd (hrest.1.symm.trans hlast.2) hrest.2.1
  · rfl
  · rfl

/-- What the loop of `kalloc` makes of the list behind the header at `p`. -/
lemma kallocLoop_spec (hw : h.words.Linked p (c :: cs)) (hasc : Ascending (c :: cs))
    (hp : p.toNat ∉ chunkBytes (c :: cs)) (hstart : e.memStart.toNat ∉ chunkBytes (c :: cs))
    (ht : takeFirst n (c :: cs) = some (out, cs'))
    (hmore : ¬ (p = e.memStart ∧ cs = [] ∧ c.size = n)) (hfuel : cs.length < fuel) :
    ∃ w', Heap.kallocLoop e n fuel p c.addr h = some (out, { h with words := w' }) ∧
      w'.Linked p cs' ∧ (∀ a, a.toNat ∈ (⟨out, n⟩ : Chunk).bytes → w' a = 0) ∧
      ∀ a, a ≠ p → a.toNat ∉ chunkBytes (c :: cs) → w' a = h.words a := by
  induction cs generalizing p c cs' fuel with
  | nil =>
    obtain ⟨fuel, rfl⟩ := Nat.exists_eq_succ_of_ne_zero (Nat.ne_of_gt hfuel)
    rw [takeFirst] at ht
    split_ifs at ht with hle
    · obtain ⟨rfl, rfl⟩ := Prod.mk.inj (Option.some.inj ht)
      exact kallocLoop_fits hn hpos hw hasc hp hle hmore
    · cases ht
  | cons d cs ih =>
    obtain ⟨fuel, rfl⟩ := Nat.exists_eq_succ_of_ne_zero (Nat.ne_of_gt (Nat.zero_lt_of_lt hfuel))
    rw [takeFirst] at ht
    split_ifs at ht with hle
    · obtain ⟨rfl, rfl⟩ := Prod.mk.inj (Option.some.inj ht)
      exact kallocLoop_fits hn hpos hw hasc hp hle hmore
    · obtain ⟨⟨out', rest⟩, hrest', he⟩ := Option.map_eq_some_iff.mp ht
      obtain ⟨rfl, rfl⟩ := Prod.mk.inj he
      obtain ⟨hnext, hne, hsize, hrest⟩ := hw
      have hc := hasc.head
      have hcstart : c.addr ≠ e.memStart := fun he =>
        hstart (mem_chunkBytes_cons.mpr (.inl (he ▸ hc.addr_mem)))
      have hcd : ∀ x ∈ c.bytes, x ∉ chunkBytes (d :: cs) := fun x hx =>
        Set.disjoint_left.mp hasc.disjoint hx
      rw [mem_chunkBytes_cons, not_or] at hp hstart
      obtain ⟨w', hr, hlinked, hzero, hframe⟩ := ih hrest hasc.tail (hcd _ hc.addr_mem) hstart.2
        hrest' (fun hn => hcstart hn.1) (Nat.lt_of_succ_lt_succ hfuel)
      have hdnext : h.words.next c.addr = d.addr := hrest.1
      refine ⟨w', ?_, ⟨?_, hne, ?_, hlinked⟩, hzero, fun a h1 h2 => ?_⟩
      · rw [Heap.kallocLoop, if_neg hne, hsize, if_neg hle]
        dsimp only
        rw [hdnext, if_neg hrest.2.1]
        exact hr
      · exact (hframe p (fun he => hp.1 (he ▸ hc.addr_mem)) hp.2).trans hnext
      · exact (hframe _ hc.size_ne (hcd _ hc.size_mem)).trans hsize
      · rw [mem_chunkBytes_cons, not_or] at h2
        exact hframe a (fun he => h2.1 (he ▸ hc.addr_mem)) h2.2

end Alloc
end EpochKernel.Mem
