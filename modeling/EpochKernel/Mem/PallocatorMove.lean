import EpochKernel.Mem.PallocatorPool

/-! The branch of `pallocator::realloc` that moves an allocation: a block is taken, the old one is
copied into it and then given back. -/
namespace EpochKernel.Mem.Pool
open EpochKernel.Util EpochKernel.Util.LinkedList EpochKernel.Library EpochKernel.Library.Block
open Pallocator
variable {t t1 t3 : Pool} {i k : ℕ} {p r : Pallocator} {b c : Allocation} {n mem out : UInt64}
  {o : UInt8}

/-- The middle step of a move: the old block is copied. -/
lemma Sound.copy (h : t.Sound) (hk : t.allocators[k]? = some r) (hc : c ∈ t.live k)
    (hi : t.allocators[i]? = some p) (hb : b ∈ t.live i) {len : UInt64}
    (hlen : len.toNat = 2 ^ (p.fo + b.2.toNat)) (hle : len.toNat ≤ 2 ^ (r.fo + c.2.toNat)) :
    ∃ t' : Pool, t'.toPhysMemory = t.toPhysMemory.memcpy p c.1 b.1 len ∧ t'.live = t.live ∧
      t'.Sound ∧ Keeps (fun j d => d ∈ t.live j ∧ ¬ (j = k ∧ d = c)) t t' ∧
      ∀ x : UInt64, x.toNat < 2 ^ (p.fo + b.2.toNat) → t'.word (c.1 + x) = t.word (b.1 + x) := by
  refine ⟨⟨t.toPhysMemory.memcpy p c.1 b.1 len, t.live⟩, rfl, rfl, h.memcpy hk hc hle p b.1,
    ⟨?_, fun j d q hq hd a h1 h2 => ?_⟩, fun x hx => ?_⟩
  · exact List.map_map
  · exact h.memcpy_word_other hk hc hle p b.1 hq hd.1 hd.2 h1 h2
  · exact h.memcpy_word hk hc hle hi hb hlen (by omega)

/-- The clients of the allocator `j` after a block is taken from `k` and `b` is given back to `i`. -/
lemma live_moved (hb : b ∈ t.live i) (hout : (out, o) ∉ t.live k)
    (hlive : t1.live = Function.update t.live k ((out, o) :: t.live k)) (j : ℕ) :
    Function.update t1.live i ((t1.live i).erase b) j =
      (if j = k then [(out, o)] else []) ++ if j = i then (t.live i).erase b else t.live j := by
  rw [hlive]
  by_cases hji : j = i
  · subst hji
    rw [Function.update_self, if_pos rfl]
    by_cases hjk : j = k
    · subst hjk
      have hne : (out, o) ≠ b := fun he => hout (he ▸ hb)
      rw [Function.update_self, if_pos rfl, List.erase_cons_tail (by simpa using hne)]
      rfl
    · rw [Function.update_of_ne hjk, if_neg hjk]
      rfl
  · rw [Function.update_of_ne hji, if_neg hji]
    by_cases hjk : j = k
    · subst hjk
      rw [Function.update_self, if_pos rfl]
      rfl
    · rw [Function.update_of_ne hjk, if_neg hjk]
      rfl

/-- The clients are settled as they are after the three steps. -/
lemma Sound.settle_eq (h : t.Sound) (hi : t.allocators[i]? = some p) (hb : b ∈ t.live i)
    (hm : p.InFirstUnit b mem) (h3 : t3.Sound) (hk : t3.allocators[k]? = some r)
    (hlive : ∀ j, t3.live j =
      (if j = k then [(out, o)] else []) ++ if j = i then (t.live i).erase b else t.live j) :
    t.settle i mem (some out, t3.toPhysMemory) = t3 := by
  have hmem : (out, o) ∈ t3.live k := by
    rw [hlive, if_pos rfl]
    exact List.mem_cons_self
  have hbd := (h3.kept k r hk).bounds hmem
  have hpos := Nat.two_pow_pos (r.fo + o.toNat)
  have horder := (h3.kept k r hk).order hmem
  dsimp only at hbd horder
  have hrel : p.release (t.live i) mem = (t.live i).erase b := (h.kept i p hi).release_eq hb hm
  have hfun : (t.settle i mem (some out, t3.toPhysMemory)).live = t3.live := by
    funext j
    rw [hlive j, settle]
    dsimp only
    rw [hi]
    dsimp only
    rw [hrel]
    congr 1
    by_cases hjk : j = k
    · subst hjk
      rw [hk, if_pos rfl]
      dsimp only
      rw [horder, if_pos]
      rw [UInt64.le_iff_toNat_le, UInt64.lt_iff_toNat_lt]
      exact ⟨hbd.1, (Nat.lt_add_of_pos_right hpos).trans_le hbd.2⟩
    · rw [if_neg hjk]
      cases hj : t3.allocators[j]? with
      | none => rfl
      | some a =>
        dsimp only
        rw [if_neg]
        rw [UInt64.le_iff_toNat_le, UInt64.lt_iff_toNat_lt]
        rintro ⟨h1, h2⟩
        have := h3.apart k j r a hk hj (Ne.symm hjk) out.toNat hbd.1
          ((Nat.lt_add_of_pos_right hpos).trans_le hbd.2) h1
        exact absurd h2 (Nat.not_lt.mpr this)
  exact congrArg (Pool.mk t3.toPhysMemory) hfun

lemma Sound.tiled (h : t.Sound) : t.Tiled := fun i p hi => (h.kept i p hi).inv.tiled

lemma mem_erase_iff {l : ℕ → List Allocation} (hnd : (l i).Nodup) {j : ℕ} :
    (c ∈ if j = i then (l i).erase b else l j) ↔ c ∈ l j ∧ ¬ (j = i ∧ c = b) := by
  by_cases hji : j = i
  · subst hji
    rw [if_pos rfl, hnd.mem_erase_iff]
    tauto
  · rw [if_neg hji]
    tauto

/-- The block is found elsewhere, or there is none. -/
theorem Sound.move (h : t.Sound) (hi : t.allocators[i]? = some p) (hb : b ∈ t.live i)
    (hm : p.InFirstUnit b mem) (hn : 0 < n.toNat) (hn' : n.toNat ≤ 2 ^ 30) (ho : b.2 < p.getOrder n) :
    t.toPhysMemory.reallocMove i p b.1 (p.getOrderSize b.2) n = some (none, t.toPhysMemory) ∨
    ∃ out t3, t.toPhysMemory.reallocMove i p b.1 (p.getOrderSize b.2) n =
        some (some out, t3.toPhysMemory) ∧
      t.settle i mem (some out, t3.toPhysMemory) = t3 ∧ t3.Sound ∧ t.Reallocated i p b n out t3 := by
  have hsize : (p.getOrderSize b.2).toNat = 2 ^ (p.fo + b.2.toNat) :=
    p.getOrderSize_toNat ((h.kept i p hi).order_le hb)
  have hgrows : 2 ^ (p.fo + b.2.toNat) < n.toNat := (getOrder_bounds p.toLayout hn hn').2 b.2 ho
  rcases h.take hi hn hn' with hnone | ⟨out, k, r, o, t1, htake, h1, hk, hfit, hnew, hlive1, hK1⟩
  · left
    rw [PhysMemory.reallocMove, hnone]
  right
  have hc : (out, o) ∈ t1.live k := by
    rw [hlive1, Function.update_self]
    exact List.mem_cons_self
  have hold (j : ℕ) (c : Allocation) (hcj : c ∈ t.live j) : c ∈ t1.live j := by
    rw [hlive1]
    by_cases hjk : j = k
    · subst hjk
      rw [Function.update_self]
      exact List.mem_cons_of_mem _ hcj
    · rwa [Function.update_of_ne hjk]
  have hne (j : ℕ) (c : Allocation) (hcj : c ∈ t.live j) : ¬ (j = k ∧ c = (out, o)) := by
    rintro ⟨rfl, rfl⟩
    exact hnew hcj
  -- the copy
  obtain ⟨p1, hi1, hl1⟩ := hK1.layout hi
  have hfo1 : p1.fo = p.fo := congrArg (·.foBits.toNat) hl1
  obtain ⟨t2, hcopied, hlive2, h2, hK2, hcopy⟩ := h1.copy hk hc hi1 (hold i b hb)
    (show (p.getOrderSize b.2).toNat = _ by rw [hfo1, hsize])
    (by rw [hsize]; exact (hgrows.le.trans hfit))
  -- the old block goes
  obtain ⟨p2, hi2, hl2⟩ := hK2.layout hi1
  obtain ⟨t3, hgiven, hlive3, h3, hK3⟩ := h2.give hi2 (by rw [hlive2]; exact hold i b hb)
  rw [hlive2] at hlive3 hK3
  have hlive := live_moved hb hnew hlive1
  rw [← hlive3] at hlive
  obtain ⟨r2, hk2, hlr2⟩ := hK2.layout hk
  obtain ⟨r3, hk3, hlr3⟩ := hK3.layout hk2
  have hfor2 : r2.fo = r.fo := congrArg (·.foBits.toNat) hlr2
  have hfor3 : r3.fo = r.fo := congrArg (·.foBits.toNat) (hlr3.trans hlr2)
  have hmove : t.toPhysMemory.reallocMove i p b.1 (p.getOrderSize b.2) n =
      some (some out, t3.toPhysMemory) := by
    rw [PhysMemory.reallocMove, htake]
    dsimp only
    rw [hi1, Option.bind_some, ← hcopied, hi2, hgiven]
    rfl
  have hK : Keeps (fun j c => c ∈ t.live j ∧ ¬ (j = i ∧ c = b)) t t3 :=
    (hK1.mono fun j c hc => hc.1).trans ((hK2.mono fun j c hc => ⟨hold j c hc.1, hne j c hc.1⟩).trans
      (hK3.mono fun j c hc => ⟨hold j c hc.1, hc.2⟩))
  refine ⟨out, t3, hmove, h.settle_eq hi hb hm h3 hk3 hlive, h3, h3.tiled, ?_, fun x _ hx => ?_,
    fun j c q hq hc hcb => hK.word j c q hq ⟨hc, hcb⟩⟩
  · refine ⟨k, r3, o, hk3, by rwa [hfor3], fun j c => ?_⟩
    rw [hK.live_iff, Live, exists_and_right, and_assoc, hlive, List.mem_append,
      mem_erase_iff (h.kept i p hi).nodup]
    by_cases hjk : j = k
    · subst hjk
      have hsome : ∃ q, t.allocators[j]? = some q := by
        have hj := hK1.getElem? j
        rw [hk] at hj
        obtain ⟨q, hq, -⟩ := Option.map_eq_some_iff.mp hj.symm
        exact ⟨q, hq⟩
      rw [if_pos rfl, List.mem_singleton]
      tauto
    · rw [if_neg hjk]
      simp only [List.not_mem_nil, hjk, false_and, false_or]
  · have hx := lt_min_iff.mp hx
    have hbd := (h.kept i p hi).bounds hb
    have hcd := (h1.kept k r hk).bounds hc
    dsimp only at hcd
    have hphi : p.hi < 2 ^ 64 := p.endAddr.toNat_lt
    have hrhi : r.hi < 2 ^ 64 := r.endAddr.toNat_lt
    have hbx : (b.1 + x).toNat = b.1.toNat + x.toNat := by
      rw [UInt64.toNat_add]
      omega
    have hox : (out + x).toNat = out.toNat + x.toNat := by
      rw [UInt64.toNat_add]
      omega
    rw [hK3.word k (out, o) r2 hk2 ⟨hc, ?_⟩ (out + x)
      (show out.toNat ≤ (out + x).toNat by omega)
      (show (out + x).toNat < out.toNat + 2 ^ (r2.fo + o.toNat) by
        rw [hfor2]
        omega)]
    · refine (hcopy x (by rw [hfo1]; exact hx.1)).trans ?_
      exact hK1.word i b p hi hb (b.1 + x) (by omega) (by omega)
    · rintro ⟨rfl, rfl⟩
      exact hnew hb

end EpochKernel.Mem.Pool
