import EpochKernel.Mem.PoolCalls

/-! The allocators behind `mem/mem.cpp` are a heap: whatever clients call, blocks in use do not overlap,
cleared blocks are clear and every word of a block stays as its client left it, although the free
lists run through the free memory itself. -/
namespace EpochKernel.Mem
open EpochKernel.Util EpochKernel.Library EpochKernel.Library.Block

/-- `log2_up` never takes a request beyond the `int` range for a small one. -/
lemma le_log2Up {n : UInt64} (h : 2 ^ 30 < n.toNat) : 31 ≤ (log2Up n).toNat := by
  have hne : n ≠ 0 := by
    rintro rfl
    exact absurd h (by decide)
  have hL := log2_toNat hne
  set L := n.toNat.log2 with hLdef
  have hpow : 2 ^ L ≤ n.toNat := Nat.log2_self_le (Nat.ne_of_gt ((Nat.two_pow_pos 30).trans h))
  have hlt : n.toNat < 2 ^ (L + 1) := Nat.lt_log2_self
  have hL30 : 30 ≤ L := by
    have : 2 ^ 30 < 2 ^ (L + 1) := h.trans hlt
    have := (Nat.pow_lt_pow_iff_right (by norm_num)).mp this
    omega
  have hL64 : L < 64 := by
    have : 2 ^ L < 2 ^ 64 := hpow.trans_lt n.toNat_lt
    exact (Nat.pow_lt_pow_iff_right (by norm_num)).mp this
  have hshift : (log2 n).toUInt32 = UInt32.ofNat L := by
    apply UInt32.toNat_inj.mp
    rw [UInt8.toNat_toUInt32, hL, UInt32.toNat_ofNat']
    omega
  have hone := intShl_toNat_cases hL64
  rw [← hshift] at hone
  unfold log2Up
  generalize intShl (log2 n).toUInt32 = a at hone
  suffices hbig : alignUp n a = 0 ∨ 2 ^ 31 ≤ (alignUp n a).toNat by
    rcases hbig with h0 | hbig
    · rw [h0]
      decide
    · have hne' : alignUp n a ≠ 0 := by
        intro h0
        rw [h0] at hbig
        exact absurd hbig (by decide)
      rw [log2_toNat hne']
      exact (Nat.le_log2 (Nat.ne_of_gt ((Nat.two_pow_pos 31).trans_le hbig))).mpr hbig
  by_cases h31 : L % 32 = 31
  · -- the shift gives a negative number, and the alignment leaves one bit
    rw [if_pos h31] at hone
    have ha : a = 0xffffffff80000000 := UInt64.toNat_inj.mp hone
    have hbit : (alignUp n a).toNat = ((n + a - 1).toNat.testBit 31).toNat * 2 ^ 31 := by
      rw [alignUp, ha, UInt64.toNat_and]
      exact Nat.and_two_pow _ 31
    cases hb : (n + a - 1).toNat.testBit 31 with
    | false =>
      left
      rw [hb] at hbit
      exact UInt64.toNat_inj.mp hbit
    | true =>
      right
      rw [hbit, hb]
      decide
  · right
    rw [if_neg h31] at hone
    have hk : 2 ^ (L % 32) ≤ 2 ^ 30 := Nat.pow_le_pow_right (by norm_num) (by omega)
    have hn63 : n.toNat < 2 ^ 63 := hlt.trans_le (Nat.pow_le_pow_right (by norm_num) (by omega))
    rw [alignUp_toNat hone (by omega)]
    by_cases hL32 : L = 30
    · rw [hL32]
      change 2 ^ 31 ≤ (n.toNat + 2 ^ 30 - 1) / 2 ^ 30 * 2 ^ 30
      omega
    · have hn32 : 2 ^ 32 ≤ n.toNat := (Nat.pow_le_pow_right (by norm_num) (by omega)).trans hpow
      have hmod := Nat.mod_lt (n.toNat + 2 ^ (L % 32) - 1) (Nat.two_pow_pos (L % 32))
      have hdiv := Nat.div_add_mod' (n.toNat + 2 ^ (L % 32) - 1) (2 ^ (L % 32))
      omega

namespace Pallocator
variable (p : Pallocator)

@[simp] lemma splitZone_toLayout (order : UInt8) : (p.splitZone order).toLayout = p.toLayout := by
  rw [splitZone]
  cases h : p.pop order with
  | mk out p' =>
    have hl : p'.toLayout = p.toLayout := congrArg (·.2.toLayout) h.symm
    cases out <;> exact hl

lemma populateOrder_toLayout (fuel : ℕ) (order : UInt8) :
    (populateOrder fuel order p).2.toLayout = p.toLayout := by
  induction fuel generalizing order with
  | zero => rfl
  | succ fuel ih =>
    rw [populateOrder]
    have h := ih (order + 1)
    split_ifs
    · rfl
    · exact splitZone_toLayout p order
    · cases hc : populateOrder fuel (order + 1) p with
      | mk b p' =>
        rw [hc] at h
        cases b
        · exact h
        · exact (splitZone_toLayout p' order).trans h

lemma oalloc_toLayout (order : UInt8) : (p.oalloc order).2.toLayout = p.toLayout := by
  rw [oalloc]
  by_cases ho : order > p.maxOrder
  · rw [if_pos ho]
  · rw [if_neg ho]
    dsimp only
    have h : (if (p.lists order.toNat).len = 0 then (populateOrder 256 (order + 1) p).2
        else p).toLayout = p.toLayout := by
      split_ifs
      · exact populateOrder_toLayout p 256 (order + 1)
      · rfl
    generalize (if (p.lists order.toNat).len = 0 then (populateOrder 256 (order + 1) p).2
      else p) = p1 at h
    cases hp : p1.pop order with
    | mk out p' =>
      have hl : p'.toLayout = p1.toLayout := congrArg (·.2.toLayout) hp.symm
      cases out <;> exact hl.trans h

lemma alloc_toLayout (n : UInt64) : (p.alloc n).2.toLayout = p.toLayout := by
  rw [alloc]
  split_ifs
  · rfl
  · exact oalloc_toLayout p (p.getOrder n)

lemma mergeOrder_toLayout (fuel : ℕ) (addr : UInt64) (order mOrder : UInt8) :
    (mergeOrder fuel addr order mOrder p).toLayout = p.toLayout := by
  induction fuel generalizing addr order p with
  | zero => rfl
  | succ fuel ih =>
    rw [mergeOrder]
    dsimp only
    split_ifs
    any_goals rfl
    all_goals exact ih _ _ _

lemma free_toLayout (mem : UInt64) : (p.free mem).toLayout = p.toLayout := by
  rw [free]
  dsimp only
  split_ifs
  · rfl
  · rfl
  · exact mergeOrder_toLayout _ _ _ _ _

lemma reallocSplit_toLayout (m : UInt64) (nOrder : UInt8) (fuel : ℕ) (order : UInt8) :
    (reallocSplit m nOrder fuel order p).toLayout = p.toLayout := by
  induction fuel generalizing order p with
  | zero => rfl
  | succ fuel ih =>
    rw [reallocSplit]
    split_ifs
    · exact ih _ _
    · rfl

lemma reallocAbsorb_toLayout (m : UInt64) (nOrder : UInt8) (fuel : ℕ) (order : UInt8) (len : UInt64) :
    (reallocAbsorb m nOrder fuel order len p).2.toLayout = p.toLayout := by
  induction fuel generalizing order len p with
  | zero => rfl
  | succ fuel ih =>
    rw [reallocAbsorb]
    split_ifs
    · exact ih _ _ _
    · rfl

end Pallocator

namespace PhysMemory
variable {w : PhysMemory} {f : UInt64 → UInt64 → UInt64}

/-- The layouts of the allocators, which no call changes. -/
def layouts (w : PhysMemory) : List Layout := w.allocators.map (·.toLayout)

lemma layouts_set {i : ℕ} {p p' : Pallocator} (hi : w.allocators[i]? = some p)
    (hl : p'.toLayout = p.toLayout) : layouts ⟨w.allocators.set i p', w.data⟩ = w.layouts := by
  have hself : (w.allocators.map (·.toLayout))[i]? = some p.toLayout := by
    rw [List.getElem?_map, hi]
    rfl
  rw [layouts, List.map_set, hl]
  exact Pool.set_self hself

lemma memAlloc_layouts (n : UInt64) (ps : List Pallocator) :
    (Pallocator.memAlloc n ps).2.map (·.toLayout) = ps.map (·.toLayout) := by
  induction ps with
  | nil => rfl
  | cons p ps ih =>
    rw [Pallocator.memAlloc_cons]
    split_ifs
    · exact congrArg (· :: ps.map (·.toLayout)) (p.alloc_toLayout n)
    · exact congrArg₂ (· :: ·) (p.alloc_toLayout n) ih

lemma memcpy_layouts (p : Pallocator) (dest src n : UInt64) :
    (w.memcpy p dest src n).layouts = w.layouts := List.map_map

lemma edit_layouts : (w.edit f).layouts = w.layouts := List.map_map

lemma reallocTake_layouts {i : ℕ} {p : Pallocator} (hi : w.allocators[i]? = some p) (n : UInt64) :
    (w.reallocTake i p n).2.layouts = w.layouts := by
  have hset := layouts_set (w := w) hi (p.alloc_toLayout n)
  rw [reallocTake]
  cases (p.alloc n).1.filter (· ≠ 0) with
  | some out => exact hset
  | none => exact (memAlloc_layouts n _).trans hset

lemma reallocMove_layouts {i : ℕ} {p : Pallocator} {m len n : UInt64} {r : Option UInt64 × PhysMemory}
    (hi : w.allocators[i]? = some p) (hr : w.reallocMove i p m len n = some r) :
    r.2.layouts = w.layouts := by
  have htake := reallocTake_layouts (w := w) hi n
  rw [reallocMove] at hr
  cases hc : w.reallocTake i p n with
  | mk out w1 =>
    rw [hc] at hr htake
    cases out with
    | none =>
      obtain rfl := Option.some.inj hr
      exact htake
    | some out =>
      obtain ⟨p1, -, hr⟩ := Option.bind_eq_some_iff.mp hr
      obtain ⟨p2, hp2, rfl⟩ := Option.map_eq_some_iff.mp hr
      have hset := layouts_set hp2 (p2.free_toLayout m)
      exact (hset.trans (memcpy_layouts p1 out m len)).trans htake

lemma realloc_layouts {i : ℕ} {mem n : UInt64} {r : Option UInt64 × PhysMemory}
    (hr : w.realloc i mem n = some r) : r.2.layouts = w.layouts := by
  rw [realloc, Option.bind_eq_some_iff] at hr
  obtain ⟨p, hi, hr⟩ := hr
  dsimp only at hr
  split_ifs at hr
  any_goals
    obtain rfl := Option.some.inj hr
    rfl
  · obtain rfl := Option.some.inj hr
    exact layouts_set hi (Pallocator.reallocSplit_toLayout _ _ _ _ _)
  · obtain ⟨space, -, hr⟩ := Option.bind_eq_some_iff.mp hr
    split_ifs at hr
    · obtain rfl := Option.some.inj hr
      exact layouts_set hi (Pallocator.reallocAbsorb_toLayout _ _ _ _ _ _)
    · exact reallocMove_layouts hi hr

lemma setPointer_getD (l : Option UInt64) (g : UInt64 → UInt64) :
    (setPointer l g).getD 0 = g (l.getD 0) := by
  rw [setPointer]
  split_ifs with h1 h2
  · exact h1.symm
  · exact h2.symm
  · rfl

lemma setPointer_self {l : Option UInt64} {g : UInt64 → UInt64} (h : ∀ v, g v = v) :
    setPointer l g = l := if_pos (h _)

@[simp] lemma get_edit (a : UInt64) : (w.edit f).get a = f a (w.get a) := by
  unfold get word
  rw [edit, List.find?_map]
  have hq : ((fun p : Pallocator => decide (p.startAddr ≤ a ∧ a < p.endAddr)) ∘ fun p : Pallocator =>
      { p with
        links := fun a => ⟨setPointer (p.links a).prev (f a), setPointer (p.links a).next (f (a + 8))⟩
        n := fun a => f (a + 16) (p.n a) }) =
      fun p : Pallocator => decide (p.startAddr ≤ a ∧ a < p.endAddr) := rfl
  rw [hq]
  cases w.allocators.find? fun p : Pallocator => decide (p.startAddr ≤ a ∧ a < p.endAddr) with
  | none => rfl
  | some p =>
    dsimp only [Option.map_some]
    rw [wordAt, wordAt]
    dsimp only
    split_ifs with h1 h2 h3
    · rw [setPointer_getD, ← h1]
    · rw [setPointer_getD, ← h2]
    · rw [Option.getD_some, Option.getD_some, ← h3]
    · rfl

lemma manager_range {mem : UInt64} {i : ℕ} {p : Pallocator} (hm : w.manager mem = some i)
    (hi : w.allocators[i]? = some p) : p.lo ≤ mem.toNat ∧ mem.toNat < p.hi := by
  obtain ⟨hlt, hin, -⟩ := List.findIdx?_eq_some_iff_getElem.mp hm
  obtain rfl : w.allocators[i] = p := (List.getElem?_eq_some_iff.mp hi).2
  rw [decide_eq_true_eq, ge_iff_le, UInt64.le_iff_toNat_le, UInt64.lt_iff_toNat_lt] at hin
  exact hin

section First
variable {call : PhysMemory → ℕ → Option UInt64 × PhysMemory}

/-- If a call that is refused changes nothing, one call is made in effect. -/
lemma first_cases (hcall : ∀ i, (call w i).1.filter (· ≠ 0) = none → (call w i).2 = w) (k i : ℕ) :
    (first call k i w = (none, w) ∧
      ∀ j, i ≤ j → j < i + k → (call w j).1.filter (· ≠ 0) = none) ∨
    ∃ j out, (call w j).1.filter (· ≠ 0) = some out ∧
      first call k i w = (some out, (call w j).2) := by
  induction k generalizing i with
  | zero => exact .inl ⟨rfl, fun j h1 h2 => by omega⟩
  | succ k ih =>
    rw [first]
    cases hc : (call w i).1.filter (· ≠ 0) with
    | none =>
      rw [hcall i hc]
      rcases ih (i + 1) with ⟨hnone, hall⟩ | hsome
      · refine .inl ⟨hnone, fun j h1 h2 => ?_⟩
        rcases Nat.eq_or_lt_of_le h1 with rfl | hlt
        · exact hc
        · exact hall j hlt (by omega)
      · exact .inr hsome
    | some out => exact .inr ⟨i, out, hc, rfl⟩

end First

end PhysMemory

namespace Pool
open Pallocator
variable {t t' : Pool} {i j k : ℕ} {p p' q : Pallocator} {b c : Allocation} {n mem out : UInt64}
  {o : UInt8}

/-- A block of a client: its first byte and its size. -/
def InUse (t : Pool) (b : ℕ × ℕ) : Prop :=
  ∃ j p c, t.allocators[j]? = some p ∧ c ∈ t.live j ∧ b = (c.1.toNat, 2 ^ (p.fo + c.2.toNat))

/-- What the clients of the heap `g` know is so. -/
structure Represents (t : Pool) (g : BlockHeap UInt64) : Prop where
  blocks : ∀ b, b ∈ g.blocks ↔ t.InUse b
  known : ∀ a : UInt64, 8 ∣ a.toNat → ∀ v, g.known a.toNat = some v → t.get a = v

/-- The bytes of the blocks in use. -/
def held (t : Pool) : Set ℕ := {x | ∃ b, t.InUse b ∧ x ∈ cells b}

/-- A byte of a free zone is in no block in use, of any allocator. -/
lemma Sound.zone_notMem_held (h : t.Sound) (hj : t.allocators[j]? = some p) {q : ℕ → List UInt64}
    (hq : Holds p (t.live j) q) {z : UInt64} {k x : ℕ} (hz : z ∈ q k) (h1 : z.toNat ≤ x)
    (h2 : x < z.toNat + 2 ^ (p.fo + k)) : x ∉ t.held := by
  rintro ⟨_, ⟨i, r, c, hi, hc, rfl⟩, hx1, hx2⟩
  have hbz := hq.bounds hz
  by_cases hij : i = j
  · subst hij
    obtain rfl := Option.some.inj (hi.symm.trans hj)
    exact hq.notMem_held (hq.block_mem hz) ⟨h1, h2⟩ ((h.kept i r hi).mem_held hc hx1 hx2)
  · have hbc := (h.kept i r hi).bounds hc
    dsimp only at hx1 hx2
    have hout := h.apart i j r p hi hj hij x (by omega) (by omega) (by omega)
    omega

/-- Stores into the blocks of clients leave all allocators in order. -/
lemma Sound.edit (h : t.Sound) {f : UInt64 → UInt64 → UInt64}
    (hf : ∀ a : UInt64, a.toNat ∉ t.held → ∀ v, f a v = v) :
    Sound ⟨t.toPhysMemory.edit f, t.live⟩ := by
  have hget (j : ℕ) : (t.toPhysMemory.edit f).allocators[j]? =
      (t.allocators[j]?).map fun p => { p with
        links := fun a => ⟨PhysMemory.setPointer (p.links a).prev (f a),
          PhysMemory.setPointer (p.links a).next (f (a + 8))⟩
        n := fun a => f (a + 16) (p.n a) } := List.getElem?_map
  refine ⟨fun j p' hj' => ?_, fun i j a' b' hi' hj' hne x => ?_⟩
  · dsimp only at hj'
    rw [hget, Option.map_eq_some_iff] at hj'
    obtain ⟨p, hj, rfl⟩ := hj'
    obtain ⟨⟨q, hq, hB⟩, hsmall, hpage, hpos, hrec⟩ := h.kept j p hj
    refine ⟨⟨q, hq.overwrite fun k z hz => ?_, hB⟩, hsmall, hpage, hpos, hrec⟩
    -- the three words of the header of a free zone are not in a block in use
    have hzone (d : UInt64) (hd : d.toNat ≤ 16) : ∀ v, f (z + d) v = v := by
      have hbz : z.toNat + 2 ^ (p.fo + k) ≤ p.hi := (hq.bounds hz).2
      have hhi : p.hi < 2 ^ 64 := p.endAddr.toNat_lt
      have hsize : 2 ^ 12 ≤ 2 ^ (p.fo + k) := Nat.pow_le_pow_right (by norm_num) (by omega)
      have hzd : (z + d).toNat = z.toNat + d.toNat := by
        rw [UInt64.toNat_add]
        omega
      exact hf (z + d) (h.zone_notMem_held hj hq hz (by omega) (by omega))
    have h0 : ∀ v, f z v = v := by
      have hz0 := hzone 0 (Nat.zero_le _)
      rwa [add_zero] at hz0
    refine ⟨?_, hzone 16 le_rfl _⟩
    dsimp only
    rw [PhysMemory.setPointer_self h0, PhysMemory.setPointer_self (hzone 8 (by decide))]
  · dsimp only at hi' hj'
    rw [hget, Option.map_eq_some_iff] at hi' hj'
    obtain ⟨a, hi, rfl⟩ := hi'
    obtain ⟨b, hj, rfl⟩ := hj'
    exact h.apart i j a b hi hj hne x

/-- Two blocks in use are the same one or have no byte in common. -/
lemma Sound.disjoint (h : t.Sound) (hj : t.allocators[j]? = some p) (hc : c ∈ t.live j)
    (hk : t.allocators[k]? = some q) (hb : b ∈ t.live k) (hne : ¬ (j = k ∧ c = b)) :
    Disjoint (cells (c.1.toNat, 2 ^ (p.fo + c.2.toNat))) (cells (b.1.toNat, 2 ^ (q.fo + b.2.toNat))) := by
  rw [disjoint_cells]
  dsimp only
  intro x h1 h2 h3
  by_contra h4
  have hbc := (h.kept j p hj).bounds hc
  have hbb := (h.kept k q hk).bounds hb
  by_cases hjk : j = k
  · subst hjk
    obtain rfl := Option.some.inj (hj.symm.trans hk)
    obtain ⟨z, hz, -⟩ := (h.kept j p hj).inv
    have he := hz.tiles.disjoint _ (Or.inr (hz.live_mem hc)) _ (Or.inr (hz.live_mem hb)) x
      ⟨h1, h2⟩ ⟨h3, Nat.not_le.mp h4⟩
    have he1 : c.1.toNat = b.1.toNat := congrArg Block.base he
    have he2 : p.fo + c.2.toNat = p.fo + b.2.toNat := congrArg Block.exp he
    exact hne ⟨rfl, Prod.ext (UInt64.toNat_inj.mp he1) (UInt8.toNat_inj.mp (by omega))⟩
  · have hout := h.apart j k p q hj hk hjk x (by omega) (by omega) (by omega)
    omega

/-- A block in use begins at a word. -/
lemma Sound.dvd (h : t.Sound) (hi : t.allocators[i]? = some p) (hb : b ∈ t.live i) :
    8 ∣ b.1.toNat := by
  obtain ⟨q, hq, -⟩ := (h.kept i p hi).inv
  have hpage := (h.kept i p hi).page
  exact (pow_dvd_pow 2 (show 3 ≤ p.fo + b.2.toNat by omega)).trans (hq.allocation b hb)

/-- The blocks are recorded as they are after a block was taken from one allocator. -/
lemma Sound.grant_eq (h' : t'.Sound) (hi : t'.allocators[i]? = some p)
    (hlive : t'.live = Function.update t.live i ((out, o) :: t.live i)) :
    t.grant (some out, t'.toPhysMemory) = t' := by
  have hmem : (out, o) ∈ t'.live i := by
    rw [hlive, Function.update_self]
    exact List.mem_cons_self
  have hbd := (h'.kept i p hi).bounds hmem
  have hpos := Nat.two_pow_pos (p.fo + o.toNat)
  have horder := (h'.kept i p hi).order hmem
  dsimp only at hbd horder
  have hfun : (t.grant (some out, t'.toPhysMemory)).live = t'.live := by
    funext j
    rw [hlive, grant]
    dsimp only
    by_cases hji : j = i
    · subst hji
      rw [hi, Function.update_self]
      dsimp only
      rw [horder, if_pos]
      · rfl
      · rw [UInt64.le_iff_toNat_le, UInt64.lt_iff_toNat_lt]
        exact ⟨hbd.1, (Nat.lt_add_of_pos_right hpos).trans_le hbd.2⟩
    · rw [Function.update_of_ne hji]
      cases hj : t'.allocators[j]? with
      | none => rfl
      | some a =>
        dsimp only
        rw [if_neg]
        · rfl
        rw [UInt64.le_iff_toNat_le, UInt64.lt_iff_toNat_lt]
        rintro ⟨h1, h2⟩
        have hout := h'.apart i j p a hi hj (Ne.symm hji) out.toNat hbd.1
          ((Nat.lt_add_of_pos_right hpos).trans_le hbd.2) h1
        exact absurd h2 (Nat.not_lt.mpr hout)
  exact congrArg (Pool.mk t'.toPhysMemory) hfun

lemma inUse_congr (hl : t'.toPhysMemory.layouts = t.toPhysMemory.layouts) (hlive : t'.live = t.live)
    (b : ℕ × ℕ) : t'.InUse b ↔ t.InUse b := by
  have hget (j : ℕ) : (t'.allocators[j]?).map (·.toLayout) = (t.allocators[j]?).map (·.toLayout) := by
    rw [← List.getElem?_map, ← List.getElem?_map]
    exact congrArg (·[j]?) hl
  constructor
  · rintro ⟨j, p', c, hj, hc, rfl⟩
    have hg := hget j
    rw [hj] at hg
    obtain ⟨p, hp, hpl⟩ := Option.map_eq_some_iff.mp hg.symm
    exact ⟨j, p, c, hp, hlive ▸ hc, by rw [show p.fo = p'.fo from congrArg (·.foBits.toNat) hpl]⟩
  · rintro ⟨j, p, c, hj, hc, rfl⟩
    have hg := hget j
    rw [hj] at hg
    obtain ⟨p', hp, hpl⟩ := Option.map_eq_some_iff.mp hg
    exact ⟨j, p', c, hp, hlive ▸ hc, by rw [show p'.fo = p.fo from congrArg (·.foBits.toNat) hpl]⟩

/-- The pool after the allocator `i` has handed out the block `c`. -/
def handOut (t : Pool) (i : ℕ) (p' : Pallocator) (c : Allocation) : Pool :=
  ⟨⟨t.allocators.set i p', t.data⟩, Function.update t.live i (c :: t.live i)⟩

@[simp] lemma handOut_live_self : (t.handOut i p' c).live i = c :: t.live i := Function.update_self ..

lemma handOut_live_ne (hji : j ≠ i) : (t.handOut i p' c).live j = t.live j :=
  Function.update_of_ne hji ..

lemma handOut_self (hi : t.allocators[i]? = some p) : (t.handOut i p' c).allocators[i]? = some p' :=
  List.getElem?_set_self (List.getElem?_eq_some_iff.mp hi).1

lemma handOut_ne (hji : j ≠ i) : (t.handOut i p' c).allocators[j]? = t.allocators[j]? :=
  List.getElem?_set_ne hji.symm

/-- A block that `oalloc` hands out is new, and leaves the others alone. -/
lemma Sound.handOut (h : t.Sound) (hi : t.allocators[i]? = some p) (ho : p.oalloc o = (some out, p')) :
    (t.handOut i p' (out, o)).Sound ∧ out ≠ 0 ∧ p.fo + o.toNat ≤ 30 ∧ p'.toLayout = p.toLayout ∧
      (out, o) ∉ t.live i ∧ Keeps (fun j c => c ∈ t.live j) t (t.handOut i p' (out, o)) := by
  have hp := h.kept i p hi
  rcases hp.oalloc o with ⟨p1, out1, heq, hout, hkept, hl, hsp⟩ | hnone
  · obtain ⟨hsome, rfl⟩ := Prod.mk.inj (heq.symm.trans ho)
    obtain rfl := Option.some.inj hsome
    have hfo : p1.fo = p.fo := congrArg (·.foBits.toNat) hl
    refine ⟨h.set hi hkept hl t.data, hout, ?_, hl, (List.nodup_cons.mp hkept.nodup).1,
      h.set_keeps hi hkept hl hsp (fun _ _ hc => hc) fun c hc x h1 h2 => hp.mem_held hc h1 h2⟩
    rw [← hfo]
    exact hkept.order_le List.mem_cons_self
  · rw [ho] at hnone
    cases hnone

lemma inUse_handOut (hi : t.allocators[i]? = some p) (hl : p'.toLayout = p.toLayout) (b : ℕ × ℕ) :
    (t.handOut i p' c).InUse b ↔ b = (c.1.toNat, 2 ^ (p.fo + c.2.toNat)) ∨ t.InUse b := by
  have hfo : p'.fo = p.fo := congrArg (·.foBits.toNat) hl
  constructor
  · rintro ⟨j, r, d, hj, hd, rfl⟩
    by_cases hji : j = i
    · subst hji
      rw [handOut_self hi] at hj
      obtain rfl := Option.some.inj hj
      rw [handOut_live_self] at hd
      rw [hfo]
      rcases List.mem_cons.mp hd with rfl | hd
      · exact .inl rfl
      · exact .inr ⟨j, p, d, hi, hd, rfl⟩
    · rw [handOut_ne hji] at hj
      rw [handOut_live_ne hji] at hd
      exact .inr ⟨j, r, d, hj, hd, rfl⟩
  · rintro (rfl | ⟨j, r, d, hj, hd, rfl⟩)
    · refine ⟨i, p', c, handOut_self hi, ?_, by rw [hfo]⟩
      rw [handOut_live_self]
      exact List.mem_cons_self
    · by_cases hji : j = i
      · subst hji
        obtain rfl := Option.some.inj (hi.symm.trans hj)
        refine ⟨j, p', d, handOut_self hi, ?_, by rw [hfo]⟩
        rw [handOut_live_self]
        exact List.mem_cons_of_mem _ hd
      · refine ⟨j, r, d, (handOut_ne hji).trans hj, ?_, rfl⟩
        rw [handOut_live_ne hji]
        exact hd

/-- A word that is read from a block in use of a pool that keeps the blocks. -/
lemma Keeps.get (hK : Keeps (fun j c => c ∈ t.live j) t t') {a : UInt64} (ha : a.toNat ∈ t.held) :
    t'.get a = t.get a := by
  obtain ⟨_, ⟨j, p, c, hj, hc, rfl⟩, h1, h2⟩ := ha
  rw [PhysMemory.get, PhysMemory.get, hK.word j c p hj hc a h1 h2]

/-- A block that `oalloc` hands out has no byte of another one. -/
lemma Sound.handOut_disjoint (h : t.Sound) (hi : t.allocators[i]? = some p)
    (ho : p.oalloc o = (some out, p')) {b : ℕ × ℕ} (hb : t.InUse b) :
    Disjoint (cells (out.toNat, 2 ^ (p.fo + o.toNat))) (cells b) := by
  obtain ⟨h1, -, -, hl, hnew, -⟩ := h.handOut hi ho
  have hfo : p'.fo = p.fo := congrArg (·.foBits.toNat) hl
  have hi1 : (t.handOut i p' (out, o)).allocators[i]? = some p' := handOut_self hi
  have hmem : (out, o) ∈ (t.handOut i p' (out, o)).live i := by
    rw [handOut_live_self]
    exact List.mem_cons_self
  obtain ⟨j, r, d, hj, hd, rfl⟩ := hb
  by_cases hji : j = i
  · subst hji
    obtain rfl := Option.some.inj (hi.symm.trans hj)
    have hd1 : d ∈ (t.handOut j p' (out, o)).live j := by
      rw [handOut_live_self]
      exact List.mem_cons_of_mem _ hd
    have hdis := h1.disjoint hi1 hmem hi1 hd1 (by
      rintro ⟨-, rfl⟩
      exact hnew hd)
    rwa [hfo] at hdis
  · have hd1 : d ∈ (t.handOut i p' (out, o)).live j := by
      rw [handOut_live_ne hji]
      exact hd
    have hdis := h1.disjoint hi1 hmem ((handOut_ne hji).trans hj) hd1 fun hij => hji hij.1.symm
    rwa [hfo] at hdis

/-- A request that is granted, for the pool `t'` with the new block. -/
lemma Represents.request {g : BlockHeap UInt64} (hg : t.Represents g) (h : t.Sound)
    (hi : t.allocators[i]? = some p) (ho : p.oalloc o = (some out, p')) {m : ℕ}
    {fill : Option UInt64} (hm : m ≤ 2 ^ (p.fo + o.toNat))
    (hin : ∀ b, t'.InUse b ↔ (t.handOut i p' (out, o)).InUse b)
    (hget : ∀ a : UInt64, a.toNat ∈ t.held → t'.get a = t.get a)
    (hfill : ∀ a : UInt64, 8 ∣ a.toNat → out.toNat ≤ a.toNat → a.toNat + 8 ≤ out.toNat + m →
      ∀ v, fill = some v → t'.get a = v) :
    ∃ g', BlockHeap.Step 4096 8 g (.request m fill (some out.toNat)) g' ∧ t'.Represents g' := by
  obtain ⟨-, -, -, hl, -⟩ := h.handOut hi ho
  have hdisj : ∀ c ∈ g.blocks, Disjoint (cells (out.toNat, 2 ^ (p.fo + o.toNat))) (cells c) :=
    fun c hc => h.handOut_disjoint hi ho ((hg.blocks c).mp hc)
  refine ⟨_, .request g m fill (out.toNat, 2 ^ (p.fo + o.toNat)) hm hdisj, ?_, ?_⟩
  · intro b
    rw [hin, inUse_handOut hi hl]
    exact or_congr Iff.rfl (hg.blocks b)
  · intro a ha v hv
    rw [BlockHeap.give] at hv
    dsimp only at hv
    split_ifs at hv with hcell hfit
    · exact hfill a ha hcell.1 hfit v hv
    · have hne : g.known a.toNat ≠ none := by
        rw [hv]
        exact Option.some_ne_none v
      obtain ⟨b, hb, hab⟩ := g.owned _ hne
      rw [hget a ⟨b, (hg.blocks b).mp hb, hab⟩]
      exact hg.known a ha v hv

/-- `memset` of a part of a block in use. -/
lemma Sound.memset (h : t.Sound) (hi : t.allocators[i]? = some p) (hc : c ∈ t.live i)
    (hn : n.toNat ≤ 2 ^ (p.fo + c.2.toNat)) :
    Sound ⟨t.toPhysMemory.memset c.1 n, t.live⟩ ∧
      (∀ a : UInt64, a.toNat ∉ cells (c.1.toNat, 2 ^ (p.fo + c.2.toNat)) →
        (t.toPhysMemory.memset c.1 n).get a = t.get a) ∧
      ∀ a : UInt64, c.1.toNat ≤ a.toNat → a.toNat + 8 ≤ c.1.toNat + n.toNat →
        (t.toPhysMemory.memset c.1 n).get a = 0 := by
  have hbd : c.1.toNat + 2 ^ (p.fo + c.2.toNat) ≤ p.hi := ((h.kept i p hi).bounds hc).2
  have hhi : p.hi < 2 ^ 64 := p.endAddr.toNat_lt
  have hfit : c.1.toNat + n.toNat ≤ 2 ^ 64 := by omega
  have hout (a : UInt64) (ha : a.toNat ∉ cells (c.1.toNat, 2 ^ (p.fo + c.2.toNat))) :
      ¬ a - c.1 < n := by
    rw [sub_lt_iff hfit]
    rintro ⟨h1, h2⟩
    exact ha ⟨h1, h2.trans_le (Nat.add_le_add_left hn _)⟩
  refine ⟨h.edit fun a ha v => ?_, fun a ha => ?_, fun a h1 h2 => ?_⟩
  · refine if_neg (hout a fun hcell => ha ⟨_, ⟨i, p, c, hi, hc, rfl⟩, hcell⟩)
  · rw [PhysMemory.memset, PhysMemory.get_edit, if_neg (hout a ha)]
  · have hsub : (a - c.1).toNat = a.toNat - c.1.toNat :=
      UInt64.toNat_sub_of_le _ _ (UInt64.le_iff_toNat_le.mpr h1)
    have hlt : a - c.1 < n := by
      rw [UInt64.lt_iff_toNat_lt, hsub]
      omega
    have hrest : (n - (a - c.1)).toNat = n.toNat - (a.toNat - c.1.toNat) := by
      rw [UInt64.toNat_sub_of_le _ _ (UInt64.le_of_lt hlt), hsub]
    have hge : n - (a - c.1) ≥ 8 := by
      rw [ge_iff_le, UInt64.le_iff_toNat_le, hrest]
      change 8 ≤ _
      omega
    rw [PhysMemory.memset, PhysMemory.get_edit, if_pos hlt, if_pos hge]

/-- `out` is the answer to a request of `m` bytes, and `t'` the pool afterwards. -/
structure Serves (t : Pool) (m : ℕ) (fill : Option UInt64) (out : UInt64) (t' : Pool) : Prop where
  sound : t'.Sound
  layouts : t'.toPhysMemory.layouts = t.toPhysMemory.layouts
  grant : t.grant (some out, t'.toPhysMemory) = t'
  step : ∀ g, t.Represents g →
    ∃ g', BlockHeap.Step 4096 8 g (.request m fill (some out.toNat)) g' ∧ t'.Represents g'

/-- A request was refused, and nothing changed, or served. -/
def Answered (t : Pool) (m : ℕ) (fill : Option UInt64) (r : Option UInt64 × PhysMemory) : Prop :=
  (r.1.filter (· ≠ 0) = none ∧ r.2 = t.toPhysMemory) ∨
    ∃ out t', r.1.filter (· ≠ 0) = some out ∧ r.2 = t'.toPhysMemory ∧ Serves t m fill out t'

lemma Sound.serves (h : t.Sound) (hi : t.allocators[i]? = some p) (ho : p.oalloc o = (some out, p'))
    {m : ℕ} (hm : m ≤ 2 ^ (p.fo + o.toNat)) : Serves t m none out (t.handOut i p' (out, o)) := by
  obtain ⟨h1, -, -, hl, -, hK⟩ := h.handOut hi ho
  refine ⟨h1, PhysMemory.layouts_set hi hl, h1.grant_eq (handOut_self hi) rfl, fun g hg => ?_⟩
  refine hg.request h hi ho hm (fun b => Iff.rfl) (fun a ha => hK.get ha) fun a _ _ _ v hv => ?_
  cases hv

/-- The block is cleared before it is handed out. -/
lemma Sound.serves_memset (h : t.Sound) (hi : t.allocators[i]? = some p)
    (ho : p.oalloc o = (some out, p')) (hn : n.toNat ≤ 2 ^ (p.fo + o.toNat)) :
    Serves t n.toNat (some 0) out ⟨(t.handOut i p' (out, o)).toPhysMemory.memset out n,
      (t.handOut i p' (out, o)).live⟩ := by
  obtain ⟨h1, -, -, hl, -, hK⟩ := h.handOut hi ho
  have hfo : p'.fo = p.fo := congrArg (·.foBits.toNat) hl
  have hi1 : (t.handOut i p' (out, o)).allocators[i]? = some p' := handOut_self hi
  have hmem : (out, o) ∈ (t.handOut i p' (out, o)).live i := by
    rw [handOut_live_self]
    exact List.mem_cons_self
  obtain ⟨h2, hother, hzero⟩ := h1.memset hi1 hmem (by rw [hfo]; exact hn)
  have hlay : ((t.handOut i p' (out, o)).toPhysMemory.memset out n).layouts =
      t.toPhysMemory.layouts := PhysMemory.edit_layouts.trans (PhysMemory.layouts_set hi hl)
  obtain ⟨r2, hi2⟩ : ∃ r, ((t.handOut i p' (out, o)).toPhysMemory.memset out n).allocators[i]? =
      some r := by
    rw [PhysMemory.memset, PhysMemory.edit, List.getElem?_map, hi1]
    exact ⟨_, rfl⟩
  refine ⟨h2, hlay, h2.grant_eq hi2 rfl, fun g hg => ?_⟩
  refine hg.request h hi ho hn (inUse_congr PhysMemory.edit_layouts rfl) (fun a ha => ?_)
    fun a _ h3 h4 v hv => ?_
  · refine (hother a ?_).trans (hK.get ha)
    obtain ⟨b, hb, hcell⟩ := ha
    rw [hfo]
    exact fun hin => Set.disjoint_left.mp (h.handOut_disjoint hi ho hb) hin hcell
  · rw [← Option.some.inj hv]
    exact hzero a h3 h4

/-- A request is for at most 1 GiB, or it is refused. -/
lemma Sound.request_le (h : t.Sound) (hi : t.allocators[i]? = some p) (hn : n ≠ 0)
    (ho : p.oalloc (p.getOrder n) = (some out, p')) : n.toNat ≤ 2 ^ (p.fo + (p.getOrder n).toNat) := by
  obtain ⟨-, -, hle, -⟩ := h.handOut hi ho
  have hpos : 0 < n.toNat := Nat.pos_of_ne_zero fun h0 => hn (UInt64.toNat_inj.mp h0)
  refine (getOrder_bounds p.toLayout hpos ?_).1
  by_contra hlarge
  have hlog := le_log2Up (Nat.not_le.mp hlarge)
  have hge : log2Up n ≥ p.foBits := by
    rw [ge_iff_le, UInt8.le_iff_toNat_le]
    have : p.foBits.toNat ≤ 30 := (Nat.le_add_right _ _).trans hle
    omega
  have hsub := UInt8.toNat_sub_of_le _ _ hge
  have horder : p.getOrder n = log2Up n - p.foBits := if_pos hge
  rw [horder, hsub] at hle
  have := UInt8.le_iff_toNat_le.mp hge
  have : p.fo = p.foBits.toNat := rfl
  omega

/-- `oalloc` of one allocator. -/
lemma Sound.oalloc_cases (h : t.Sound) (hi : t.allocators[i]? = some p) (o : UInt8) :
    p.oalloc o = (none, p) ∨ ∃ p' out, p.oalloc o = (some out, p') ∧
      (some out).filter (· ≠ 0) = some out := by
  rcases (h.kept i p hi).oalloc o with ⟨p', out, heq, hout, -⟩ | hnone
  · exact .inr ⟨p', out, heq, by simp [hout]⟩
  · exact .inl hnone

lemma Sound.oalloc_answered (h : t.Sound) (o : UInt8) (i : ℕ)
    (hfo : ∀ p ∈ t.allocators, p.fo = 12) :
    Answered t (2 ^ (12 + o.toNat)) none (t.toPhysMemory.oalloc o i) := by
  rw [PhysMemory.oalloc]
  cases hi : t.allocators[i]? with
  | none => exact .inl ⟨rfl, rfl⟩
  | some p =>
    rcases h.oalloc_cases hi o with hnone | ⟨p', out, heq, hfilter⟩
    · left
      dsimp only
      rw [hnone, set_self hi]
      exact ⟨rfl, rfl⟩
    · right
      dsimp only
      rw [heq]
      exact ⟨out, _, hfilter, rfl, h.serves hi heq (by rw [hfo p (List.mem_of_getElem? hi)])⟩

lemma Sound.oallocz_answered (h : t.Sound) (o : UInt8) (i : ℕ)
    (hfo : ∀ p ∈ t.allocators, p.fo = 12) :
    Answered t (2 ^ (12 + o.toNat)) (some 0) (t.toPhysMemory.oallocz o i) := by
  rw [PhysMemory.oallocz, PhysMemory.oalloc]
  cases hi : t.allocators[i]? with
  | none => exact .inl ⟨rfl, rfl⟩
  | some p =>
    rcases h.oalloc_cases hi o with hnone | ⟨p', out, heq, hfilter⟩
    · left
      dsimp only
      rw [hnone, set_self hi]
      exact ⟨rfl, rfl⟩
    · right
      obtain ⟨-, -, hle, hl, -⟩ := h.handOut hi heq
      have hi1 : (t.handOut i p' (out, o)).allocators[i]? = some p' := handOut_self hi
      have hfo' : p'.fo = p.fo := congrArg (·.foBits.toNat) hl
      have hle' : p'.fo + o.toNat ≤ 30 := by
        rw [hfo']
        exact hle
      have hsize : (p'.getOrderSize o).toNat = 2 ^ (p.fo + o.toNat) := by
        rw [← hfo']
        exact p'.getOrderSize_toNat hle'
      have hserve := h.serves_memset hi heq hsize.le
      rw [hsize, hfo p (List.mem_of_getElem? hi)] at hserve
      dsimp only
      rw [heq]
      dsimp only
      rw [hfilter]
      dsimp only
      have hset : (t.allocators.set i p')[i]? = some p' := hi1
      rw [hset]
      exact ⟨out, _, hfilter, rfl, hserve⟩

lemma Sound.alloc_answered (h : t.Sound) (n : UInt64) (i : ℕ) :
    Answered t n.toNat none (t.toPhysMemory.alloc n i) := by
  rw [PhysMemory.alloc]
  cases hi : t.allocators[i]? with
  | none => exact .inl ⟨rfl, rfl⟩
  | some p =>
    dsimp only
    rw [Pallocator.alloc]
    by_cases hn : n = 0
    · left
      rw [if_pos hn, set_self hi]
      exact ⟨rfl, rfl⟩
    · rw [if_neg hn]
      rcases h.oalloc_cases hi (p.getOrder n) with hnone | ⟨p', out, heq, hfilter⟩
      · left
        rw [hnone, set_self hi]
        exact ⟨rfl, rfl⟩
      · right
        rw [heq]
        exact ⟨out, _, hfilter, rfl, h.serves hi heq (h.request_le hi hn heq)⟩

lemma Sound.allocz_answered (h : t.Sound) (n : UInt64) (i : ℕ) :
    Answered t n.toNat (some 0) (t.toPhysMemory.allocz n i) := by
  rw [PhysMemory.allocz, PhysMemory.alloc]
  cases hi : t.allocators[i]? with
  | none => exact .inl ⟨rfl, rfl⟩
  | some p =>
    dsimp only
    rw [Pallocator.alloc]
    by_cases hn : n = 0
    · left
      rw [if_pos hn, set_self hi]
      exact ⟨rfl, rfl⟩
    · rw [if_neg hn]
      rcases h.oalloc_cases hi (p.getOrder n) with hnone | ⟨p', out, heq, hfilter⟩
      · left
        rw [hnone, set_self hi]
        exact ⟨rfl, rfl⟩
      · right
        rw [heq]
        dsimp only
        rw [hfilter]
        exact ⟨out, _, hfilter, rfl, h.serves_memset hi heq (h.request_le hi hn heq)⟩

/-- The loop over the array answers as its calls do. -/
lemma Answered.first {call : PhysMemory → ℕ → Option UInt64 × PhysMemory} {m : ℕ}
    {fill : Option UInt64} (hcall : ∀ i, Answered t m fill (call t.toPhysMemory i)) (k i : ℕ) :
    PhysMemory.first call k i t.toPhysMemory = (none, t.toPhysMemory) ∨
    ∃ out t', PhysMemory.first call k i t.toPhysMemory = (some out, t'.toPhysMemory) ∧
      Serves t m fill out t' := by
  have hrefused (i : ℕ) (hi : (call t.toPhysMemory i).1.filter (· ≠ 0) = none) :
      (call t.toPhysMemory i).2 = t.toPhysMemory := by
    rcases hcall i with ⟨-, hsame⟩ | ⟨out, t', hsome, -⟩
    · exact hsame
    · rw [hi] at hsome
      cases hsome
  rcases PhysMemory.first_cases hrefused k i with ⟨hnone, -⟩ | ⟨j, out, hsome, heq⟩
  · exact .inl hnone
  · right
    rcases hcall j with ⟨hnone, -⟩ | ⟨out', t', hsome', hmem, hserve⟩
    · rw [hsome] at hnone
      cases hnone
    · obtain rfl := Option.some.inj (hsome.symm.trans hsome')
      exact ⟨out, t', by rw [heq, hmem], hserve⟩

/-- What a step of the pool is to the heap. -/
def Follows (t : Pool) (c : BlockHeap.Call UInt64) (t' : Pool) : Prop :=
  t'.Sound ∧ t'.toPhysMemory.layouts = t.toPhysMemory.layouts ∧
    ∀ g, t.Represents g → ∃ g', BlockHeap.Step 4096 8 g c g' ∧ t'.Represents g'

lemma Sound.request (h : t.Sound) {call : PhysMemory → ℕ → Option UInt64 × PhysMemory} {m : ℕ}
    {fill ret : Option UInt64} (hcall : ∀ i, Answered t m fill (call t.toPhysMemory i))
    {r : Option UInt64 × PhysMemory} (hr : r = PhysMemory.first call t.allocators.length 0 t.toPhysMemory)
    (hs : (if r.1 = ret then some (t.grant r) else none) = some t') :
    t.Follows (.request m fill (ret.map (·.toNat))) t' := by
  obtain ⟨hret, hgrant⟩ := Option.ite_none_right_eq_some.mp hs
  obtain rfl := Option.some.inj hgrant
  rw [← hret]
  rcases Answered.first hcall t.allocators.length 0 with hnone | ⟨out, t1, hsome, hserve⟩
  · rw [hr, hnone]
    exact ⟨h, rfl, fun g hg => ⟨g, .refuse g m fill, hg⟩⟩
  · rw [hr, hsome, hserve.grant]
    exact ⟨hserve.sound, hserve.layouts, hserve.step⟩

/-- An address in the first unit of a block in use belongs to the allocator of the block only. -/
lemma Sound.in_range (h : t.Sound) (hi : t.allocators[i]? = some p) (hb : b ∈ t.live i)
    (hm : p.InFirstUnit b mem) : p.lo ≤ mem.toNat ∧ mem.toNat < p.hi := by
  obtain ⟨q, hq, -⟩ := (h.kept i p hi).inv
  have hlo := (hq.live_bounds hb).1
  have hhi := hq.first_unit_le hb
  exact ⟨hlo.trans hm.1, hm.2.trans_le hhi⟩

lemma Sound.eq_of_in_range (h : t.Sound) (hi : t.allocators[i]? = some p)
    (hj : t.allocators[j]? = some q) {x : ℕ} (hp : p.lo ≤ x ∧ x < p.hi) (hq : q.lo ≤ x ∧ x < q.hi) :
    i = j := by
  by_contra hne
  exact absurd hq.2 (Nat.not_lt.mpr (h.apart i j p q hi hj hne x hp.1 hp.2 hq.1))

lemma memFree_set {ps : List Pallocator} (hi : ps[i]? = some p)
    (hm : p.lo ≤ mem.toNat ∧ mem.toNat < p.hi)
    (honly : ∀ j (q : Pallocator), ps[j]? = some q → q.lo ≤ mem.toNat ∧ mem.toNat < q.hi → j = i) :
    Pallocator.memFree mem ps = ps.set i (p.free mem) := by
  induction ps generalizing i with
  | nil => cases hi
  | cons r ps ih =>
    rw [Pallocator.memFree]
    have hrange : (mem ≥ r.startAddr ∧ mem < r.endAddr) ↔ r.lo ≤ mem.toNat ∧ mem.toNat < r.hi := by
      rw [ge_iff_le, UInt64.le_iff_toNat_le, UInt64.lt_iff_toNat_lt]
      rfl
    cases i with
    | zero =>
      obtain rfl : r = p := Option.some.inj hi
      rw [if_pos (hrange.mpr hm)]
      rfl
    | succ i =>
      rw [if_neg]
      · have hrest := ih (i := i) hi fun j q hj hq => Nat.succ.inj (honly (j + 1) q hj hq)
        rw [hrest]
        rfl
      · intro hr
        exact absurd (honly 0 r rfl (hrange.mp hr)) (Nat.succ_ne_zero i).symm

lemma memFree_same {ps : List Pallocator}
    (hall : ∀ q ∈ ps, q.lo ≤ mem.toNat ∧ mem.toNat < q.hi → q.free mem = q) :
    Pallocator.memFree mem ps = ps := by
  induction ps with
  | nil => rfl
  | cons r ps ih =>
    rw [Pallocator.memFree]
    split_ifs with hr
    · rw [ge_iff_le, UInt64.le_iff_toNat_le, UInt64.lt_iff_toNat_lt] at hr
      rw [hall r List.mem_cons_self hr]
    · rw [ih fun q hq => hall q (List.mem_cons_of_mem _ hq)]

/-- What is known outside of a block that was given back is still so. -/
lemma Represents.known_take {g : BlockHeap UInt64} (hg : t.Represents g) (hi : t.allocators[i]? = some p)
    (hword : ∀ j c q, t.allocators[j]? = some q → c ∈ t.live j → ¬ (j = i ∧ c = b) →
      ∀ a : UInt64, c.1.toNat ≤ a.toNat → a.toNat < c.1.toNat + 2 ^ (q.fo + c.2.toNat) →
        t'.word a = t.word a) {a v : UInt64} (ha : 8 ∣ a.toNat)
    (hv : (g.take (b.1.toNat, 2 ^ (p.fo + b.2.toNat))).known a.toNat = some v) : t'.get a = v := by
  rw [BlockHeap.take] at hv
  dsimp only at hv
  split_ifs at hv with hcell
  have hne : g.known a.toNat ≠ none := by
    rw [hv]
    exact Option.some_ne_none v
  obtain ⟨d, hd, had⟩ := g.owned _ hne
  obtain ⟨j, q, c, hj, hc, rfl⟩ := (hg.blocks d).mp hd
  have hcb : ¬ (j = i ∧ c = b) := by
    rintro ⟨rfl, rfl⟩
    obtain rfl := Option.some.inj (hi.symm.trans hj)
    exact hcell had
  rw [PhysMemory.get, hword j c q hj hc hcb a had.1 had.2]
  exact hg.known a ha v hv

/-- A block in use is told from the others by its bytes. -/
lemma Sound.inUse_ne (h : t.Sound) (hi : t.allocators[i]? = some p) (hb : b ∈ t.live i)
    (hj : t.allocators[j]? = some q) (hc : c ∈ t.live j) :
    (c.1.toNat, 2 ^ (q.fo + c.2.toNat)) ≠ (b.1.toNat, 2 ^ (p.fo + b.2.toNat)) ↔ ¬ (j = i ∧ c = b) := by
  constructor
  · rintro hne ⟨rfl, rfl⟩
    obtain rfl := Option.some.inj (hi.symm.trans hj)
    exact hne rfl
  · intro hne heq
    have hdis := h.disjoint hj hc hi hb hne
    rw [heq] at hdis
    have hbase : b.1.toNat ∈ cells (b.1.toNat, 2 ^ (p.fo + b.2.toNat)) :=
      ⟨le_rfl, Nat.lt_add_of_pos_right (Nat.two_pow_pos _)⟩
    exact Set.disjoint_left.mp hdis hbase hbase

/-- `mem::free` of an address in the first unit of a block in use. -/
lemma Sound.free (h : t.Sound) (hi : t.allocators[i]? = some p) (hb : b ∈ t.live i)
    (hm : p.InFirstUnit b mem) (hpage : p.fo = 12) :
    t.Follows (.release mem.toNat)
      ⟨⟨t.allocators.set i (p.free mem), t.data⟩,
        Function.update t.live i ((t.live i).erase b)⟩ := by
  have hp := h.kept i p hi
  obtain ⟨hkept, hl, hsp, -⟩ := hp.free hb hm
  rw [hp.release_eq hb hm] at hkept hsp
  have hfo : (p.free mem).fo = p.fo := congrArg (·.foBits.toNat) hl
  have hK : Keeps (fun j c => c ∈ t.live j ∧ ¬ (j = i ∧ c = b)) t
      ⟨⟨t.allocators.set i (p.free mem), t.data⟩, Function.update t.live i ((t.live i).erase b)⟩ := by
    refine h.set_keeps hi hkept hl hsp (fun _ _ hc => hc.1) fun c hc x h1 h2 => ?_
    have hmem : c ∈ (t.live i).erase b := hp.nodup.mem_erase_iff.mpr ⟨fun he => hc.2 ⟨rfl, he⟩, hc.1⟩
    have hheld := hkept.mem_held hmem h1 (by rw [hfo]; exact h2)
    rwa [hfo] at hheld
  refine ⟨h.set hi hkept hl t.data, PhysMemory.layouts_set hi hl, fun g hg => ?_⟩
  have hblock : (b.1.toNat, 2 ^ (p.fo + b.2.toNat)) ∈ g.blocks :=
    (hg.blocks _).mpr ⟨i, p, b, hi, hb, rfl⟩
  refine ⟨_, .release g mem.toNat _ hblock ?_, fun d => ?_, fun a ha v hv =>
    hg.known_take hi (fun j c q hj hc hcb => hK.word j c q hj ⟨hc, hcb⟩) ha hv⟩
  · rw [InFirstUnit, hpage] at hm
    exact hm
  · rw [BlockHeap.mem_take, hg.blocks]
    symm
    constructor
    · rintro ⟨j, q, c, hj, hc, rfl⟩
      by_cases hji : j = i
      · subst hji
        dsimp only at hj hc
        rw [List.getElem?_set_self (List.getElem?_eq_some_iff.mp hi).1] at hj
        obtain rfl := Option.some.inj hj
        rw [Function.update_self] at hc
        obtain ⟨hcb, hc⟩ := hp.nodup.mem_erase_iff.mp hc
        rw [hfo]
        exact ⟨⟨j, p, c, hi, hc, rfl⟩, (h.inUse_ne hi hb hi hc).mpr fun he => hcb he.2⟩
      · dsimp only at hj hc
        rw [List.getElem?_set_ne (Ne.symm hji)] at hj
        rw [Function.update_of_ne hji] at hc
        exact ⟨⟨j, q, c, hj, hc, rfl⟩, (h.inUse_ne hi hb hj hc).mpr fun he => hji he.1⟩
    · rintro ⟨⟨j, q, c, hj, hc, rfl⟩, hne⟩
      have hcb := (h.inUse_ne hi hb hj hc).mp hne
      by_cases hji : j = i
      · subst hji
        obtain rfl := Option.some.inj (hi.symm.trans hj)
        refine ⟨j, _, c, List.getElem?_set_self (List.getElem?_eq_some_iff.mp hi).1, ?_, by rw [hfo]⟩
        dsimp only
        rw [Function.update_self]
        exact hp.nodup.mem_erase_iff.mpr ⟨fun he => hcb ⟨rfl, he⟩, hc⟩
      · refine ⟨j, q, c, (List.getElem?_set_ne (Ne.symm hji)).trans hj, ?_, rfl⟩
        dsimp only
        rw [Function.update_of_ne hji]
        exact hc

/-- `mem::free` of any address. -/
lemma Sound.memFree (h : t.Sound) (hfo : ∀ p ∈ t.allocators, p.fo = 12) (mem : UInt64) :
    t.Follows (.release mem.toNat) ⟨t.toPhysMemory.memFree mem, fun j =>
      (t.allocators[j]?).elim (t.live j) fun p => p.release (t.live j) mem⟩ := by
  by_cases hm : ∃ i p b, t.allocators[i]? = some p ∧ b ∈ t.live i ∧ p.InFirstUnit b mem
  · obtain ⟨i, p, b, hi, hb, hm⟩ := hm
    have hin := h.in_range hi hb hm
    have hset : t.toPhysMemory.memFree mem = ⟨t.allocators.set i (p.free mem), t.data⟩ := by
      rw [PhysMemory.memFree, memFree_set hi hin fun j q hj hq => h.eq_of_in_range hj hi hq hin]
    have hlive : (fun j => (t.allocators[j]?).elim (t.live j) fun p => p.release (t.live j) mem) =
        Function.update t.live i ((t.live i).erase b) := by
      funext j
      by_cases hji : j = i
      · subst hji
        rw [hi, Function.update_self]
        exact (h.kept j p hi).release_eq hb hm
      · rw [Function.update_of_ne hji]
        cases hj : t.allocators[j]? with
        | none => rfl
        | some q =>
          refine release_of_forall fun c hc hcm => hji ?_
          exact h.eq_of_in_range hj hi (h.in_range hj hc hcm) hin
    rw [hset, hlive]
    exact h.free hi hb hm (hfo p (List.mem_of_getElem? hi))
  · have hno (i : ℕ) (p : Pallocator) (hi : t.allocators[i]? = some p) :
        ∀ b ∈ t.live i, ¬ p.InFirstUnit b mem := fun b hb hbm => hm ⟨i, p, b, hi, hb, hbm⟩
    have hsame : t.toPhysMemory.memFree mem = t.toPhysMemory := by
      rw [PhysMemory.memFree, memFree_same fun q hq _ => ?_]
      obtain ⟨i, hi⟩ := List.mem_iff_getElem?.mp hq
      obtain ⟨z, hz, -⟩ := (h.kept i q hi).inv
      exact hz.free_none (hno i q hi)
    have hlive : (fun j => (t.allocators[j]?).elim (t.live j) fun p => p.release (t.live j) mem) =
        t.live := by
      funext j
      cases hj : t.allocators[j]? with
      | none => rfl
      | some q => exact release_of_forall (hno j q hj)
    rw [hsame, hlive]
    refine ⟨h, rfl, fun g hg => ⟨g, .foreign g mem.toNat fun d hd hdm => ?_, hg⟩⟩
    obtain ⟨j, q, c, hj, hc, rfl⟩ := (hg.blocks d).mp hd
    refine hno j q hj c hc ?_
    rw [InFirstUnit, hfo q (List.mem_of_getElem? hj)]
    exact hdm

/-- A store into a block in use. -/
lemma Sound.put (h : t.Sound) {a : UInt64} (ha : t.Owned a) (v : UInt64) :
    t.Follows (.store a.toNat v) ⟨t.toPhysMemory.put a v, t.live⟩ := by
  obtain ⟨hdvd, i, b, hb, h1, h2⟩ := ha
  have hi : t.allocators[i.val]? = some (t.allocators.get i) := List.getElem?_eq_getElem i.isLt
  have hheld : ∃ b, t.InUse b ∧ a.toNat ∈ cells b := ⟨_, ⟨i, _, b, hi, hb, rfl⟩, h1, h2⟩
  refine ⟨h.edit fun x hx u => if_neg ?_, PhysMemory.edit_layouts, fun g hg => ?_⟩
  · rintro rfl
    exact hx hheld
  · obtain ⟨d, hd, had⟩ := hheld
    refine ⟨_, .store g a.toNat v ⟨d, (hg.blocks d).mpr hd, had⟩, fun d => ?_, fun x hx u hu => ?_⟩
    · have hiff : Pool.InUse ⟨t.toPhysMemory.put a v, t.live⟩ d ↔ t.InUse d := by
        apply inUse_congr
        · exact PhysMemory.edit_layouts
        · rfl
      exact (hg.blocks d).trans hiff.symm
    · rw [PhysMemory.put, PhysMemory.get_edit]
      rw [BlockHeap.learn] at hu
      dsimp only at hu
      by_cases hxa : x = a
      · subst hxa
        rw [Function.update_self] at hu
        rw [if_pos rfl, Option.some.inj hu]
      · rw [Function.update_of_ne fun he => hxa (UInt64.toNat_inj.mp he)] at hu
        rw [if_neg hxa]
        exact hg.known x hx u hu

/-- A load from a block in use. -/
lemma Sound.get (h : t.Sound) {a : UInt64} (ha : t.Owned a) :
    t.Follows (.load a.toNat (t.toPhysMemory.get a)) t := by
  obtain ⟨hdvd, i, b, hb, h1, h2⟩ := ha
  have hi : t.allocators[i.val]? = some (t.allocators.get i) := List.getElem?_eq_getElem i.isLt
  refine ⟨h, rfl, fun g hg => ?_⟩
  have hheld : ∃ b ∈ g.blocks, a.toNat ∈ cells b :=
    ⟨_, (hg.blocks _).mpr ⟨i, _, b, hi, hb, rfl⟩, h1, h2⟩
  refine ⟨_, .load g a.toNat _ hheld fun w hw => (hg.known a hdvd w hw).symm, hg.blocks,
    fun x hx u hu => ?_⟩
  rw [BlockHeap.learn] at hu
  dsimp only at hu
  by_cases hxa : x = a
  · subst hxa
    rw [Function.update_self] at hu
    exact Option.some.inj hu
  · rw [Function.update_of_ne fun he => hxa (UInt64.toNat_inj.mp he)] at hu
    exact hg.known x hx u hu

/-- The block that `realloc` returns was not in use. -/
lemma Sound.settle_fresh (h : t.Sound) (hi : t.allocators[i]? = some p) (hb : b ∈ t.live i)
    (hm : p.InFirstUnit b mem) {w : PhysMemory} (h' : (t.settle i mem (some out, w)).Sound)
    (hk : w.allocators[k]? = some q) (hmem : (out, o) ∈ (t.settle i mem (some out, w)).live k) :
    (out, o) ∈ t.live k → k = i ∧ (out, o) = b := by
  have hkept := h'.kept k q hk
  have hbd := hkept.bounds hmem
  have hpos := Nat.two_pow_pos (q.fo + o.toNat)
  have horder := hkept.order hmem
  dsimp only at hbd horder
  have hrange : q.startAddr ≤ out ∧ out < q.endAddr := by
    rw [UInt64.le_iff_toNat_le, UInt64.lt_iff_toNat_lt]
    exact ⟨hbd.1, (Nat.lt_add_of_pos_right hpos).trans_le hbd.2⟩
  have hlist : (t.settle i mem (some out, w)).live k =
      (out, o) :: if k = i then (t.live i).erase b else t.live k := by
    rw [settle]
    dsimp only
    rw [hk, hi]
    dsimp only
    rw [if_pos hrange, horder, (h.kept i p hi).release_eq hb hm]
    rfl
  have hnodup := hkept.nodup
  rw [hlist, List.nodup_cons] at hnodup
  intro hold
  by_cases hki : k = i
  · subst hki
    refine ⟨rfl, ?_⟩
    by_contra hne
    rw [if_pos rfl] at hnodup
    exact hnodup.1 ((h.kept k p hi).nodup.mem_erase_iff.mpr ⟨hne, hold⟩)
  · rw [if_neg hki] at hnodup
    exact absurd hold hnodup.1

lemma inUse_iff (hfo : ∀ p ∈ t.allocators, p.fo = 12) (d : ℕ × ℕ) :
    t.InUse d ↔ ∃ j c, t.Live j c ∧ d = (c.1.toNat, 2 ^ (12 + c.2.toNat)) := by
  constructor
  · rintro ⟨j, p, c, hj, hc, rfl⟩
    exact ⟨j, c, ⟨p, hj, hc⟩, by rw [hfo p (List.mem_of_getElem? hj)]⟩
  · rintro ⟨j, c, ⟨p, hj, hc⟩, rfl⟩
    exact ⟨j, p, c, hj, hc, by rw [hfo p (List.mem_of_getElem? hj)]⟩

lemma fo_of_layouts {w : PhysMemory} (hl : w.layouts = t.toPhysMemory.layouts)
    (hfo : ∀ p ∈ t.allocators, p.fo = 12) : ∀ p ∈ w.allocators, p.fo = 12 := by
  intro p hp
  have hmem : p.toLayout ∈ t.toPhysMemory.layouts := by
    rw [← hl]
    exact List.mem_map_of_mem hp
  obtain ⟨q, hq, hql⟩ := List.mem_map.mp hmem
  have hfoq : q.fo = p.fo := congrArg (·.foBits.toNat) hql
  rw [← hfoq, hfo q hq]

/-- A block that was moved or has stayed. -/
lemma Sound.resize (h : t.Sound) (hfo : ∀ p ∈ t.allocators, p.fo = 12)
    (hi : t.allocators[i]? = some p) (hb : b ∈ t.live i) (hm : p.InFirstUnit b mem)
    {w : PhysMemory} (hl : w.layouts = t.toPhysMemory.layouts)
    (h' : (t.settle i mem (some out, w)).Sound)
    (hre : t.Reallocated i p b n out (t.settle i mem (some out, w))) :
    t.Follows (.resize mem.toNat n.toNat (some out.toNat)) (t.settle i mem (some out, w)) := by
  set t1 := t.settle i mem (some out, w) with ht1
  have hw : t1.toPhysMemory = w := rfl
  have hfo1 : ∀ p ∈ t1.allocators, p.fo = 12 := fo_of_layouts hl hfo
  have hpage : p.fo = 12 := hfo p (List.mem_of_getElem? hi)
  obtain ⟨k, q, o, hk, hn, hlive⟩ := hre.block
  have hq : q.fo = 12 := hfo1 q (List.mem_of_getElem? hk)
  have hnew : (out, o) ∈ t1.live k := ((hlive k (out, o)).mpr (.inl ⟨rfl, rfl⟩)).elim fun _ hx => hx.2
  have hfresh := h.settle_fresh hi hb hm h' hk hnew
  rw [hq] at hn
  refine ⟨h', hl, fun g hg => ?_⟩
  have hblock : (b.1.toNat, 2 ^ (p.fo + b.2.toNat)) ∈ g.blocks :=
    (hg.blocks _).mpr ⟨i, p, b, hi, hb, rfl⟩
  -- the old blocks but one, in the new pool
  have hrest (j : ℕ) (c : Allocation) (r : Pallocator) (hj : t.allocators[j]? = some r)
      (hc : c ∈ t.live j) (hcb : ¬ (j = i ∧ c = b)) :
      Disjoint (cells (out.toNat, 2 ^ (12 + o.toNat))) (cells (c.1.toNat, 2 ^ (r.fo + c.2.toNat))) := by
    obtain ⟨r1, hj1, hc1⟩ := (hlive j c).mpr (.inr ⟨⟨r, hj, hc⟩, hcb⟩)
    have hdis := h'.disjoint hk hnew hj1 hc1 (by
      rintro ⟨rfl, rfl⟩
      obtain ⟨hki, hob⟩ := hfresh hc
      exact hcb ⟨hki, hob⟩)
    rw [hq, hfo1 r1 (List.mem_of_getElem? hj1)] at hdis
    rw [hfo r (List.mem_of_getElem? hj)]
    exact hdis
  have hdisj : ∀ d ∈ (g.take (b.1.toNat, 2 ^ (p.fo + b.2.toNat))).blocks,
      Disjoint (cells (out.toNat, 2 ^ (12 + o.toNat))) (cells d) := by
    intro d hd
    obtain ⟨hd, hne⟩ := BlockHeap.mem_take.mp hd
    obtain ⟨j, r, c, hj, hc, rfl⟩ := (hg.blocks d).mp hd
    exact hrest j c r hj hc ((h.inUse_ne hi hb hj hc).mp hne)
  have hfirst : b.1.toNat ≤ mem.toNat ∧ mem.toNat < b.1.toNat + 4096 := by
    rw [InFirstUnit, hpage] at hm
    exact hm
  refine ⟨_, .resize g mem.toNat n.toNat _ (out.toNat, 2 ^ (12 + o.toNat)) hblock hfirst hn hdisj,
    fun d => ?_, fun a ha v hv => ?_⟩
  · have hmem : d ∈ ((g.take (b.1.toNat, 2 ^ (p.fo + b.2.toNat))).give
        (out.toNat, 2 ^ (12 + o.toNat)) hdisj fun x =>
          if x < out.toNat + min (2 ^ (p.fo + b.2.toNat)) n.toNat then
            g.known (b.1.toNat + (x - out.toNat)) else none).blocks ↔
        d = (out.toNat, 2 ^ (12 + o.toNat)) ∨
          (t.InUse d ∧ d ≠ (b.1.toNat, 2 ^ (p.fo + b.2.toNat))) := by
      rw [← hg.blocks]
      exact Iff.rfl
    refine hmem.trans ?_
    rw [inUse_iff hfo1]
    constructor
    · rintro (rfl | ⟨⟨j, r, c, hj, hc, rfl⟩, hne⟩)
      · exact ⟨k, (out, o), ⟨q, hk, hnew⟩, rfl⟩
      · refine ⟨j, c, (hlive j c).mpr (.inr ⟨⟨r, hj, hc⟩, (h.inUse_ne hi hb hj hc).mp hne⟩), ?_⟩
        rw [hfo r (List.mem_of_getElem? hj)]
    · rintro ⟨j, c, hc, rfl⟩
      rcases (hlive j c).mp hc with ⟨rfl, rfl⟩ | ⟨⟨r, hj, hc⟩, hcb⟩
      · exact .inl rfl
      · right
        rw [← hfo r (List.mem_of_getElem? hj)]
        exact ⟨⟨j, r, c, hj, hc, rfl⟩, (h.inUse_ne hi hb hj hc).mpr hcb⟩
  · rw [BlockHeap.give] at hv
    dsimp only at hv
    split_ifs at hv with hcell hcopied
    · -- a word that was copied
      have hbd := (h.kept i p hi).bounds hb
      have hqd := (h'.kept k q hk).bounds hnew
      have hout8 : 8 ∣ out.toNat := h'.dvd hk hnew
      have hb8 : 8 ∣ b.1.toNat := h.dvd hi hb
      have hphi : p.hi < 2 ^ 64 := p.endAddr.toNat_lt
      have hle : out.toNat ≤ a.toNat := hcell.1
      have hx : (a - out).toNat = a.toNat - out.toNat :=
        UInt64.toNat_sub_of_le _ _ (UInt64.le_iff_toNat_le.mpr hle)
      have hlt : (a - out).toNat < min (2 ^ (p.fo + b.2.toNat)) n.toNat := by omega
      have hbx : (b.1 + (a - out)).toNat = b.1.toNat + (a.toNat - out.toNat) := by
        have := lt_min_iff.mp hlt
        rw [UInt64.toNat_add]
        omega
      have hword := hre.contents (a - out) (by omega) hlt
      rw [show out + (a - out) = a by rw [add_comm, sub_add_cancel]] at hword
      rw [PhysMemory.get, hword]
      refine hg.known (b.1 + (a - out)) (by omega) v ?_
      rw [hbx]
      exact hv
    · exact hg.known_take hi hre.others ha hv

/-- A request for nothing is refused. -/
lemma Sound.realloc_pos (h : t.Sound) (hi : t.allocators[i]? = some p) (hb : b ∈ t.live i)
    (hm : p.InFirstUnit b mem) (hpage : p.fo = 12) (hcare : t.Careful (.realloc i mem n))
    {w : PhysMemory} (hout : t.toPhysMemory.realloc i mem n = some (some out, w)) : 0 < n.toNat := by
  by_contra h0
  obtain rfl : n = 0 := UInt64.toNat_inj.mp (Nat.eq_zero_of_not_pos h0)
  have hzero : (p.getOrder 0).toNat = 243 := by
    have hfo : p.foBits = 12 := UInt8.toNat_inj.mp hpage
    rw [Layout.getOrder, hfo]
    decide
  have hmax : b.2.toNat ≤ p.maxOrder.toNat := by
    obtain ⟨q, hq, -⟩ := (h.kept i p hi).inv
    exact hq.live_order_le hb
  have hle : p.fo + p.maxOrder.toNat ≤ 30 := by
    obtain ⟨q, hq, -⟩ := (h.kept i p hi).inv
    exact (h.kept i p hi).small (hq.live_nonempty hb)
  rcases hcare p hi b hb hm with hbeyond | ⟨-, hsame | ⟨hpos, -⟩⟩
  · have hge : b.2 ≤ p.getOrder 0 := UInt8.le_iff_toNat_le.mpr (by omega)
    rw [h.realloc_eq hi hb hm 0 hge, if_pos hbeyond] at hout
    cases hout
  · rw [hsame] at hzero
    omega
  · exact h0 hpos

/-- A call of `realloc` on the allocator that manages the address. -/
lemma Sound.realloc_follows (h : t.Sound) (hfo : ∀ p ∈ t.allocators, p.fo = 12)
    (hcare : t.Careful (.realloc i mem n)) {r : Option UInt64 × PhysMemory}
    (hr : t.toPhysMemory.realloc i mem n = some r) :
    t.Follows (.resize mem.toNat n.toNat (r.1.map (·.toNat))) (t.settle i mem r) := by
  have hkeep : t.Follows (.resize mem.toNat n.toNat none) (t.settle i mem (none, t.toPhysMemory)) :=
    ⟨h, rfl, fun g hg => ⟨g, .keep g mem.toNat n.toNat, hg⟩⟩
  have hsome : ∃ p, t.allocators[i]? = some p := by
    rw [PhysMemory.realloc, Option.bind_eq_some_iff] at hr
    obtain ⟨p, hi, -⟩ := hr
    exact ⟨p, hi⟩
  obtain ⟨p, hi⟩ := hsome
  by_cases hm : ∃ b ∈ t.live i, p.InFirstUnit b mem
  · obtain ⟨b, hb, hm⟩ := hm
    rcases h.realloc hi hb hm hcare with hnone | ⟨out, w, hout, hsound, hre⟩
    · obtain rfl := Option.some.inj (hr.symm.trans hnone)
      exact hkeep
    · obtain rfl := Option.some.inj (hr.symm.trans hout)
      have hpos : 0 < n.toNat := h.realloc_pos hi hb hm (hfo p (List.mem_of_getElem? hi)) hcare hout
      exact h.resize hfo hi hb hm (PhysMemory.realloc_layouts hr) hsound (hre hpos)
  · have hnone := h.realloc_none (n := n) hi fun b hb hbm => hm ⟨b, hb, hbm⟩
    obtain rfl := Option.some.inj (hr.symm.trans hnone)
    exact hkeep

/-- The allocators of pages, between two calls. -/
structure Ready (t : Pool) : Prop where
  sound : t.Sound
  page : ∀ p ∈ t.allocators, p.fo = 12

/-- Every call is a step of the heap. -/
theorem Ready.step (h : t.Ready) {e : MemEvent} (hgentle : t.Gentle e) (hs : t.memStep e = some t') :
    t.Follows e.call t' := by
  cases e with
  | alloc n ret => exact h.sound.request (h.sound.alloc_answered n) rfl hs
  | allocz n ret => exact h.sound.request (h.sound.allocz_answered n) rfl hs
  | oalloc order ret =>
    exact h.sound.request (fun i => h.sound.oalloc_answered order i h.page) rfl hs
  | oallocz order ret =>
    exact h.sound.request (fun i => h.sound.oallocz_answered order i h.page) rfl hs
  | realloc mem n ret =>
    obtain ⟨r, hr, hs⟩ := Option.bind_eq_some_iff.mp hs
    obtain ⟨hret, hsettle⟩ := Option.ite_none_right_eq_some.mp hs
    obtain rfl := Option.some.inj hsettle
    rw [PhysMemory.memRealloc] at hr
    rw [resettle, ← hret]
    cases hm : t.toPhysMemory.manager mem with
    | none =>
      rw [hm] at hr
      obtain rfl := Option.some.inj hr
      exact ⟨h.sound, rfl, fun g hg => ⟨g, .keep g mem.toNat n.toNat, hg⟩⟩
    | some i =>
      rw [hm] at hr
      exact h.sound.realloc_follows h.page (hgentle i hm) hr
  | orealloc mem order ret =>
    obtain ⟨r, hr, hs⟩ := Option.bind_eq_some_iff.mp hs
    obtain ⟨hret, hsettle⟩ := Option.ite_none_right_eq_some.mp hs
    obtain rfl := Option.some.inj hsettle
    rw [PhysMemory.memOrealloc] at hr
    rw [resettle, ← hret]
    have hkeep (m : ℕ) : t.Follows (.resize mem.toNat m none) t :=
      ⟨h.sound, rfl, fun g hg => ⟨g, .keep g mem.toNat m, hg⟩⟩
    cases hm : t.toPhysMemory.manager mem with
    | none =>
      rw [hm] at hr
      obtain rfl := Option.some.inj hr
      exact hkeep _
    | some i =>
      rw [hm] at hr
      obtain ⟨p, hi, hr⟩ := Option.bind_eq_some_iff.mp hr
      by_cases ho : order > p.maxOrder
      · rw [if_pos ho] at hr
        obtain rfl := Option.some.inj hr
        exact hkeep _
      · rw [if_neg ho] at hr
        have hrange := PhysMemory.manager_range hm hi
        have hmax : p.fo + p.maxOrder.toNat ≤ 30 :=
          (h.sound.kept i p hi).small (hrange.1.trans_lt hrange.2)
        have hpage := h.page p (List.mem_of_getElem? hi)
        have horder : order.toNat ≤ p.maxOrder.toNat := UInt8.le_iff_toNat_le.mp (UInt8.not_lt.mp ho)
        have hsize : (p.getOrderSize order).toNat = 2 ^ (12 + order.toNat) := by
          rw [← hpage]
          exact p.getOrderSize_toNat (show p.fo + order.toNat ≤ 30 by omega)
        have hfollows := h.sound.realloc_follows h.page (hgentle i hm p hi) hr
        rwa [hsize] at hfollows
  | free mem =>
    obtain rfl := Option.some.inj hs
    exact h.sound.memFree h.page mem
  | store a v =>
    obtain ⟨ha, hput⟩ := Option.ite_none_right_eq_some.mp hs
    obtain rfl := Option.some.inj hput
    exact h.sound.put ha v
  | load a v =>
    obtain ⟨⟨ha, hv⟩, hsame⟩ := Option.ite_none_right_eq_some.mp hs
    obtain rfl := Option.some.inj hsame
    rw [← hv]
    exact h.sound.get ha

lemma Booted.ready (h : t.Booted) (hpage : ∀ p ∈ t.allocators, p.foBits = 12) : t.Ready :=
  ⟨h.sound, fun p hp => congrArg UInt8.toNat (hpage p hp)⟩

lemma Booted.represents (h : t.Booted) : t.Represents BlockHeap.empty := by
  refine ⟨fun b => iff_of_false (Set.notMem_empty b) ?_, fun a _ v hv => ?_⟩
  · rintro ⟨j, p, c, -, hc, -⟩
    rw [h.live j] at hc
    exact absurd hc List.not_mem_nil
  · cases hv

/-- No call changes the ranges of the allocators. -/
lemma Ready.run_layouts (h : t.Ready) {es : List MemEvent}
    (hgentle : Machine.Along memStep Gentle t es) (hrun : Machine.run memStep t es = some t') :
    t'.Ready ∧ t'.layouts = t.layouts := by
  refine Machine.run_invariant_along (I := fun s => s.Ready ∧ s.layouts = t.layouts)
    (fun s c s' hs hg hstep => ?_) ⟨h, rfl⟩ hgentle hrun
  obtain ⟨hsound, hl, -⟩ := hs.1.step hg hstep
  exact ⟨⟨hsound, fo_of_layouts hl hs.1.page⟩, hl.trans hs.2⟩

lemma Ready.run (h : t.Ready) {es : List MemEvent} (hgentle : Machine.Along memStep Gentle t es)
    (hrun : Machine.run memStep t es = some t') : t'.Ready :=
  (h.run_layouts hgentle hrun).1

/-- From allocators that are ready, with nothing in use. -/
lemma Ready.refines (h : t.Ready) (hempty : t.Represents BlockHeap.empty) {es : List MemEvent}
    (hgentle : Machine.Along memStep Gentle t es) (hrun : Machine.run memStep t es = some t') :
    ∃ g, Reaches (BlockHeap.Step 4096 8) BlockHeap.empty (es.map MemEvent.call) g ∧
      t'.Represents g := by
  refine Machine.reaches (I := Ready) (R := Represents) (fun s e s' hs hg h' => ?_)
    (fun s e s' g hs hg h' hr => ?_) h hgentle hempty hrun
  · obtain ⟨hsound, hl, -⟩ := hs.step hg h'
    exact ⟨hsound, fo_of_layouts hl hs.page⟩
  · obtain ⟨-, -, hstep⟩ := hs.step hg h'
    exact hstep g hr

end Pool
end EpochKernel.Mem
