import EpochKernel.Mem.AddrSpaceRollback
import EpochKernel.Mem.Allocators

/-! `collect_phys_zones`. The size of the requests starts at the power of two above `n` and is halved
at every refusal; what is granted is subtracted from `n`, whether or not it is less than `n`. So the run is
told by how many bytes are free in zones of each size and above. -/
namespace EpochKernel.Mem
open EpochKernel.Util EpochKernel.Library EpochKernel.Library.Block

/-- A request that was granted: how many bytes were missing, the zone, and whether the list took it. -/
structure Grant where
  missing : UInt64
  zone : PhysAllocation
  stored : Bool

namespace AddrSpace
variable {π : Type*} (m : Memory π)

/-- The requests granted in the loop of `collect_phys_zones`, in their order. -/
def grants : ℕ → UInt64 → UInt64 → List PhysAllocation → π → List Grant
  | 0, _, _, _, _ => []
  | fuel + 1, allocSize, n, l, w =>
    if n = 0 ∨ allocSize < pageSize then []
    else
      match m.alloc allocSize w with
      | (none, w) => grants fuel (allocSize >>> 1) n l w
      | (some addr, w) =>
        ⟨n, ⟨addr, allocSize⟩, (m.room l.length w).1⟩ ::
          grants fuel allocSize (n - allocSize) (push m l ⟨addr, allocSize⟩ w).1
            (push m l ⟨addr, allocSize⟩ w).2

/-- What `collect_phys_zones` frees after its loop: the zones behind the first `k`, from the end. -/
def givenBack (k : ℕ) (r : UInt64 × List PhysAllocation × π) : List PhysAllocation :=
  if r.1 = 0 then [] else (r.2.1.drop k).reverse

/-- The end of `collect_phys_zones`, for a list that had `k` entries. -/
def collectEnd (k : ℕ) (r : UInt64 × List PhysAllocation × π) : Bool × List PhysAllocation × π :=
  (r.1 = 0, if r.1 = 0 then r.2.1 else r.2.1.take k,
    (givenBack k r).foldl (fun w a => m.free a.addr w) r.2.2)

/-- The first size that is requested. -/
def firstSize (c : Layout) (n : UInt64) : UInt64 := c.getOrderSize (c.getOrder n)

/-- `collect_phys_zones` into the list `l`; `none` if it does not end. -/
def collectInto (l : List PhysAllocation) (n : UInt64) (w : π) :
    Option (Bool × List PhysAllocation × π) :=
  if n = 0 then some (true, l, w)
  else (collectLoop m (m.pages + 64) (firstSize m.layout n) n l w).map (collectEnd m l.length)

/-- The zones requested in one call, for a list `l`. -/
def requested (l : List PhysAllocation) (n : UInt64) (w : π) : List Grant :=
  grants m (m.pages + 64) (firstSize m.layout n) n l w

lemma collectPhysZones_eq (n : UInt64) (w : π) : collectPhysZones m n w = collectInto m [] n w := by
  rw [collectPhysZones, collectInto, firstSize]
  split_ifs
  · rfl
  · congr 1
    funext r
    obtain ⟨r, l, w⟩ := r
    by_cases hr : r = 0
    · simp [collectEnd, givenBack, hr]
    · simp [collectEnd, givenBack, hr]

variable {m} {c : Layout} {l : List PhysAllocation} {n s : UInt64} {w : π} {fuel : ℕ}

/-- The bytes granted. -/
def granted (gs : List Grant) : ℕ := total (gs.map Grant.zone)

/-- No granted zone is larger than what was missing. -/
def Fitting (gs : List Grant) : Prop := ∀ g ∈ gs, g.zone.len ≤ g.missing

lemma collectLoop_succ : collectLoop m (fuel + 1) s n l w =
    if n = 0 ∨ s < pageSize then some (n, l, w)
    else
      match m.alloc s w with
      | (none, w) => collectLoop m fuel (s >>> 1) n l w
      | (some addr, w) =>
        collectLoop m fuel s (n - s) (push m l ⟨addr, s⟩ w).1 (push m l ⟨addr, s⟩ w).2 := rfl

/-- The list takes the zones that find room, and what is granted is subtracted from `n`. -/
lemma collectLoop_spec {r : UInt64 × List PhysAllocation × π}
    (h : collectLoop m fuel s n l w = some r) :
    r.2.1 = l ++ ((grants m fuel s n l w).filter Grant.stored).map Grant.zone ∧
      (Fitting (grants m fuel s n l w) → r.1.toNat + granted (grants m fuel s n l w) = n.toNat) := by
  induction fuel generalizing s n l w with
  | zero => cases h
  | succ fuel ih =>
    rw [collectLoop_succ] at h
    rw [grants]
    split_ifs at h ⊢ with hend
    · cases h
      exact ⟨(List.append_nil l).symm, fun _ => rfl⟩
    · split at h
      · exact ih h
      · next addr w' hm =>
        obtain ⟨hl, hsum⟩ := ih h
        refine ⟨?_, fun hfit => ?_⟩
        · rw [hl]
          have hpush : (push m l ⟨addr, s⟩ w').1 =
              if (m.room l.length w').1 then l ++ [⟨addr, s⟩] else l := rfl
          rw [hpush]
          by_cases hroom : (m.room l.length w').1 = true
          · simp [hroom]
          · simp [hroom]
        · have hle := UInt64.le_iff_toNat_le.mp (hfit _ List.mem_cons_self)
          have hrest := hsum fun g hg => hfit g (List.mem_cons_of_mem _ hg)
          dsimp only at hle
          rw [UInt64.toNat_sub_of_le _ _ (UInt64.le_iff_toNat_le.mpr hle)] at hrest
          rw [granted, List.map_cons, total_cons]
          rw [granted] at hrest
          dsimp only
          omega

/-- Every request is for a page at least. -/
lemma grants_page {g : Grant} (hg : g ∈ grants m fuel s n l w) : pageSize ≤ g.zone.len := by
  induction fuel generalizing s n l w with
  | zero => cases hg
  | succ fuel ih =>
    rw [grants] at hg
    split_ifs at hg with hend
    · cases hg
    · split at hg
      · exact ih hg
      · rcases List.mem_cons.mp hg with rfl | hg
        · exact UInt64.not_lt.mp fun hlt => hend (.inr hlt)
        · exact ih hg

/-- The exponent of the size of the zone for a request. -/
def exponent (c : Layout) (s : UInt64) : ℕ := 12 + (c.getOrder s).toNat

/-- What the loop relies on: a refused request changes nothing and finds no zone that is large enough, a
granted one takes a block of its size from a large zone and leaves the smaller ones. `large e` are the
bytes in free zones of at least `2 ^ e` bytes, and `room k` tells if an array of `k` can grow. -/
structure Supplied (m : Memory π) (good : π → Prop) (large : ℕ → π → ℕ) (room : ℕ → Bool) :
    Prop where
  refused : ∀ {s w w'}, good w → pageSize ≤ s → m.alloc s w = (none, w') →
    w' = w ∧ large (exponent m.layout s) w = 0
  taken : ∀ {s a w w'}, good w → m.alloc s w = (some a, w') → good w' ∧
    ∀ e ≤ exponent m.layout s, large e w' + 2 ^ exponent m.layout s = large e w
  anti : ∀ w, Antitone fun e => large e w
  room : ∀ k w, m.room k w = (room k, w)

variable {good : π → Prop} {large : ℕ → π → ℕ} {room : ℕ → Bool} {k : ℕ}

lemma log2_half {s : UInt64} (h : pageSize ≤ s) :
    (s >>> 1).toNat.log2 + 1 = s.toNat.log2 ∧ (s >>> 1).toNat = s.toNat / 2 := by
  have hs : 4096 ≤ s.toNat := UInt64.le_iff_toNat_le.mp h
  have hhalf : (s >>> 1).toNat = s.toNat / 2 := by
    rw [UInt64.toNat_shiftRight]
    simp [Nat.shiftRight_eq_div_pow]
  refine ⟨?_, hhalf⟩
  conv_rhs => rw [Nat.log2_def, if_pos (by omega)]
  rw [hhalf]

namespace Supplied

lemma push_world (h : Supplied m good large room) (l : List PhysAllocation) (a : PhysAllocation) (w : π) :
    (push m l a w).2 = w := by
  change (m.room l.length w).2 = w
  rw [h.room]

lemma push_list (h : Supplied m good large room) (l : List PhysAllocation) (a : PhysAllocation) (w : π) :
    (push m l a w).1 = if room l.length then l ++ [a] else l := by
  change (if (m.room l.length w).1 then l ++ [a] else l) = _
  rw [h.room]

lemma taken_page (h : Supplied m good large room) {a : UInt64} {w' : π} (hw : good w)
    (hm : m.alloc s w = (some a, w')) : large 12 w' + 4096 ≤ large 12 w := by
  have htaken := (h.taken hw hm).2 12 (Nat.le_add_right _ _)
  have hpow : 2 ^ 12 ≤ 2 ^ exponent m.layout s :=
    Nat.pow_le_pow_right (by norm_num) (Nat.le_add_right _ _)
  omega

end Supplied

/-- The exponent of a power of two up to 1 GiB. -/
lemma exponent_two_pow (hfo : c.foBits = 12) (hs : s.toNat = 2 ^ k) (h12 : 12 ≤ k) (h30 : k ≤ 30) :
    exponent c s = k := by
  have hle : s.toNat ≤ 2 ^ 30 := hs ▸ Nat.pow_le_pow_right (by norm_num) h30
  have hord := Layout.getOrder_toNat hfo (hs ▸ Nat.two_pow_pos k) hle
  rw [hs, Nat.clog_pow 2 k (by norm_num)] at hord
  unfold exponent
  omega

/-- A grant takes a page at least, and a refusal halves the size. -/
lemma collectLoop_isSome (h : Supplied m good large room) (hw : good w)
    (hfuel : large 12 w / 4096 + s.toNat.log2 + 1 < fuel) :
    (collectLoop m fuel s n l w).isSome := by
  induction fuel generalizing s n l w with
  | zero => exact absurd hfuel (Nat.not_lt_zero _)
  | succ fuel ih =>
    rw [collectLoop_succ]
    split_ifs with hend
    · rfl
    · have hs : pageSize ≤ s := UInt64.not_lt.mp fun hlt => hend (.inr hlt)
      split
      · next w' hm =>
        obtain ⟨rfl, -⟩ := h.refused hw hs hm
        have := (log2_half hs).1
        exact ih hw (by omega)
      · next addr w' hm =>
        obtain ⟨hw', hsup⟩ := h.taken hw hm
        rw [h.push_world]
        have := h.taken_page hw hm
        exact ih hw' (by omega)

/-- With powers of two the loop gives up only when nothing is left. -/
lemma collectLoop_exhausted (h : Supplied m good large room) (hfo : m.layout.foBits = 12) (hw : good w)
    (hs : s.toNat = 2 ^ k) (hk : k ≤ 30) (hsmall : k < 12 → large 12 w = 0)
    {r : UInt64 × List PhysAllocation × π} (hr : collectLoop m fuel s n l w = some r)
    (hne : r.1 ≠ 0) : large 12 w = granted (grants m fuel s n l w) := by
  induction fuel generalizing s n l w k with
  | zero => cases hr
  | succ fuel ih =>
    rw [collectLoop_succ] at hr
    rw [grants]
    have hpage : pageSize.toNat = 2 ^ 12 := rfl
    split_ifs at hr ⊢ with hend
    · cases hr
      have hlt := UInt64.lt_iff_toNat_lt.mp (hend.resolve_left hne)
      rw [hs, hpage] at hlt
      exact hsmall ((Nat.pow_lt_pow_iff_right (by norm_num)).mp hlt)
    · have hle : pageSize ≤ s := UInt64.not_lt.mp fun hlt => hend (.inr hlt)
      have hk12 : 12 ≤ k := by
        have hle := UInt64.le_iff_toNat_le.mp hle
        rw [hs, hpage] at hle
        exact (Nat.pow_le_pow_iff_right (by norm_num)).mp hle
      split at hr
      · next w' hm =>
        obtain ⟨rfl, hzero⟩ := h.refused hw hle hm
        rw [exponent_two_pow hfo hs hk12 hk] at hzero
        obtain ⟨j, rfl⟩ := Nat.exists_eq_add_of_le' hk12
        refine ih hw (k := j + 11) ?_ (by omega) (fun hj => ?_) hr
        · rw [(log2_half hle).2, hs, pow_succ]
          omega
        · -- the request was for a page
          obtain rfl : j = 0 := by omega
          exact hzero
      · next addr w' hm =>
        obtain ⟨hw', hsup⟩ := h.taken hw hm
        rw [exponent_two_pow hfo hs hk12 hk] at hsup
        have hsup := hsup 12 hk12
        rw [granted, List.map_cons, total_cons]
        rw [h.push_world] at hr ⊢
        have hrest := ih hw' hs hk (fun hlt => absurd hk12 (by omega)) hr
        rw [granted] at hrest
        dsimp only
        omega

/-- What `collect_phys_zones` is to do with the list `l` for `n` bytes: the missing count does not
wrap, the zones it has added when it returns true are enough and none is superfluous, and when it
returns false it has put everything back and less than `n` bytes were free. -/
structure Collects (m : Memory π) (supply : π → ℕ) (l : List PhysAllocation) (n : UInt64) (w : π) :
    Prop where
  fitting : Fitting (requested m l n w)
  ends : ∃ r, collectLoop m (m.pages + 64) (firstSize m.layout n) n l w = some r ∧
    ((collectEnd m l.length r).1 = true →
      ∃ zs, (collectEnd m l.length r).2.1 = l ++ zs ∧ n.toNat ≤ total zs ∧
        ∀ a ∈ zs.getLast?, total zs < n.toNat + a.len.toNat) ∧
    ((collectEnd m l.length r).1 = false →
      (collectEnd m l.length r).2.1 = l ∧
      (givenBack l.length r).Perm ((requested m l n w).map Grant.zone) ∧ supply w < n.toNat)

lemma firstSize_toNat (hfo : c.foBits = 12) (hn : 0 < n.toNat) (hle : n.toNat ≤ 2 ^ 30) :
    (firstSize c n).toNat = 2 ^ max 12 (Nat.clog 2 n.toNat) ∧ max 12 (Nat.clog 2 n.toNat) ≤ 30 := by
  have hord := Layout.getOrder_toNat hfo hn hle
  have hclog : Nat.clog 2 n.toNat ≤ 30 := (Nat.clog_le_iff_le_pow (by norm_num)).mpr hle
  have hsize := Layout.getOrderSize_cases hfo (c.getOrder n) (by omega)
  rw [hord, if_neg (by omega), Nat.mod_eq_of_lt (by omega)] at hsize
  exact ⟨hsize, by omega⟩

lemma firstSize_log2 : (firstSize c n).toNat.log2 < 64 := by
  by_cases h0 : (firstSize c n).toNat = 0
  · rw [h0]
    decide
  · exact (Nat.log2_lt h0).mpr (firstSize c n).toNat_lt

lemma granted_filter {gs : List Grant} (hpage : ∀ g ∈ gs, pageSize ≤ g.zone.len) :
    granted (gs.filter Grant.stored) ≤ granted gs ∧
      (granted gs ≤ granted (gs.filter Grant.stored) → ∀ g ∈ gs, g.stored = true) := by
  induction gs with
  | nil => exact ⟨le_rfl, fun _ g hg => absurd hg List.not_mem_nil⟩
  | cons g gs ih =>
    obtain ⟨h1, h2⟩ := ih fun g hg => hpage g (List.mem_cons_of_mem _ hg)
    have hg := UInt64.le_iff_toNat_le.mp (hpage g List.mem_cons_self)
    have hp : pageSize.toNat = 4096 := rfl
    simp only [granted] at h1 h2 ⊢
    by_cases hst : g.stored = true
    · rw [List.filter_cons_of_pos hst, List.map_cons, List.map_cons, total_cons, total_cons]
      refine ⟨by omega, fun hle g' hg' => ?_⟩
      rcases List.mem_cons.mp hg' with rfl | hg'
      · exact hst
      · exact h2 (by omega) g' hg'
    · rw [List.filter_cons_of_neg hst, List.map_cons, total_cons]
      exact ⟨by omega, fun hle => by omega⟩

lemma collects_congr {supply supply' : π → ℕ} (h : supply w = supply' w) :
    Collects m supply l n w ↔ Collects m supply' l n w := by
  constructor
  · rintro ⟨hfit, hends⟩
    exact ⟨hfit, h ▸ hends⟩
  · rintro ⟨hfit, hends⟩
    exact ⟨hfit, h ▸ hends⟩

/-- With the zones granted: none is larger than what is missing, the list takes all of them, and a request
of more than 1 GiB that is given up is for more than is free. -/
lemma collects_iff_granted (h : Supplied m good large room) (hw : good w) (hfo : m.layout.foBits = 12)
    (hpages : large 12 w < 4096 * m.pages) :
    Collects m (large 12) l n w ↔
      (∀ g ∈ requested m l n w, g.zone.len ≤ g.missing ∧ g.stored = true) ∧
        (n.toNat ≤ 2 ^ 30 ∨ large 12 w < n.toNat ∨ granted (requested m l n w) = n.toNat) := by
  have hpage : ∀ g ∈ requested m l n w, pageSize ≤ g.zone.len := fun g hg => grants_page hg
  constructor
  · rintro ⟨hfit, r, hr, htrue, hfalse⟩
    obtain ⟨hl, hsum⟩ := collectLoop_spec hr
    have hsum := hsum hfit
    change r.2.1 = l ++ ((requested m l n w).filter Grant.stored).map Grant.zone at hl
    change r.1.toNat + granted (requested m l n w) = n.toNat at hsum
    obtain ⟨-, hall⟩ := granted_filter hpage
    by_cases hr0 : r.1 = 0
    · obtain ⟨zs, hzs, hle, -⟩ := htrue (decide_eq_true hr0)
      have hend : (collectEnd m l.length r).2.1 = r.2.1 := if_pos hr0
      rw [hend, hl, List.append_cancel_left_eq] at hzs
      rw [hr0, UInt64.toNat_zero] at hsum
      have hst := hall (by rw [granted, granted, hzs]; rw [granted] at hsum; omega)
      exact ⟨fun g hg => ⟨hfit g hg, hst g hg⟩, .inr (.inr (by omega))⟩
    · obtain ⟨-, hperm, hsupply⟩ := hfalse (decide_eq_false hr0)
      rw [givenBack, if_neg hr0, hl, List.drop_left] at hperm
      have hlen := hperm.length_eq
      rw [List.length_reverse, List.length_map, List.length_map, List.length_filter_eq_length_iff]
        at hlen
      exact ⟨fun g hg => ⟨hfit g hg, hlen g hg⟩, .inr (.inl hsupply)⟩
  · rintro ⟨hall, hshort⟩
    have hfit : Fitting (requested m l n w) := fun g hg => (hall g hg).1
    have hlog : (firstSize m.layout n).toNat.log2 < 64 := firstSize_log2
    have hends : (collectLoop m (m.pages + 64) (firstSize m.layout n) n l w).isSome :=
      collectLoop_isSome h hw (by omega)
    obtain ⟨r, hr⟩ := Option.isSome_iff_exists.mp hends
    obtain ⟨hl, hsum⟩ := collectLoop_spec hr
    have hsum := hsum hfit
    change r.2.1 = l ++ ((requested m l n w).filter Grant.stored).map Grant.zone at hl
    change r.1.toNat + granted (requested m l n w) = n.toNat at hsum
    rw [List.filter_eq_self.mpr fun g hg => (hall g hg).2] at hl
    refine ⟨hfit, r, hr, fun htrue => ?_, fun hfalse => ?_⟩
    · have hr0 : r.1 = 0 := of_decide_eq_true htrue
      have hend : (collectEnd m l.length r).2.1 = r.2.1 := if_pos hr0
      rw [hr0, UInt64.toNat_zero] at hsum
      rw [granted] at hsum
      refine ⟨_, hend.trans hl, by omega, fun a ha => ?_⟩
      obtain ⟨g, hg, rfl⟩ := List.mem_map.mp (List.mem_of_mem_getLast? ha)
      have hg := UInt64.le_iff_toNat_le.mp (hpage g hg)
      have hp : pageSize.toNat = 4096 := rfl
      omega
    · have hr0 : r.1 ≠ 0 := of_decide_eq_false hfalse
      have hpos : 0 < r.1.toNat := Nat.pos_of_ne_zero fun h0 => hr0 (UInt64.toNat_inj.mp h0)
      have hend : (collectEnd m l.length r).2.1 = r.2.1.take l.length := if_neg hr0
      refine ⟨by rw [hend, hl, List.take_left], ?_, ?_⟩
      · rw [givenBack, if_neg hr0, hl, List.drop_left]
        exact List.reverse_perm _
      · rcases hshort with hn | hlt | heq
        · obtain ⟨hk, hk30⟩ := firstSize_toNat hfo (by omega) hn
          have hex := collectLoop_exhausted h hfo hw hk hk30
            (fun hlt => absurd (le_max_left _ _) (Nat.not_le.mpr hlt)) hr hr0
          change large 12 w = granted (requested m l n w) at hex
          omega
        · exact hlt
        · omega

end AddrSpace
end EpochKernel.Mem
