import EpochKernel.Mem.PhysZones

/-! Which requests of `collect_phys_zones` the free zones can meet. All zones of a size are taken before the
next size is tried, so the number of bytes that the run gets from each size is known before it. -/
namespace EpochKernel.Mem
open EpochKernel.Util EpochKernel.Library EpochKernel.Library.Block

namespace AddrSpace

/-- The bytes that the requests for the first `j` sizes from `s` on get if all the zones are granted that
are large enough, where larger ones have used up `used` bytes. -/
def reach (c : Layout) (large : ℕ → ℕ) : ℕ → ℕ → UInt64 → ℕ
  | 0, _, _ => 0
  | j + 1, used, s =>
    if s < pageSize then 0
    else (large (exponent c s) - used) / 2 ^ exponent c s * s.toNat +
      reach c large j (max used (large (exponent c s))) (s >>> 1)

/-- The sizes from `s` on never go over `n` bytes: before they do, `n` is met exactly. -/
def AffordsFrom (c : Layout) (large : ℕ → ℕ) (used : ℕ) (s : UInt64) (n : ℕ) : Prop :=
  ∀ j, reach c large j used s < n →
    reach c large (j + 1) used s ≤ n ∨ s.toNat / 2 ^ j ∣ n - reach c large j used s

/-- That is so for the sizes that are requested for `n` bytes. -/
def Affords (c : Layout) (large : ℕ → ℕ) (n : UInt64) : Prop :=
  AffordsFrom c large 0 (firstSize c n) n.toNat

/-- The number of zones of the sizes from `s` on that `n` bytes take. -/
def zonesFrom (c : Layout) (large : ℕ → ℕ) (k used : ℕ) (s : UInt64) (n : ℕ) : ℕ :=
  ∑ j ∈ Finset.range k,
    (min (reach c large (j + 1) used s) n - min (reach c large j used s) n) / (s.toNat / 2 ^ j)

/-- The number of zones for `n` bytes. -/
def zoneCount (c : Layout) (large : ℕ → ℕ) (n : UInt64) : ℕ :=
  zonesFrom c large 64 0 (firstSize c n) n.toNat

variable {π : Type*} {m : Memory π} {c : Layout} {l : List PhysAllocation} {n s : UInt64} {w : π} {fuel : ℕ}
variable {good : π → Prop} {large : ℕ → π → ℕ} {room : ℕ → Bool} {L : ℕ → ℕ} {used j k : ℕ}

lemma reach_small (hs : s < pageSize) : reach c L j used s = 0 := by
  cases j with
  | zero => rfl
  | succ j => rw [reach, if_pos hs]

/-- A refused size adds nothing. -/
lemma reach_refused (hs : pageSize ≤ s) (hused : L (exponent c s) ≤ used) :
    reach c L (j + 1) used s = reach c L j used (s >>> 1) := by
  rw [reach, if_neg (UInt64.not_lt.mpr hs), Nat.sub_eq_zero_of_le hused, Nat.zero_div, Nat.zero_mul,
    Nat.zero_add, max_eq_left hused]

/-- A granted zone is one of those counted. -/
lemma reach_granted (hs : pageSize ≤ s) (hused : used + 2 ^ exponent c s ≤ L (exponent c s)) :
    reach c L (j + 1) used s = reach c L (j + 1) (used + 2 ^ exponent c s) s + s.toNat := by
  have hdiv := Nat.div_eq_sub_div (Nat.two_pow_pos (exponent c s))
    (show 2 ^ exponent c s ≤ L (exponent c s) - used by omega)
  rw [reach, if_neg (UInt64.not_lt.mpr hs), reach, if_neg (UInt64.not_lt.mpr hs), hdiv, Nat.sub_sub,
    max_eq_right hused, max_eq_right (le_of_add_le_left hused)]
  ring

lemma half_div (hs : pageSize ≤ s) : (s >>> 1).toNat / 2 ^ j = s.toNat / 2 ^ (j + 1) := by
  rw [(log2_half hs).2, Nat.div_div_eq_div_mul, pow_succ']

/-- A refused size leaves the condition to the smaller ones. -/
lemma affordsFrom_refused (hs : pageSize ≤ s) (hused : L (exponent c s) ≤ used) {n : ℕ} :
    AffordsFrom c L used s n ↔ AffordsFrom c L used (s >>> 1) n := by
  constructor
  · intro hn j
    have hj := hn (j + 1)
    rwa [reach_refused hs hused, reach_refused hs hused, ← half_div hs] at hj
  · intro hn j hlt
    cases j with
    | zero =>
      rw [reach_refused hs hused]
      exact .inl (Nat.zero_le n)
    | succ j =>
      rw [reach_refused hs hused] at hlt
      rw [reach_refused hs hused, reach_refused hs hused, ← half_div hs]
      exact hn j hlt

/-- A granted zone that is not too large leaves the condition for the rest. -/
lemma affordsFrom_granted (hs : pageSize ≤ s) (hused : used + 2 ^ exponent c s ≤ L (exponent c s))
    {n : ℕ} (hn : s.toNat ≤ n) :
    AffordsFrom c L used s n ↔ AffordsFrom c L (used + 2 ^ exponent c s) s (n - s.toNat) := by
  have hpos : 4096 ≤ s.toNat := UInt64.le_iff_toNat_le.mp hs
  unfold AffordsFrom
  refine forall_congr' fun j => ?_
  rw [reach_granted hs hused]
  cases j with
  | zero =>
    have hdvd : s.toNat ∣ n - s.toNat ↔ s.toNat ∣ n := Nat.dvd_sub_iff_left hn dvd_rfl
    simp only [reach, pow_zero, Nat.div_one, Nat.sub_zero, hdvd]
    rcases Nat.eq_or_lt_of_le hn with heq | hlt
    · exact iff_of_true (fun _ => .inr (heq ▸ dvd_rfl)) fun hrest => absurd hrest (by omega)
    · exact imp_congr (by omega) (or_congr_left (by omega))
  | succ j =>
    rw [reach_granted hs hused]
    have hrest : n - (reach c L (j + 1) (used + 2 ^ exponent c s) s + s.toNat) =
        n - s.toNat - reach c L (j + 1) (used + 2 ^ exponent c s) s := by omega
    rw [hrest]
    refine imp_congr (by omega) (or_congr_left (by omega))

/-- A granted zone that is too large is one that the sizes do not afford. -/
lemma not_affordsFrom (hs : pageSize ≤ s) (hused : used + 2 ^ exponent c s ≤ L (exponent c s)) {n : ℕ}
    (h0 : 0 < n) (hn : n < s.toNat) : ¬ AffordsFrom c L used s n := by
  intro haff
  have h1 := haff 0 h0
  rw [reach_granted hs hused] at h1
  simp only [reach, pow_zero, Nat.div_one, Nat.sub_zero] at h1
  rcases h1 with hle | hdvd
  · omega
  · exact absurd (Nat.le_of_dvd h0 hdvd) (by omega)

lemma zonesFrom_refused (hs : pageSize ≤ s) (hused : L (exponent c s) ≤ used) (k n : ℕ) :
    zonesFrom c L (k + 1) used s n = zonesFrom c L k used (s >>> 1) n := by
  rw [zonesFrom, Finset.sum_range_succ', reach_refused hs hused]
  simp only [reach_refused hs hused, ← half_div hs]
  simp [reach, zonesFrom]

lemma zonesFrom_granted (hs : pageSize ≤ s) (hused : used + 2 ^ exponent c s ≤ L (exponent c s))
    {n : ℕ} (hn : s.toNat ≤ n) (k : ℕ) :
    zonesFrom c L (k + 1) used s n =
      zonesFrom c L (k + 1) (used + 2 ^ exponent c s) s (n - s.toNat) + 1 := by
  have hpos : 4096 ≤ s.toNat := UInt64.le_iff_toNat_le.mp hs
  have hmin : ∀ x, min (x + s.toNat) n = min x (n - s.toNat) + s.toNat := by omega
  rw [zonesFrom, zonesFrom, Finset.sum_range_succ', Finset.sum_range_succ', add_assoc]
  congr 1
  · refine Finset.sum_congr rfl fun j _ => ?_
    rw [reach_granted hs hused, reach_granted hs hused, hmin, hmin, Nat.add_sub_add_right]
  · rw [reach_granted hs hused, hmin]
    simp only [reach, pow_zero, Nat.div_one, Nat.zero_min, Nat.sub_zero]
    exact Nat.add_div_right _ (by omega)

lemma zonesFrom_small (hs : s < pageSize) (k n : ℕ) : zonesFrom c L k used s n = 0 := by
  simp [zonesFrom, reach_small hs]

lemma zonesFrom_zero (k : ℕ) : zonesFrom c L k used s 0 = 0 := by
  simp [zonesFrom]

/-- The zones granted, told by the free bytes before the call: none is too large exactly if the sizes
are afforded, and then they reach what the free zones of these sizes allow. The induction is on the fuel;
`used` counts the bytes granted so far. -/
lemma grants_spec (h : Supplied m good large room) (hL : Antitone L) (hw : good w)
    (hfuel : large 12 w / 4096 + s.toNat.log2 + 1 < fuel) (hlog : s.toNat.log2 < k + 12)
    (hinv : ∀ e ≤ exponent m.layout s, large e w = L e - used) :
    (Fitting (grants m fuel s n l w) ↔ AffordsFrom m.layout L used s n.toNat) ∧
      (Fitting (grants m fuel s n l w) →
        granted (grants m fuel s n l w) = min n.toNat (reach m.layout L k used s) ∧
        (grants m fuel s n l w).length = zonesFrom m.layout L k used s n.toNat) := by
  induction fuel generalizing k used s n l w with
  | zero => exact absurd hfuel (Nat.not_lt_zero _)
  | succ fuel ih =>
    rw [grants]
    split_ifs with hend
    · have hnil : Fitting [] := fun g hg => absurd hg List.not_mem_nil
      rcases hend with rfl | hs
      · exact ⟨iff_of_true hnil fun j hj => absurd hj (Nat.not_lt_zero _), fun _ =>
          ⟨(Nat.zero_min _).symm, (zonesFrom_zero k).symm⟩⟩
      · refine ⟨iff_of_true hnil fun j _ => .inl ?_, fun _ => ⟨?_, (zonesFrom_small hs k _).symm⟩⟩
        · rw [reach_small hs]
          exact Nat.zero_le _
        · rw [reach_small hs, Nat.min_zero]
          rfl
    · have hs : pageSize ≤ s := UInt64.not_lt.mp fun hlt => hend (.inr hlt)
      have hpos : 4096 ≤ s.toNat := UInt64.le_iff_toNat_le.mp hs
      have hhalf := (log2_half hs).1
      have hlog12 : 12 ≤ s.toNat.log2 := (Nat.le_log2 (by omega)).mpr hpos
      obtain ⟨k, rfl⟩ : ∃ k', k = k' + 1 := ⟨k - 1, by omega⟩
      split
      · next w' hm =>
        obtain ⟨hsame, hzero⟩ := h.refused hw hs hm
        have hused : L (exponent m.layout s) ≤ used := by
          have := hinv _ le_rfl
          omega
        -- nothing is left in the larger zones either
        have hall : ∀ e ≤ exponent m.layout (s >>> 1), large e w = L e - used := fun e _ => by
          rcases Nat.le_total e (exponent m.layout s) with hle | hle
          · exact hinv e hle
          · have h1 := h.anti w hle
            have h2 := hL hle
            dsimp only at h1
            omega
        rw [hsame, affordsFrom_refused hs hused, reach_refused hs hused, zonesFrom_refused hs hused]
        exact ih hw (by omega) (by omega) hall
      · next addr w' hm =>
        obtain ⟨hw', hsup⟩ := h.taken hw hm
        have hpage := h.taken_page hw hm
        have hused : used + 2 ^ exponent m.layout s ≤ L (exponent m.layout s) := by
          have h1 := hsup _ le_rfl
          have h2 := hinv _ le_rfl
          have := Nat.two_pow_pos (exponent m.layout s)
          omega
        rw [h.push_world]
        by_cases hle : s ≤ n
        · have hle' := UInt64.le_iff_toNat_le.mp hle
          have hrest : ∀ e ≤ exponent m.layout s,
              large e w' = L e - (used + 2 ^ exponent m.layout s) := fun e he => by
            rw [← Nat.sub_sub, ← hinv e he, ← hsup e he, Nat.add_sub_cancel]
          obtain ⟨hiff, hcount⟩ :=
            ih (n := n - s) (l := (push m l ⟨addr, s⟩ w').1) hw' (by omega) hlog hrest
          rw [UInt64.toNat_sub_of_le _ _ hle] at hiff hcount
          rw [affordsFrom_granted hs hused hle', reach_granted hs hused,
            zonesFrom_granted hs hused hle']
          refine ⟨Iff.trans List.forall_mem_cons ((and_iff_right hle).trans hiff), fun hfit => ?_⟩
          obtain ⟨hsum, hlen⟩ := hcount fun g hg => hfit g (List.mem_cons_of_mem _ hg)
          rw [granted, List.map_cons, total_cons, List.length_cons]
          rw [granted] at hsum
          dsimp only
          exact ⟨by omega, congrArg (· + 1) hlen⟩
        · have hnot : ∀ gs, ¬ Fitting (⟨n, ⟨addr, s⟩, (m.room l.length w').1⟩ :: gs) :=
            fun gs hfit => hle (hfit _ List.mem_cons_self)
          have hlt := UInt64.lt_iff_toNat_lt.mp (UInt64.not_le.mp hle)
          have hn0 : 0 < n.toNat := Nat.pos_of_ne_zero fun h0 => hend (.inl (UInt64.toNat_inj.mp h0))
          exact ⟨iff_of_false (hnot _) (not_affordsFrom hs hused hn0 hlt), fun hfit =>
            absurd hfit (hnot _)⟩

/-- The list takes the zones granted if it has room for so many. -/
lemma grants_stored (h : Supplied m good large room) :
    (∀ g ∈ grants m fuel s n l w, g.stored = true) ↔
      ∀ i < (grants m fuel s n l w).length, room (l.length + i) = true := by
  induction fuel generalizing s n l w with
  | zero =>
    exact iff_of_true (fun g hg => absurd hg List.not_mem_nil) fun i hi => absurd hi (Nat.not_lt_zero _)
  | succ fuel ih =>
    rw [grants]
    split_ifs with hend
    · exact iff_of_true (fun g hg => absurd hg List.not_mem_nil) fun i hi => absurd hi (Nat.not_lt_zero _)
    · split
      · exact ih
      · next addr w' hm =>
        rw [h.push_world, h.push_list, h.room, List.forall_mem_cons, List.length_cons,
          Nat.forall_lt_succ_left]
        refine and_congr_right fun h0 => ?_
        dsimp only at h0
        rw [if_pos h0, ih, List.length_append, List.length_singleton]
        simp only [Nat.add_assoc, Nat.add_comm 1]

/-- What `collect_phys_zones` requests, told by the free bytes before the call. -/
lemma requested_spec (h : Supplied m good large room) (hw : good w)
    (hpages : large 12 w < 4096 * m.pages) :
    (Fitting (requested m l n w) ↔ Affords m.layout (large · w) n) ∧
      (Fitting (requested m l n w) →
        granted (requested m l n w) =
          min n.toNat (reach m.layout (large · w) 64 0 (firstSize m.layout n)) ∧
        (requested m l n w).length = zoneCount m.layout (large · w) n) := by
  have hlog : (firstSize m.layout n).toNat.log2 < 64 := firstSize_log2
  exact grants_spec h (h.anti w) hw (by omega) (by omega) fun e _ => (Nat.sub_zero _).symm

/-- `collect_phys_zones` does what it is to do if the sizes that it requests are afforded by what is free,
the list has room for the zones, and a request of more than 1 GiB that is given up is for more than is free. -/
lemma collects_iff (h : Supplied m good large room) (hw : good w) (hfo : m.layout.foBits = 12)
    (hpages : large 12 w < 4096 * m.pages) :
    Collects m (large 12) l n w ↔
      Affords m.layout (large · w) n ∧ (∀ i < zoneCount m.layout (large · w) n, room (l.length + i) = true) ∧
        (n.toNat ≤ 2 ^ 30 ∨ large 12 w < n.toNat ∨
          n.toNat ≤ reach m.layout (large · w) 64 0 (firstSize m.layout n)) := by
  obtain ⟨hiff, hcount⟩ := requested_spec (l := l) (n := n) h hw hpages
  have hstored : (∀ g ∈ requested m l n w, g.stored = true) ↔ _ := grants_stored h
  rw [collects_iff_granted h hw hfo hpages, ← hiff]
  constructor
  · rintro ⟨hall, hshort⟩
    have hfit : Fitting (requested m l n w) := fun g hg => (hall g hg).1
    obtain ⟨hsum, hlen⟩ := hcount hfit
    refine ⟨hfit, hlen ▸ hstored.mp fun g hg => (hall g hg).2, ?_⟩
    rwa [hsum, inf_eq_left] at hshort
  · rintro ⟨hfit, hroom, hshort⟩
    obtain ⟨hsum, hlen⟩ := hcount hfit
    have hst := hstored.mpr (hlen ▸ hroom)
    refine ⟨fun g hg => ⟨hfit g hg, hst g hg⟩, ?_⟩
    rwa [hsum, inf_eq_left]

lemma reach_succ (hs : pageSize ≤ s) : reach c L (j + 1) used s =
    (L (exponent c s) - used) / 2 ^ exponent c s * s.toNat +
      reach c L j (max used (L (exponent c s))) (s >>> 1) := by
  rw [reach, if_neg (UInt64.not_lt.mpr hs)]

/-- The sizes below a page add nothing. -/
lemma reach_stop (hlog : s.toNat.log2 < j + 12) : reach c L (j + 1) used s = reach c L j used s := by
  induction j generalizing s used with
  | zero =>
    refine reach_small (UInt64.lt_iff_toNat_lt.mpr (Nat.lt_of_not_le fun hle => ?_))
    have hpos : 4096 ≤ s.toNat := hle
    have := (Nat.le_log2 (n := s.toNat) (k := 12) (by omega)).mpr hpos
    omega
  | succ j ih =>
    rcases UInt64.lt_or_le s pageSize with hs | hs
    · rw [reach_small hs, reach_small hs]
    · have := (log2_half hs).1
      rw [reach_succ hs, reach_succ hs, ih (by omega)]

lemma reach_two_pow_succ (hfo : c.foBits = 12) (hs : s.toNat = 2 ^ k) (hk : k ≤ 30) (h12 : 12 ≤ k)
    (hdvd : 2 ^ k ∣ L k - used) :
    reach c L (j + 1) used s = L k - used + reach c L j (max used (L k)) (s >>> 1) := by
  have hpage : pageSize ≤ s := by
    rw [UInt64.le_iff_toNat_le, hs]
    exact Nat.pow_le_pow_right (n := 2) (by norm_num) h12
  rw [reach_succ hpage, exponent_two_pow hfo hs h12 hk, hs, Nat.div_mul_cancel hdvd]

/-- From a power of two up to 1 GiB the sizes reach all that is free in zones that large. -/
lemma reach_two_pow (hfo : c.foBits = 12) (hL : Antitone L) (hdvd : ∀ e, 2 ^ e ∣ L e)
    (hs : s.toNat = 2 ^ k) (hk : k ≤ 30) (hj : j + 12 ≤ k) (hused : 2 ^ k ∣ used) :
    reach c L (j + 1) used s = max used (L (k - j)) - used := by
  rw [reach_two_pow_succ hfo hs hk (by omega) (Nat.dvd_sub (hdvd k) hused)]
  induction j generalizing s k used with
  | zero =>
    rw [reach, Nat.sub_zero]
    omega
  | succ j ih =>
    obtain ⟨k, rfl⟩ : ∃ i, k = i + 1 := ⟨k - 1, by omega⟩
    have hhalf : (s >>> 1).toNat = 2 ^ k := by
      rw [UInt64.toNat_shiftRight, hs, pow_succ]
      simp [Nat.shiftRight_eq_div_pow]
    have hmax : 2 ^ k ∣ max used (L (k + 1)) := by
      have hpow : 2 ^ k ∣ 2 ^ (k + 1) := pow_dvd_pow 2 (Nat.le_succ k)
      rcases max_choice used (L (k + 1)) with h | h
      · rw [h]
        exact hpow.trans hused
      · rw [h]
        exact hpow.trans (hdvd _)
    have hle : L (k + 1) ≤ L (k - j) := hL (by omega)
    rw [reach_two_pow_succ hfo hhalf (by omega) (by omega) (Nat.dvd_sub (hdvd k) hmax),
      ih hhalf (by omega) (by omega) hmax, Nat.add_sub_add_right]
    omega

/-- For at most 1 GiB: of each size of zones up to the first one requested, `n` is a multiple, or what is free
in zones of this size and above is not more than `n` bytes. -/
lemma affords_iff (hfo : c.foBits = 12) (hL : Antitone L) (hdvd : ∀ e, 2 ^ e ∣ L e)
    (hn : 0 < n.toNat) (hpage : 4096 ∣ n.toNat) (hle : n.toNat ≤ 2 ^ 30) :
    Affords c L n ↔ ∀ e, 12 ≤ e → 2 ^ e < 2 * n.toNat → L e ≤ n.toNat ∨ 2 ^ e ∣ n.toNat := by
  obtain ⟨hs, hk⟩ := firstSize_toNat hfo hn hle
  set k := max 12 (Nat.clog 2 n.toNat) with hkdef
  have hreach : ∀ j, j + 12 ≤ k → reach c L (j + 1) 0 (firstSize c n) = L (k - j) := fun j hj => by
    rw [reach_two_pow hfo hL hdvd hs hk hj (dvd_zero _), Nat.sub_zero, Nat.zero_max]
  have hsize : ∀ e, 12 ≤ e → (2 ^ e < 2 * n.toNat ↔ e ≤ k) := by
    intro e he
    obtain ⟨e, rfl⟩ : ∃ i, e = i + 1 := ⟨e - 1, by omega⟩
    have hclog : e < Nat.clog 2 n.toNat ↔ 2 ^ e < n.toNat := Nat.lt_clog_iff_pow_lt (by norm_num)
    have h4096 := Nat.le_of_dvd hn hpage
    have h12 : 12 ≤ Nat.clog 2 n.toNat :=
      (Nat.lt_clog_iff_pow_lt (by norm_num)).mpr (show 2 ^ 11 < n.toNat by omega)
    rw [pow_succ]
    omega
  have hdiv : ∀ j ≤ k, (firstSize c n).toNat / 2 ^ j = 2 ^ (k - j) := fun j hj => by
    rw [hs, Nat.pow_div hj (by norm_num)]
  constructor
  · intro haff e h12 he
    obtain ⟨j, hj, rfl⟩ : ∃ j, j + 12 ≤ k ∧ e = k - j := by
      have := (hsize e h12).mp he
      exact ⟨k - e, by omega, by omega⟩
    -- down from the first size
    clear h12 he
    induction j with
    | zero =>
      have h0 := haff 0 hn
      rw [hreach 0 hj, hdiv 0 (Nat.zero_le _)] at h0
      exact h0
    | succ j ih =>
      have hpow : 2 ^ (k - (j + 1)) ∣ 2 ^ (k - j) := pow_dvd_pow 2 (by omega)
      by_cases hmul : 2 ^ (k - j) ∣ n.toNat
      · exact .inr (hpow.trans hmul)
      · have hle := (ih (by omega)).resolve_right hmul
        have hne : L (k - j) ≠ n.toNat := fun heq => hmul (heq ▸ hdvd _)
        have hj1 := haff (j + 1)
        rw [hreach j (by omega), hreach (j + 1) hj, hdiv (j + 1) (by omega)] at hj1
        exact (hj1 (by omega)).imp_right (Nat.dvd_sub_iff_left hle (hpow.trans (hdvd _))).mp
  · intro hall j hlt
    rcases Nat.lt_or_ge k (j + 12) with hj | hj
    · -- no more pages
      rw [reach_stop (by rw [hs, Nat.log2_two_pow]; exact hj)]
      exact .inl hlt.le
    · have hsub := hall (k - j) (by omega) ((hsize _ (by omega)).mpr (by omega))
      rw [hreach j hj, hdiv j (by omega)]
      refine hsub.imp_right fun hmul => Nat.dvd_sub hmul ?_
      cases j with
      | zero => exact dvd_zero _
      | succ j =>
        rw [hreach j (by omega)]
        exact (pow_dvd_pow 2 (by omega)).trans (hdvd _)

end AddrSpace

/-- The physical allocators as the memory of an address space; the page tables are those of `m`, and
`room k` tells if there is room for one more entry in an array of `k`. -/
def Memory.ofAllocators (m : Memory (List Pallocator)) (room : ℕ → Bool) :
    Memory (List Pallocator) :=
  { m with
    getFreeSpace := Pallocator.memGetFreeSpace
    alloc := Pallocator.memAlloc
    free := Pallocator.memFree
    room := fun k ps => (room k, ps) }

open Pallocator in
lemma supplied_ofAllocators (m : Memory (List Pallocator)) (room : ℕ → Bool)
    (hfo : m.layout.foBits = 12) :
    AddrSpace.Supplied (m.ofAllocators room) (fun ps => ∀ p ∈ ps, p.Sound) memBytesFrom room where
  refused := fun {s w w'} hw hs hm => by
    obtain ⟨hsame, hall⟩ := memAlloc_refused hw (congrArg Prod.fst hm)
    refine ⟨(congrArg Prod.snd hm).symm.trans hsame, List.sum_eq_zero fun x hx => ?_⟩
    obtain ⟨p, hp, rfl⟩ := List.mem_map.mp hx
    have hpos : s ≠ 0 := by
      rintro rfl
      exact absurd hs (by decide)
    have hord : m.layout.getOrder s = p.getOrder s := by
      unfold Layout.getOrder
      rw [hfo, (hw p hp).foBits]
    change p.bytesFrom (12 + (m.layout.getOrder s).toNat) = 0
    rw [hord]
    refine bytesFrom_eq_zero fun k hk => hall hpos p hp k ?_
    have hfo : p.fo = 12 := congrArg UInt8.toNat (hw p hp).foBits
    omega
  taken := fun {s a w w'} hw hm => by
    obtain ⟨hs, o, ho, hbytes⟩ := memAlloc_granted (n := s) hw (by
      rw [show memAlloc s w = _ from hm]
      exact nofun)
    rw [show memAlloc s w = _ from hm] at hs hbytes
    change _ ∧ ∀ e ≤ 12 + (m.layout.getOrder s).toNat, _ + 2 ^ (12 + (m.layout.getOrder s).toNat) = _
    rw [ho _ hfo]
    exact ⟨hs, hbytes⟩
  anti _ _ _ he := memBytesFrom_anti he
  room _ _ := rfl

namespace AddrSpace

/-- Over the allocators of the machine, `collect_phys_zones` does what it is to do exactly if the sizes
that it requests are afforded by the free zones, the list has room for the zones, and a request of more
than 1 GiB that is given up is for more than is free. Up to 1 GiB the sizes are afforded if for each of
them the free zones of at least that size hold at most `n` bytes, or `n` is a multiple of it. -/
theorem collectPhysZones_collects_iff (m : Memory (List Pallocator)) (room : ℕ → Bool)
    {ps : List Pallocator} (hps : ∀ p ∈ ps, p.Sound) (hfo : m.layout.foBits = 12)
    (hpages : Pallocator.memFreeBytes ps < 4096 * m.pages) (l : List PhysAllocation) (n : UInt64) :
    (Collects (m.ofAllocators room) Pallocator.memFreeBytes l n ps ↔
      Affords m.layout (Pallocator.memBytesFrom · ps) n ∧
        (∀ i < zoneCount m.layout (Pallocator.memBytesFrom · ps) n, room (l.length + i) = true) ∧
        (n.toNat ≤ 2 ^ 30 ∨ Pallocator.memFreeBytes ps < n.toNat ∨
          n.toNat ≤ reach m.layout (Pallocator.memBytesFrom · ps) 64 0 (firstSize m.layout n))) ∧
      (0 < n.toNat → 4096 ∣ n.toNat → n.toNat ≤ 2 ^ 30 →
        (Affords m.layout (Pallocator.memBytesFrom · ps) n ↔
          ∀ e, 12 ≤ e → 2 ^ e < 2 * n.toNat →
            Pallocator.memBytesFrom e ps ≤ n.toNat ∨ 2 ^ e ∣ n.toNat)) := by
  have hsupply := Pallocator.memBytesFrom_twelve hps
  rw [← hsupply] at hpages
  refine ⟨?_, affords_iff hfo (fun _ _ he => Pallocator.memBytesFrom_anti he)
    (Pallocator.dvd_memBytesFrom hps)⟩
  rw [collects_congr hsupply.symm, ← hsupply]
  exact collects_iff (supplied_ofAllocators m room hfo) hps hfo hpages

/-- Page tables that are not used here, over at most 16 pages of memory. -/
def samplePool : Memory (List Pallocator) where
  pages := 16
  layout := (Pallocator.initFields 4096 65536 4096 (fun _ => ⟨none, none⟩) (fun _ => 0)
    (fun _ => ⟨false, 0⟩)).toLayout
  getFreeSpace := Pallocator.memGetFreeSpace
  alloc := Pallocator.memAlloc
  free := Pallocator.memFree
  room _ ps := (true, ps)
  mapInternal _ _ _ _ ps := (true, ps)
  unmapInternal _ _ ps := ps

/-- Two pages of the 14 that are free. -/
theorem collectPhysZones_collects_pages : ∃ p,
    Pallocator.init 4096 65536 4096 (fun _ => ⟨none, none⟩) (fun _ => 0) (fun _ => ⟨false, 0⟩) =
      some p ∧
    (Collects (samplePool.ofAllocators fun _ => true) Pallocator.memFreeBytes [] 0x2000 [p] ↔
      Affords samplePool.layout (Pallocator.memBytesFrom · [p]) 0x2000 ∧
        (∀ i < zoneCount samplePool.layout (Pallocator.memBytesFrom · [p]) 0x2000, true = true) ∧
        (2 ^ 13 ≤ 2 ^ 30 ∨ Pallocator.memFreeBytes [p] < 2 ^ 13 ∨
          2 ^ 13 ≤ reach samplePool.layout (Pallocator.memBytesFrom · [p]) 64 0
            (firstSize samplePool.layout 0x2000))) ∧
      (Affords samplePool.layout (Pallocator.memBytesFrom · [p]) 0x2000 ↔
        ∀ e, 12 ≤ e → 2 ^ e < 2 ^ 14 →
          Pallocator.memBytesFrom e [p] ≤ 2 ^ 13 ∨ 2 ^ e ∣ 2 ^ 13) := by
  obtain ⟨p, hp⟩ := Option.isSome_iff_exists.mp (show (Pallocator.init 4096 65536 4096
    (fun _ => ⟨none, none⟩) (fun _ => 0) (fun _ => ⟨false, 0⟩)).isSome by decide +kernel)
  obtain ⟨q, t, hq, hB, hfill, ht, -⟩ := Pallocator.init_holds hp (k := 12) rfl (by decide)
  have hfields : (Pallocator.init 4096 65536 4096 (fun _ => ⟨none, none⟩) (fun _ => 0)
      (fun _ => ⟨false, 0⟩)).all (fun p => p.foBits = 12 ∧ p.startAddr = 4096 ∧
        p.endAddr = 61440) = true := by decide +kernel
  rw [hp, Option.all_some, decide_eq_true_eq] at hfields
  obtain ⟨hfo, hstart, hend⟩ := hfields
  have hlo : p.lo = 4096 := congrArg UInt64.toNat hstart
  have hhi : p.hi = 61440 := congrArg UInt64.toNat hend
  have hsum := hq.freeBytes_add
  have hpages : Pallocator.memFreeBytes [p] < 4096 * samplePool.pages := by
    rw [Pallocator.memFreeBytes_cons, show Pallocator.memFreeBytes [] = 0 from rfl,
      show samplePool.pages = 16 from rfl]
    omega
  obtain ⟨hcollects, hsizes⟩ := collectPhysZones_collects_iff samplePool (fun _ => true)
    (List.forall_mem_singleton.mpr ⟨hfo, by omega, [], q, hq, hB⟩) rfl hpages [] 0x2000
  exact ⟨p, hp, hcollects, hsizes (by decide) ⟨2, rfl⟩ (by decide)⟩

/-- Three pages are missing and four are granted. -/
theorem not_collects_three_pages : ∃ p,
    Pallocator.init 4096 65536 4096 (fun _ => ⟨none, none⟩) (fun _ => 0) (fun _ => ⟨false, 0⟩) =
      some p ∧
    ¬ Collects (samplePool.ofAllocators fun _ => true) Pallocator.memFreeBytes [] 0x3000 [p] := by
  have h : (Pallocator.init 4096 65536 4096 (fun _ => ⟨none, none⟩) (fun _ => 0)
      (fun _ => ⟨false, 0⟩)).map (fun p =>
        (requested (samplePool.ofAllocators fun _ => true) [] 0x3000 [p]).all fun g =>
          decide (g.zone.len ≤ g.missing)) = some false := by
    decide +kernel
  obtain ⟨p, hp, hall⟩ := Option.map_eq_some_iff.mp h
  refine ⟨p, hp, fun hc => ?_⟩
  rw [List.all_eq_true.mpr fun g hg => decide_eq_true (hc.fitting g hg)] at hall
  cases hall

end AddrSpace
end EpochKernel.Mem
