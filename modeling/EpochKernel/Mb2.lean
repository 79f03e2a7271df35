import EpochKernel.Util.Word

/-! `mb2::get`, the search for a tag in the table of the boot loader. The words of the table are
indexed from its start, the first one holds the size of the table in bytes. -/
namespace EpochKernel.Mb2
open EpochKernel.Util

/-- The loop of `get`, with the words it has read. It gives nothing if `left` turns are too few. -/
def getLoop (mb2 : UInt64 → UInt32) (type : UInt8) :
    ℕ → UInt64 → UInt64 → List UInt64 → Option (Option UInt64 × List UInt64)
  | 0, _, _, _ => none
  | left + 1, i, bI, reads =>
    if mb2 i = type.toUInt32 then some (some i, reads ++ [i])
    else if mb2 i = 0 then some (none, reads ++ [i])
    else
      let bI := alignUp (bI + (mb2 (i + 1)).toUInt64) 8
      getLoop mb2 type left (bI / 4) bI (reads ++ [i, i + 1])

/-- The word index of the tag, `NULL` as `none`. -/
def get (mb2 : UInt64 → UInt32) (type : UInt8) (left : ℕ) : Option (Option UInt64 × List UInt64) :=
  getLoop mb2 type left 2 8 []

/-- All bytes of the words lie in the first `n`. -/
def Within (n : ℕ) (reads : List UInt64) : Prop := ∀ i ∈ reads, 4 * i.toNat + 4 ≤ n

/-- The search ends with the result, and has read only bytes of the table. -/
def Finds (mb2 : UInt64 → UInt32) (type : UInt8) (out : Option UInt64) : Prop :=
  ∃ left reads, get mb2 type left = some (out, reads) ∧ Within (mb2 0).toNat reads

section Walk
variable (mb2 : UInt64 → UInt32) (type : UInt8)

/-- The byte at which tag `k` starts if every tag before is as long as it says. -/
def start : ℕ → UInt64
  | 0 => 8
  | k + 1 => alignUp (start k + (mb2 (start k / 4 + 1)).toUInt64) 8

/-- The type word of tag `k`. -/
def typeOf (k : ℕ) : UInt32 := mb2 (start mb2 k / 4)

/-- The tags up to `k` lie in the first `n` bytes, with the end tag or the first one of the type
as tag `k`. -/
structure Leads (n k : ℕ) : Prop where
  passed : ∀ j < k, (start mb2 j).toNat + 8 ≤ n ∧ typeOf mb2 j ≠ type.toUInt32 ∧ typeOf mb2 j ≠ 0
  inside : (start mb2 k).toNat + 4 ≤ n
  last : typeOf mb2 k = type.toUInt32 ∨ typeOf mb2 k = 0

/-- What the search returns at tag `k`. -/
def resultAt (k : ℕ) : Option UInt64 :=
  if typeOf mb2 k = type.toUInt32 then some (start mb2 k / 4) else none

variable {mb2 type}

lemma dvd_start (mb2 : UInt64 → UInt32) (k : ℕ) : 8 ∣ (start mb2 k).toNat := by
  cases k with
  | zero => exact dvd_rfl
  | succ k => exact dvd_alignUp (k := 3) rfl

lemma four_mul_start (mb2 : UInt64 → UInt32) (k : ℕ) : 4 * (start mb2 k / 4).toNat = (start mb2 k).toNat := by
  obtain ⟨q, hq⟩ := dvd_start mb2 k
  rw [UInt64.toNat_div, hq]
  change 4 * (8 * q / 4) = 8 * q
  omega

lemma four_mul_start_succ (mb2 : UInt64 → UInt32) (k : ℕ) :
    4 * (start mb2 k / 4 + 1).toNat = (start mb2 k).toNat + 4 := by
  have hlt := (start mb2 k).toNat_lt
  have hk := four_mul_start mb2 k
  have hadd : (start mb2 k / 4 + 1).toNat = ((start mb2 k / 4).toNat + 1) % 2 ^ 64 := rfl
  rw [hadd, Nat.mod_eq_of_lt (by omega)]
  omega

lemma getLoop_of_last {k : ℕ} (hk : typeOf mb2 k = type.toUInt32 ∨ typeOf mb2 k = 0) (left : ℕ)
    (reads : List UInt64) : getLoop mb2 type (left + 1) (start mb2 k / 4) (start mb2 k) reads =
      some (resultAt mb2 type k, reads ++ [start mb2 k / 4]) := by
  rw [getLoop, resultAt]
  by_cases ht : typeOf mb2 k = type.toUInt32
  · rw [if_pos ht]
    exact if_pos ht
  · rw [if_neg ht]
    exact (if_neg ht).trans (if_pos (hk.resolve_left ht))

lemma getLoop_of_passed {k : ℕ} (ht : typeOf mb2 k ≠ type.toUInt32) (h0 : typeOf mb2 k ≠ 0)
    (left : ℕ) (reads : List UInt64) :
    getLoop mb2 type (left + 1) (start mb2 k / 4) (start mb2 k) reads =
      getLoop mb2 type left (start mb2 (k + 1) / 4) (start mb2 (k + 1))
        (reads ++ [start mb2 k / 4, start mb2 k / 4 + 1]) := by
  rw [getLoop]
  exact (if_neg ht).trans (if_neg h0)

lemma within_append {n : ℕ} {l r : List UInt64} : Within n (l ++ r) ↔ Within n l ∧ Within n r :=
  List.forall_mem_append

lemma within_type {n k : ℕ} : Within n [start mb2 k / 4] ↔ (start mb2 k).toNat + 4 ≤ n := by
  rw [Within, List.forall_mem_singleton, four_mul_start]

lemma within_header {n k : ℕ} :
    Within n [start mb2 k / 4, start mb2 k / 4 + 1] ↔ (start mb2 k).toNat + 8 ≤ n := by
  have h1 := four_mul_start mb2 k
  have h2 := four_mul_start_succ mb2 k
  rw [Within, List.forall_mem_cons, List.forall_mem_singleton]
  omega

/-- The search returns at a tag to which the sizes lead. -/
lemma getLoop_of_leads {n m : ℕ} (h : Leads mb2 type n m) {d : ℕ} : ∀ {k : ℕ}, k + d = m →
    ∀ {reads}, Within n reads → ∃ reads', Within n reads' ∧
      getLoop mb2 type (d + 1) (start mb2 k / 4) (start mb2 k) reads =
        some (resultAt mb2 type m, reads') := by
  induction d with
  | zero =>
    intro k hk reads hreads
    obtain rfl : k = m := hk
    exact ⟨_, within_append.mpr ⟨hreads, within_type.mpr h.inside⟩, getLoop_of_last h.last 0 reads⟩
  | succ d ih =>
    intro k hk reads hreads
    obtain ⟨hin, ht, h0⟩ := h.passed k (by omega)
    rw [getLoop_of_passed ht h0]
    apply ih
    · omega
    · exact within_append.mpr ⟨hreads, within_header.mpr hin⟩

/-- The words read before are among the words read in the end. -/
lemma within_of_getLoop {n left : ℕ} {out : Option UInt64} {reads' : List UInt64}
    (hin : Within n reads') : ∀ {i bI reads},
    getLoop mb2 type left i bI reads = some (out, reads') → Within n reads := by
  induction left with
  | zero =>
    intro i bI reads h
    exact absurd h (by simp [getLoop])
  | succ left ih =>
    intro i bI reads h
    rw [getLoop] at h
    split_ifs at h
    · obtain ⟨-, rfl⟩ := Prod.mk.inj (Option.some.inj h)
      exact (within_append.mp hin).1
    · obtain ⟨-, rfl⟩ := Prod.mk.inj (Option.some.inj h)
      exact (within_append.mp hin).1
    · exact (within_append.mp (ih h)).1

/-- Where the search returns, the sizes lead. -/
lemma leads_of_getLoop {n left : ℕ} {out : Option UInt64} {reads' : List UInt64}
    (hin : Within n reads') : ∀ {k reads},
    getLoop mb2 type left (start mb2 k / 4) (start mb2 k) reads = some (out, reads') →
    (∀ j < k, (start mb2 j).toNat + 8 ≤ n ∧ typeOf mb2 j ≠ type.toUInt32 ∧ typeOf mb2 j ≠ 0) →
    ∃ m, Leads mb2 type n m ∧ out = resultAt mb2 type m := by
  induction left with
  | zero =>
    intro k reads h _
    exact absurd h (by simp [getLoop])
  | succ left ih =>
    intro k reads h hpassed
    by_cases hk : typeOf mb2 k = type.toUInt32 ∨ typeOf mb2 k = 0
    · rw [getLoop_of_last hk] at h
      obtain ⟨rfl, rfl⟩ := Prod.mk.inj (Option.some.inj h)
      exact ⟨k, ⟨hpassed, within_type.mp (within_append.mp hin).2, hk⟩, rfl⟩
    · obtain ⟨ht, h0⟩ := not_or.mp hk
      rw [getLoop_of_passed ht h0] at h
      have hread := (within_append.mp (within_of_getLoop hin h)).2
      apply ih h
      intro j hj
      obtain hj | rfl := Nat.lt_succ_iff_lt_or_eq.mp hj
      · exact hpassed j hj
      · exact ⟨within_header.mp hread, ht, h0⟩

lemma get_eq (left : ℕ) :
    get mb2 type left = getLoop mb2 type left (start mb2 0 / 4) (start mb2 0) [] := by
  have hword : (8 : UInt64) / 4 = 2 := by decide
  rw [start, hword]
  rfl

/-- The sizes lead to one tag only. -/
lemma Leads.unique {n m m' : ℕ} (h : Leads mb2 type n m) (h' : Leads mb2 type n m') : m = m' := by
  apply le_antisymm
  · apply not_lt.mp
    intro hlt
    obtain ⟨-, ht, h0⟩ := h.passed m' hlt
    exact h'.last.elim ht h0
  · apply not_lt.mp
    intro hlt
    obtain ⟨-, ht, h0⟩ := h'.passed m hlt
    exact h.last.elim ht h0

/-- The search finds what the sizes lead to, and only that. -/
lemma finds_iff {out : Option UInt64} : Finds mb2 type out ↔
    ∃ m, Leads mb2 type (mb2 0).toNat m ∧ out = resultAt mb2 type m := by
  constructor
  · intro ⟨left, reads, h, hin⟩
    rw [get_eq] at h
    apply leads_of_getLoop hin h
    intro j hj
    exact absurd hj j.not_lt_zero
  · intro ⟨m, hm, hout⟩
    have hnil : Within (mb2 0).toNat [] := by simp [Within]
    obtain ⟨reads, hin, h⟩ := getLoop_of_leads hm m.zero_add hnil
    rw [← get_eq] at h
    rw [hout]
    exact ⟨m + 1, reads, h, hin⟩

end Walk

/-- A tag that is no end tag. -/
structure Tag where
  type : UInt32
  size : UInt32
  nonzero : type ≠ 0
  header : 8 ≤ size.toNat

section TagList
variable (mb2 : UInt64 → UInt32) (type : UInt8)

/-- The byte behind a tag at byte `b`, rounded up. -/
def Tag.next (t : Tag) (b : ℕ) : ℕ := (b + t.size.toNat + 7) / 8 * 8

/-- The word at byte `b` of the table. -/
def wordAt (b : ℕ) : UInt32 := mb2 (UInt64.ofNat (b / 4))

/-- From byte `b` on the first `n` bytes hold the tags one behind the other, then the end tag. -/
def Laid (n : ℕ) : ℕ → List Tag → Prop
  | b, [] => b + 8 ≤ n ∧ wordAt mb2 b = 0
  | b, t :: tags => b + t.size.toNat ≤ n ∧ wordAt mb2 b = t.type ∧ wordAt mb2 (b + 4) = t.size ∧
      Laid n (t.next b) tags

instance decidableLaid (n : ℕ) : ∀ b tags, Decidable (Laid mb2 n b tags)
  | b, [] => inferInstanceAs (Decidable (b + 8 ≤ n ∧ wordAt mb2 b = 0))
  | b, t :: tags =>
    haveI := decidableLaid n (t.next b) tags
    inferInstanceAs (Decidable (b + t.size.toNat ≤ n ∧ wordAt mb2 b = t.type ∧
      wordAt mb2 (b + 4) = t.size ∧ Laid mb2 n (t.next b) tags))

/-- The tags with their bytes, the first one at `b`. -/
def places : ℕ → List Tag → List (ℕ × Tag)
  | _, [] => []
  | b, t :: tags => (b, t) :: places (t.next b) tags

/-- The byte of the first tag of the type. -/
def firstTag (tags : List Tag) : Option ℕ :=
  ((places 8 tags).find? fun p => p.2.type = type.toUInt32).map Prod.fst

variable {mb2 type} {n k : ℕ}

lemma wordAt_start : wordAt mb2 (start mb2 k).toNat = typeOf mb2 k := by
  rw [wordAt, typeOf]
  apply congrArg
  apply UInt64.toNat_inj.mp
  rw [UInt64.toNat_ofNat', UInt64.toNat_div]
  have := (start mb2 k).toNat_lt
  exact Nat.mod_eq_of_lt (by omega)

lemma wordAt_start_add (mb2 : UInt64 → UInt32) (k : ℕ) : wordAt mb2 ((start mb2 k).toNat + 4) = mb2 (start mb2 k / 4 + 1) := by
  rw [wordAt]
  apply congrArg
  apply UInt64.toNat_inj.mp
  have hk := four_mul_start_succ mb2 k
  have hlt := (start mb2 k / 4 + 1).toNat_lt
  rw [UInt64.toNat_ofNat', ← hk, Nat.mul_div_cancel_left _ (by decide)]
  exact Nat.mod_eq_of_lt hlt

/-- The next tag is where a tag of the list says. -/
lemma start_succ {t : Tag} (hsize : wordAt mb2 ((start mb2 k).toNat + 4) = t.size)
    (hin : (start mb2 k).toNat + t.size.toNat ≤ n) (hn : n < 2 ^ 32) :
    (start mb2 (k + 1)).toNat = t.next (start mb2 k).toNat := by
  have hsum : (start mb2 k + t.size.toUInt64).toNat = (start mb2 k).toNat + t.size.toNat := by
    rw [UInt64.toNat_add]
    exact Nat.mod_eq_of_lt (by rw [UInt32.toNat_toUInt64]; omega)
  have hstart : start mb2 (k + 1) = alignUp (start mb2 k + t.size.toUInt64) 8 := by
    rw [start, ← wordAt_start_add mb2, hsize]
  rw [hstart, alignUp_toNat (k := 3) rfl (by rw [hsum]; omega), hsum]
  rfl

/-- The sizes lead through a tag list. -/
lemma leads_of_laid (hn : n < 2 ^ 32) {tags : List Tag} : ∀ {k}, Laid mb2 n (start mb2 k).toNat tags →
    (∀ j < k, (start mb2 j).toNat + 8 ≤ n ∧ typeOf mb2 j ≠ type.toUInt32 ∧ typeOf mb2 j ≠ 0) →
    ∃ m, Leads mb2 type n m ∧ (type ≠ 0 → resultAt mb2 type m =
      (((places (start mb2 k).toNat tags).find? fun p => p.2.type = type.toUInt32).map Prod.fst).map
        fun b => UInt64.ofNat (b / 4)) := by
  induction tags with
  | nil =>
    intro k ⟨hin, hlast⟩ hpassed
    rw [wordAt_start] at hlast
    refine ⟨k, ⟨hpassed, by omega, Or.inr hlast⟩, fun ht => ?_⟩
    rw [resultAt, if_neg]
    · rfl
    · rw [hlast]
      intro h0
      exact ht (UInt8.toNat_inj.mp (congrArg UInt32.toNat h0).symm)
  | cons t tags ih =>
    intro k ⟨hin, htype, hsize, hrest⟩ hpassed
    rw [wordAt_start] at htype
    have hheader := t.header
    rw [places, List.find?_cons]
    by_cases ht : t.type = type.toUInt32
    · refine ⟨k, ⟨hpassed, by omega, Or.inl (htype.trans ht)⟩, fun _ => ?_⟩
      have hword : UInt64.ofNat ((start mb2 k).toNat / 4) = start mb2 k / 4 := by
        apply UInt64.toNat_inj.mp
        have := (start mb2 k).toNat_lt
        rw [UInt64.toNat_ofNat', UInt64.toNat_div]
        exact Nat.mod_eq_of_lt (by omega)
      rw [resultAt, if_pos (htype.trans ht)]
      simp [ht, hword]
    · rw [← start_succ hsize hin hn] at hrest ⊢
      have hskip : decide (t.type = type.toUInt32) = false := decide_eq_false ht
      rw [hskip]
      apply ih hrest
      intro j hj
      obtain hj | rfl := Nat.lt_succ_iff_lt_or_eq.mp hj
      · exact hpassed j hj
      · exact ⟨by omega, htype ▸ ht, htype ▸ t.nonzero⟩

/-- The search ends inside the table if and only if the sizes lead to a tag of the type or to an end
tag inside the table. In a tag list it finds the first tag of the type, or that there is none. -/
theorem finds_spec (mb2 : UInt64 → UInt32) (type : UInt8) (htype : type ≠ 0) :
    ((∃ out, Finds mb2 type out) ↔ ∃ k, Leads mb2 type (mb2 0).toNat k) ∧
    ∀ tags, Laid mb2 (mb2 0).toNat 8 tags → ∀ out,
      Finds mb2 type out ↔ out = (firstTag type tags).map fun b => UInt64.ofNat (b / 4) := by
  constructor
  · constructor
    · intro ⟨out, h⟩
      obtain ⟨m, hm, -⟩ := finds_iff.mp h
      exact ⟨m, hm⟩
    · intro ⟨m, hm⟩
      exact ⟨_, finds_iff.mpr ⟨m, hm, rfl⟩⟩
  · intro tags htags out
    have hpassed : ∀ j < 0, (start mb2 j).toNat + 8 ≤ (mb2 0).toNat ∧
        typeOf mb2 j ≠ type.toUInt32 ∧ typeOf mb2 j ≠ 0 := fun j hj => absurd hj j.not_lt_zero
    obtain ⟨m, hm, hresult⟩ := leads_of_laid (k := 0) (mb2 0).toNat_lt htags hpassed
    have hfirst : resultAt mb2 type m = (firstTag type tags).map fun b => UInt64.ofNat (b / 4) :=
      hresult htype
    rw [finds_iff, ← hfirst]
    constructor
    · intro ⟨m', hm', hout⟩
      rw [hout, hm.unique hm']
    · intro hout
      exact ⟨m, hm, hout⟩

/-- A list of one other tag and the memory map. -/
def mapped (i : UInt64) : UInt32 :=
  if i = 0 then 40 else if i = 2 then 1 else if i = 3 then 12
  else if i = 6 then 6 else if i = 7 then 8 else if i = 9 then 8 else 0

theorem finds_spec_mapped : (6 : UInt8) ≠ 0 ∧ Finds mapped 6 (some 6) :=
  ⟨by decide, ((finds_spec mapped 6 (by decide)).2
    [⟨1, 12, by decide, by decide⟩, ⟨6, 8, by decide, by decide⟩] (by decide) _).mpr (by decide)⟩

end TagList

/-- A tag of size 0 behind which the search does not get. -/
def stuck (i : UInt64) : UInt32 := if i = 0 then 16 else if i = 2 then 1 else 0

lemma start_stuck (k : ℕ) : start stuck k = 8 := by
  induction k with
  | zero => rfl
  | succ k ih =>
    rw [start, ih]
    decide

/-- In this table the search never ends. -/
theorem not_finds_stuck : ¬ ∀ (mb2 : UInt64 → UInt32) (type : UInt8), type ≠ 0 →
    ∃ out, Finds mb2 type out := by
  intro hall
  obtain ⟨out, h⟩ := hall stuck 6 (by decide)
  obtain ⟨m, hm, -⟩ := finds_iff.mp h
  have hlast := hm.last
  rw [typeOf, start_stuck] at hlast
  exact absurd hlast (by decide)

end EpochKernel.Mb2
