import EpochKernel.Mem.PageTablesLifetime

/-! A `map_internal` that fails. `unmap_internal` is called with what the recursion has left of the
address, and with the number of the remaining pages as a length in bytes. -/
namespace EpochKernel.Mem
open EpochKernel.Util EpochKernel.Library
namespace Pass

/-- The pages given back have other contents. -/
def withLeft (left : UInt64 → ℕ → UInt64) (w : Pass) : Pass := { w with left := left }

section WithLeft
variable (left : UInt64 → ℕ → UInt64) {w : Pass} {level : ℕ}

lemma mapLoop_withLeft {atEnd : Bool} {body : ℕ → Pass → Bool × Pass}
    (hbody : ∀ i w, body i (w.withLeft left) = (body i w).map id (withLeft left)) (n : ℕ) (w : Pass) :
    mapLoop atEnd body n (w.withLeft left) = (mapLoop atEnd body n w).map id (withLeft left) := by
  induction n generalizing w with
  | zero =>
    rw [mapLoop, mapLoop]
    by_cases hw : w.pageN = 0
    · rw [if_pos hw]
      exact if_pos hw
    · rw [if_neg hw]
      exact if_neg hw
  | succ n ih =>
    rw [mapLoop, mapLoop, hbody]
    by_cases hw : w.pageN = 0
    · rw [if_pos hw]
      exact if_pos hw
    · rw [if_neg hw]
      refine (if_neg hw).trans ?_
      cases body (pageEntries - (n + 1)) w with
      | mk ok w' =>
        cases ok with
        | false => rfl
        | true => exact ih w'

lemma mapPage_withLeft (physAddr flags t : UInt64) (n i : ℕ) (w : Pass) :
    mapPage physAddr n flags t i (w.withLeft left) =
      (mapPage physAddr n flags t i w).map id (withLeft left) := by
  unfold mapPage PageTables.pageSet
  by_cases hp : w.present t i
  · have hp' : (w.withLeft left).present t i := hp
    simp only [hp, hp', not_true_eq_false, if_false]
    split_ifs <;> rfl
  · have hp' : ¬ (w.withLeft left).present t i := hp
    simp only [hp, hp', not_false_eq_true, if_true]
    split_ifs <;> rfl

lemma allocz_withLeft (m : PageTables) : { m with left := left }.allocz =
    m.allocz.map id fun m' => { m' with left := left } := by
  obtain ⟨entry, supply, left', freed⟩ := m
  cases supply with
  | nil => rfl
  | cons p ps => rfl

lemma pageSet_withLeft (m : PageTables) (t n flags : UInt64) (i : ℕ) :
    { m with left := left }.pageSet t i n flags =
      (m.pageSet t i n flags).map id fun m' => { m' with left := left } := by
  unfold PageTables.pageSet
  split_ifs
  · rfl
  · rfl

lemma mapTable_withLeft {recurse : UInt64 → Pass → Bool × Pass}
    (hcall : ∀ t w, recurse t (w.withLeft left) = (recurse t w).map id (withLeft left)) (t : UInt64)
    (i : ℕ) (w : Pass) :
    mapTable recurse t i (w.withLeft left) = (mapTable recurse t i w).map id (withLeft left) := by
  have halloc : (w.withLeft left).allocz = w.allocz.map id fun m' => { m' with left := left } :=
    allocz_withLeft left w.toPageTables
  unfold mapTable
  by_cases hp : w.present t i
  · rw [if_neg (not_not_intro hp)]
    exact (if_neg (not_not_intro hp)).trans (hcall _ w)
  · rw [if_pos hp]
    refine (if_pos hp).trans ?_
    rw [halloc]
    cases w.allocz with
    | mk p m =>
      by_cases h0 : p = 0
      · rw [h0]
        rfl
      · change (if p = 0 then _ else _) = (if p = 0 then _ else _ : Bool × Pass).map id _
        have hset := pageSet_withLeft left m t (p - kernelVma) vAllPermissions i
        rw [if_neg h0, if_neg h0]
        refine Eq.trans ?_ (hcall ((m.pageSet t i (p - kernelVma) vAllPermissions).1 + kernelVma)
          { w with toPageTables := (m.pageSet t i (p - kernelVma) vAllPermissions).2.counterAdd t 1 })
        dsimp only [id]
        rw [hset]
        rfl

/-- What is left in the pages given back plays no part in mapping. -/
lemma mapInternalRecurse_withLeft (physAddr flags : UInt64) (n level : ℕ) (t : UInt64) (w : Pass) :
    mapInternalRecurse physAddr n flags level t (w.withLeft left) =
      (mapInternalRecurse physAddr n flags level t w).map id (withLeft left) := by
  induction level generalizing t w with
  | zero =>
    exact mapLoop_withLeft left (mapPage_withLeft left physAddr flags t n) (pageEntries - w.index)
      (w.shift pageTableBits)
  | succ level ih =>
    exact mapLoop_withLeft left (mapTable_withLeft left ih t) (pageEntries - w.index)
      (w.shift pageTableBits)

/-- It is not changed by it either. -/
lemma mapInternalRecurse_left (physAddr flags : UInt64) (n level : ℕ) (t : UInt64) (w : Pass) :
    (mapInternalRecurse physAddr n flags level t w).2.left = w.left := by
  have hsame := mapInternalRecurse_withLeft w.left physAddr flags n level t w
  have hself : w.withLeft w.left = w := rfl
  rw [hself] at hsame
  exact congrArg (fun r => r.2.left) hsame

end WithLeft

end Pass

namespace PageTables
variable {m : PageTables} {pml4Table t : UInt64} {v d e : ℕ}

/-- The table with the number `y` at depth `e` is there. -/
def HasTable (m : PageTables) (pml4Table : UInt64) (e y : ℕ) : Prop :=
  (Radix.node 512 (m.child pml4Table) pml4Table e y).isSome

instance (m : PageTables) (pml4Table : UInt64) : ∀ e y, Decidable (m.HasTable pml4Table e y) :=
  fun _ _ => inferInstanceAs (Decidable (_ = true))

/-- The depth of the last table on the way to a page. -/
def wayDepth (m : PageTables) (pml4Table : UInt64) (v : ℕ) : ℕ :=
  Nat.findGreatest (fun e => m.HasTable pml4Table e (v / 512 ^ (4 - e))) 3

/-- The pages that there are before `mem::allocz` fails. -/
def available (m : PageTables) : ℕ := (m.supply.takeWhile (· ≠ 0)).length

/-- The tables that are there when `c` pages have been taken on the way to a page. -/
def Opened (m : PageTables) (pml4Table : UInt64) (v c e y : ℕ) : Prop :=
  m.HasTable pml4Table e y ∨ (e ≤ m.wayDepth pml4Table v + c ∧ y = v / 512 ^ (4 - e))

instance (m : PageTables) (pml4Table : UInt64) (v c : ℕ) : ∀ e y, Decidable (m.Opened pml4Table v c e y) :=
  fun _ _ => inferInstanceAs (Decidable (_ ∨ _))

lemma hasTable_iff {y : ℕ} : m.HasTable pml4Table e y ↔
    ∃ t, Radix.node 512 (m.child pml4Table) pml4Table e y = some t := Option.isSome_iff_exists

lemma wayDepth_le : m.wayDepth pml4Table v ≤ 3 := Nat.findGreatest_le 3

/-- Above a table on the way there are all others. -/
lemma hasTable_iff_le (hv : v < 512 ^ 4) (he : e ≤ 3) :
    m.HasTable pml4Table e (v / 512 ^ (4 - e)) ↔ e ≤ m.wayDepth pml4Table v := by
  constructor
  · intro hthere
    exact Nat.le_findGreatest (P := fun e => m.HasTable pml4Table e (v / 512 ^ (4 - e))) he hthere
  · intro hle
    have hroot : m.HasTable pml4Table 0 (v / 512 ^ (4 - 0)) := by
      rw [Nat.sub_zero, Nat.div_eq_of_lt hv]
      rfl
    have hlast : m.HasTable pml4Table (m.wayDepth pml4Table v)
        (v / 512 ^ (4 - m.wayDepth pml4Table v)) :=
      Nat.findGreatest_spec (P := fun e => m.HasTable pml4Table e (v / 512 ^ (4 - e)))
        (Nat.zero_le 3) hroot
    by_contra hnone
    have hnode : Radix.node 512 (m.child pml4Table) pml4Table e (v / 512 ^ (4 - e)) = none :=
      Option.not_isSome_iff_eq_none.mp hnone
    have hdigits : 512 ^ (4 - e) =
        512 ^ (4 - m.wayDepth pml4Table v) * 512 ^ (m.wayDepth pml4Table v - e) := by
      have := @wayDepth_le m pml4Table v
      rw [← pow_add]
      congr 1
      omega
    rw [hdigits, ← Nat.div_div_eq_div_mul] at hnode
    rw [HasTable, Radix.node_eq_none hle hnode] at hlast
    exact absurd hlast (by decide)

/-- The pages handed out, and those among the rest that are available. -/
lemma available_split {c : ℕ} (hc : c ≤ m.supply.length) (h : ∀ p ∈ m.supply.take c, p ≠ 0) :
    m.available = c + ((m.supply.drop c).takeWhile fun p => decide (p ≠ 0)).length := by
  have hall : ∀ p ∈ m.supply.take c, decide (p ≠ 0) = true := fun p hp => decide_eq_true (h p hp)
  have htake : (m.supply.take c ++ m.supply.drop c).takeWhile (fun p => decide (p ≠ 0)) =
      m.supply.take c ++ (m.supply.drop c).takeWhile fun p => decide (p ≠ 0) :=
    List.takeWhile_append_of_pos hall
  rw [List.take_append_drop] at htake
  rw [available, htake, List.length_append, List.length_take, min_eq_left hc]

lemma le_available {c : ℕ} (hc : c ≤ m.supply.length) (h : ∀ p ∈ m.supply.take c, p ≠ 0) :
    c ≤ m.available := by
  rw [available_split hc h]
  exact Nat.le_add_right _ _

/-- Where there is no page next, all that were available have been taken. -/
lemma available_eq {c : ℕ} (hc : c ≤ m.supply.length) (h : ∀ p ∈ m.supply.take c, p ≠ 0)
    (hnull : ∀ p ∈ (m.supply.drop c).head?, p = 0) : m.available = c := by
  have hrest : (m.supply.drop c).takeWhile (fun p => decide (p ≠ 0)) = [] := by
    cases hdrop : m.supply.drop c with
    | nil => rfl
    | cons p ps =>
      rw [hdrop] at hnull
      rw [hnull p rfl]
      rfl
  rw [available_split hc h, hrest, List.length_nil, Nat.add_zero]

end PageTables

namespace Pass.Job
variable {J : Job} {m : PageTables} {kernel : ℕ → Set UInt64} {w w' : Pass} {x i : ℕ} {t p : UInt64}

lemma Keeps.and {I I' : Pass → Prop} (h : J.Keeps m kernel I) (h' : J.Keeps m kernel I') :
    J.Keeps m kernel fun w => I w ∧ I' w where
  shift _ k hw := ⟨h.shift _ k hw.1, h'.shift _ k hw.2⟩
  page _ _ _ _ hinv hw ht hi hn hcur :=
    ⟨h.page _ _ _ _ hinv hw.1 ht hi hn hcur, h'.page _ _ _ _ hinv hw.2 ht hi hn hcur⟩
  opens _ _ _ _ _ _ _ hl hinv hw hn ht hi hcur ho :=
    ⟨h.opens _ _ _ _ _ _ _ hl hinv hw.1 hn ht hi hcur ho,
      h'.opens _ _ _ _ _ _ _ hl hinv hw.2 hn ht hi hcur ho⟩

/-- A page that is mapped leaves the tables where they are. -/
lemma table_mapPage (hinv : J.Inv m kernel w) (ht : J.table w 3 x = some t) (hi : i < 512) {d : ℕ}
    (hd : d ≤ 3) (y : ℕ) :
    J.table (mapPage J.physAddr J.n J.flags t i w).2 d y = J.table w d y := by
  obtain ⟨user, hwell, -⟩ := hinv.tree
  have hmem : t ∈ user 3 := hwell.forest.node_mem le_rfl ht
  have hwrites := @PageTables.writes_mapPage w.toPageTables t i
    (J.physAddr + pageSize * UInt64.ofNat (J.n - w.pageN) - kernelVma) J.flags hi
  exact hwell.forest.node_congr (fun e he u hu => hwell.child_writePage hwrites hmem he hu) hd

/-- Tables stay where they are. -/
lemma mono_keeps : J.Keeps m kernel fun w => ∀ d ≤ 3, ∀ y t,
    Radix.node 512 (m.child J.pml4Table) J.pml4Table d y = some t → J.table w d y = some t where
  shift _ _ h := h
  page _ _ _ _ hinv h ht hi _ _ d hd y u hu := (table_mapPage hinv ht hi hd y).trans (h d hd y u hu)
  opens _ _ _ _ _ _ _ _ _ h _ _ _ _ ho d hd y u hu := ho.keeps hd (h d hd y u hu)

/-- `c` pages have been taken for the tables that were missing on the way to the first page. -/
structure Way (J : Job) (m : PageTables) (w : Pass) (c : ℕ) : Prop where
  count : c ≤ m.supply.length
  supply : w.supply = m.supply.drop c
  ne_zero : ∀ p ∈ m.supply.take c, p ≠ 0
  le : c = 0 ∨ m.wayDepth J.pml4Table J.start + c ≤ 3
  tables : ∀ e ≤ 3, ∀ y, w.HasTable J.pml4Table e y ↔ m.Opened J.pml4Table J.start c e y

/-- Before the first page is mapped, only tables on the way to it are opened. It is not mapped if there
are too few pages for them. -/
structure WayOpened (J : Job) (m : PageTables) (w : Pass) : Prop where
  before : w.pageN = J.n → ∃ c, Way J m w c
  behind : w.pageN ≠ J.n → 3 ≤ m.wayDepth J.pml4Table J.start + m.available

namespace Way
variable {c d e y : ℕ} (h : J.Way m w c) (hstart : J.start < 512 ^ 4)
include h hstart

lemma on_way (he : e ≤ 3) : w.HasTable J.pml4Table e (J.start / 512 ^ (4 - e)) ↔
    e ≤ m.wayDepth J.pml4Table J.start + c := by
  rw [h.tables e he, PageTables.Opened, PageTables.hasTable_iff_le hstart he, and_iff_left rfl]
  constructor
  · intro hor
    cases hor with
    | inl hle => exact hle.trans (Nat.le_add_right _ _)
    | inr hle => exact hle
  · exact Or.inr

/-- The way ends above the entry that is not present. -/
lemma depth_eq (hd : d < 3) (ht : J.table w d x = some t) (hi : i < 512)
    (hp : ¬ w.present t i) (hx : J.start / 512 ^ (3 - d) = 512 * x + i) :
    m.wayDepth J.pml4Table J.start + c = d := by
  have hdigits : 4 - d = 3 - d + 1 := by omega
  have hdigits' : 4 - (d + 1) = 3 - d := by omega
  have hthere : w.HasTable J.pml4Table d (J.start / 512 ^ (4 - d)) := by
    rw [hdigits, pow_succ, ← Nat.div_div_eq_div_mul, hx, Nat.mul_add_div (by norm_num),
      Nat.div_eq_of_lt hi, Nat.add_zero]
    exact PageTables.hasTable_iff.mpr ⟨t, ht⟩
  have hmissing : ¬ w.HasTable J.pml4Table (d + 1) (J.start / 512 ^ (4 - (d + 1))) := by
    rw [hdigits', hx]
    intro hthere
    obtain ⟨u, hu⟩ := PageTables.hasTable_iff.mp hthere
    rw [Radix.node_step hi ht] at hu
    exact hp (PageTables.child_eq_some.mp hu).1
  have hle := (h.on_way hstart hd.le).mp hthere
  have hlt := mt (h.on_way hstart hd).mpr hmissing
  omega

end Way

lemma Opens.hasTable_iff {d e y : ℕ} (ho : J.Opens kernel d i t p w w') (hd : d < 3) (hi : i < 512)
    (ht : J.table w d x = some t) (he : e ≤ 3) : w'.HasTable J.pml4Table e y ↔
      w.HasTable J.pml4Table e y ∨ (e = d + 1 ∧ y = 512 * x + i) := by
  have hopened := ho.table_eq hd hi ht
  obtain ⟨user, hwell, hfresh, hnew⟩ := ho.new
  have hforest := (hnew.wellFormed hwell).forest
  rw [PageTables.hasTable_iff, PageTables.hasTable_iff]
  constructor
  · intro hthere
    obtain ⟨u, hu⟩ := hthere
    cases hnew.grows.node_or hwell.forest he hu with
    | inl hold => exact Or.inl ⟨u, hold⟩
    | inr hup =>
      subst hup
      obtain rfl := hforest.node_depth he hd hu hopened
      exact Or.inr ⟨rfl, hforest.node_inj he hu hopened⟩
  · intro hthere
    cases hthere with
    | inl hold =>
      obtain ⟨u, hu⟩ := hold
      exact ⟨u, ho.keeps he hu⟩
    | inr hat =>
      rw [hat.1, hat.2]
      exact ⟨p, hopened⟩

/-- One more page is taken for a table on the way. -/
lemma Way.opens {c d : ℕ} (h : J.Way m w c) (hstart : J.start < 512 ^ 4)
    (hd : d < 3) (ht : J.table w d x = some t) (hi : i < 512)
    (hx : J.start / 512 ^ (3 - d) = 512 * x + i) (ho : J.Opens kernel d i t p w w') :
    J.Way m w' (c + 1) := by
  obtain ⟨user, -, -, hnew⟩ := ho.new
  have hdepth := h.depth_eq hstart hd ht hi hnew.absent hx
  have hsupply : m.supply.drop c = p :: w'.supply := h.supply.symm.trans ho.supply
  have htake : m.supply.take (c + 1) = m.supply.take c ++ [p] := by
    rw [List.take_add, hsupply, List.take_succ_cons, List.take_zero]
  have hlt : c < m.supply.length := by
    by_contra hge
    rw [List.drop_eq_nil_of_le (not_lt.mp hge)] at hsupply
    cases hsupply
  refine ⟨hlt, ?_, fun q hq => ?_, Or.inr (by omega), fun e he y => ?_⟩
  · rw [← List.drop_drop, hsupply, List.drop_succ_cons, List.drop_zero]
  · rw [htake, List.mem_append, List.mem_singleton] at hq
    cases hq with
    | inl hq => exact h.ne_zero q hq
    | inr hq => exact hq ▸ ho.ne_zero
  · rw [ho.hasTable_iff hd hi ht he, h.tables e he, PageTables.Opened, PageTables.Opened, ← Nat.add_assoc,
      hdepth, ← hx, or_assoc]
    have hdigits : 4 - (d + 1) = 3 - d := by omega
    apply or_congr_right
    constructor
    · intro hor
      cases hor with
      | inl hup => exact ⟨hup.1.trans (Nat.le_succ d), hup.2⟩
      | inr hnext =>
        rw [hnext.1, hdigits]
        exact ⟨le_rfl, hnext.2⟩
    · intro hand
      cases hand.1.eq_or_lt with
      | inl heq =>
        rw [heq, hdigits] at hand
        exact Or.inr ⟨heq, hand.2⟩
      | inr hlt => exact Or.inl ⟨Nat.le_of_lt_succ hlt, hand.2⟩

lemma way_keeps (hbound : J.start + J.n ≤ 511 * 512 ^ 3) : J.Keeps m kernel (J.WayOpened m) where
  shift w k h := by
    refine ⟨fun hall => ?_, h.behind⟩
    obtain ⟨c, hway⟩ := h.before hall
    exact ⟨c, hway.count, hway.supply, hway.ne_zero, hway.le, hway.tables⟩
  page w x i t hinv h ht hi hn hcur := by
    have hstart : J.start < 512 ^ 4 := by
      have := hinv.le
      omega
    have hle := hinv.le
    have hpage : (mapPage J.physAddr J.n J.flags t i w).2.pageN = w.pageN - 1 := rfl
    refine ⟨fun hall => by omega, fun _ => ?_⟩
    by_cases hfirst : w.pageN = J.n
    · obtain ⟨c, hway⟩ := h.before hfirst
      have hx : J.start / 512 ^ (4 - 3) = x := by
        unfold cur at hcur
        norm_num
        omega
      have hthere : w.HasTable J.pml4Table 3 (J.start / 512 ^ (4 - 3)) := by
        rw [hx]
        exact PageTables.hasTable_iff.mpr ⟨t, ht⟩
      have hdepth := (hway.on_way hstart le_rfl).mp hthere
      have := PageTables.le_available hway.count hway.ne_zero
      omega
    · exact h.behind hfirst
  opens w w' level x i t p hl hinv h hn ht hi hcur ho := by
    refine ⟨fun hall => ?_, fun hlater => h.behind (ho.pageN ▸ hlater)⟩
    rw [ho.pageN] at hall
    have hstart : J.start < 512 ^ 4 := by omega
    obtain ⟨c, hway⟩ := h.before hall
    have hx : J.start / 512 ^ (3 - (3 - (level + 1))) = 512 * x + i := by
      have hcur' : J.cur w = J.start := by
        unfold cur
        omega
      rw [Nat.sub_sub_self (by omega), ← hcur, hcur']
    exact ⟨c + 1, hway.opens hstart (by omega) ht hi hx ho⟩

lemma start_opened {virtAddr : UInt64} (hstart : J.start < 512 ^ 4) :
    J.WayOpened m (m.mapStart virtAddr J.n) := by
  refine ⟨fun _ => ⟨0, Nat.zero_le _, rfl, nofun, Or.inl rfl, fun e he y => ⟨Or.inl, ?_⟩⟩,
    fun hne => absurd rfl hne⟩
  intro hor
  cases hor with
  | inl hthere => exact hthere
  | inr hway =>
    rw [hway.2]
    exact (PageTables.hasTable_iff_le hstart he).mpr hway.1

end Pass.Job

namespace PageTables
variable {m m' w : PageTables} {pml4Table physAddr virtAddr n flags : UInt64} {k : ℕ}
  {user kernel : ℕ → Set UInt64}

/-- The page from which `unmap_internal` goes on when no page could be mapped. -/
def rollbackPage (m : PageTables) (pml4Table : UInt64) (v : ℕ) : ℕ :=
  v % 512 ^ (3 - (m.wayDepth pml4Table v + m.available)) *
    512 ^ (m.wayDepth pml4Table v + m.available + 1)

/-- With `k` pages to map from `start` on, `unmap_internal` is called in `w` for `n` bytes at
`virtAddr`. -/
structure Rollback (m w : PageTables) (pml4Table : UInt64) (kernel : ℕ → Set UInt64) (start k : ℕ)
    (virtAddr n : UInt64) : Prop where
  tidy : w.Tidy pml4Table
  tree : ∃ user, WellFormed w pml4Table user kernel
  left : w.left = m.left
  keeps : ∀ d ≤ 3, ∀ y t, Radix.node 512 (m.child pml4Table) pml4Table d y = some t →
    Radix.node 512 (w.child pml4Table) pml4Table d y = some t
  rest : ∀ x, (x < start ∨ start + k ≤ x) → w.leaf pml4Table x = m.leaf pml4Table x
  kernel : ∀ d, 1 ≤ d → d ≤ 3 → ∀ t ∈ kernel d, w.entry t = m.entry t
  root : w.entry pml4Table 511 &&& pageDataPos = m.entry pml4Table 511 &&& pageDataPos
  size : pages n ≠ 0 ∧ pages n ≤ 512 ^ 3
  early : m.wayDepth pml4Table start + m.available < 3 →
    pageNumber virtAddr = m.rollbackPage pml4Table start ∧ pages n = (k + 4095) / 4096 ∧
    (∀ x, w.leaf pml4Table x = m.leaf pml4Table x) ∧
    ∀ e ≤ 3, ∀ y, w.HasTable pml4Table e y ↔ m.Opened pml4Table start m.available e y
  late : 3 ≤ m.wayDepth pml4Table start + m.available → pageNumber virtAddr = 0 ∧
    ∃ x, x ≠ 0 ∧ start ≤ x ∧ x < start + k ∧ w.leaf pml4Table x ≠ none

lemma mapInternal_fst : (mapInternal pml4Table physAddr virtAddr n flags m).1 =
    (Pass.mapInternalRecurse physAddr (pages n) flags (pageLevels - 1) pml4Table
      (m.mapStart virtAddr (pages n))).1 := by
  rw [mapInternal]
  split
  · next w hw => exact (congrArg Prod.fst hw).symm
  · next w hw => exact (congrArg Prod.fst hw).symm

/-- Whether a call fails does not depend on what is in the pages given back. -/
lemma mapInternal_ok (left : UInt64 → ℕ → UInt64) :
    (mapInternal pml4Table physAddr virtAddr n flags { m with left := left }).1 =
      (mapInternal pml4Table physAddr virtAddr n flags m).1 := by
  rw [mapInternal_fst, mapInternal_fst]
  have hsame := Pass.mapInternalRecurse_withLeft left physAddr flags (pages n) (pageLevels - 1) pml4Table
    (m.mapStart virtAddr (pages n))
  exact (congrArg (fun r => r.1) hsame : _)

lemma pages_ofNat {k : ℕ} (hk : k ≤ 2 ^ 27) : pages (UInt64.ofNat k) = (k + 4095) / 4096 := by
  have hmod : (UInt64.ofNat k).toNat = k := by
    rw [UInt64.toNat_ofNat']
    omega
  rw [pages_eq (by omega), hmod]

lemma allocz_null (h : m.allocz.1 = 0) : m.allocz.2.entry = m.entry ∧ m.allocz.2.left = m.left ∧
    ∀ p ∈ m.supply.head?, p = 0 := by
  unfold allocz at h ⊢
  cases hs : m.supply with
  | nil => exact ⟨rfl, rfl, nofun⟩
  | cons p ps =>
    rw [hs] at h
    dsimp only at h ⊢
    rw [if_pos h]
    refine ⟨rfl, rfl, fun q hq => ?_⟩
    rw [List.head?_cons, Option.mem_some] at hq
    exact hq ▸ h

lemma WellFormed.of_entry (h : WellFormed m pml4Table user kernel) (he : m'.entry = m.entry) :
    WellFormed m' pml4Table user kernel := by
  obtain ⟨entry, supply, left, freed⟩ := m
  obtain ⟨entry', supply', left', freed'⟩ := m'
  obtain rfl : entry' = entry := he
  exact ⟨h.forest, h.small, h.counted, h.kernelRoot, h.kernelNext, h.apart⟩

lemma child_of_entry (he : m'.entry = m.entry) : m'.child pml4Table = m.child pml4Table := by
  funext t i
  exact child_congr (by rw [he])

lemma leaf_of_entry (he : m'.entry = m.entry) (x : ℕ) : m'.leaf pml4Table x = m.leaf pml4Table x := by
  unfold leaf
  rw [child_of_entry he]
  refine congrArg _ ?_
  funext t
  exact page_congr (by rw [he])

lemma HasTable.of_entry (he : m'.entry = m.entry) {e y : ℕ} :
    m'.HasTable pml4Table e y ↔ m.HasTable pml4Table e y := by
  rw [HasTable, HasTable, child_of_entry he]

end PageTables

namespace Pass.Job
variable {J : Job} {m : PageTables} {kernel : ℕ → Set UInt64} {w : Pass} {x i level : ℕ} {t : UInt64}

/-- If no page has been mapped, all pages that were available are in tables on the way. -/
lemma stuck_before (hway : J.WayOpened m w) (hn : w.pageN = J.n) (hstart : J.start < 512 ^ 4)
    (hl : level < 3) (ht : J.table w (3 - (level + 1)) x = some t) (hi : i < 512)
    (hp : ¬ w.present t i) (hx : J.cur w / 512 ^ (level + 1) = 512 * x + i)
    (hnull : ∀ p ∈ w.supply.head?, p = 0) : J.cur w = J.start ∧ J.Way m w m.available ∧
      m.wayDepth J.pml4Table J.start + m.available = 3 - (level + 1) := by
  obtain ⟨c, hc⟩ := hway.before hn
  have hcur : J.cur w = J.start := by
    unfold cur
    omega
  have hdepth : 3 - (3 - (level + 1)) = level + 1 := Nat.sub_sub_self hl
  rw [PageTables.available_eq hc.count hc.ne_zero (hc.supply ▸ hnull)]
  exact ⟨hcur, hc, hc.depth_eq hstart (by omega) ht hi hp (by rw [hdepth, ← hx, hcur])⟩

/-- If pages have been mapped, the next one is the first one below the entry that is not present. -/
lemma stuck_behind (hinv : J.Inv m kernel w) (hn : w.pageN ≠ J.n) (hl : level < 3)
    (ht : J.table w (3 - (level + 1)) x = some t) (hi : i < 512) (hp : ¬ w.present t i)
    (hx : J.cur w / 512 ^ (level + 1) = 512 * x + i) :
    J.cur w % 512 ^ (level + 1) = 0 ∧ w.leaf J.pml4Table (J.cur w - 1) ≠ none := by
  have hle := hinv.le
  have hlast : w.leaf J.pml4Table (J.cur w - 1) ≠ none := by
    have hmapped := hinv.mapped (J.n - w.pageN - 1) (by omega)
    have hcur : J.start + (J.n - w.pageN - 1) = J.cur w - 1 := by
      unfold cur
      omega
    rw [hcur] at hmapped
    rw [hmapped]
    exact Option.some_ne_none _
  refine ⟨?_, hlast⟩
  by_contra hmod
  obtain ⟨c, hc⟩ := PageTables.leaf_ne_none hlast
  obtain ⟨u, hu⟩ := PageTables.node_above (d := 3 - level) (Nat.sub_le _ _) hc
  have hdepth : 3 - level = 3 - (level + 1) + 1 := by omega
  have hsame : (J.cur w - 1) / 512 / 512 ^ (3 - (3 - level)) = 512 * x + i := by
    rw [Nat.sub_sub_self (by omega), Nat.div_div_eq_div_mul, ← pow_succ', ← hx]
    have hpos : 0 < 512 ^ (level + 1) := Nat.pow_pos (by norm_num)
    have hsplit := Nat.div_add_mod (J.cur w) (512 ^ (level + 1))
    have hlt := Nat.mod_lt (J.cur w) hpos
    apply Nat.div_eq_of_lt_le
    · rw [Nat.mul_comm]
      omega
    · rw [Nat.succ_mul, Nat.mul_comm]
      omega
  rw [hsame, hdepth, Radix.node_step hi ht] at hu
  exact hp (PageTables.child_eq_some.mp hu).1

end Pass.Job

namespace PageTables
variable {m m' w : PageTables} {pml4Table physAddr virtAddr n flags : UInt64} {k : ℕ}
  {user kernel : ℕ → Set UInt64}

lemma pageNumber_of_at {level c : ℕ} (hl : level < 3)
    (h : virtAddr.toNat % 2 ^ 48 = c % 512 ^ (level + 1) * 2 ^ (48 - 9 * (level + 1))) :
    pageNumber virtAddr = c % 512 ^ (level + 1) * 512 ^ (4 - (level + 1)) := by
  have hpow : 2 ^ (48 - 9 * (level + 1)) = 512 ^ (4 - (level + 1)) * 4096 := by
    interval_cases level <;> norm_num
  rw [hpow, ← Nat.mul_assoc] at h
  unfold pageNumber
  omega

/-- What `unmap_internal` is called with where `map_internal_recurse` stops. -/
lemma rollback_of_stuck {I : Pass → Prop} {w : Pass} (r : Request physAddr virtAddr n k)
    (hI : ∀ w, I w → w.Tidy pml4Table ∧ (∀ d ≤ 3, ∀ y t,
      Radix.node 512 (m.child pml4Table) pml4Table d y = some t →
        Radix.node 512 (w.child pml4Table) pml4Table d y = some t) ∧
      (job pml4Table physAddr virtAddr flags k).WayOpened m w)
    (hleft : w.left = m.left)
    (h : (job pml4Table physAddr virtAddr flags k).Stuck m kernel I w) :
    Rollback m w.toPageTables pml4Table kernel (pageNumber virtAddr) k w.virtAddr
      (UInt64.ofNat w.pageN) := by
  have hbound : (job pml4Table physAddr virtAddr flags k).start +
    (job pml4Table physAddr virtAddr flags k).n ≤ 511 * 512 ^ 3 := r.bound
  have hk : k ≤ 2 ^ 27 := by
    have := r.physEnd
    omega
  cases h with
  | @at_entry w level x i t hl hinv hw hn ht hi hslot hp hat hnull =>
    obtain ⟨htidy, hmono, hway⟩ := hI w hw
    obtain ⟨hentry, -, hhead⟩ := allocz_null hnull
    obtain ⟨user, hwell, -⟩ := hinv.tree
    have hle : w.pageN ≤ k := hinv.le
    have hsize := pages_ofNat (hle.trans hk)
    have hpage : pageNumber w.virtAddr =
        (job pml4Table physAddr virtAddr flags k).cur w % 512 ^ (level + 1) *
          512 ^ (4 - (level + 1)) := pageNumber_of_at hl hat.2
    have hdepth : 3 - (3 - (level + 1)) = level + 1 := Nat.sub_sub_self hl
    refine ⟨fun d hd y u hu => ?_, ⟨user, hwell.of_entry hentry⟩, hleft, fun d hd y u hu => ?_,
      fun y hy => ?_, fun d h1 hd u hu => ?_, ?_, ?_, fun hearly => ?_, fun hlate => ?_⟩
    · rw [child_of_entry hentry] at hu
      exact (htidy d hd y u hu).congr fun j _ => by rw [hentry]
    · rw [child_of_entry hentry]
      exact hmono d hd y u hu
    · rw [leaf_of_entry hentry]
      refine hinv.rest y (hy.imp_right fun hge => ?_)
      exact (Nat.add_le_add_left (Nat.sub_le _ _) _).trans hge
    · rw [hentry]
      exact hinv.kernel d h1 hd u hu
    · rw [hentry]
      exact hinv.root
    · rw [hsize]
      omega
    · have hall : w.pageN = k := by
        by_contra hne
        exact absurd (hway.behind hne) (not_le.mpr hearly)
      obtain ⟨hcur, hc, hlevel⟩ := Pass.Job.stuck_before hway hall (by omega) hl ht hi hp hat.1 hhead
      rw [hcur] at hpage
      refine ⟨?_, hall ▸ hsize, fun y => ?_, fun e he y => ?_⟩
      · have hexp : 4 - (level + 1) = 3 - (level + 1) + 1 := by omega
        have hlevel : m.wayDepth pml4Table (pageNumber virtAddr) + m.available = 3 - (level + 1) :=
          hlevel
        rw [hpage, rollbackPage, hlevel, hdepth, hexp]
        rfl
      · rw [leaf_of_entry hentry]
        apply hinv.rest
        rw [hcur]
        exact Nat.lt_or_ge y _
      · rw [HasTable.of_entry hentry]
        exact hc.tables e he y
    · have hne : w.pageN ≠ k := by
        intro hall
        obtain ⟨-, -, hlevel⟩ := Pass.Job.stuck_before hway hall (by omega) hl ht hi hp hat.1 hhead
        have : m.wayDepth pml4Table (pageNumber virtAddr) + m.available = 3 - (level + 1) := hlevel
        omega
      obtain ⟨hmod, hlast⟩ := Pass.Job.stuck_behind hinv hne hl ht hi hp hat.1
      have hcur : (job pml4Table physAddr virtAddr flags k).cur w =
          pageNumber virtAddr + (k - w.pageN) := rfl
      have hpow : 512 ^ 1 ≤ 512 ^ (level + 1) := Nat.pow_le_pow_right (by norm_num) (by omega)
      have hdvd := Nat.le_of_dvd (by omega) (Nat.dvd_of_mod_eq_zero hmod)
      refine ⟨by rw [hpage, hmod, Nat.zero_mul], _, ?_, ?_, ?_, by rw [leaf_of_entry hentry]; exact hlast⟩
      · omega
      · omega
      · omega

/-- A call that fails goes on with `unmap_internal`. -/
theorem mapInternal_fails (h : m.Grown pml4Table kernel) (r : Request physAddr virtAddr n k)
    (hrun : mapInternal pml4Table physAddr virtAddr n flags m = (false, m')) :
    ∃ w virtAddr' n', m' = unmapInternal pml4Table virtAddr' n' w ∧
      Rollback m w pml4Table kernel (pageNumber virtAddr) k virtAddr' n' := by
  obtain ⟨htidy, user, hwell, hfresh⟩ := h
  have hinv := mapStart_inv hwell hfresh physAddr virtAddr flags (k := k)
  have hbound : (job pml4Table physAddr virtAddr flags k).start +
    (job pml4Table physAddr virtAddr flags k).n ≤ 511 * 512 ^ 3 := r.bound
  have K := Pass.Job.tidy_keeps.and
    (Pass.Job.mono_keeps.and (@Pass.Job.way_keeps _ m kernel hbound))
  have hopened := @Pass.Job.start_opened (job pml4Table physAddr virtAddr flags k) m virtAddr (by omega)
  have hstop := Pass.Job.mapInternalRecurse_stops K hbound hinv
    ⟨htidy, fun _ _ _ _ hnode => hnode, hopened⟩ rfl mapStart_eq
  have hleft := Pass.mapInternalRecurse_left physAddr flags k 3 pml4Table (m.mapStart virtAddr k)
  rw [r.mapInternal_eq] at hrun
  change Pass.Job.Outcome _ _ _ _ (Pass.mapInternalRecurse physAddr k flags 3 pml4Table _) at hstop
  cases hw : Pass.mapInternalRecurse physAddr k flags 3 pml4Table (m.mapStart virtAddr k) with
  | mk ok w =>
    rw [hw] at hrun hstop hleft
    cases ok with
    | true => exact absurd (Prod.mk.inj hrun).1 (by decide)
    | false =>
      refine ⟨w.toPageTables, w.virtAddr, UInt64.ofNat w.pageN, (Prod.mk.inj hrun).2.symm, ?_⟩
      exact rollback_of_stuck r (fun w hw => hw) hleft (hstop.2 rfl)

end PageTables
end EpochKernel.Mem
