import EpochKernel.Mem.PageTree

/-! `map_internal` maps the pages that it is asked for and no others. The recursion is followed by the
number of the page that comes next: a call for a table ends behind the last page of the table, and
what is left of the address is then 0, which is the index of the next table's first entry. -/
namespace EpochKernel.Mem
open EpochKernel.Util EpochKernel.Library
namespace Pass

lemma index_lt (w : Pass) : w.index < 512 := by
  unfold index
  rw [getBits_toNat _ (by decide) (by decide)]
  exact Nat.div_lt_of_lt_mul (Nat.mod_lt _ (by norm_num))

/-- What is left of the address of the page with the number `v`. -/
def Points (v level : ℕ) (w : Pass) : Prop :=
  w.virtAddr.toNat % 2 ^ 48 = v % 512 ^ level * 2 ^ (48 - 9 * level)

/-- The index at the start of a call, and what is left of the address. -/
lemma Points.call {w : Pass} {v level : ℕ} (h : Points v (level + 1) w) (hl : level ≤ 3) :
    w.index = v / 512 ^ level % 512 ∧ Points v level (w.shift pageTableBits) := by
  have hi : w.index = w.virtAddr.toNat % 2 ^ 48 / 2 ^ 39 := by
    unfold index
    rw [getBits_toNat _ (by decide) (by decide)]
    rfl
  have hs : (w.shift pageTableBits).virtAddr.toNat = w.virtAddr.toNat * 2 ^ 9 % 2 ^ 64 := by
    unfold shift
    rw [UInt64.toNat_shiftLeft, Nat.shiftLeft_eq]
    rfl
  unfold Points at h ⊢
  rw [hs, hi, h]
  interval_cases level
  · norm_num at h ⊢
    omega
  · norm_num at h ⊢
    omega
  · norm_num at h ⊢
    omega
  · norm_num at h ⊢
    omega

/-- The arguments of a call of `map_internal`: `n` pages from the one with the number `start` on. -/
structure Job where
  pml4Table : UInt64
  physAddr : UInt64
  flags : UInt64
  start : ℕ
  n : ℕ

variable (J : Job) (m : PageTables) (kernel : ℕ → Set UInt64) {w w' : Pass}

namespace Job

/-- What is mapped at the page `j` of the job. -/
def target (j : ℕ) : UInt64 × UInt64 :=
  (J.physAddr + pageSize * UInt64.ofNat j - kernelVma &&& pageAddrPos, J.flags &&& pageFlagsPos)

/-- The number of the page that comes next. -/
def cur (w : Pass) : ℕ := J.start + (J.n - w.pageN)

/-- From `m` on, the pages before the next one are mapped, and nothing else has changed. -/
structure Inv (w : Pass) : Prop where
  le : w.pageN ≤ J.n
  tree : ∃ user, w.WellFormed J.pml4Table user kernel ∧ PageTables.Fresh w.supply user kernel
  mapped : ∀ j < J.n - w.pageN, w.leaf J.pml4Table (J.start + j) = some (J.target j)
  rest : ∀ x, (x < J.start ∨ J.cur w ≤ x) → w.leaf J.pml4Table x = m.leaf J.pml4Table x
  kernel : ∀ d, 1 ≤ d → d ≤ 3 → ∀ t ∈ kernel d, w.entry t = m.entry t
  root : w.entry J.pml4Table 511 &&& pageDataPos = m.entry J.pml4Table 511 &&& pageDataPos
  freed : w.freed = m.freed

/-- The table with a number at a depth. -/
def table (w : Pass) (d x : ℕ) : Option UInt64 :=
  Radix.node 512 (w.child J.pml4Table) J.pml4Table d x

/-- The next page is below the entry with the number `x` at a level, and its index is in the address. -/
def At (level x : ℕ) (w : Pass) : Prop :=
  J.cur w / 512 ^ level = x ∧
    w.virtAddr.toNat % 2 ^ 48 = J.cur w % 512 ^ level * 2 ^ (48 - 9 * level)

/-- All pages are mapped, or the next one is the first one behind that entry. -/
def Past (level x : ℕ) (w : Pass) : Prop :=
  w.pageN = 0 ∨ (J.cur w = (x + 1) * 512 ^ level ∧ w.virtAddr.toNat % 2 ^ 48 = 0)

/-- What a part of the run does from `w` to `w'`. -/
structure Moves (level x : ℕ) (w w' : Pass) : Prop where
  inv : J.Inv m kernel w'
  keeps : ∀ d ≤ 3, ∀ y t, J.table w d y = some t → J.table w' d y = some t
  past : J.Past level x w'

variable {J m kernel} {level x i : ℕ} {t : UInt64}

lemma Past.at_succ (h : J.Past level x w) (hw : w.pageN ≠ 0) : J.At level (x + 1) w := by
  obtain ⟨hcur, hvirt⟩ := h.resolve_left hw
  have hpos : 0 < 512 ^ level := Nat.pow_pos (by norm_num)
  refine ⟨?_, ?_⟩
  · rw [hcur, Nat.mul_div_cancel _ hpos]
  · rw [hvirt, hcur, Nat.mul_mod_left, Nat.zero_mul]

lemma At.call (h : J.At (level + 1) x w) (hl : level ≤ 3) :
    w.index < 512 ∧ J.At level (512 * x + w.index) (w.shift pageTableBits) := by
  obtain ⟨hx, hv⟩ := h
  have hp : Points (J.cur w) (level + 1) w := hv
  obtain ⟨hi, hs⟩ := hp.call hl
  refine ⟨index_lt w, ?_, hs⟩
  change J.cur w / 512 ^ level = _
  rw [hi, ← hx, pow_succ, ← Nat.div_div_eq_div_mul, Nat.div_add_mod]

lemma Moves.trans {y : ℕ} {w'' : Pass} (h : J.Moves m kernel level x w w')
    (h' : J.Moves m kernel level y w' w'') : J.Moves m kernel level y w w'' where
  inv := h'.inv
  keeps d hd z t hz := h'.keeps d hd z t (h.keeps d hd z t hz)
  past := h'.past

/-- The body of a loop maps the pages below one entry. -/
def Body (J : Job) (m : PageTables) (kernel : ℕ → Set UInt64) (level : ℕ) (t : UInt64)
    (body : ℕ → Pass → Bool × Pass) : Prop :=
  ∀ x i w w', J.Inv m kernel w → J.table w (3 - level) x = some t → i < 512 → w.pageN ≠ 0 →
    J.At level (512 * x + i) w → body i w = (true, w') → J.Moves m kernel level (512 * x + i) w w'

/-- The loop maps the pages below a table. -/
theorem Body.loop {atEnd : Bool} {body : ℕ → Pass → Bool × Pass} (hbody : Body J m kernel level t body)
    (hl : level ≤ 3) (left : ℕ) (hleft : left ≤ 512) (hinv : J.Inv m kernel w)
    (ht : J.table w (3 - level) x = some t)
    (hat : left ≠ 0 → w.pageN ≠ 0 → J.At level (512 * x + (512 - left)) w)
    (hpast : left = 0 → J.Past (level + 1) x w) (hrun : mapLoop atEnd body left w = (true, w')) :
    J.Moves m kernel (level + 1) x w w' := by
  induction left generalizing w with
  | zero =>
    have hw : w' = w := by
      unfold mapLoop at hrun
      split_ifs at hrun
      · exact (Prod.mk.inj hrun).2.symm
      · exact (Prod.mk.inj hrun).2.symm
    rw [hw]
    exact ⟨hinv, fun _ _ _ _ h => h, hpast rfl⟩
  | succ left ih =>
    rw [mapLoop] at hrun
    by_cases hw : w.pageN = 0
    · rw [if_pos hw] at hrun
      obtain ⟨-, rfl⟩ := Prod.mk.inj hrun
      exact ⟨hinv, fun _ _ _ _ h => h, .inl hw⟩
    · rw [if_neg hw] at hrun
      cases hb : body (pageEntries - (left + 1)) w with
      | mk ok w1 =>
        rw [hb] at hrun
        cases ok with
        | false => exact absurd (Prod.mk.inj hrun).1 (by decide)
        | true =>
          have hmove := hbody x (512 - (left + 1)) w w1 hinv ht (by omega) hw
            (hat (Nat.succ_ne_zero left) hw) hb
          have hnext : 512 * x + (512 - (left + 1)) + 1 = 512 * x + (512 - left) := by omega
          have hrest := ih (by omega) hmove.inv (hmove.keeps _ (by omega) _ _ ht)
            (fun _ hw1 => hnext ▸ hmove.past.at_succ hw1) (fun hz => ?_) hrun
          · exact ⟨hrest.inv, fun d hd y u hy => hrest.keeps d hd y u (hmove.keeps d hd y u hy),
              hrest.past⟩
          · rcases hmove.past with hp | ⟨hcur, hv⟩
            · exact .inl hp
            · refine .inr ⟨?_, hv⟩
              rw [hcur, hnext, hz, pow_succ']
              ring

/-- One page. -/
theorem mapPage_body : Body J m kernel 0 t (mapPage J.physAddr J.n J.flags t) := by
  intro x i w w' hinv ht hi hw hat hrun
  obtain ⟨-, rfl⟩ := Prod.mk.inj hrun
  obtain ⟨user, hwell, hfresh⟩ := hinv.tree
  have hwrites := @PageTables.writes_mapPage w.toPageTables t i
    (J.physAddr + pageSize * UInt64.ofNat (J.n - w.pageN) - kernelVma) J.flags hi
  have hmem : t ∈ user 3 := hwell.forest.node_mem le_rfl ht
  obtain ⟨hat, hvirt⟩ := hat
  rw [pow_zero, Nat.div_one] at hat
  have hcur : J.cur w = J.start + (J.n - w.pageN) := rfl
  have hle := hinv.le
  obtain ⟨hleaf, hother⟩ := hwell.leaf_writePage hwrites hi ht
  rw [PageTables.page_of_data hwrites.data] at hleaf
  refine ⟨⟨(Nat.sub_le _ _).trans hle, ⟨user, hwell.writePage hwrites hmem, ?_⟩, fun j hj => ?_,
    fun y hy => ?_, fun d h1 hd u hu => ?_, ?_, ?_⟩, fun d hd y u hy => ?_, .inr ⟨?_, ?_⟩⟩
  · exact hwrites.supply ▸ hfresh
  · change j < J.n - (w.pageN - 1) at hj
    by_cases hj' : j = J.n - w.pageN
    · subst hj'
      rw [← hcur, hat]
      exact hleaf
    · exact (hother _ (by omega)).trans (hinv.mapped j (by omega))
  · change y < J.start ∨ J.start + (J.n - (w.pageN - 1)) ≤ y at hy
    exact (hother _ (by omega)).trans (hinv.rest y (by omega))
  · refine (hwrites.other u ?_).trans (hinv.kernel d h1 hd u hu)
    rintro rfl
    exact hwell.apart 3 le_rfl d h1 hd u hmem hu
  · refine Eq.trans ?_ hinv.root
    have hne : J.pml4Table ≠ t := by
      rintro rfl
      have := hwell.forest.apart 0 (by omega) 3 le_rfl _ hwell.forest.mem_root hmem
      omega
    exact congrArg (· 511 &&& pageDataPos) (hwrites.other _ hne)
  · exact hwrites.freed.trans hinv.freed
  · exact (hwell.forest.node_congr (fun e he u hu => hwell.child_writePage hwrites hmem he hu) hd).trans hy
  · change J.start + (J.n - (w.pageN - 1)) = _
    omega
  · change w.virtAddr.toNat % 2 ^ 48 = 0
    rw [hvirt, pow_zero, Nat.mod_one, Nat.zero_mul]

/-- A call maps the pages below its table. -/
def Call (J : Job) (m : PageTables) (kernel : ℕ → Set UInt64) (level : ℕ)
    (recurse : UInt64 → Pass → Bool × Pass) : Prop :=
  ∀ x t w w', J.Inv m kernel w → J.table w (3 - level) x = some t →
    J.At (level + 1) x w → recurse t w = (true, w') → J.Moves m kernel (level + 1) x w w'

/-- The pages stay below the kernel's entry. -/
lemma At.slot (hbound : J.start + J.n ≤ 511 * 512 ^ 3) (hinv : J.Inv m kernel w) (hw : w.pageN ≠ 0)
    (hl : level < 3) (ht : J.table w (3 - (level + 1)) x = some t)
    (hat : J.At (level + 1) (512 * x + i) w) : ¬ (t = J.pml4Table ∧ i = 511) := by
  rintro ⟨rfl, rfl⟩
  obtain ⟨user, hwell, -⟩ := hinv.tree
  have hroot : J.table w 0 0 = some J.pml4Table := Radix.node_zero
  have hdepth := hwell.forest.node_depth (by omega) (by omega) ht hroot
  obtain rfl : level = 2 := by omega
  obtain rfl := hwell.forest.node_inj (Nat.zero_le 3) ht hroot
  have hle := hinv.le
  have hcur : J.cur w < 511 * 512 ^ 3 := by
    unfold cur
    omega
  have := hat.1
  omega

lemma allocz_other {mt : PageTables} {p u : UInt64} {ps : List UInt64} (hs : mt.supply = p :: ps)
    (hu : u ≠ p) : mt.allocz.2.entry u = mt.entry u := by
  unfold PageTables.allocz
  rw [hs]
  dsimp only
  split_ifs
  · rfl
  · exact Function.update_of_ne hu ..

/-- A page that `allocz` returns becomes a table. -/
lemma newTable {user : ℕ → Set UInt64} {p : UInt64} {ps : List UInt64} {d : ℕ} {mt : PageTables}
    (hfresh : PageTables.Fresh mt.supply user kernel) (hs : mt.supply = p :: ps) (hp : p ≠ 0)
    (hd : d < 3) (ht : t ∈ user d) (hi : i < 512) (hslot : ¬ (t = J.pml4Table ∧ i = 511))
    (habsent : ¬ mt.present t i) :
    PageTables.NewTable mt ((mt.allocz.2.pageSet t i (p - kernelVma) vAllPermissions).2.counterAdd t 1)
      J.pml4Table user kernel d t i p := by
  have hmem : p ∈ mt.supply := by simp [hs]
  have hne : t ≠ p := by
    rintro rfl
    exact hfresh.user t hmem hp d hd.le ht
  have hz : mt.allocz.2.entry = Function.update mt.entry p fun _ => 0 := by
    unfold PageTables.allocz
    rw [hs]
    exact if_neg hp
  have hsame : ∀ u ≠ p, mt.allocz.2.entry u = mt.entry u := fun u hu => allocz_other hs hu
  have habsent' : ¬ mt.allocz.2.present t i := by
    unfold PageTables.present at habsent ⊢
    rw [hsame t hne]
    exact habsent
  have hw := @PageTables.writes_mapTable mt.allocz.2 t i (p - kernelVma) vAllPermissions hi habsent'
  refine ⟨hd, ht, hi, hslot, habsent, hfresh.linear p hmem hp, hfresh.user p hmem hp,
    hfresh.kernel p hmem hp, ?_, fun u hut hup => ?_, fun j hj => ?_, hw.data, fun hc => ?_, ?_⟩
  · rw [hw.other p hne.symm, hz, Function.update_self]
  · rw [hw.other u hut, hsame u hup]
  · rw [hw.same j hj, hsame t hne]
  · exact hw.counted (PageTables.counted_congr (hsame t hne) hc)
  · rw [PageTables.counterAdd_counter, PageTables.pageSet_counter, hsame t hne]

lemma fresh_tail {user : ℕ → Set UInt64} {p : UInt64} {ps : List UInt64} {d : ℕ}
    (hfresh : PageTables.Fresh (p :: ps) user kernel) (hp : p ≠ 0) :
    PageTables.Fresh ps (Radix.grown user d p) kernel where
  distinct := List.Pairwise.of_cons hfresh.distinct
  linear q hq := hfresh.linear q (List.mem_cons_of_mem _ hq)
  user q hq hq0 e he hm := by
    rcases Radix.mem_grown.mp hm with hm | ⟨-, rfl⟩
    · exact hfresh.user q (List.mem_cons_of_mem _ hq) hq0 e he hm
    · exact (List.rel_of_pairwise_cons hfresh.distinct hq).resolve_left hp rfl
  kernel q hq := hfresh.kernel q (List.mem_cons_of_mem _ hq)

/-- The page `p` that `allocz` has returned becomes the table below the entry `i`. -/
structure Opens (J : Job) (kernel : ℕ → Set UInt64) (d i : ℕ) (t p : UInt64) (w w' : Pass) : Prop where
  new : ∃ user, w.WellFormed J.pml4Table user kernel ∧ PageTables.Fresh w.supply user kernel ∧
    PageTables.NewTable w.toPageTables w'.toPageTables J.pml4Table user kernel d t i p
  supply : w.supply = p :: w'.supply
  ne_zero : p ≠ 0
  clean : w.Clean t → w'.Clean t
  freed : w'.freed = w.freed
  virtAddr : w'.virtAddr = w.virtAddr
  pageN : w'.pageN = w.pageN

namespace Opens
variable {d : ℕ} {p : UInt64} (h : J.Opens kernel d i t p w w')
include h

lemma cur_eq : J.cur w' = J.cur w := by
  unfold cur
  rw [h.pageN]

lemma keeps {e y : ℕ} {u : UInt64} (he : e ≤ 3) (hu : J.table w e y = some u) :
    J.table w' e y = some u := by
  obtain ⟨user, hwell, -, hnew⟩ := h.new
  exact hnew.grows.node_mono hwell.forest he hu

lemma table_eq (hd : d < 3) (hi : i < 512) (ht : J.table w d x = some t) :
    J.table w' (d + 1) (512 * x + i) = some p := by
  obtain ⟨user, hwell, -, hnew⟩ := h.new
  exact (Radix.node_step hi (h.keeps hd.le ht)).trans hnew.child_eq

/-- No page is mapped by it. -/
lemma inv (hinv : J.Inv m kernel w) : J.Inv m kernel w' := by
  obtain ⟨user, hwell, hfresh, hnew⟩ := h.new
  refine ⟨h.pageN ▸ hinv.le, ⟨_, hnew.wellFormed hwell, fresh_tail (h.supply ▸ hfresh) h.ne_zero⟩,
    fun j hj => ?_, fun y hy => ?_, fun d h1 hd u hu => ?_, ?_, h.freed.trans hinv.freed⟩
  · rw [h.pageN] at hj
    exact (hnew.leaf_eq hwell _).trans (hinv.mapped j hj)
  · rw [h.cur_eq] at hy
    exact (hnew.leaf_eq hwell _).trans (hinv.rest y hy)
  · exact (hnew.kernel_same hwell h1 hd hu).trans (hinv.kernel d h1 hd u hu)
  · exact (hnew.root_same hwell).trans hinv.root

end Opens

/-- The body goes to the table that is there, or to a new one, if it gets a page for it. -/
lemma mapTable_cases (recurse : UInt64 → Pass → Bool × Pass) (hl : level < 3)
    (hinv : J.Inv m kernel w) (ht : J.table w (3 - (level + 1)) x = some t) (hi : i < 512)
    (hslot : ¬ (t = J.pml4Table ∧ i = 511)) :
    (∃ c, J.table w (3 - level) (512 * x + i) = some c ∧ mapTable recurse t i w = recurse c w) ∨
    (¬ w.present t i ∧ w.allocz.1 = 0 ∧
      mapTable recurse t i w = (false, { w with toPageTables := w.allocz.2 })) ∨
    ∃ p w₁, J.Opens kernel (3 - (level + 1)) i t p w w₁ ∧ mapTable recurse t i w = recurse p w₁ := by
  have hdepth : 3 - level = 3 - (level + 1) + 1 := by omega
  obtain ⟨user, hwell, hfresh⟩ := hinv.tree
  have hmem : t ∈ user (3 - (level + 1)) := hwell.forest.node_mem (by omega) ht
  unfold mapTable
  by_cases hp : w.present t i
  · rw [if_neg (not_not_intro hp), hdepth]
    exact Or.inl ⟨_, (Radix.node_step hi ht).trans
      (PageTables.child_eq_some.mpr ⟨hp, hi, hslot, rfl⟩), rfl⟩
  rw [if_pos hp]
  cases hs : w.supply with
  | nil =>
    have ha : w.allocz = (0, w.toPageTables) := by
      unfold PageTables.allocz
      rw [hs]
    rw [ha]
    exact Or.inr (Or.inl ⟨hp, rfl, rfl⟩)
  | cons p ps =>
    have ha : w.allocz = (p, w.allocz.2) := by
      unfold PageTables.allocz
      rw [hs]
    have ha' : w.allocz.2.supply = ps ∧ w.allocz.2.freed = w.freed := by
      unfold PageTables.allocz
      rw [hs]
      exact ⟨rfl, rfl⟩
    rw [ha]
    dsimp only
    by_cases hp0 : p = 0
    · rw [if_pos hp0]
      exact Or.inr (Or.inl ⟨hp, hp0, rfl⟩)
    rw [if_neg hp0]
    have hnew := newTable hfresh hs hp0 (by omega) hmem hi hslot hp
    have hset (m' : PageTables) : m'.pageSet t i (p - kernelVma) vAllPermissions =
        (p - kernelVma &&& pageAddrPos, (m'.pageSet t i (p - kernelVma) vAllPermissions).2) := by
      unfold PageTables.pageSet
      split_ifs <;> rfl
    rw [hset]
    dsimp only
    rw [PageTables.linear_page hnew.linear.1 hnew.linear.2]
    have hrest (m' : PageTables) :
        ((m'.pageSet t i (p - kernelVma) vAllPermissions).2.counterAdd t 1).supply = m'.supply ∧
        ((m'.pageSet t i (p - kernelVma) vAllPermissions).2.counterAdd t 1).freed = m'.freed := by
      unfold PageTables.counterAdd PageTables.pageSet
      split_ifs <;> exact ⟨rfl, rfl⟩
    obtain ⟨hsupply, hfreed⟩ := hrest w.allocz.2
    refine Or.inr (Or.inr ⟨p, { w with toPageTables :=
      (w.allocz.2.pageSet t i (p - kernelVma) vAllPermissions).2.counterAdd t 1 }, ?_, rfl⟩)
    refine ⟨⟨user, hwell, hfresh, hnew⟩, by rw [hs, hsupply, ha'.1], hp0, fun hclean => ?_,
      hfreed.trans ha'.2, rfl, rfl⟩
    have hzeroed : w.allocz.2.Clean t := hclean.congr fun j _ => congrFun (allocz_other hs hnew.ne) j
    exact (hzeroed.pageSet i _ _).congr fun j hj => PageTables.counterAdd_later _ t t 1 hj

/-- A table of tables, of which the entry may be new. -/
theorem mapTable_body (hbound : J.start + J.n ≤ 511 * 512 ^ 3) (hl : level < 3)
    {recurse : UInt64 → Pass → Bool × Pass} (hcall : Call J m kernel level recurse) :
    Body J m kernel (level + 1) t (mapTable recurse t) := by
  intro x i w w' hinv ht hi hw hat hrun
  have hslot := At.slot hbound hinv hw hl ht hat
  rcases mapTable_cases recurse hl hinv ht hi hslot with ⟨c, hc, he⟩ | ⟨-, -, he⟩ | ⟨p, w₁, ho, he⟩
  · rw [he] at hrun
    exact hcall _ _ w w' hinv hc hat hrun
  · rw [he] at hrun
    exact absurd (Prod.mk.inj hrun).1 Bool.false_ne_true
  · rw [he] at hrun
    have hdepth : 3 - (level + 1) + 1 = 3 - level := by omega
    have hopened := ho.table_eq (by omega) hi ht
    rw [hdepth] at hopened
    have hat' : J.At (level + 1) (512 * x + i) w₁ := by
      unfold At
      rw [ho.cur_eq, ho.virtAddr]
      exact hat
    have hmoves := hcall _ _ w₁ w' (ho.inv hinv) hopened hat' hrun
    exact ⟨hmoves.inv, fun d hd y u hy => hmoves.keeps d hd y u (ho.keeps hd hy), hmoves.past⟩

/-- The recursion, level by level. -/
theorem mapInternalRecurse_call (hbound : J.start + J.n ≤ 511 * 512 ^ 3) (hl : level ≤ 3) :
    Call J m kernel level (mapInternalRecurse J.physAddr J.n J.flags level) := by
  have hloop : ∀ {level : ℕ}, level ≤ 3 → ∀ {atEnd : Bool} {body : UInt64 → ℕ → Pass → Bool × Pass},
      (∀ t, Body J m kernel level t (body t)) → Call J m kernel level fun t w =>
        mapLoop atEnd (body t) (pageEntries - w.index) (w.shift pageTableBits) := by
    intro level hl atEnd body hbody x t w w' hinv ht hat hrun
    obtain ⟨hindex, hat'⟩ := hat.call hl
    have hback : 512 - (512 - w.index) = w.index := by omega
    have hinv' : J.Inv m kernel (w.shift pageTableBits) :=
      ⟨hinv.le, hinv.tree, hinv.mapped, hinv.rest, hinv.kernel, hinv.root, hinv.freed⟩
    have hmoves := (hbody t).loop hl (512 - w.index) (Nat.sub_le _ _) hinv' ht
      (fun _ _ => by rw [hback]; exact hat') (fun hz => by omega) hrun
    exact ⟨hmoves.inv, hmoves.keeps, hmoves.past⟩
  induction level with
  | zero => exact hloop hl fun t => mapPage_body
  | succ level ih =>
    exact hloop hl fun t => mapTable_body hbound (by omega) (ih (by omega))

/-- At the end of the top table the recursion gives up. -/
lemma mapLoop_false {body : ℕ → Pass → Bool × Pass} {left : ℕ}
    (h : mapLoop false body left w = (true, w')) : w'.pageN = 0 := by
  induction left generalizing w with
  | zero =>
    unfold mapLoop at h
    split_ifs at h with hw
    · exact (Prod.mk.inj h).2 ▸ hw
    · exact absurd (Prod.mk.inj h).1 (by decide)
  | succ left ih =>
    rw [mapLoop] at h
    split_ifs at h with hw
    · exact (Prod.mk.inj h).2 ▸ hw
    · cases hb : body (pageEntries - (left + 1)) w with
      | mk ok w1 =>
        rw [hb] at h
        cases ok with
        | false => exact absurd (Prod.mk.inj h).1 (by decide)
        | true => exact ih h

/-- All pages are below the top table. -/
lemma at_top (hw : w.pageN = J.n) (hbound : J.start + J.n ≤ 511 * 512 ^ 3)
    (hvirt : w.virtAddr.toNat = J.start * 4096) : J.At (3 + 1) 0 w := by
  have hcur : J.cur w = J.start := by
    unfold cur
    omega
  constructor
  · rw [hcur]
    exact Nat.div_eq_of_lt (by omega)
  · rw [hcur, hvirt]
    norm_num
    omega

/-- A whole run. -/
theorem mapInternalRecurse_top (hinv : J.Inv m kernel w) (hw : w.pageN = J.n)
    (hbound : J.start + J.n ≤ 511 * 512 ^ 3) (hvirt : w.virtAddr.toNat = J.start * 4096)
    (hrun : mapInternalRecurse J.physAddr J.n J.flags 3 J.pml4Table w = (true, w')) :
    J.Inv m kernel w' ∧ w'.pageN = 0 := by
  have hroot : J.table w (3 - 3) 0 = some J.pml4Table := Radix.node_zero
  have hat := at_top hw hbound hvirt
  exact ⟨(mapInternalRecurse_call hbound le_rfl 0 _ w w' hinv hroot hat hrun).inv,
    mapLoop_false hrun⟩

end Job
end Pass

namespace PageTables
variable {m m' : PageTables} {pml4Table physAddr virtAddr n flags : UInt64}
  {user kernel : ℕ → Set UInt64}

lemma pages_eq (hn : n.toNat + 4096 ≤ 2 ^ 64) : pages n = (n.toNat + 4095) / 4096 := by
  have hp : pageSize.toNat = 2 ^ 12 := rfl
  unfold pages
  rw [UInt64.toNat_div, alignUp_toNat hp hn, hp]
  omega

lemma masked_toNat (v : UInt64) : (v &&& pageAddrPos).toNat = pageNumber v * 4096 := by
  rw [and_pageAddrPos_toNat]
  unfold pageNumber
  omega

/-- A call of `map_internal` as the address space makes it: whole pages of the linear mapping below
2 ^ 39, and virtual pages, of either half, below the kernel's entry. The bits above the 48th of the
address are ignored, as by the processor. -/
structure Request (physAddr virtAddr n : UInt64) (k : ℕ) : Prop where
  size : k = (n.toNat + 4095) / 4096
  phys : kernelVma ≤ physAddr ∧ physAddr.toNat % 4096 = 0
  physEnd : (physAddr - kernelVma).toNat + 4096 * k ≤ 2 ^ 39
  virt : virtAddr.toNat % 4096 = 0
  virtEnd : (virtAddr &&& pageAddrPos).toNat + 4096 * k ≤ 511 * 2 ^ 39

namespace Request
variable {k j : ℕ} (r : Request physAddr virtAddr n k)
include r

lemma pages_eq : pages n = k := by
  have := r.physEnd
  have := r.size
  rw [PageTables.pages_eq (by omega), r.size]

lemma bound : pageNumber virtAddr + k ≤ 511 * 512 ^ 3 := by
  have hend := r.virtEnd
  rw [masked_toNat] at hend
  omega

lemma ofNat_toNat (hj : j < k) : (4096 * UInt64.ofNat j).toNat = 4096 * j := by
  have := r.physEnd
  rw [UInt64.toNat_mul, UInt64.toNat_ofNat']
  change 4096 * _ % _ = _
  omega

lemma pageNumber_eq (hj : j < k) :
    pageNumber (virtAddr + 4096 * UInt64.ofNat j) = pageNumber virtAddr + j := by
  have := r.virt
  have hbound := r.bound
  unfold pageNumber at hbound ⊢
  rw [UInt64.toNat_add, r.ofNat_toNat hj]
  omega

/-- The physical address of a page is in its entry as it is. -/
lemma target_eq (hj : j < k) :
    physAddr + pageSize * UInt64.ofNat j - kernelVma &&& pageAddrPos =
      physAddr - kernelVma + 4096 * UInt64.ofNat j := by
  have hcomm : physAddr + pageSize * UInt64.ofNat j - kernelVma =
      physAddr - kernelVma + 4096 * UInt64.ofNat j := by
    rw [UInt64.sub_eq_add_neg, UInt64.sub_eq_add_neg, UInt64.add_assoc, UInt64.add_assoc,
      UInt64.add_comm (-kernelVma)]
    rfl
  have hv : kernelVma.toNat = 2 ^ 64 - 2 ^ 39 := by decide
  have hphys := r.phys.2
  have hsub := UInt64.toNat_sub_of_le _ _ r.phys.1
  have hle := UInt64.le_iff_toNat_le.mp r.phys.1
  have hend := r.physEnd
  rw [hcomm]
  apply UInt64.toNat_inj.mp
  rw [and_pageAddrPos_toNat, UInt64.toNat_add, r.ofNat_toNat hj]
  omega

end Request

/-- What a call of `map_internal` asks for, and the call of the recursion that it makes. -/
def job (pml4Table physAddr virtAddr flags : UInt64) (k : ℕ) : Pass.Job :=
  ⟨pml4Table, physAddr, flags, pageNumber virtAddr, k⟩

def mapStart (m : PageTables) (virtAddr : UInt64) (k : ℕ) : Pass :=
  { m with virtAddr := virtAddr &&& pageAddrPos, pageN := k }

lemma mapStart_eq {k : ℕ} : (m.mapStart virtAddr k).virtAddr.toNat =
    (job pml4Table physAddr virtAddr flags k).start * 4096 := masked_toNat virtAddr

lemma mapStart_inv {k : ℕ} (h : WellFormed m pml4Table user kernel)
    (hfresh : Fresh m.supply user kernel) (physAddr virtAddr flags : UInt64) :
    (job pml4Table physAddr virtAddr flags k).Inv m kernel (m.mapStart virtAddr k) where
  le := le_rfl
  tree := ⟨user, h, hfresh⟩
  mapped j hj := absurd hj (by simp [job, mapStart])
  rest _ _ := rfl
  kernel _ _ _ _ _ := rfl
  root := rfl
  freed := rfl

namespace Request
variable {k : ℕ} (r : Request physAddr virtAddr n k)
include r

lemma mapInternal_eq : mapInternal pml4Table physAddr virtAddr n flags m =
    match Pass.mapInternalRecurse physAddr k flags 3 pml4Table (m.mapStart virtAddr k) with
    | (false, w) => (false, w.unmapInternal pml4Table w.virtAddr (UInt64.ofNat w.pageN))
    | (true, w) => (true, w.toPageTables) := by
  unfold mapInternal
  rw [r.pages_eq]
  rfl

lemma run_true (hrun : mapInternal pml4Table physAddr virtAddr n flags m = (true, m')) :
    ∃ w, Pass.mapInternalRecurse physAddr k flags 3 pml4Table (m.mapStart virtAddr k) = (true, w) ∧
      w.toPageTables = m' := by
  rw [r.mapInternal_eq] at hrun
  split at hrun
  · exact absurd (Prod.mk.inj hrun).1 Bool.false_ne_true
  · exact ⟨_, by assumption, (Prod.mk.inj hrun).2⟩

end Request

/-- What is left of the walk after a successful `map_internal`. -/
theorem mapInternal_walk {k : ℕ} (h : WellFormed m pml4Table user kernel)
    (hfresh : Fresh m.supply user kernel) (r : Request physAddr virtAddr n k)
    (hrun : mapInternal pml4Table physAddr virtAddr n flags m = (true, m')) :
    (∀ j < k, m'.walk pml4Table (virtAddr + 4096 * UInt64.ofNat j) =
      some (physAddr - kernelVma + 4096 * UInt64.ofNat j, flags &&& pageFlagsPos)) ∧
    (∀ v, (∀ j < k, pageNumber v ≠ pageNumber virtAddr + j) →
      m'.walk pml4Table v = m.walk pml4Table v) ∧
    ∃ user', WellFormed m' pml4Table user' kernel := by
  have hbound := r.bound
  obtain ⟨w', hw', rfl⟩ := r.run_true hrun
  obtain ⟨hinv, hdone⟩ := Pass.Job.mapInternalRecurse_top (mapStart_inv h hfresh physAddr virtAddr flags)
    rfl r.bound mapStart_eq hw'
  have hcur : (job pml4Table physAddr virtAddr flags k).cur w' = pageNumber virtAddr + k := by
    unfold Pass.Job.cur
    rw [hdone]
    rfl
  obtain ⟨user', hwell', -⟩ : ∃ user', w'.WellFormed pml4Table user' kernel ∧ _ := hinv.tree
  refine ⟨fun j hj => ?_, fun v hv => ?_, user', hwell'⟩
  · have hmapped := hinv.mapped j (by rw [hdone]; exact hj)
    unfold Pass.Job.target job at hmapped
    dsimp only at hmapped
    rw [r.target_eq hj] at hmapped
    rw [hwell'.walk_user (by rw [r.pageNumber_eq hj]; omega), r.pageNumber_eq hj]
    exact hmapped
  · rcases Nat.lt_or_ge (pageNumber v) (511 * 512 ^ 3) with hlt | hge
    · rw [hwell'.walk_user hlt, h.walk_user hlt]
      apply hinv.rest
      by_contra hin
      rw [hcur] at hin
      have hJ : (job pml4Table physAddr virtAddr flags k).start = pageNumber virtAddr := rfl
      exact hv (pageNumber v - pageNumber virtAddr) (by omega) (by omega)
    · exact walk_kernel h hinv.root hinv.kernel hge

section Sample

/-- Memory with a kernel table of large pages, and five pages to allocate. -/
def sampleMemory : PageTables where
  entry t i := if t = 0xffffff8000200000 ∧ i < 512 then 0x83 else 0
  supply := [0xffffff8000001000, 0xffffff8000002000, 0xffffff8000003000, 0xffffff8000004000,
    0xffffff8000005000]
  left _ _ := 0

def sampleKernel (d : ℕ) : Set UInt64 := if d = 1 then {0xffffff8000200000} else ∅

lemma mem_sampleKernel {t : UInt64} {d : ℕ} (ht : t ∈ sampleKernel d) :
    d = 1 ∧ t = 0xffffff8000200000 := by
  unfold sampleKernel at ht
  split_ifs at ht with hd
  · exact ⟨hd, ht⟩
  · cases ht

lemma sampleMemory_kernel : KernelTables sampleMemory 0x200000 sampleKernel where
  root := by
    have hroot : (0x200000 &&& pageAddrPos) + kernelVma = 0xffffff8000200000 := by decide
    rw [hroot, sampleKernel, if_pos rfl]
    exact Set.mem_singleton _
  next d _ _ t ht i hi _ hl := by
    obtain ⟨-, rfl⟩ := mem_sampleKernel ht
    have he : sampleMemory.entry 0xffffff8000200000 i = 0x83 := if_pos ⟨rfl, hi⟩
    have hlarge : large 0x83 := by decide
    rw [he] at hl
    exact absurd hlarge hl
  fresh := by
    have hd : sampleMemory.supply.Pairwise fun p q => p = 0 ∨ p ≠ q := by decide +kernel
    have hall : (sampleMemory.supply.all fun p =>
        kernelVma ≤ p ∧ p.toNat % 4096 = 0 ∧ p ≠ 0xffffff8000200000) = true := by
      decide +kernel
    have hp : ∀ p ∈ sampleMemory.supply,
        kernelVma ≤ p ∧ p.toNat % 4096 = 0 ∧ p ≠ 0xffffff8000200000 :=
      fun p hp => of_decide_eq_true (List.all_eq_true.mp hall p hp)
    exact ⟨hd, fun p hm _ => ⟨(hp p hm).1, (hp p hm).2.1⟩, fun p _ _ _ _ => Set.notMem_empty p,
      fun p hm _ d _ _ hk => (hp p hm).2.2 (mem_sampleKernel hk).2⟩

/-- A new address space in it. -/
def sampleTables : PageTables := (construct 0x200000 sampleMemory).2

lemma sampleTables_wellFormed :
    WellFormed sampleTables 0xffffff8000001000 (newUser 0xffffff8000001000) sampleKernel ∧
      Fresh sampleTables.supply (newUser 0xffffff8000001000) sampleKernel := by
  obtain ⟨-, hwell, hfresh, -⟩ :=
    construct_wellFormed sampleMemory_kernel rfl (by decide)
  exact ⟨hwell, hfresh⟩

/-- Two pages, of which the second needs a table of its own. -/
theorem mapInternal_walk_sample :
    (mapInternal 0xffffff8000001000 0xffffff8000400000 0x1ff000 0x1001 6 sampleTables).2.walk
      0xffffff8000001000 (0x1ff000 + 4096 * UInt64.ofNat 1) =
        some (0xffffff8000400000 - kernelVma + 4096 * UInt64.ofNat 1, 6 &&& pageFlagsPos) := by
  have hrun : (mapInternal 0xffffff8000001000 0xffffff8000400000 0x1ff000 0x1001 6
      sampleTables).1 = true := by decide +kernel
  have r : Request 0xffffff8000400000 0x1ff000 0x1001 2 :=
    ⟨by decide, by decide, by decide, by decide, by decide⟩
  exact (mapInternal_walk sampleTables_wellFormed.1 sampleTables_wellFormed.2 r
    (Prod.ext hrun rfl)).1 1 (by decide)

end Sample

end PageTables
end EpochKernel.Mem
