import EpochKernel.Mem.PageTablesMap

/-! Where `map_internal_recurse` stops: at the end of the pages, or at the entry for which it gets no
table. What its writes keep holds in both cases. -/
namespace EpochKernel.Mem
open EpochKernel.Util EpochKernel.Library
namespace Pass.Job
variable {J : Job} {m : PageTables} {kernel : ℕ → Set UInt64} {I : Pass → Prop} {w w' : Pass}
  {level x i : ℕ} {t : UInt64}

/-- A fact that holds on after a page is mapped and after a table is opened. -/
structure Keeps (J : Job) (m : PageTables) (kernel : ℕ → Set UInt64) (I : Pass → Prop) : Prop where
  shift : ∀ w k, I w → I (w.shift k)
  page : ∀ w x i t, J.Inv m kernel w → I w → J.table w 3 x = some t → i < 512 → w.pageN ≠ 0 →
    J.cur w = 512 * x + i → I (mapPage J.physAddr J.n J.flags t i w).2
  opens : ∀ w w' level x i t p, level < 3 → J.Inv m kernel w → I w → w.pageN ≠ 0 →
    J.table w (3 - (level + 1)) x = some t → i < 512 →
    J.cur w / 512 ^ (level + 1) = 512 * x + i → J.Opens kernel (3 - (level + 1)) i t p w w' → I w'

/-- The next page is below an entry that is not present, and there is no page for its table. -/
inductive Stuck (J : Job) (m : PageTables) (kernel : ℕ → Set UInt64) (I : Pass → Prop) : Pass → Prop
  | at_entry {w : Pass} {level x i : ℕ} {t : UInt64} (hl : level < 3) (hinv : J.Inv m kernel w)
    (hI : I w) (hn : w.pageN ≠ 0) (ht : J.table w (3 - (level + 1)) x = some t) (hi : i < 512)
    (hslot : ¬ (t = J.pml4Table ∧ i = 511)) (hp : ¬ w.present t i)
    (hat : J.At (level + 1) (512 * x + i) w) (hnull : w.allocz.1 = 0) :
    Stuck J m kernel I { w with toPageTables := w.allocz.2 }

def Outcome (J : Job) (m : PageTables) (kernel : ℕ → Set UInt64) (I : Pass → Prop)
    (r : Bool × Pass) : Prop :=
  (r.1 = true → I r.2) ∧ (r.1 = false → J.Stuck m kernel I r.2)

/-- The loop: at the end of the top table nothing is left. -/
lemma loop_outcome {atEnd : Bool} {body : ℕ → Pass → Bool × Pass}
    (hbody : Body J m kernel level t body) (hl : level ≤ 3)
    (hend : atEnd = false → ∀ w, J.Inv m kernel w → J.Past (level + 1) x w → w.pageN = 0)
    (hout : ∀ i w, J.Inv m kernel w → I w → J.table w (3 - level) x = some t → i < 512 →
      w.pageN ≠ 0 → J.At level (512 * x + i) w → J.Outcome m kernel I (body i w))
    (left : ℕ) (hleft : left ≤ 512) (hinv : J.Inv m kernel w) (hI : I w)
    (ht : J.table w (3 - level) x = some t)
    (hat : left ≠ 0 → w.pageN ≠ 0 → J.At level (512 * x + (512 - left)) w)
    (hpast : left = 0 → J.Past (level + 1) x w) :
    J.Outcome m kernel I (mapLoop atEnd body left w) := by
  induction left generalizing w with
  | zero =>
    unfold mapLoop
    split_ifs with hw
    · exact ⟨fun _ => hI, fun hok => Bool.noConfusion hok⟩
    · refine ⟨fun _ => hI, fun hfalse => ?_⟩
      exact absurd (hend hfalse w hinv (hpast rfl)) hw
  | succ left ih =>
    rw [mapLoop]
    by_cases hw : w.pageN = 0
    · rw [if_pos hw]
      exact ⟨fun _ => hI, fun hok => Bool.noConfusion hok⟩
    rw [if_neg hw]
    have hat' := hat (Nat.succ_ne_zero left) hw
    have hfirst := hout (512 - (left + 1)) w hinv hI ht (by omega) hw hat'
    have hback : pageEntries - (left + 1) = 512 - (left + 1) := rfl
    rw [hback]
    cases hb : body (512 - (left + 1)) w with
    | mk ok w1 =>
      rw [hb] at hfirst
      cases ok with
      | false => exact ⟨fun hok => Bool.noConfusion hok, hfirst.2⟩
      | true =>
        have hmove := hbody x (512 - (left + 1)) w w1 hinv ht (by omega) hw hat' hb
        have hnext : 512 * x + (512 - (left + 1)) + 1 = 512 * x + (512 - left) := by omega
        refine ih (by omega) hmove.inv (hfirst.1 rfl) (hmove.keeps _ (by omega) _ _ ht)
          (fun _ hw1 => hnext ▸ hmove.past.at_succ hw1) fun hz => ?_
        rcases hmove.past with hp | ⟨hcur, hv⟩
        · exact .inl hp
        · refine .inr ⟨?_, hv⟩
          rw [hcur, hnext, hz, pow_succ']
          ring

section
variable (K : Keeps J m kernel I) (hbound : J.start + J.n ≤ 511 * 512 ^ 3)
include K

lemma mapPage_outcome (hinv : J.Inv m kernel w) (hI : I w) (ht : J.table w 3 x = some t)
    (hi : i < 512) (hw : w.pageN ≠ 0) (hat : J.At 0 (512 * x + i) w) :
    J.Outcome m kernel I (mapPage J.physAddr J.n J.flags t i w) := by
  refine ⟨fun _ => K.page w x i t hinv hI ht hi hw ?_, nofun⟩
  have := hat.1
  rwa [pow_zero, Nat.div_one] at this

include hbound

lemma mapTable_outcome {recurse : UInt64 → Pass → Bool × Pass} (hl : level < 3)
    (hcall : ∀ x t w, J.Inv m kernel w → I w → J.table w (3 - level) x = some t →
      J.At (level + 1) x w → J.Outcome m kernel I (recurse t w))
    (hinv : J.Inv m kernel w) (hI : I w) (ht : J.table w (3 - (level + 1)) x = some t) (hi : i < 512)
    (hw : w.pageN ≠ 0) (hat : J.At (level + 1) (512 * x + i) w) :
    J.Outcome m kernel I (mapTable recurse t i w) := by
  have hslot := At.slot hbound hinv hw hl ht hat
  rcases mapTable_cases recurse hl hinv ht hi hslot with ⟨c, hc, he⟩ | ⟨hp, hnull, he⟩ | ⟨p, w₁, ho, he⟩
  · rw [he]
    exact hcall _ _ w hinv hI hc hat
  · rw [he]
    exact ⟨nofun, fun _ => .at_entry hl hinv hI hw ht hi hslot hp hat hnull⟩
  · rw [he]
    have hdepth : 3 - (level + 1) + 1 = 3 - level := by omega
    have hopened := ho.table_eq (by omega) hi ht
    rw [hdepth] at hopened
    have hat' : J.At (level + 1) (512 * x + i) w₁ := by
      unfold At
      rw [ho.cur_eq, ho.virtAddr]
      exact hat
    exact hcall _ _ w₁ (ho.inv hinv) (K.opens w w₁ level x i t p hl hinv hI hw ht hi hat.1 ho) hopened hat'

/-- The recursion, level by level. -/
theorem mapInternalRecurse_outcome (hl : level ≤ 3) :
    ∀ x t w, J.Inv m kernel w → I w → J.table w (3 - level) x = some t → J.At (level + 1) x w →
      J.Outcome m kernel I (mapInternalRecurse J.physAddr J.n J.flags level t w) := by
  have hcall : ∀ {level : ℕ}, level ≤ 3 → ∀ {atEnd : Bool} {body : UInt64 → ℕ → Pass → Bool × Pass},
      (atEnd = false → 3 ≤ level) → (∀ t, Body J m kernel level t (body t)) →
      (∀ x t i w, J.Inv m kernel w → I w → J.table w (3 - level) x = some t → i < 512 → w.pageN ≠ 0 →
        J.At level (512 * x + i) w → J.Outcome m kernel I (body t i w)) →
      ∀ x t w, J.Inv m kernel w → I w → J.table w (3 - level) x = some t → J.At (level + 1) x w →
        J.Outcome m kernel I (mapLoop atEnd (body t) (pageEntries - w.index) (w.shift pageTableBits)) := by
    intro level hl atEnd body hend hbody hout x t w hinv hI ht hat
    obtain ⟨hindex, hat'⟩ := hat.call hl
    have hback : 512 - (512 - w.index) = w.index := by omega
    have hinv' : J.Inv m kernel (w.shift pageTableBits) :=
      ⟨hinv.le, hinv.tree, hinv.mapped, hinv.rest, hinv.kernel, hinv.root, hinv.freed⟩
    refine loop_outcome (x := x) (hbody t) hl (fun hfalse w' hw' hpast => ?_) (fun i w => hout x t i w)
      (512 - w.index) (Nat.sub_le _ _) hinv' (K.shift w _ hI) ht
      (fun _ _ => by rw [hback]; exact hat') (fun hz => by omega)
    by_contra hn
    obtain ⟨hcur, -⟩ := hpast.resolve_left hn
    have hle := hw'.le
    have hpow : 512 ^ 4 ≤ 512 ^ (level + 1) :=
      Nat.pow_le_pow_right (by norm_num) (Nat.succ_le_succ (hend hfalse))
    have hmul : 512 ^ (level + 1) ≤ (x + 1) * 512 ^ (level + 1) :=
      Nat.le_mul_of_pos_left _ (Nat.succ_pos x)
    unfold cur at hcur
    omega
  induction level with
  | zero =>
    exact hcall hl nofun (fun t => mapPage_body)
      fun x t i w hinv hI ht hi hw hat => mapPage_outcome K hinv hI ht hi hw hat
  | succ level ih =>
    refine hcall hl (fun hfalse => ?_)
      (fun t => mapTable_body hbound (by omega) (mapInternalRecurse_call hbound (by omega)))
      fun x t i w hinv hI ht hi hw hat =>
        mapTable_outcome K hbound (by omega) (ih (by omega)) hinv hI ht hi hw hat
    have := of_decide_eq_false hfalse
    unfold pageLevels at this
    omega

/-- A whole run. -/
theorem mapInternalRecurse_stops (hinv : J.Inv m kernel w) (hI : I w) (hw : w.pageN = J.n)
    (hvirt : w.virtAddr.toNat = J.start * 4096) :
    J.Outcome m kernel I (mapInternalRecurse J.physAddr J.n J.flags 3 J.pml4Table w) := by
  have hroot : J.table w (3 - 3) 0 = some J.pml4Table := Radix.node_zero
  have hat := at_top hw hbound hvirt
  exact mapInternalRecurse_outcome K hbound le_rfl 0 _ w hinv hI hroot hat

end
end Pass.Job
end EpochKernel.Mem
