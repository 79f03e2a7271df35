import EpochKernel.Driver.Ps2

/-! The shift keys of `update_kbd_status`. A counter stands for the set of the keys that are held: it
goes up with every make code, also with those that a held key repeats, and a break code that finds it
at 0 makes it wrap and ends at 2. -/
namespace EpochKernel.Driver
open Library

/-- The make codes of the shift keys; the break code of a key has bit 7 set as well. -/
def ShiftMake (c : UInt8) : Prop := c = 0x2a ∨ c = 0x36

def ShiftBreak (c : UInt8) : Prop := c = 0xaa ∨ c = 0xb6

instance : DecidablePred ShiftMake := fun _ => inferInstanceAs (Decidable (_ ∨ _))
instance : DecidablePred ShiftBreak := fun _ => inferInstanceAs (Decidable (_ ∨ _))

/-- The status of the keyboard, with the shift keys that have been pressed and not released since,
which is not part of the program. -/
structure Modifiers where
  status : KbdStatus := {}
  held : Finset UInt8 := ∅

namespace Modifiers
variable {s s' : Modifiers} {c : UInt8} {codes : List UInt8}

/-- A scan code is processed. -/
def step : Machine Modifiers UInt8 := fun s c => some {
  status := s.status.update c
  held :=
    if ShiftMake c then insert c s.held
    else if ShiftBreak c then s.held.erase (c - 0x80)
    else s.held }

/-- After the code `c` the counter is one of 0, 1 and 2, a break code has not increased it, and it is 0
if no key is held. -/
def Tracks (s : Modifiers) (c : UInt8) : Prop :=
  ∀ s', s.step c = some s' → s'.status.shift ≤ 2 ∧
    (ShiftBreak c → s'.status.shift ≤ s.status.shift) ∧ (s'.held = ∅ → s'.status.shift = 0)

/-- A break code finds the counter above 0, and at 1 if no other key is held. -/
def Spared (s : Modifiers) (c : UInt8) : Prop :=
  ShiftBreak c → s.status.shift ≠ 0 ∧ (s.held ⊆ {c - 0x80} → s.status.shift = 1)

/-- A key is pressed that is not held, or one is released that is. -/
def Paired (s : Modifiers) (c : UInt8) : Prop :=
  (ShiftMake c → c ∉ s.held) ∧ (ShiftBreak c → c - 0x80 ∈ s.held)

/-- The counter as long as it tracks the keys. -/
structure Inv (s : Modifiers) : Prop where
  le : s.status.shift ≤ 2
  empty : s.held = ∅ → s.status.shift = 0

lemma Inv.shift (h : s.Inv) : s.status.shift = 0 ∨ s.status.shift = 1 ∨ s.status.shift = 2 := by
  have hle := UInt8.le_iff_toNat_le.mp h.le
  change s.status.shift.toNat ≤ 2 at hle
  have hval : s.status.shift.toNat = 0 ∨ s.status.shift.toNat = 1 ∨ s.status.shift.toNat = 2 := by omega
  apply hval.imp UInt8.toNat_inj.mp
  intro hval
  exact hval.imp UInt8.toNat_inj.mp UInt8.toNat_inj.mp

lemma not_break_of_make (h : ShiftMake c) : ¬ ShiftBreak c := by
  cases h with
  | inl h =>
    subst h
    decide
  | inr h =>
    subst h
    decide

/-- The counter goes up to 2 and stays there. -/
lemma update_make (k : KbdStatus) (h : ShiftMake c) :
    (k.update c).shift = UInt8.ofNat (clamp ((k.shift + 1).toNat) 0 2).toNat := by
  have hcaps : c ≠ 0x3a := by
    rintro rfl
    exact absurd h (by decide)
  unfold ShiftMake at h
  unfold KbdStatus.update
  rw [if_neg hcaps, if_pos h]

lemma update_break (k : KbdStatus) (h : ShiftBreak c) :
    (k.update c).shift = UInt8.ofNat (clamp ((k.shift - 1).toNat) 0 2).toNat := by
  have hcaps : c ≠ 0x3a := by
    rintro rfl
    exact absurd h (by decide)
  have hmake : ¬ ShiftMake c := fun hm => not_break_of_make hm h
  unfold ShiftBreak at h
  unfold ShiftMake at hmake
  unfold KbdStatus.update
  rw [if_neg hcaps, if_neg hmake, if_pos h]

/-- The other codes leave the counter as it is. -/
lemma update_other (k : KbdStatus) (hm : ¬ ShiftMake c) (hb : ¬ ShiftBreak c) :
    (k.update c).shift = k.shift := by
  unfold KbdStatus.update
  split_ifs with h1 h2 h3
  · rfl
  · exact absurd h2 hm
  · exact absurd h3 hb
  · rfl
  · rfl

/-- A code keeps the counter in order exactly if it is spared. -/
lemma Inv.tracks_iff (h : s.Inv) : s.Tracks c ↔ s.Spared c := by
  unfold Tracks Spared step
  simp only [Option.some.injEq, forall_eq']
  by_cases hm : ShiftMake c
  · have hb := not_break_of_make hm
    rw [update_make _ hm, if_pos hm]
    refine iff_of_true ⟨?_, fun hb' => absurd hb' hb, fun he => ?_⟩ fun hb' => absurd hb' hb
    · rcases h.shift with h0 | h1 | h2
      · rw [h0]
        decide
      · rw [h1]
        decide
      · rw [h2]
        decide
    · exact absurd he (Finset.insert_ne_empty c s.held)
  by_cases hb : ShiftBreak c
  · rw [update_break _ hb, if_neg hm, if_pos hb, Finset.erase_eq_empty_iff, ← Finset.subset_singleton_iff]
    simp only [hb, forall_const]
    rcases h.shift with h0 | h1 | h2
    · have hwrap : ¬ UInt8.ofNat (clamp ((0 - 1 : UInt8).toNat) 0 2).toNat ≤ 0 := by decide
      rw [h0]
      exact iff_of_false (fun hx => hwrap hx.2.1) fun hx => hx.1 rfl
    · rw [h1]
      exact iff_of_true ⟨by decide, by decide, fun _ => by decide⟩ ⟨by decide, fun _ => rfl⟩
    · have hone : UInt8.ofNat (clamp ((2 - 1 : UInt8).toNat) 0 2).toNat = 1 := by decide
      rw [h2, hone]
      simp
  · rw [update_other _ hm hb, if_neg hm, if_neg hb]
    exact iff_of_true ⟨h.le, fun hb' => absurd hb' hb, h.empty⟩ fun hb' => absurd hb' hb

lemma Inv.step (h : s.Inv) (hs : s.Spared c) (he : s.step c = some s') : s'.Inv := by
  obtain ⟨hle, -, hempty⟩ := h.tracks_iff.mpr hs s' he
  exact ⟨hle, hempty⟩

lemma inv_boot : Inv ⟨{}, ∅⟩ := ⟨by decide, fun _ => rfl⟩

/-- The counter tracks the keys throughout exactly if no break code finds it at 0, and none that
releases the last key finds it above 1. -/
theorem tracks_iff_spared (codes : List UInt8) :
    Machine.Along step Tracks ⟨{}, ∅⟩ codes ↔ Machine.Along step Spared ⟨{}, ∅⟩ codes :=
  Machine.along_iff_along (N := fun _ _ => True) (fun _ _ _ h _ hs he => h.step hs he)
    (fun _ _ h _ => h.tracks_iff) inv_boot (Machine.along_true _ codes)

/-- The break code of a key of which the make code was lost. -/
theorem not_tracks_lost_make : ¬ Machine.Along step Tracks ⟨{}, ∅⟩ [0xaa] := by
  intro h
  obtain ⟨-, hle, -⟩ := h.1 _ rfl
  exact absurd (hle (by decide)) (by decide)

/-- As long as the codes come in pairs, the counter is the number of keys that are held. -/
structure Counts (s : Modifiers) : Prop where
  keys : ∀ c ∈ s.held, ShiftMake c
  shift : s.status.shift.toNat = s.held.card

/-- There are two shift keys. -/
lemma card_le_two {held : Finset UInt8} (h : ∀ c ∈ held, ShiftMake c) : held.card ≤ 2 := by
  have hsub : held ⊆ {0x2a, 0x36} := by
    intro c hc
    simpa [ShiftMake] using h c hc
  exact (Finset.card_le_card hsub).trans Finset.card_le_two

lemma clamp_of_le {x : UInt8} (h : x.toNat ≤ 2) : UInt8.ofNat (clamp x.toNat 0 2).toNat = x := by
  have hclamp : clamp x.toNat 0 2 = x.toNat := by
    unfold clamp
    rw [if_neg (by omega), if_neg (by omega)]
  rw [hclamp, Int.toNat_natCast, UInt8.ofNat_toNat]

lemma Counts.step (h : s.Counts) (hp : s.Paired c) (he : s.step c = some s') : s'.Counts := by
  obtain rfl := Option.some.inj he
  have hle := card_le_two h.keys
  have hshift := h.shift
  by_cases hm : ShiftMake c
  · have hkeys : ∀ k ∈ insert c s.held, ShiftMake k := by
      intro k hk
      rcases Finset.mem_insert.mp hk with rfl | hk
      · exact hm
      · exact h.keys k hk
    have hcard := Finset.card_insert_of_notMem (hp.1 hm)
    have hlt := card_le_two hkeys
    have hadd : (s.status.shift + 1).toNat = s.held.card + 1 := by
      rw [UInt8.toNat_add, UInt8.toNat_one, hshift]
      omega
    constructor
    · rw [if_pos hm]
      exact hkeys
    · rw [if_pos hm, update_make _ hm, clamp_of_le (by omega), hcard, hadd]
  by_cases hb : ShiftBreak c
  · have hmem := hp.2 hb
    have hcard := Finset.card_erase_add_one hmem
    have hone : (1 : UInt8) ≤ s.status.shift := by
      rw [UInt8.le_iff_toNat_le, UInt8.toNat_one, hshift]
      omega
    have hsub : (s.status.shift - 1).toNat = s.held.card - 1 := by
      rw [UInt8.toNat_sub_of_le _ _ hone, UInt8.toNat_one, hshift]
    constructor
    · rw [if_neg hm, if_pos hb]
      exact fun k hk => h.keys k (Finset.mem_of_mem_erase hk)
    · rw [if_neg hm, if_pos hb, update_break _ hb, clamp_of_le (by omega), hsub]
      exact Nat.sub_eq_of_eq_add hcard.symm
  · constructor
    · rw [if_neg hm, if_neg hb]
      exact h.keys
    · rw [if_neg hm, if_neg hb, update_other _ hm hb]
      exact hshift

lemma Counts.spared (h : s.Counts) (hp : s.Paired c) : s.Spared c := by
  intro hb
  have hmem := hp.2 hb
  have hpos : 0 < s.held.card := Finset.card_pos.mpr ⟨_, hmem⟩
  have hshift := h.shift
  refine ⟨fun h0 => ?_, fun hsub => ?_⟩
  · rw [h0] at hshift
    exact hpos.ne hshift
  · have hone : s.held = {c - 0x80} := Finset.Subset.antisymm hsub (Finset.singleton_subset_iff.mpr hmem)
    rw [hone, Finset.card_singleton] at hshift
    exact UInt8.toNat_inj.mp hshift

/-- Keys that are pressed once before they are released are tracked. -/
theorem spared_of_paired (h : Machine.Along step Paired ⟨{}, ∅⟩ codes) :
    Machine.Along step Spared ⟨{}, ∅⟩ codes :=
  Machine.along_of_along (I := Counts) (fun _ _ _ h hp he => h.step hp he) (fun _ _ h hp => h.spared hp)
    ⟨nofun, rfl⟩ h

end Modifiers
end EpochKernel.Driver
