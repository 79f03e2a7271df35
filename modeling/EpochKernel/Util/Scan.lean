import EpochKernel.Util.Lagging

/-! Forward scans by index: what the loops over an address space meet, from a cursor that is right or
lags behind. -/
namespace EpochKernel.Util

namespace ListOps
variable {σ α : Type*}

/-- Reads the list from the index `i` on, up to the first node with the property `p`: its index and
the node, if there is one. -/
def scan (L : ListOps σ α) (p : α → Bool) : ℕ → ℕ → σ → Option (Option (ℕ × α) × σ)
  | 0, _, _ => none
  | fuel + 1, i, l =>
    if i < L.len l then
      match L.get i l with
      | some (some x, l) => if p x then some (some (i, x), l) else scan L p fuel (i + 1) l
      | _ => none
    else some (none, l)

end ListOps

namespace LinkedList
variable {α : Type*} {H : Links α} {l : LinkedList α} {xs : List α} {i : ℕ}

/-- The cursor of a scan that is about to read the index `i`. -/
def Reading (i : ℕ) (l : LinkedList α) (xs : List α) : Prop :=
  l.Coherent xs ∨ (l.Lagging xs ∧ i < xs.length ∧ (i = 0 ∨ l.currentI + 1 = i))

/-- The cursor lags, and the first read of a scan misses the first node. -/
def Misses (l : LinkedList α) (xs : List α) : Prop := l.Lagging xs ∧ l.currentI ≤ 2

instance [DecidableEq α] (l : LinkedList α) (xs : List α) : Decidable (l.Misses xs) :=
  inferInstanceAs (Decidable (_ ∧ _))

/-- Where a read ends up: at its index, or one node further if the cursor lags. -/
lemma get_reading (h : Represents H l xs) (hr : Reading i l xs) (hi : i < xs.length)
    (hshort : xs.length ≤ 2 ^ 31) :
    ∃ x l', get i l H = some (some x, l') ∧ Represents H l' xs ∧ l'.current = some x ∧
      l'.currentI = i ∧ ((xs[i]? = some x ∧ l'.Coherent xs) ∨
        (l.Lagging xs ∧ (i = 0 → l.currentI ≤ 2) ∧ xs[i + 1]? = some x ∧ l'.Lagging xs)) := by
  have hlen : xs.length ≤ 2 ^ 64 := by omega
  have hx : xs[i]? = some xs[i] := List.getElem?_eq_getElem hi
  have hmoved (c : Option α) (j : ℕ) : Represents H { l with current := c, currentI := j } xs :=
    h.of_fields rfl rfl rfl
  have hright (hget : get i l H = some (xs[i]?, { l with current := xs[i]?, currentI := i })) :
      ∃ x l', get i l H = some (some x, l') ∧ Represents H l' xs ∧ l'.current = some x ∧
        l'.currentI = i ∧ ((xs[i]? = some x ∧ l'.Coherent xs) ∨
          (l.Lagging xs ∧ (i = 0 → l.currentI ≤ 2) ∧ xs[i + 1]? = some x ∧ l'.Lagging xs)) := by
    rw [hx] at hget
    exact ⟨_, _, hget, hmoved _ _, rfl, rfl, .inl ⟨hx, .inr hx.symm⟩⟩
  have hfurther (hi' : i + 1 < xs.length) (hlag : l.Lagging xs) (hc : i = 0 → l.currentI ≤ 2)
      (hget : get i l H = some (xs[i + 1]?, { l with current := xs[i + 1]?, currentI := i })) :
      ∃ x l', get i l H = some (some x, l') ∧ Represents H l' xs ∧ l'.current = some x ∧
        l'.currentI = i ∧ ((xs[i]? = some x ∧ l'.Coherent xs) ∨
          (l.Lagging xs ∧ (i = 0 → l.currentI ≤ 2) ∧ xs[i + 1]? = some x ∧ l'.Lagging xs)) := by
    have hx' : xs[i + 1]? = some xs[i + 1] := List.getElem?_eq_getElem hi'
    rw [hx'] at hget
    exact ⟨_, _, hget, hmoved _ _, rfl, rfl, .inr ⟨hlag, hc, hx', hi', hx'.symm⟩⟩
  rcases hr with hc | ⟨hlag, -, hzero | hnext⟩
  · exact hright (get_coherent h hlen hc hi
      (hc.straight h.len_eq (by rw [h.len_eq]; omega) (by rw [h.len_eq]; exact hi)))
  · have hlt := hlag.lt
    subst hzero
    rcases Nat.lt_or_ge 2 l.currentI with hfar | hnear
    · exact hright (get_lagging_start h hlag hshort hfar)
    · exact hfurther (by omega) hlag (fun _ => hnear) (get_lagging_zero h hlag hlen hnear)
  · subst hnext
    rcases Nat.lt_or_ge (l.currentI + 2) xs.length with hin | hlast
    · exact hfurther hin hlag (by omega) (get_lagging_next h hlag hlen hin)
    · exact hright (get_lagging_last h hlag (by omega))

/-- A scan goes on as it has begun. -/
lemma get_reading_succ (h : Represents H l xs) (hr : Reading i l xs) (hi : i < xs.length)
    (hshort : xs.length ≤ 2 ^ 31) :
    ∃ x l', get i l H = some (some x, l') ∧ x ∈ xs ∧ Represents H l' xs ∧ Reading (i + 1) l' xs := by
  obtain ⟨x, l', hget, hrep, -, hcur, ⟨hx, hc⟩ | ⟨-, -, hx, hlag⟩⟩ := get_reading h hr hi hshort
  · exact ⟨x, l', hget, List.mem_of_getElem? hx, hrep, .inl hc⟩
  · exact ⟨x, l', hget, List.mem_of_getElem? hx, hrep,
      .inr ⟨hlag, (List.getElem?_eq_some_iff.mp hx).1, .inr (by omega)⟩⟩

lemma Reading.coherent (hr : Reading xs.length l xs) : l.Coherent xs :=
  hr.resolve_right fun h => lt_irrefl _ h.2.1

lemma Coherent.not_lagging (h : Represents H l xs) (hc : l.Coherent xs) : ¬ l.Lagging xs := by
  intro hlag
  have hcur := hc.resolve_left hlag.current_ne
  have hlt := hlag.lt
  have := (List.getElem?_inj (Nat.lt_of_succ_lt hlt) h.nodup).mp (hcur.symm.trans hlag.current)
  omega

variable [DecidableEq α] {K : Links α} {p : α → Bool} {f : ℕ}

/-- A scan that meets no node with the property ends with a cursor that is right again. -/
theorem scan_none (h : Represents H l xs) (hr : Reading i l xs) (hi : i ≤ xs.length)
    (hshort : xs.length ≤ 2 ^ 31) (hp : ∀ x ∈ xs, p x = false) (hfuel : xs.length < i + f) :
    ∃ l', (ListOps.linked K).scan p f i (l, H) = some (none, l', H) ∧ Represents H l' xs ∧
      l'.Coherent xs := by
  induction f generalizing i l with
  | zero => omega
  | succ f ih =>
    rw [ListOps.scan]
    rcases Nat.lt_or_ge i xs.length with hlt | hge
    · obtain ⟨x, l', hget, hx, hrep, hr'⟩ := get_reading_succ h hr hlt hshort
      have hlen : i < (ListOps.linked K).len (l, H) := by
        change i < l.len
        rw [h.len_eq]
        exact hlt
      have hget' : (ListOps.linked K).get i (l, H) = some (some x, l', H) := by
        change (get i l H).map _ = _
        rw [hget]
        rfl
      rw [if_pos hlen, hget']
      dsimp only
      rw [hp x hx]
      exact ih hrep hr' hlt (by omega)
    · have hlen : ¬ i < (ListOps.linked K).len (l, H) := by
        change ¬ i < l.len
        rw [h.len_eq]
        omega
      have heq : i = xs.length := by omega
      subst heq
      rw [if_neg hlen]
      exact ⟨l, rfl, h, hr.coherent⟩

/-- A scan finds the only node with the property, at its index or one before it. -/
theorem scan_found {as bs : List α} {x b : α} (h : Represents H l (as ++ x :: b :: bs))
    (hr : Reading i l (as ++ x :: b :: bs)) (hi : i ≤ as.length)
    (hshort : (as ++ x :: b :: bs).length ≤ 2 ^ 31) (hx : p x) (hp : ∀ y ∈ as, p y = false)
    (hmiss : l.Lagging (as ++ x :: b :: bs) → (i = 0 → l.currentI ≤ 2) → i < as.length)
    (hfuel : as.length < i + f) :
    ∃ l' j, (ListOps.linked K).scan p f i (l, H) = some (some (j, x), l', H) ∧
      Represents H l' (as ++ x :: b :: bs) ∧ l'.current = some x ∧ l'.currentI = j ∧
      (j = as.length ∨ (j + 1 = as.length ∧ l.Lagging (as ++ x :: b :: bs) ∧
        (i = 0 → l.currentI ≤ 2))) := by
  induction f generalizing i l with
  | zero => omega
  | succ f ih =>
    have hlt : i < (as ++ x :: b :: bs).length := by
      simp
      omega
    obtain ⟨y, l', hget, hrep, hcur, hcurI, hread⟩ := get_reading h hr hlt hshort
    have hlen : i < (ListOps.linked K).len (l, H) := by
      change i < l.len
      rw [h.len_eq]
      exact hlt
    have hget' : (ListOps.linked K).get i (l, H) = some (some y, l', H) := by
      change (get i l H).map _ = _
      rw [hget]
      rfl
    rw [ListOps.scan, if_pos hlen, hget']
    dsimp only
    rcases hread with ⟨hy, hc⟩ | ⟨hlag, hzero, hy, hlag'⟩
    · rcases Nat.lt_or_eq_of_le hi with hbefore | rfl
      · rw [List.getElem?_append_left hbefore] at hy
        rw [hp y (List.mem_of_getElem? hy)]
        obtain ⟨l2, j, hscan, hrep2, hcur2, hcurI2, hj⟩ := ih hrep (.inl hc) hbefore
          (fun hlag => absurd hlag (hc.not_lagging hrep)) (by omega)
        refine ⟨l2, j, hscan, hrep2, hcur2, hcurI2, .inl ?_⟩
        exact hj.resolve_right fun hn => hc.not_lagging hrep hn.2.1
      · rw [List.getElem?_append_right le_rfl, Nat.sub_self, List.getElem?_cons_zero,
          Option.some_inj] at hy
        subst hy
        rw [if_pos hx]
        exact ⟨l', _, rfl, hrep, hcur, hcurI, .inl rfl⟩
    · have hbefore := hmiss hlag hzero
      rcases Nat.lt_or_eq_of_le (Nat.succ_le_of_lt hbefore) with hmore | hhere
      · rw [List.getElem?_append_left hmore] at hy
        rw [hp y (List.mem_of_getElem? hy)]
        have hin := hlag'.lt
        obtain ⟨l2, j, hscan, hrep2, hcur2, hcurI2, hj⟩ := ih hrep
          (.inr ⟨hlag', by omega, .inr (by omega)⟩) (by omega) (fun _ _ => hmore) (by omega)
        exact ⟨l2, j, hscan, hrep2, hcur2, hcurI2, hj.imp_right fun hn => ⟨hn.1, hlag, hzero⟩⟩
      · rw [show i + 1 = as.length from hhere, List.getElem?_append_right le_rfl, Nat.sub_self,
          List.getElem?_cons_zero, Option.some_inj] at hy
        subst hy
        rw [if_pos hx]
        exact ⟨l', i, rfl, hrep, hcur, hcurI, .inr ⟨hhere, hlag, hzero⟩⟩

/-- The removal of the node that a scan has found. -/
theorem remove_found {as bs : List α} {x b : α} {j : ℕ} (h : Represents H l (as ++ x :: b :: bs))
    (hcur : l.current = some x) (hcurI : l.currentI = j)
    (hj : j = as.length ∨ (j + 1 = as.length ∧ 0 < j)) :
    ∃ l' H', remove j l H = some (some x, l', H') ∧ Represents H' l' (as ++ b :: bs) ∧
      Reading (j + 1) l' (as ++ b :: bs) ∧ (j = as.length → l'.Coherent (as ++ b :: bs)) := by
  have hl : l.len = as.length + (bs.length + 2) := by simpa using h.len_eq
  rcases hj with rfl | ⟨hj, hpos⟩
  · obtain ⟨l', H', hrem, hrep, hc, -⟩ := remove_coherent h hcur hcurI
    exact ⟨l', H', hrem, hrep, .inl hc, fun _ => hc⟩
  · obtain ⟨as, a, rfl⟩ : ∃ as' a, as = as' ++ [a] := by
      rcases List.eq_nil_or_concat as with rfl | ⟨as', a, rfl⟩
      · simp at hj
      · exact ⟨as', a, List.concat_eq_append⟩
    rw [List.length_append, List.length_singleton] at hj hl
    rw [List.append_assoc, List.singleton_append] at h ⊢
    obtain ⟨l', H', hrem, hrep, hcur', hcurI', -⟩ :=
      remove_cursor h hcur hcurI hpos (by omega)
    have hx' : (as ++ a :: b :: bs)[j + 1]? = some b := by
      rw [List.getElem?_append_right (by omega), show j + 1 - as.length = 1 by omega]
      rfl
    have hlt := (List.getElem?_eq_some_iff.mp hx').1
    refine ⟨l', H', hrem, hrep,
      .inr ⟨⟨by rwa [hcurI'], by rw [hcur', hcurI', hx']⟩, hlt, .inr (by rw [hcurI'])⟩, fun he => ?_⟩
    simp at he
    omega

end LinkedList
end EpochKernel.Util
