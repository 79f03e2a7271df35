import EpochKernel.Util.Cursor
import EpochKernel.Util.ListOps

/-! The cursor after `insert`: it is left on the node behind the one at its index. Reads from such a
cursor are one position too far, until one of them starts from an end of the list. -/
namespace EpochKernel.Util

/-- The last addition of `abs` goes the wrong way. -/
lemma abs_neg_toInt {c : ℕ} (h0 : 0 < c) (h : c ≤ 2 ^ 31) :
    (abs (Int32.ofInt (-c))).toInt = (c : ℤ) - 2 := by
  have hsize : (Int32.size : ℤ) = 2 ^ 32 := rfl
  have hn : (Int32.ofInt (-c)).toInt = -c := by
    rw [Int32.toInt_ofInt]
    exact Int.bmod_eq_of_le (by omega) (by omega)
  have hshift : Int32.ofInt (-c) >>> 31 = -1 := by
    apply Int32.toInt_inj.mp
    rw [← Int32.toInt_toBitVec, Int32.toBitVec_shiftRight]
    change ((Int32.ofInt (-c)).toBitVec.sshiftRight 31).toInt = -1
    rw [BitVec.toInt_sshiftRight, Int32.toInt_toBitVec, hn, Int.shiftRight_eq_div_pow]
    omega
  have hnot : (~~~ Int32.ofInt (-c)).toInt = c - 1 := by
    rw [Int32.toInt_not, hn]
    have := Int.bmod_eq_of_le (n := (c : ℤ) - 1) (m := 2 ^ 32) (by omega) (by omega)
    rwa [show -(-(c : ℤ)) - 1 = c - 1 by omega]
  rw [abs, hshift, Int32.xor_neg_one, Int32.toInt_add, hnot]
  have hone : (-1 : Int32).toInt = -1 := rfl
  have := Int.bmod_eq_of_le (n := (c : ℤ) - 2) (m := 2 ^ 32) (by omega) (by omega)
  rwa [hone, show (c : ℤ) - 1 + -1 = c - 2 by omega]

namespace LinkedList
variable {α : Type*} {H : Links α} {l : LinkedList α} {xs : List α} {index : ℕ}

/-- The cursor stands on the node behind the one at its index. -/
structure Lagging (l : LinkedList α) (xs : List α) : Prop where
  lt : l.currentI + 1 < xs.length
  current : l.current = xs[l.currentI + 1]?

instance [DecidableEq α] (l : LinkedList α) (xs : List α) : Decidable (l.Lagging xs) :=
  decidable_of_iff (l.currentI + 1 < xs.length ∧ l.current = xs[l.currentI + 1]?)
    ⟨fun h => ⟨h.1, h.2⟩, fun h => ⟨h.lt, h.current⟩⟩

lemma Lagging.current_ne (h : l.Lagging xs) : l.current ≠ none := by
  rw [h.current, List.getElem?_eq_getElem h.lt]
  nofun

/-- A walk from a lagging cursor ends one node behind the index. -/
lemma Lagging.walk_arrives (h : Represents H l xs) (hlag : l.Lagging xs)
    (hlen : xs.length ≤ 2 ^ 64) (hi : index + 1 < xs.length) {dir : ℤ}
    (hdir : l.currentI ≠ index → dir = ((index : ℤ) - l.currentI).sign) :
    ((iterations dir l.currentI index).bind fun n => walk H dir n l.current) =
      some xs[index + 1]? := by
  obtain ⟨x, xs, rfl⟩ := List.exists_cons_of_ne_nil (List.ne_nil_of_length_pos (by omega : 0 < xs.length))
  rw [hlag.current, List.getElem?_cons_succ, List.getElem?_cons_succ]
  have hlt := hlag.lt
  rw [List.length_cons] at hlt hi hlen
  have htail : Linked H xs := h.linked.tail
  exact LinkedList.walk_arrives htail (by omega) (by omega) (by omega) hdir

section Branches
variable {z : Option α} (hlt : index < l.len) (hc : l.current ≠ none)

include hlt hc

/-- `operator[]` where it walks from the cursor. -/
lemma get_from_cursor
    (hstart : ¬ ((index : ℤ) - l.currentI < 0 ∧
      (index : ℤ) < (abs (Int32.ofInt (index - l.currentI))).toInt))
    (hend : ¬ (l.len : ℤ) - index - 1 < index - l.currentI)
    (hw : ((iterations (sign (Int32.ofInt (index - l.currentI))) l.currentI index).bind
      fun n => walk H (sign (Int32.ofInt (index - l.currentI))) n l.current) = some z) :
    get index l H = some (z, { l with current := z, currentI := index }) := by
  rw [get, if_neg (Nat.not_le.mpr hlt), if_neg hc]
  dsimp only
  rw [if_neg hstart, if_neg hend]
  dsimp only
  rw [hw]

/-- `operator[]` where it walks from the first node. -/
lemma get_from_start (hstart : (index : ℤ) - l.currentI < 0 ∧
      (index : ℤ) < (abs (Int32.ofInt (index - l.currentI))).toInt)
    (hw : ((iterations 1 0 index).bind fun n => walk H 1 n l.start) = some z) :
    get index l H = some (z, { l with current := z, currentI := index }) := by
  rw [get, if_neg (Nat.not_le.mpr hlt), if_neg hc]
  dsimp only
  rw [if_pos hstart]
  dsimp only
  rw [hw]

/-- `operator[]` where it walks from the last node. -/
lemma get_from_end (hstart : 0 ≤ (index : ℤ) - l.currentI)
    (hend : (l.len : ℤ) - index - 1 < index - l.currentI)
    (hw : ((iterations (-1) (l.len - 1) index).bind fun n => walk H (-1) n l.end_) = some z) :
    get index l H = some (z, { l with current := z, currentI := index }) := by
  rw [get, if_neg (Nat.not_le.mpr hlt), if_neg hc]
  dsimp only
  rw [if_neg (fun h => absurd h.1 (not_lt.mpr hstart)), if_pos hend]
  dsimp only
  rw [hw]

end Branches

lemma sign_ofInt {d : ℤ} (h1 : -2 ^ 31 ≤ d) (h2 : d < 2 ^ 31) : sign (Int32.ofInt d) = d.sign := by
  have hsize : (Int32.size : ℤ) = 2 ^ 32 := rfl
  rw [sign_eq, Int32.toInt_ofInt, Int.bmod_eq_of_le (by omega) (by omega)]

section Reads
variable (h : Represents H l xs) (hlag : l.Lagging xs)

include h hlag

/-- Reading on from a lagging cursor leaves it lagging. -/
theorem get_lagging_next (hlen : xs.length ≤ 2 ^ 64) (hi : l.currentI + 2 < xs.length) :
    get (l.currentI + 1) l H = some (xs[l.currentI + 2]?,
      { l with current := xs[l.currentI + 2]?, currentI := l.currentI + 1 }) := by
  have hd : ((l.currentI + 1 : ℕ) : ℤ) - l.currentI = 1 := by omega
  have hl := h.len_eq
  refine get_from_cursor (by omega) hlag.current_ne (by omega) (by omega) ?_
  refine hlag.walk_arrives h hlen hi fun _ => ?_
  rw [hd]
  exact sign_ofInt (by decide) (by decide)

/-- The first node is missed if the index of the cursor is 2 or less. -/
theorem get_lagging_zero (hlen : xs.length ≤ 2 ^ 64) (hi : l.currentI ≤ 2) :
    get 0 l H = some (xs[1]?, { l with current := xs[1]?, currentI := 0 }) := by
  have hlt := hlag.lt
  have hl := h.len_eq
  have hd : ((0 : ℕ) : ℤ) - l.currentI = -l.currentI := by omega
  refine get_from_cursor (by omega) hlag.current_ne ?_ (by omega) ?_
  · rintro ⟨hneg, habs⟩
    rw [hd, abs_neg_toInt (by omega) (by omega)] at habs
    omega
  · refine hlag.walk_arrives h hlen (by omega) fun _ => ?_
    exact sign_ofInt (by omega) (by omega)

/-- Beyond, the read starts from the first node. -/
theorem get_lagging_start (hshort : xs.length ≤ 2 ^ 31) (hi : 2 < l.currentI) :
    get 0 l H = some (xs[0]?, { l with current := xs[0]?, currentI := 0 }) := by
  have hlt := hlag.lt
  have hl := h.len_eq
  have hd : ((0 : ℕ) : ℤ) - l.currentI = -l.currentI := by omega
  refine get_from_start (by omega) hlag.current_ne ⟨by omega, ?_⟩ ?_
  · rw [hd, abs_neg_toInt (by omega) (by omega)]
    omega
  · rw [h.start_eq (List.ne_nil_of_length_pos (by omega)), List.head?_eq_getElem?]
    rfl

/-- A read of the last node starts from the end of the list. -/
theorem get_lagging_last (hi : index + 1 = xs.length) :
    get index l H = some (xs[index]?, { l with current := xs[index]?, currentI := index }) := by
  have hlt := hlag.lt
  have hl := h.len_eq
  refine get_from_end (by omega) hlag.current_ne (by omega) (by omega) ?_
  rw [h.end_eq (List.ne_nil_of_length_pos (by omega)), List.getLast?_eq_getElem?, hl, ← hi,
    Nat.add_sub_cancel]
  simp [iterations, walk]

end Reads

section Insert
variable [DecidableEq α] {zone a b : α} {as bs : List α}

/-- A node that is linked between two neighbours becomes part of the sequence. -/
lemma Represents.splice (h : Represents H l (as ++ a :: b :: bs)) (hz : zone ∉ as ++ a :: b :: bs)
    {H' : Links α} (ha : H' a = ⟨(H a).prev, some zone⟩) (hzone : H' zone = ⟨some a, some b⟩)
    (hb : H' b = ⟨some zone, (H b).next⟩)
    (hrest : ∀ y, y ≠ a → y ≠ b → y ≠ zone → H' y = H y) {l' : LinkedList α}
    (hlen : l'.len = l.len + 1) (hs : l'.start = l.start) (he : l'.end_ = l.end_) :
    Represents H' l' (as ++ a :: zone :: b :: bs) := by
  have hsplit : ((as ++ [a]) ++ b :: bs).Nodup := by simpa using h.nodup
  obtain ⟨hnda, hndb, hdisj⟩ := List.nodup_append.mp hsplit
  have hlink : Linked H ((as ++ [a]) ++ b :: bs) := by simpa using h.linked
  refine ⟨?_, fun _ => ?_, fun _ => ?_, ?_, ?_⟩
  · rw [hlen, h.len_eq]
    simp
    omega
  · rw [hs, h.start_eq (by simp)]
    cases as <;> simp
  · rw [he, h.end_eq (by simp), List.getLast?_append_of_ne_nil _ (by simp),
      List.getLast?_append_of_ne_nil _ (by simp), List.getLast?_cons_cons,
      List.getLast?_cons_cons, List.getLast?_cons_cons]
  · have hne (x : α) (hx : x ∈ as ++ [a]) : x ≠ b ∧ x ≠ zone := by
      refine ⟨fun hxb => hdisj x hx b (by simp) hxb, ?_⟩
      rintro rfl
      exact hz (by simpa using Or.imp_right Or.inl (List.mem_append.mp hx))
    have hne' (x : α) (hx : x ∈ b :: bs) : x ≠ a ∧ x ≠ zone := by
      refine ⟨fun hxa => hdisj a (by simp) x hx hxa.symm, ?_⟩
      rintro rfl
      exact hz (List.mem_append_right _ (List.mem_cons_of_mem _ hx))
    have hleft : Linked H' (as ++ [a]) := by
      have hpre : Linked H (as ++ [a]) := hlink.left_of_append
      refine hpre.congr_inner hnda (fun x hx hxl => ?_) (fun x hx _ => ?_)
      · have hxa : x ≠ a := by
          rintro rfl
          simp at hxl
        rw [hrest x hxa (hne x hx).1 (hne x hx).2]
      · by_cases hxa : x = a
        · rw [hxa, ha]
        · rw [hrest x hxa (hne x hx).1 (hne x hx).2]
    have hright : Linked H' (b :: bs) := by
      have hpost : Linked H (b :: bs) := (List.isChain_append.mp hlink).2.1
      refine hpost.congr_inner hndb (fun x hx _ => ?_) (fun x hx hxh => ?_)
      · by_cases hxb : x = b
        · rw [hxb, hb]
        · rw [hrest x (hne' x hx).1 hxb (hne' x hx).2]
      · have hxb : x ≠ b := by
          rintro rfl
          simp at hxh
        rw [hrest x (hne' x hx).1 hxb (hne' x hx).2]
    rw [List.append_cons]
    refine List.isChain_append.mpr ⟨hleft, List.isChain_cons_cons.mpr ⟨?_, hright⟩, ?_⟩
    · rw [hzone, hb]
      exact ⟨rfl, rfl⟩
    · intro x hx y hy
      rw [List.getLast?_concat, Option.mem_some_iff] at hx
      rw [List.head?_cons, Option.mem_some_iff] at hy
      subst hx hy
      rw [ha, hzone]
      exact ⟨rfl, rfl⟩
  · have hperm : (as ++ a :: zone :: b :: bs).Perm (zone :: (as ++ a :: b :: bs)) := by
      rw [List.append_cons, List.append_cons as a (b :: bs)]
      exact List.perm_middle
    exact hperm.nodup_iff.mpr (List.nodup_cons.mpr ⟨hz, h.nodup⟩)

/-- `insert` right behind the node under the cursor leaves the cursor lagging. -/
theorem insert_cursor (h : Represents H l (as ++ a :: b :: bs)) (hc : l.current = some a)
    (hi : l.currentI = as.length) (hz : zone ∉ as ++ a :: b :: bs) :
    ∃ l' H', insert (as.length + 1) zone l H = some (true, l', H') ∧
      Represents H' l' (as ++ a :: zone :: b :: bs) ∧ l'.Lagging (as ++ a :: zone :: b :: bs) ∧
      l'.currentI = as.length + 1 := by
  have hab := (List.isChain_append.mp h.linked).2.1
  obtain ⟨hnext, hprev⟩ := (List.isChain_cons_cons.mp hab).1
  have hl : l.len = as.length + (bs.length + 2) := by simpa using h.len_eq
  have hnd := (List.nodup_append.mp h.nodup).2.1
  have hne : a ≠ b := by
    rintro rfl
    simp at hnd
  have hza : zone ≠ a := by
    rintro rfl
    simp at hz
  have hzb : zone ≠ b := by
    rintro rfl
    simp at hz
  have hd : ((as.length + 1 : ℕ) : ℤ) - l.currentI = 1 := by omega
  have hsign : sign (Int32.ofInt 1) = 1 := sign_ofInt (by decide) (by decide)
  have hget : get (as.length + 1) { l with len := l.len + 1 } H =
      some (some b, { l with len := l.len + 1, current := some b, currentI := as.length + 1 }) := by
    have hcn : l.current ≠ none := by
      rw [hc]
      nofun
    have hpos : ¬ ((as.length + 1 : ℕ) : ℤ) - (l.currentI : ℤ) < 0 := by omega
    refine get_from_cursor (l := { l with len := l.len + 1 }) (show _ < l.len + 1 by omega) hcn
      (fun hs => hpos hs.1)
      (show ¬ ((l.len + 1 : ℕ) : ℤ) - _ - 1 < _ - (l.currentI : ℤ) by omega) ?_
    change (iterations (sign (Int32.ofInt (_ - (l.currentI : ℤ)))) l.currentI _).bind
      (fun n => walk H (sign (Int32.ofInt (_ - (l.currentI : ℤ)))) n l.current) = _
    rw [hd, hsign, hi, hc, iterations, if_neg (by omega), if_neg (by decide), if_pos rfl]
    have hn : (as.length + 1 + 2 ^ 64 - as.length) % 2 ^ 64 = 1 := by omega
    rw [hn, Option.bind_some, walk, if_pos rfl, Links.next, Option.bind_some, hnext]
    rfl
  have hins : insert (as.length + 1) zone l H = some (true,
      { l with len := l.len + 1, current := some b, currentI := as.length + 1 },
      (((H.setNext (some a) (some zone)).setPrev (some zone) (some a)).setPrev (some b)
        (some zone)).setNext (some zone) (some b)) := by
    rw [insert, if_neg (by omega), if_neg (by omega), if_neg (by omega), if_neg (by omega)]
    dsimp only
    rw [hget]
    dsimp only
    rw [if_neg (by rw [hprev]; nofun), hprev]
    have hb1 : ((H.setNext (some a) (some zone)) b).prev = some a := by
      simp [Links.setNext, Ne.symm hne, hprev]
    rw [hb1]
  refine ⟨_, _, hins, h.splice hz ?_ ?_ ?_ ?_ rfl rfl rfl, ⟨?_, ?_⟩, rfl⟩
  · simp [Links.setNext, Links.setPrev, hne, Ne.symm hza]
  · simp [Links.setNext, Links.setPrev, hzb, hza]
  · simp [Links.setNext, Links.setPrev, Ne.symm hne, Ne.symm hzb]
  · intro y hya hyb hyz
    simp [Links.setNext, Links.setPrev, hya, hyb, hyz]
  · change as.length + 1 + 1 < _
    rw [List.length_append, List.length_cons, List.length_cons, List.length_cons]
    omega
  · change some b = (as ++ a :: zone :: b :: bs)[as.length + 1 + 1]?
    rw [List.getElem?_append_right (by omega)]
    simp [Nat.add_assoc]

end Insert

end LinkedList
end EpochKernel.Util
