import EpochKernel.Util.Lagging

/-! `operator[]`, `insert` and `remove` by position, from any coherent cursor. `insert` and `remove`
change `len` before they look the position up, so the lookup counts from a wrong end. -/
namespace EpochKernel.Util

namespace LinkedList
variable {α : Type*} {H : Links α} {l : LinkedList α} {xs : List α} {index : ℕ}

section Reads

lemma Linked.iterate_next (h : Linked H xs) (hi : index < xs.length) {p : Option α}
    (hp : p = xs.head?) : H.next^[index] p = xs[index]? := by
  induction index with
  | zero => rw [Function.iterate_zero, id, hp, List.head?_eq_getElem?]
  | succ n ih => rw [Function.iterate_succ_apply', ih (Nat.lt_of_succ_lt hi), (h.getElem? hi).1]

/-- `operator[]` returns what following `next` from `start` comes to, and leaves the cursor there. -/
theorem get_eq_iterate (h : Represents H l xs) (hshort : xs.length < 2 ^ 31) (hc : l.Coherent xs)
    (hi : index < l.len) :
    ∃ x l', get index l H = some (some x, l') ∧ H.next^[index] l.start = some x ∧
      Represents H l' xs ∧ l'.Coherent xs ∧ l'.current = some x ∧ l'.currentI = index := by
  have hlt : index < xs.length := h.len_eq ▸ hi
  have hx : xs[index]? = some xs[index] := List.getElem?_eq_getElem hlt
  have hs : Straight index l := hc.straight h.len_eq (by rw [h.len_eq]; omega) hi
  have hget := get_coherent h (by omega) hc hlt hs
  rw [hx] at hget
  refine ⟨_, _, hget, ?_, h.of_fields rfl rfl rfl, ?_, rfl, rfl⟩
  · rw [h.linked.iterate_next hlt (h.start_eq (List.ne_nil_of_length_pos (by omega))), hx]
  · exact .inr hx.symm

/-- A read of the first of three nodes from a cursor on the last one. -/
theorem get_eq_iterate_back :
    ∃ x l', get 0 ⟨3, some 1, some 3, some 3, 2⟩ (fun y : ℕ => ⟨some (y - 1), some (y + 1)⟩) =
        some (some x, l') ∧
      (Links.next fun y : ℕ => ⟨some (y - 1), some (y + 1)⟩)^[0] (some 1) = some x ∧
      Represents (fun y => ⟨some (y - 1), some (y + 1)⟩) l' [1, 2, 3] ∧ l'.Coherent [1, 2, 3] ∧
      l'.current = some x ∧ l'.currentI = 0 :=
  get_eq_iterate (l := ⟨3, some 1, some 3, some 3, 2⟩)
    (show Represents _ _ [1, 2, 3] from
      ⟨rfl, fun _ => rfl, fun _ => rfl, by simp [Linked], by decide⟩) (by decide) (.inr rfl)
    (by decide)

/-- A read of an index from the node there, with the index of the cursor one too high, steps back. -/
lemma get_from_next {i : ℕ} (h : Linked H xs) (hi : i + 1 < xs.length) (hlt : i + 1 < l.len)
    (hcur : l.current = xs[i + 1]?) (hcurI : l.currentI = i + 2) :
    get (i + 1) l H = some (xs[i]?, { l with current := xs[i]?, currentI := i + 1 }) := by
  have hne : l.current ≠ none := by
    rw [hcur, List.getElem?_eq_getElem hi]
    nofun
  have hd : ((i + 1 : ℕ) : ℤ) - l.currentI = -(1 : ℕ) := by
    rw [hcurI]
    omega
  refine get_from_cursor hlt hne ?_ ?_ ?_
  · rw [hd, abs_neg_toInt Nat.one_pos (by norm_num)]
    rintro ⟨-, habs⟩
    omega
  · omega
  · rw [hd, hcurI, hcur]
    have hsteps : (i + 2 + 2 ^ 64 - (i + 1)) % 2 ^ 64 = 1 := by omega
    have hdir : sign (Int32.ofInt (-(1 : ℕ))) = -1 := sign_ofInt (by norm_num) (by norm_num)
    rw [hdir, iterations, if_neg (by omega), if_neg (by decide), if_neg (by decide), hsteps]
    exact walk_prev h hi

end Reads

section Insert
variable [DecidableEq α] {zone : α}

/-- `insert` puts the node at the index and keeps the cursor coherent. -/
def Inserts (index : ℕ) (zone : α) (l : LinkedList α) (H : Links α) (xs : List α) : Prop :=
  ∃ l' H', insert index zone l H = some (true, l', H') ∧
    Represents H' l' (xs.insertIdx index zone) ∧ l'.Coherent (xs.insertIdx index zone)

/-- Between two nodes `insert` leaves the cursor on the node that it has put the new one in front
of, at the index of the new one. -/
lemma insert_inner {b : Bool} {l' : LinkedList α} {H' : Links α} (h0 : index ≠ 0)
    (hlen : index < l.len) (hins : insert index zone l H = some (b, l', H')) :
    ∃ temp, l'.current = some temp ∧ l'.currentI = index ∧ (H' zone).next = some temp := by
  rw [insert, if_neg (by omega), if_neg (by omega), if_neg h0] at hins
  dsimp only at hins
  split at hins
  · next temp l1 hget =>
    split_ifs at hins
    obtain ⟨-, rfl, rfl⟩ := by simpa using hins
    obtain ⟨-, -, -, hcur⟩ := get_fields hget
    obtain ⟨-, hcur, hcurI⟩ := hcur (Option.some_ne_none temp)
    refine ⟨temp, hcur, hcurI, ?_⟩
    simp [Links.setNext]
  · cases hins

/-- With the cursor on the node at the index, `insert` moves the index of the cursor on and looks the
position up from there: it comes to the node before. -/
lemma insert_at_cursor {b : Bool} {l' : LinkedList α} {H' : Links α} {i : ℕ}
    (h : Represents H l xs) (hi : i + 1 < xs.length) (hcur : l.current = xs[i + 1]?)
    (hcurI : l.currentI = i + 1) (hins : insert (i + 1) zone l H = some (b, l', H')) :
    (H' zone).next = xs[i]? := by
  have hlen := h.len_eq
  have hget := get_from_next (l := { l with currentI := i + 2, len := l.len + 1 }) h.linked hi
    (by dsimp only; omega) hcur rfl
  rw [insert, if_neg (by omega), if_neg (by omega), if_neg (Nat.succ_ne_zero i)] at hins
  dsimp only at hins
  rw [if_pos hcurI.ge, hcurI, hget, List.getElem?_eq_getElem (Nat.lt_of_succ_lt hi)] at hins
  dsimp only at hins
  split_ifs at hins
  obtain ⟨-, -, rfl⟩ := by simpa using hins
  rw [List.getElem?_eq_getElem (Nat.lt_of_succ_lt hi)]
  simp [Links.setNext]

/-- `insert` goes right at the two ends, and only there. -/
theorem inserts_iff (h : Represents H l xs) (hc : l.Coherent xs) (hi : index ≤ l.len)
    (hz : zone ∉ xs) : Inserts index zone l H xs ↔ index = 0 ∨ index = l.len := by
  have hlen := h.len_eq
  constructor
  · rintro ⟨l', H', hins, hrep, hcoh⟩
    by_contra hend
    rw [not_or] at hend
    obtain ⟨h0, hlast⟩ := hend
    obtain ⟨temp, hcur, hcurI, hnext⟩ := insert_inner h0 (by omega) hins
    have hlt : index < xs.length := by omega
    have hat : (xs.insertIdx index zone)[index]? = some zone := by
      rw [List.getElem?_insertIdx_self, if_pos (by omega)]
    -- The cursor is coherent only if the new node points to itself.
    obtain rfl : temp = zone := by
      rcases hcoh with hn | he
      · rw [hcur] at hn
        cases hn
      · rw [hcur, hcurI, hat] at he
        exact Option.some.inj he
    have hnext' := (hrep.linked.getElem? (p := index)
      (by rw [List.length_insertIdx_of_le_length (by omega)]; omega)).1
    rw [hat, Links.next, Option.bind_some, hnext, List.getElem?_insertIdx_of_gt (by omega),
      Nat.add_sub_cancel] at hnext'
    exact hz (List.mem_of_getElem? hnext'.symm)
  · rintro (rfl | rfl)
    · rcases Nat.eq_zero_or_pos l.len with hnil | hpos
      · have hxs : xs = [] := h.len_eq_zero.mp hnil
        subst hxs
        refine ⟨_, _, ?_, append_represents h hz, hc.append⟩
        rw [insert, if_neg (by omega), if_pos hnil.symm]
      · refine ⟨_, _, ?_, prepend_represents h hz, hc.prepend⟩
        rw [insert, if_neg (by omega), if_neg (by omega), if_pos rfl]
    · rw [Inserts, hlen, List.insertIdx_length_self]
      refine ⟨_, _, ?_, append_represents h hz, hc.append⟩
      rw [insert, if_neg (by omega), if_pos hlen.symm]

theorem inserts_iff_front :
    Inserts 0 9 ⟨2, some 1, some 2, some 2, 1⟩ (fun y : ℕ => ⟨some (y - 1), some (y + 1)⟩) [1, 2] ↔
      0 = 0 ∨ 0 = 2 :=
  inserts_iff (l := ⟨2, some 1, some 2, some 2, 1⟩)
    ⟨rfl, fun _ => rfl, fun _ => rfl, by simp [Linked], by decide⟩ (.inr rfl) (by decide) (by decide)

/-- With the new node in the middle of two, index 1 stays the index of the last node. -/
theorem not_inserts_middle : ∃ l : LinkedList ℕ, ∃ H : Links ℕ,
    Represents H l [1, 2] ∧ l.Coherent [1, 2] ∧ 1 ≤ l.len ∧ 9 ∉ [1, 2] ∧
      ¬ Inserts 1 9 l H [1, 2] := by
  refine ⟨⟨2, some 1, some 2, none, 0⟩, fun y => ⟨some (y - 1), some (y + 1)⟩,
    ⟨rfl, fun _ => rfl, fun _ => rfl, by simp [Linked], by decide⟩, .inl rfl, by decide, by decide,
    ?_⟩
  rintro ⟨l', H', hins, -, hcoh⟩
  have hl : (insert 1 9 ⟨2, some 1, some 2, none, 0⟩ fun y : ℕ => ⟨some (y - 1), some (y + 1)⟩).map
      (fun r => r.2.1) = some ⟨3, some 1, some 2, some 2, 1⟩ := by decide
  rw [hins] at hl
  obtain rfl := Option.some.inj hl
  exact absurd hcoh (by decide)

end Insert

section Remove

/-- `operator[]` walks from the first node. -/
def FromStart (index : ℕ) (l : LinkedList α) : Prop :=
  (index : ℤ) - l.position < 0 ∧
    (index : ℤ) < (abs (Int32.ofInt (index - l.position))).toInt

/-- Walked from the cursor in the direction that the low 32 bits of the distance give, the links
lead to the node at the index. -/
def Meets (H : Links α) (index : ℕ) (l : LinkedList α) (xs : List α) : Prop :=
  ((iterations (sign (Int32.ofInt (index - l.position))) l.position index).bind fun n =>
    walk H (sign (Int32.ofInt (index - l.position))) n xs[l.position]?) = some xs[index]?

/-- The position is looked up from the start of the list or from the cursor, and is found. -/
def Finds (H : Links α) (index : ℕ) (l : LinkedList α) (xs : List α) : Prop :=
  2 * index + 2 ≤ l.len + l.position ∧ (FromStart index l ∨ Meets H index l xs)

/-- `operator[]` works with the cursor at its position, also when the cursor is unset. -/
lemma get_position (hc : l.Coherent xs) (hstart : l.start = xs[0]?) (hne : xs ≠ [])
    (hlt : index < l.len) : l.position < xs.length ∧
      get index l H = get index { l with current := xs[l.position]?, currentI := l.position } H := by
  have hpos := List.length_pos_of_ne_nil hne
  rcases hc.cases with hn | ⟨x, hx, hin, he⟩
  · rw [position, if_pos hn, ← hstart]
    refine ⟨hpos, ?_⟩
    have hs : l.start ≠ none := by
      rw [hstart, List.getElem?_eq_getElem hpos]
      exact Option.some_ne_none _
    rw [get, get, if_neg (Nat.not_le.mpr hlt), if_neg (Nat.not_le.mpr hlt)]
    simp only [hs, hn, if_true, if_false]
  · have hn : l.current ≠ none := by rw [hx]; exact Option.some_ne_none x
    rw [position, if_neg hn, he, ← hx]
    exact ⟨hin, rfl⟩

/-- The lookup of `remove`, in a list whose `len` is one too small. -/
lemma get_shorter (h : Represents H l xs) (hc : l.Coherent xs) (hlen : xs.length ≤ 2 ^ 64)
    (hi : index + 1 < xs.length) :
    (Finds H index l xs → get index { l with len := l.len - 1 } H =
      some (xs[index]?, { l with len := l.len - 1, current := xs[index]?, currentI := index })) ∧
    ((get index { l with len := l.len - 1 } H).map Prod.fst = some xs[index]? →
      Finds H index l xs) := by
  have hne : xs ≠ [] := List.ne_nil_of_length_pos (by omega)
  have hl := h.len_eq
  have hhead : l.start = xs[0]? := by rw [h.start_eq hne, List.head?_eq_getElem?]
  have hlt : index < l.len - 1 := by omega
  have hboth := get_position (H := H) (l := { l with len := l.len - 1 }) hc hhead hne hlt
  have hp : l.position < xs.length := hboth.1
  have hget : get index { l with len := l.len - 1 } H =
      get index { l with len := l.len - 1, current := xs[l.position]?, currentI := l.position } H :=
    hboth.2
  have hset : xs[l.position]? ≠ none := by
    rw [List.getElem?_eq_getElem hp]
    nofun
  rw [hget]
  by_cases hstart : FromStart index l
  · have hfound := get_from_start (H := H) (z := xs[index]?)
      (l := { l with len := l.len - 1, current := xs[l.position]?, currentI := l.position })
      hlt hset hstart (by
        change (iterations 1 0 index).bind (fun n => walk H 1 n l.start) = _
        rw [hhead]
        exact walk_arrives h.linked hlen (by omega) (by omega) fun h0 =>
          (Int.sign_eq_one_of_pos (by omega)).symm)
    exact ⟨fun _ => hfound, fun _ => ⟨by have := hstart.1; omega, .inl hstart⟩⟩
  by_cases hfit : 2 * index + 2 ≤ l.len + l.position
  · have hend : ¬ ((l.len - 1 : ℕ) : ℤ) - index - 1 < index - l.position := by omega
    refine ⟨fun hf => get_from_cursor hlt hset hstart hend (hf.2.resolve_left hstart), fun hz => ?_⟩
    refine ⟨hfit, .inr ?_⟩
    rw [get, if_neg (Nat.not_le.mpr hlt), if_neg hset] at hz
    dsimp only at hz
    have hstart' : ¬ ((index : ℤ) - l.position < 0 ∧
      (index : ℤ) < (abs (Int32.ofInt (index - l.position))).toInt) := hstart
    rw [if_neg hstart', if_neg hend] at hz
    dsimp only at hz
    split at hz
    · cases hz
    · next zone hw =>
      rw [Option.map_some, Option.some_inj] at hz
      rw [Meets, hw]
      exact congrArg some hz
  · have hfound := get_from_end (H := H) (z := xs[index + 1]?)
      (l := { l with len := l.len - 1, current := xs[l.position]?, currentI := l.position })
      hlt hset (show (0 : ℤ) ≤ index - l.position by omega)
      (show ((l.len - 1 : ℕ) : ℤ) - index - 1 < index - l.position by omega) (by
        -- The last node is one position further than the counter says.
        change (iterations (-1) (l.len - 1 - 1) index).bind (fun n => walk H (-1) n l.end_) = _
        obtain ⟨x, ys, rfl⟩ := List.exists_cons_of_ne_nil hne
        have htail : Linked H ys := h.linked.tail
        rw [h.end_eq hne, List.getLast?_eq_getElem?, hl]
        rw [List.length_cons] at hi hlen ⊢
        rw [Nat.add_sub_cancel, List.getElem?_cons_succ,
          show ys.length = ys.length - 1 + 1 by omega, List.getElem?_cons_succ, Nat.add_sub_cancel]
        exact walk_arrives htail (by omega) (by omega) (by omega) fun h0 =>
          (Int.sign_eq_neg_one_of_neg (by omega)).symm)
    refine ⟨fun hf => absurd hf.1 hfit, fun hz => ?_⟩
    rw [hfound, Option.map_some, Option.some_inj] at hz
    have := (List.getElem?_inj hi h.nodup).mp hz
    omega

/-- Below 2^31 nodes the walk from the cursor meets every node. -/
lemma meets_of_short (h : Represents H l xs) (hc : l.Coherent xs) (hshort : xs.length ≤ 2 ^ 31)
    (hi : index < xs.length) : Meets H index l xs := by
  have hp : l.position < xs.length := by
    rw [position]
    rcases hc.cases with hn | ⟨x, hx, hlt, -⟩
    · rw [if_pos hn]
      omega
    · rw [if_neg (by rw [hx]; exact Option.some_ne_none x)]
      exact hlt
  exact walk_arrives h.linked (by omega) hp hi fun _ => sign_ofInt (by omega) (by omega)

/-- Below 2^31 nodes only the start from the last node goes wrong. -/
lemma finds_iff_of_short (h : Represents H l xs) (hc : l.Coherent xs) (hshort : xs.length ≤ 2 ^ 31)
    (hi : index < xs.length) : Finds H index l xs ↔ 2 * index + 2 ≤ l.len + l.position :=
  ⟨fun hf => hf.1, fun hfit => ⟨hfit, .inr (meets_of_short h hc hshort hi)⟩⟩

/-- What `remove` is to do: nothing from the end of the list on; below, take out the node at the
index and keep the cursor coherent. -/
def Removes [DecidableEq α] (index : ℕ) (l : LinkedList α) (H : Links α) (xs : List α) : Prop :=
  if l.len ≤ index then remove index l H = some (none, l, H)
  else ∃ l' H', remove index l H = some (xs[index]?, l', H') ∧
    Represents H' l' (xs.eraseIdx index) ∧ l'.Coherent (xs.eraseIdx index)

/-- The index is not the length, or the list is empty; the first of several nodes is only removed
with the cursor on it or unset, and an inner one is found. -/
def Removable (H : Links α) (index : ℕ) (l : LinkedList α) (xs : List α) : Prop :=
  if l.len ≤ index then index ≠ l.len ∨ l.len = 0
  else if index + 1 = l.len then True
  else if index = 0 then l.current = none ∨ l.currentI = 0
  else Finds H index l xs

section Deletion
variable [DecidableEq α]

/-- `remove` does the same from every cursor from which it finds the node. -/
lemma remove_of_get {x : α} (h0 : index ≠ 0) (hi : index + 1 < l.len)
    (hget : get index { l with len := l.len - 1 } H =
      some (some x, { l with len := l.len - 1, current := some x, currentI := index })) :
    remove index l H = remove index { l with current := some x, currentI := index } H := by
  have hcur := get_cursor (H := H) (l := { l with len := l.len - 1, current := some x, currentI := index })
    (show index < l.len - 1 by omega) rfl rfl
  rw [remove, remove, if_neg (by omega), if_neg (by omega), if_neg h0,
    if_neg (show ¬ l.len < index by omega), if_neg (show ¬ index + 1 = l.len by omega), if_neg h0, hget]
  dsimp only
  rw [hcur]

lemma removes_inner (h : Represents H l xs) (hc : l.Coherent xs) (hlen : xs.length ≤ 2 ^ 64)
    (h0 : index ≠ 0) (hi : index + 1 < xs.length) :
    Removes index l H xs ↔ Finds H index l xs := by
  have hl := h.len_eq
  obtain ⟨hfind, honly⟩ := get_shorter h hc hlen hi
  rw [Removes, if_neg (by omega)]
  constructor
  · rintro ⟨l', H', hrem, -⟩
    apply honly
    rw [remove, if_neg (by omega), if_neg (by omega), if_neg h0] at hrem
    split at hrem
    · next temp l1 hget =>
      dsimp only at hrem
      split_ifs at hrem <;> simp_all
    · cases hrem
  · intro hf
    have hx : xs[index]? = some xs[index] := List.getElem?_eq_getElem _
    have hget := hfind hf
    rw [hx] at hget
    have hcoh : (xs.take index ++ xs[index] :: xs.drop (index + 1)) = xs := by
      rw [List.cons_getElem_drop_succ, List.take_append_drop]
    have h2 : Represents H { l with current := some xs[index], currentI := index }
        (xs.take index ++ xs[index] :: xs.drop (index + 1)) := by
      rw [hcoh]
      exact h.of_fields rfl rfl rfl
    have htake : (xs.take index).length = index := by
      rw [List.length_take]
      omega
    obtain ⟨l', H', hrem, hrep, hc', -⟩ := remove_coherent h2 rfl htake.symm
    rw [htake] at hrem
    rw [← List.eraseIdx_eq_take_drop_succ] at hrep hc'
    rw [hx, remove_of_get h0 (by omega) hget]
    exact ⟨l', H', hrem, hrep, hc'⟩

lemma Represents.length_le {l : LinkedList UInt64} {H : Links UInt64} {xs : List UInt64}
    (h : Represents H l xs) : xs.length ≤ 2 ^ 64 :=
  Deque.Faithful.length_le (s := { list := l, links := H, seq := xs }) h

lemma removes_past (hge : l.len ≤ index) : Removes index l H xs ↔ index ≠ l.len ∨ l.len = 0 := by
  rw [Removes, if_pos hge]
  rcases Nat.lt_or_eq_of_le hge with hlt | rfl
  · rw [remove, if_pos hlt]
    exact iff_of_true rfl (.inl (Nat.ne_of_gt hlt))
  · rw [remove, if_neg (lt_irrefl _), if_neg (Nat.succ_ne_self _)]
    split_ifs with h0
    · rw [popStart, if_pos h0]
      exact iff_of_true rfl (.inr h0)
    · -- The lookup of the length returns `NULL`, which is then followed.
      rw [get, if_pos (show l.len - 1 ≤ l.len by omega)]
      exact iff_of_false (Option.some_ne_none _).symm (by simp [h0])

lemma removes_last (h : Represents H l xs) (hc : l.Coherent xs) (hlast : index + 1 = l.len) :
    Removes index l H xs := by
  obtain ⟨as, x, rfl⟩ : ∃ as x, xs = as ++ [x] := by
    rcases List.eq_nil_or_concat xs with rfl | ⟨as, x, hx⟩
    · rw [h.len_eq] at hlast
      cases hlast
    · exact ⟨as, x, hx.trans (List.concat_eq_append ..)⟩
  have hi : index = as.length := by
    rw [h.len_eq, List.length_append] at hlast
    exact Nat.succ.inj hlast
  obtain ⟨hv, hrep⟩ := pop_concat h
  have hco := Coherent.pop h hc
  rw [Removes, if_neg (by omega), hi, List.getElem?_concat_length,
    List.eraseIdx_append_of_length_le le_rfl, Nat.sub_self, List.eraseIdx_cons_zero, List.append_nil]
  refine ⟨_, _, ?_, hrep, hco⟩
  rw [remove, if_neg (by omega), if_pos (by omega), hv]

lemma removes_first (h : Represents H l xs) (hc : l.Coherent xs) (hlen : 1 < l.len) :
    Removes 0 l H xs ↔ l.current = none ∨ l.currentI = 0 := by
  obtain ⟨x, ys, rfl⟩ := List.exists_cons_of_ne_nil
    (List.ne_nil_of_length_pos (show 0 < xs.length by have := h.len_eq; omega))
  obtain ⟨hv, hrep⟩ := popStart_cons h
  have hrem : remove 0 l H = some (some x, (popStart l H).2, H) := by
    rw [remove, if_neg (by omega), if_neg (by omega), if_pos rfl, hv]
  rw [Removes, if_neg (by omega), List.getElem?_cons_zero, List.eraseIdx_cons_zero, hrem,
    ← Coherent.popStart_iff h hc]
  constructor
  · rintro ⟨l', H', he, -, hco⟩
    obtain ⟨-, hlist⟩ := Prod.mk.inj (Option.some.inj he)
    rwa [(Prod.mk.inj hlist).1]
  · exact fun hco => ⟨_, _, rfl, hrep, hco⟩

/-- `remove` goes right exactly where the index is past the end, is that of the last node, is that
of the first one under the cursor, or is found. -/
theorem removes_iff {l : LinkedList UInt64} {H : Links UInt64} {xs : List UInt64}
    (h : Represents H l xs) (hc : l.Coherent xs) : Removes index l H xs ↔ Removable H index l xs := by
  have hl := h.len_eq
  rw [Removable]
  split_ifs with hge hlast h0
  · exact removes_past hge
  · exact iff_of_true (removes_last h hc hlast) trivial
  · rw [h0]
    exact removes_first h hc (by omega)
  · exact removes_inner h hc h.length_le h0 (by omega)

theorem removes_iff_middle :
    Removes 1 ⟨3, some 1, some 3, some 3, 2⟩ (fun y : UInt64 => ⟨some (y - 1), some (y + 1)⟩)
        [1, 2, 3] ↔
      Removable (fun y : UInt64 => ⟨some (y - 1), some (y + 1)⟩) 1
        ⟨3, some 1, some 3, some 3, 2⟩ [1, 2, 3] :=
  removes_iff (l := ⟨3, some 1, some 3, some 3, 2⟩)
    (show Represents (fun y : UInt64 => ⟨some (y - 1), some (y + 1)⟩) _ [1, 2, 3] from
      ⟨rfl, fun _ => rfl, fun _ => rfl, by simp [Linked], by decide⟩) (.inr rfl)

/-- Of five nodes with the cursor unset, the lookup of index 2 starts from the last one and takes
the fourth one out. -/
theorem not_removes_inner : ∃ l : LinkedList UInt64, ∃ H : Links UInt64,
    Represents H l [1, 2, 3, 4, 5] ∧ l.Coherent [1, 2, 3, 4, 5] ∧
      ¬ Removes 2 l H [1, 2, 3, 4, 5] := by
  refine ⟨⟨5, some 1, some 5, none, 0⟩, fun y => ⟨some (y - 1), some (y + 1)⟩,
    ⟨rfl, fun _ => rfl, fun _ => rfl, by simp [Linked], by decide⟩, .inl rfl, ?_⟩
  rw [Removes, if_neg (by decide)]
  rintro ⟨l', H', hrem, -⟩
  have hr : (remove 2 ⟨5, some 1, some 5, none, 0⟩ fun y : UInt64 =>
      ⟨some (y - 1), some (y + 1)⟩).map Prod.fst = some (some 4) := by decide +kernel
  rw [hrem, Option.map_some, Option.some_inj] at hr
  exact absurd hr (by simp)

end Deletion

end Remove

end LinkedList
end EpochKernel.Util
