import EpochKernel.Util.Deque

/-! The cursor of `operator[]`: a node with its index, kept across calls. An indexed read is right
whenever the cursor is; removals in front of the cursor leave its index one too high. -/
namespace EpochKernel.Util
open Library

namespace LinkedList
variable {α : Type*}

/-- The cursor is unset or stands on the node at its index. -/
def Coherent (l : LinkedList α) (xs : List α) : Prop :=
  l.current = none ∨ l.current = xs[l.currentI]?

instance [DecidableEq α] (l : LinkedList α) (xs : List α) : Decidable (l.Coherent xs) :=
  inferInstanceAs (Decidable (_ ∨ _))

/-- The position `operator[]` takes the cursor to be at. -/
def position (l : LinkedList α) : ℕ := if l.current = none then 0 else l.currentI

/-- The walk starts from an end, or the low 32 bits of the distance, which are what `sign` is
given, have the sign of the distance. -/
def Straight (index : ℕ) (l : LinkedList α) : Prop :=
  let diffMiddle : ℤ := index - l.position
  (diffMiddle < 0 ∧ (index : ℤ) < (abs (Int32.ofInt diffMiddle)).toInt) ∨
  (l.len : ℤ) - index - 1 < diffMiddle ∨ sign (Int32.ofInt diffMiddle) = diffMiddle.sign

instance (index : ℕ) (l : LinkedList α) : Decidable (Straight index l) :=
  inferInstanceAs (Decidable (_ ∨ _ ∨ _))

variable {H : Links α} {l : LinkedList α} {xs : List α} {p n index : ℕ}

lemma Linked.getElem? (h : Linked H xs) (hp : p + 1 < xs.length) :
    H.next xs[p]? = xs[p + 1]? ∧ H.prev xs[p + 1]? = xs[p]? := by
  have hxy := List.isChain_iff_getElem.mp h p hp
  rw [List.getElem?_eq_getElem hp, List.getElem?_eq_getElem (Nat.lt_of_succ_lt hp)]
  exact hxy

lemma walk_next (h : Linked H xs) (hn : p + n < xs.length) :
    walk H 1 n xs[p]? = some xs[p + n]? := by
  induction n generalizing p with
  | zero => rfl
  | succ n ih =>
    have hp : p + 1 < xs.length := by omega
    rw [walk, if_pos rfl, (h.getElem? hp).1, List.getElem?_eq_getElem hp]
    dsimp only
    rw [← List.getElem?_eq_getElem hp, ih (by omega)]
    congr 2
    omega

lemma walk_prev (h : Linked H xs) (hp : p + n < xs.length) :
    walk H (-1) n xs[p + n]? = some xs[p]? := by
  induction n with
  | zero => rfl
  | succ n ih =>
    have hlt : p + n < xs.length := by omega
    have hprev : H.prev xs[p + n + 1]? = xs[p + n]? := (h.getElem? hp).2
    rw [walk, if_neg (by decide), ← Nat.add_assoc, hprev, List.getElem?_eq_getElem hlt]
    dsimp only
    rw [← List.getElem?_eq_getElem hlt, ih hlt]

/-- A walk from a known position in the direction of the index ends at the index. -/
lemma walk_arrives (h : Linked H xs) (hlen : xs.length ≤ 2 ^ 64) (hp : p < xs.length)
    (hi : index < xs.length) {dir : ℤ} (hdir : p ≠ index → dir = ((index : ℤ) - p).sign) :
    ((iterations dir p index).bind fun n => walk H dir n xs[p]?) = some xs[index]? := by
  rcases Nat.lt_trichotomy p index with hlt | rfl | hgt
  · have hd : dir = 1 := by
      rw [hdir (Nat.ne_of_lt hlt)]
      exact Int.sign_eq_one_of_pos (by omega)
    have hn : (index + 2 ^ 64 - p) % 2 ^ 64 = index - p := by omega
    rw [iterations, if_neg (Nat.ne_of_lt hlt), hd, if_neg (by decide), if_pos rfl, hn]
    change walk H 1 (index - p) xs[p]? = _
    rw [walk_next h (by omega)]
    congr 2
    omega
  · rw [iterations, if_pos rfl]
    rfl
  · have hd : dir = -1 := by
      rw [hdir (Nat.ne_of_gt hgt)]
      exact Int.sign_eq_neg_one_of_neg (by omega)
    have hn : (p + 2 ^ 64 - index) % 2 ^ 64 = p - index := by omega
    rw [iterations, if_neg (Nat.ne_of_gt hgt), hd, if_neg (by decide), if_neg (by decide), hn]
    change walk H (-1) (p - index) xs[p]? = _
    have hw := walk_prev (n := p - index) h (show index + (p - index) < xs.length by omega)
    rwa [Nat.add_sub_cancel' (Nat.le_of_lt hgt)] at hw

/-- A coherent cursor makes `operator[]` return the node at the index and stays there. -/
theorem get_coherent (h : Represents H l xs) (hlen : xs.length ≤ 2 ^ 64) (hc : l.Coherent xs)
    (hi : index < xs.length) (hs : Straight index l) :
    get index l H = some (xs[index]?, { l with current := xs[index]?, currentI := index }) := by
  have hne : xs ≠ [] := List.ne_nil_of_length_pos (by omega)
  have hlast : xs.length - 1 < xs.length := by omega
  have hcur : (if l.current = none then { l with current := l.start, currentI := 0 } else l) =
      { l with current := xs[l.position]?, currentI := l.position } ∧ l.position < xs.length := by
    by_cases hn : l.current = none
    · rw [if_pos hn, position, if_pos hn, h.start_eq hne, List.head?_eq_getElem?]
      exact ⟨rfl, by omega⟩
    · rw [if_neg hn, position, if_neg hn]
      have he := hc.resolve_left hn
      rw [← he]
      refine ⟨rfl, ?_⟩
      by_contra hge
      exact hn (he.trans (List.getElem?_eq_none (Nat.le_of_not_lt hge)))
  obtain ⟨hcur, hp⟩ := hcur
  have hlen' : ¬ l.len ≤ index := by
    rw [h.len_eq]
    omega
  rw [get, if_neg hlen', hcur]
  dsimp only
  split_ifs with h1 h2
  · dsimp only
    rw [h.start_eq hne, List.head?_eq_getElem?,
      walk_arrives h.linked hlen (List.length_pos_of_ne_nil hne) hi fun h0 =>
        (Int.sign_eq_one_of_pos (by omega)).symm]
  · dsimp only
    rw [h.end_eq hne, List.getLast?_eq_getElem?, h.len_eq,
      walk_arrives h.linked hlen hlast hi fun h0 => (Int.sign_eq_neg_one_of_neg (by omega)).symm]
  · dsimp only
    rw [walk_arrives h.linked hlen hp hi fun _ => (hs.resolve_left h1).resolve_left h2]

/-- Under a coherent cursor that is set, the node and its index. -/
lemma Coherent.cases (hc : l.Coherent xs) :
    l.current = none ∨ ∃ x, l.current = some x ∧ l.currentI < xs.length ∧
      xs[l.currentI]? = some x := by
  cases hcur : l.current with
  | none => exact Or.inl rfl
  | some x =>
    have hx : xs[l.currentI]? = some x := by
      rcases hc with hn | he
      · rw [hcur] at hn
        cases hn
      · exact he.symm.trans hcur
    exact Or.inr ⟨x, rfl, (List.getElem?_eq_some_iff.mp hx).1, hx⟩

/-- Up to 2^32 nodes every walk goes in the right direction: where the low bits of the distance have
another sign, an end is nearer than the cursor. -/
lemma Coherent.straight (hc : l.Coherent xs) (hlen : l.len = xs.length) (hshort : l.len ≤ 2 ^ 32)
    (hi : index < l.len) : Straight index l := by
  have hp : l.position < l.len := by
    rw [position]
    rcases hc.cases with hn | ⟨x, hx, hlt, -⟩
    · rw [if_pos hn]
      omega
    · rw [if_neg (by simp [hx]), hlen]
      exact hlt
  unfold Straight
  dsimp only
  by_cases hfar : (index : ℤ) - l.position < -2 ^ 31
  · have hd : ((index : ℤ) - l.position).bmod (2 ^ 32) = index - l.position + 2 ^ 32 := by
      rw [← Int.add_bmod_right]
      exact Int.bmod_eq_of_le (by omega) (by omega)
    have ht : (Int32.ofInt ((index : ℤ) - l.position)).toInt = index - l.position + 2 ^ 32 := by
      rw [Int32.toInt_ofInt]
      exact hd
    refine .inl ⟨by omega, ?_⟩
    rw [abs_of_nonneg (by omega), ht]
    omega
  · by_cases hend : (l.len : ℤ) - index - 1 < index - l.position
    · exact .inr (.inl hend)
    · have hd : ((index : ℤ) - l.position).bmod (2 ^ 32) = index - l.position :=
        Int.bmod_eq_of_le (by omega) (by omega)
      have ht : (Int32.ofInt ((index : ℤ) - l.position)).toInt = index - l.position := by
        rw [Int32.toInt_ofInt]
        exact hd
      exact .inr (.inr (by rw [sign_eq, ht]))

section Mutators
variable [DecidableEq α] {zone : α}

lemma prepend_cursor : (prepend zone l H).1.current = l.current ∧
    (prepend zone l H).1.currentI = l.currentI + 1 := by
  rw [prepend]
  split_ifs <;> exact ⟨rfl, rfl⟩

lemma append_cursor : (append zone l H).1.current = l.current ∧
    (append zone l H).1.currentI = l.currentI := by
  rw [append]
  split_ifs <;> exact ⟨rfl, rfl⟩

lemma popStart_cursor (h : l.len ≠ 0) :
    (popStart l H).2.current = (if l.current = l.start then none else l.current) ∧
    (popStart l H).2.currentI = l.currentI := by
  rw [popStart, if_neg h]
  dsimp only
  split_ifs <;> exact ⟨rfl, rfl⟩

lemma pop_cursor (h : l.len ≠ 0) :
    (pop l H).2.current = (if l.current = l.end_ then none else l.current) ∧
    (pop l H).2.currentI = l.currentI := by
  rw [pop, if_neg h]
  dsimp only
  split_ifs <;> exact ⟨rfl, rfl⟩

lemma removeP_cursor (zone : α) (h : l.len ≠ 0) :
    (removeP zone l H).1.current = (if l.current = some zone then none else l.current) ∧
    (removeP zone l H).1.currentI = l.currentI := by
  rw [removeP, if_neg h]
  dsimp only
  split_ifs <;> exact ⟨rfl, rfl⟩

lemma Coherent.prepend (hc : l.Coherent xs) : (prepend zone l H).1.Coherent (zone :: xs) := by
  rw [Coherent, prepend_cursor.1, prepend_cursor.2]
  exact hc

lemma Coherent.append (hc : l.Coherent xs) : (append zone l H).1.Coherent (xs ++ [zone]) := by
  rw [Coherent, append_cursor.1, append_cursor.2]
  rcases hc.cases with hn | ⟨x, hx, hlt, he⟩
  · exact Or.inl hn
  · rw [List.getElem?_append_left hlt, he]
    exact Or.inr hx

lemma Coherent.pop {x : α} (h : Represents H l (xs ++ [x])) (hc : l.Coherent (xs ++ [x])) :
    (pop l H).2.Coherent xs := by
  have hlen : l.len ≠ 0 := by simp [h.len_eq]
  have hend : l.end_ = some x := by simpa using h.end_eq (by simp)
  rw [Coherent, (pop_cursor hlen).1, (pop_cursor hlen).2, hend]
  rcases hc.cases with hn | ⟨y, hy, hlt, he⟩
  · left
    rw [hn, if_neg (by simp)]
  · by_cases hyx : y = x
    · left
      rw [hy, hyx, if_pos rfl]
    · right
      have hlt' : l.currentI < xs.length := by
        rw [List.length_append, List.length_singleton] at hlt
        by_contra hge
        have hi : l.currentI = xs.length := by omega
        rw [hi, List.getElem?_concat_length] at he
        exact hyx (Option.some.inj he).symm
      rw [hy, if_neg (by simpa using hyx), ← he, List.getElem?_append_left hlt']

/-- Removing the first node keeps the cursor coherent if the cursor is unset or on that node,
and only then. -/
lemma Coherent.popStart_iff {x : α} (h : Represents H l (x :: xs)) (hc : l.Coherent (x :: xs)) :
    (popStart l H).2.Coherent xs ↔ l.current = none ∨ l.currentI = 0 := by
  have hlen : l.len ≠ 0 := by simp [h.len_eq]
  have hstart : l.start = some x := h.start_eq (by simp)
  rw [Coherent, (popStart_cursor hlen).1, (popStart_cursor hlen).2, hstart]
  rcases hc.cases with hn | ⟨y, hy, hlt, he⟩
  · simp [hn]
  · rw [hy]
    cases hi : l.currentI with
    | zero =>
      rw [hi, List.getElem?_cons_zero] at he
      simp [Option.some.inj he]
    | succ i =>
      have hyx : y ≠ x := by
        rintro rfl
        rw [hi, List.getElem?_cons_succ] at he
        exact (List.nodup_cons.mp h.nodup).1 (List.mem_of_getElem? he)
      rw [if_neg (by simpa using hyx)]
      refine iff_of_false ?_ (by simp)
      rintro (hno | hsh)
      · cases hno
      · have he' : (x :: xs)[i + 1 + 1]? = some y := hsh.symm
        rw [hi] at he hlt
        have := (List.getElem?_inj hlt h.nodup).mp (he.trans he'.symm)
        omega

/-- The same for any node: the cursor has to be unset, or not behind it. -/
lemma Coherent.removeP_iff (h : Represents H l xs) (hc : l.Coherent xs) (hz : zone ∈ xs) :
    (removeP zone l H).1.Coherent (xs.erase zone) ↔
      l.current = none ∨ l.currentI ≤ xs.idxOf zone := by
  have hlen : l.len ≠ 0 := by
    rw [h.len_eq]
    exact (List.length_pos_of_mem hz).ne'
  have hidx := List.idxOf_lt_length_of_mem hz
  have hzone : xs[xs.idxOf zone]? = some zone := by
    rw [List.getElem?_eq_getElem hidx, List.getElem_idxOf]
  rw [Coherent, (removeP_cursor _ hlen).1, (removeP_cursor _ hlen).2,
    List.erase_eq_eraseIdx_of_idxOf rfl]
  rcases hc.cases with hn | ⟨y, hy, hlt, he⟩
  · simp [hn]
  · rw [hy]
    by_cases hyz : y = zone
    · subst hyz
      have hi : l.currentI = xs.idxOf y := (List.getElem?_inj hlt h.nodup).mp (he.trans hzone.symm)
      simp [hi]
    · rw [if_neg (by simpa using hyz)]
      rcases Nat.lt_trichotomy l.currentI (xs.idxOf zone) with hlt' | heq | hgt
      · rw [List.getElem?_eraseIdx_of_lt hlt', he]
        exact iff_of_true (Or.inr rfl) (Or.inr (Nat.le_of_lt hlt'))
      · rw [heq, hzone] at he
        exact absurd (Option.some.inj he).symm hyz
      · rw [List.getElem?_eraseIdx_of_ge (Nat.le_of_lt hgt)]
        refine iff_of_false ?_ (by simpa using hgt)
        rintro (hno | hsh)
        · cases hno
        · have := (List.getElem?_inj hlt h.nodup).mp (he.trans hsh)
          omega

/-- `remove` of the node under a coherent cursor. -/
theorem remove_coherent {as bs : List α} (h : Represents H l (as ++ zone :: bs))
    (hc : l.current = some zone) (hi : l.currentI = as.length) :
    ∃ l' H', remove as.length l H = some (some zone, l', H') ∧ Represents H' l' (as ++ bs) ∧
      l'.Coherent (as ++ bs) ∧ ∀ y ∉ as ++ zone :: bs, H' y = H y := by
  have hlen : l.len = as.length + (bs.length + 1) := by simpa using h.len_eq
  have hcoh : l.Coherent (as ++ zone :: bs) := by
    right
    rw [hc, hi, List.getElem?_append_right le_rfl, Nat.sub_self, List.getElem?_cons_zero]
  rcases List.eq_nil_or_concat bs with rfl | ⟨bs', b', hb⟩
  · obtain ⟨hv, hr⟩ := pop_concat h
    have hco := Coherent.pop h hcoh
    rw [List.append_nil]
    refine ⟨_, H, ?_, hr, hco, fun _ _ => rfl⟩
    rw [remove, if_neg (by omega), if_pos (by simpa using hlen.symm), hv]
  cases bs with
  | nil => simp at hb
  | cons b bs =>
    rw [List.length_cons] at hlen
    rcases List.eq_nil_or_concat as with rfl | ⟨as, a, rfl⟩
    · obtain ⟨hv, hr⟩ := popStart_cons h
      have hco := (Coherent.popStart_iff h hcoh).mpr (Or.inr hi)
      refine ⟨_, H, ?_, hr, hco, fun _ _ => rfl⟩
      rw [List.length_nil] at hlen ⊢
      rw [remove, if_neg (by omega), if_neg (by omega), if_pos rfl, hv]
    · rw [List.concat_eq_append] at h hi hlen ⊢
      rw [List.length_append, List.length_singleton] at hi hlen ⊢
      have h' : Represents H l (as ++ a :: zone :: b :: bs) := by simpa using h
      obtain ⟨l', H', hrem, hr, hcur, hcuri, hH⟩ :=
        remove_cursor h' hc hi (by omega) (by omega)
      refine ⟨l', H', hrem, by simpa using hr, ?_, fun y hy => hH y (by simpa using hy)⟩
      right
      rw [hcur, hcuri, List.getElem?_append_right (by simp)]
      simp

end Mutators
end LinkedList

namespace Deque
variable {α : Type*} [DecidableEq α]

def Coherent (s : Deque α) : Prop := s.list.Coherent s.seq

instance (s : Deque α) : Decidable s.Coherent := inferInstanceAs (Decidable (s.list.Coherent _))

/-- No node in front of the cursor is removed. -/
def Spares (s : Deque α) : Op α → Prop
  | .popStart => s.list.current = none ∨ s.list.currentI = 0
  | .removeP zone => s.list.current = none ∨ s.list.currentI ≤ s.seq.idxOf zone
  | _ => True

/-- Every indexed read inside the list walks in the right direction. -/
def Straight (s : Deque α) : Op α → Prop
  | .index i => i < s.list.len → s.list.Straight i
  | _ => True

instance (s : Deque α) : (op : Op α) → Decidable (s.Spares op)
  | .prepend _ | .append _ | .pop | .index _ => isTrue trivial
  | .popStart => inferInstanceAs (Decidable (_ ∨ _))
  | .removeP _ => inferInstanceAs (Decidable (_ ∨ _))

instance (s : Deque α) : (op : Op α) → Decidable (s.Straight op)
  | .prepend _ | .append _ | .pop | .popStart | .removeP _ => isTrue trivial
  | .index _ => inferInstanceAs (Decidable (_ → _))

variable {s s' : Deque α} {op : Op α}

/-- One operation keeps a coherent cursor coherent exactly when it spares the nodes in front. -/
lemma Coherent.step_iff (hc : s.Coherent) (h : s.Faithful) (hfit : s.seq.length ≤ 2 ^ 64)
    (hs : s.Straight op) (hstep : step s op = some s') : s'.Coherent ↔ s.Spares op := by
  cases op with
  | prepend zone =>
    rw [step, Option.ite_none_left_eq_some] at hstep
    obtain ⟨hz, hs'⟩ := hstep
    cases hs'
    exact iff_of_true (LinkedList.Coherent.prepend hc) trivial
  | append zone =>
    rw [step, Option.ite_none_left_eq_some] at hstep
    obtain ⟨hz, hs'⟩ := hstep
    cases hs'
    exact iff_of_true (LinkedList.Coherent.append hc) trivial
  | popStart =>
    cases hstep
    change (s.list.popStart s.links).2.Coherent s.seq.tail ↔ _
    rcases s with ⟨l, H, _ | ⟨x, xs⟩⟩
    · have hn : l.current = none := by
        rcases hc with hn | he
        · exact hn
        · rw [he, List.getElem?_nil]
      change (l.popStart H).2.Coherent [] ↔ _
      rw [LinkedList.popStart_nil h]
      exact iff_of_true hc (Or.inl hn)
    · exact LinkedList.Coherent.popStart_iff h hc
  | pop =>
    cases hstep
    refine iff_of_true ?_ trivial
    change (s.list.pop s.links).2.Coherent s.seq.dropLast
    obtain ⟨l, H, xs⟩ := s
    change LinkedList.Represents H l xs at h
    change l.Coherent xs at hc
    rcases List.eq_nil_or_concat xs with rfl | ⟨xs, x, rfl⟩
    · rw [LinkedList.pop_nil h]
      exact hc
    · rw [List.concat_eq_append] at h hc ⊢
      rw [List.dropLast_concat]
      exact LinkedList.Coherent.pop h hc
  | removeP zone =>
    rw [step, Option.ite_none_right_eq_some] at hstep
    obtain ⟨hz, hs'⟩ := hstep
    cases hs'
    exact LinkedList.Coherent.removeP_iff h hc hz
  | index i =>
    rw [step, Option.map_eq_some_iff] at hstep
    obtain ⟨⟨z, l⟩, hget, rfl⟩ := hstep
    refine iff_of_true ?_ trivial
    by_cases hi : i < s.list.len
    · have hi' : i < s.seq.length := h.len_eq ▸ hi
      rw [LinkedList.get_coherent h hfit hc hi' (hs hi)] at hget
      cases hget
      exact Or.inr rfl
    · rw [LinkedList.get, if_pos (Nat.le_of_not_lt hi)] at hget
      cases hget
      exact hc

section Runs
variable {links : Links UInt64} {ops : List (Op UInt64)}

/-- The nodes of a list lie at different addresses. -/
lemma Faithful.length_le {s : Deque UInt64} (h : s.Faithful) : s.seq.length ≤ 2 ^ 64 := by
  have hnd : (s.seq.map UInt64.toNat).Nodup :=
    h.nodup.map fun a b he => UInt64.toNat_inj.mp he
  have hsub : s.seq.map UInt64.toNat ⊆ List.range (2 ^ 64) := by
    intro n hn
    obtain ⟨a, -, rfl⟩ := List.mem_map.mp hn
    exact List.mem_range.mpr a.toNat_lt
  simpa using (hnd.subperm hsub).length_le

/-- Where reads walk the right way, the cursor is coherent in every state of a run exactly when
the run removes no node in front of it; then every indexed read returns the node at the index. -/
theorem coherent_iff_spared (hs : Machine.Along step Straight { links := links } ops) :
    (Machine.Throughout step Coherent { links := links } ops ↔
      Machine.Along step Spares { links := links } ops) ∧
    (Machine.Along step Spares { links := links } ops →
      Machine.Throughout step (fun s => ∀ i < s.list.len, s.list.Straight i →
        (s.list.get i s.links).map Prod.fst = some s.seq[i]?) { links := links } ops) := by
  have hinit : Coherent ({ links := links } : Deque UInt64) := Or.inl rfl
  have hiff : Machine.Throughout step Coherent { links := links } ops ↔
      Machine.Along step Spares { links := links } ops := by
    refine Machine.throughout_iff_along_of (I := Faithful) (N := Straight) ?_ ?_
      (faithful_init links) hinit hs
    · intro s op s' h hc hst hsp hstep
      exact ⟨h.step hstep, (hc.step_iff h h.length_le hst hstep).mpr hsp⟩
    · intro s op h hc hst hsp
      have hsome : ∃ s', step s op = some s' := by
        cases op with
        | prepend zone => exact absurd trivial hsp
        | append zone => exact absurd trivial hsp
        | popStart => exact ⟨_, rfl⟩
        | pop => exact absurd trivial hsp
        | removeP zone =>
          have hz : zone ∈ s.seq := by
            by_contra hz
            rcases LinkedList.Coherent.cases hc with hn | ⟨x, -, hlt, -⟩
            · exact hsp (Or.inl hn)
            · exact hsp (Or.inr (by rw [List.idxOf_eq_length hz]; exact hlt.le))
          exact ⟨_, if_pos hz⟩
        | index i => exact absurd trivial hsp
      obtain ⟨s', hstep⟩ := hsome
      exact ⟨s', hstep, fun hc' => hsp ((hc.step_iff h h.length_le hst hstep).mp hc')⟩
  refine ⟨hiff, fun hsp as bs s hsplit hrun i hi hst => ?_⟩
  have hc : s.Coherent := hiff.mpr hsp as bs s hsplit hrun
  have h : s.Faithful := faithful_of_run hrun
  rw [LinkedList.get_coherent h h.length_le hc (h.len_eq ▸ hi) hst]
  rfl

/-- The run adds in front of the cursor and removes behind it. -/
theorem coherent_iff_spared_behind :
    Machine.Throughout step Coherent ({ links := fun _ => ⟨none, none⟩ } : Deque UInt64)
      [.append 1, .append 2, .append 3, .index 1, .prepend 4, .removeP 3, .index 2, .pop] :=
  (coherent_iff_spared (by decide +kernel)).1.mpr (by decide +kernel)

/-- With the cursor on the last of three nodes, taking the first one away leaves the index at 2:
the read of index 1 steps back from there to the wrong node. -/
theorem not_coherent_after_popStart : ∃ s : Deque UInt64,
    Machine.run step { links := fun _ => ⟨none, none⟩ }
      [.append 1, .append 2, .append 3, .index 2, .popStart] = some s ∧ ¬ s.Coherent ∧
    s.seq[1]? = some 3 ∧ (s.list.get 1 s.links).map Prod.fst = some (some 2) := by
  have h : (Machine.run step ({ links := fun _ => ⟨none, none⟩ } : Deque UInt64)
      [.append 1, .append 2, .append 3, .index 2, .popStart]).any (fun s =>
        decide (¬ s.Coherent ∧ s.seq[1]? = some 3 ∧
          (s.list.get 1 s.links).map Prod.fst = some (some 2))) = true := by decide +kernel
  obtain ⟨s, hs, hq⟩ := (Option.any_eq_true _ _).mp h
  exact ⟨s, hs, of_decide_eq_true hq⟩

end Runs

end Deque
end EpochKernel.Util
