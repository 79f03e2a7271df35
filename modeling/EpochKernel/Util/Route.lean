import EpochKernel.Util.Lagging

/-! The way `operator[]` takes: from the start, the end or the cursor. The distance in front of the
cursor goes through `abs`, which makes it 2 too short, before the start is compared with it. -/
namespace EpochKernel.Util
open Library

namespace LinkedList
variable {α : Type*}

/-- The pointer walk of `operator[]`, with the links it follows counted. -/
def walkWithLinks (H : Links α) (dir : ℤ) : ℕ → Option α → ℕ → Option (Option α × ℕ)
  | 0, zone, links => some (zone, links)
  | n + 1, zone, links =>
    match (if dir = 1 then H.next zone else H.prev zone) with
    | none => none
    | some x => walkWithLinks H dir n (some x) (links + 1)

/-- `operator[]`, with the links it follows counted. -/
def getWithLinks (index : ℕ) (l : LinkedList α) (H : Links α) :
    Option ((Option α × LinkedList α) × ℕ) :=
  if l.len ≤ index then some ((none, l), 0)
  else
    let l := if l.current = none then { l with current := l.start, currentI := 0 } else l
    let diffStart : ℤ := index
    let diffEnd : ℤ := l.len - index - 1
    let diffMiddle : ℤ := index - l.currentI
    let (zone, i, dir) : Option α × ℕ × ℤ :=
      if diffMiddle < 0 ∧ diffStart < (abs (Int32.ofInt diffMiddle)).toInt then (l.start, 0, 1)
      else if diffEnd < diffMiddle then (l.end_, l.len - 1, -1)
      else (l.current, l.currentI, sign (Int32.ofInt diffMiddle))
    match (iterations dir i index).bind fun n => walkWithLinks H dir n zone 0 with
    | none => none
    | some (zone, links) => some ((zone, { l with current := zone, currentI := index }), links)

variable {H : Links α} {l : LinkedList α} {xs : List α} {index p : ℕ}

lemma walkWithLinks_eq (dir : ℤ) (n : ℕ) (zone : Option α) (links : ℕ) :
    walkWithLinks H dir n zone links = (walk H dir n zone).map fun z => (z, links + n) := by
  induction n generalizing zone links with
  | zero => rfl
  | succ n ih =>
    rw [walkWithLinks, walk]
    cases (if dir = 1 then H.next zone else H.prev zone) with
    | none => rfl
    | some x =>
      have hlinks : links + 1 + n = links + (n + 1) := by omega
      dsimp only
      rw [ih, hlinks]

lemma walkWithLinks_fst (dir : ℤ) (n : Option ℕ) (zone : Option α) (l : LinkedList α) :
    (match n.bind fun n => walkWithLinks H dir n zone 0 with
      | none => none
      | some (zone, links) =>
        some ((zone, { l with current := zone, currentI := index }), links)).map Prod.fst =
    match n.bind fun n => walk H dir n zone with
      | none => none
      | some zone => some (zone, { l with current := zone, currentI := index }) := by
  cases n with
  | none => rfl
  | some n =>
    rw [Option.bind_some, Option.bind_some, walkWithLinks_eq]
    cases walk H dir n zone <;> rfl

/-- Without the count it is `operator[]`. -/
theorem getWithLinks_value (index : ℕ) (l : LinkedList α) (H : Links α) :
    (getWithLinks index l H).map Prod.fst = get index l H := by
  rw [getWithLinks, get]
  split
  · rfl
  · exact walkWithLinks_fst _ _ _ _

/-- The counter runs over the distance. -/
lemma iterations_eq {dir : ℤ} (hp : p < 2 ^ 64) (hi : index < 2 ^ 64)
    (hdir : p ≠ index → dir = ((index : ℤ) - p).sign) :
    iterations dir p index = some ((index : ℤ) - p).natAbs := by
  rcases Nat.lt_trichotomy p index with hlt | rfl | hgt
  · have hd : dir = 1 := by
      rw [hdir (Nat.ne_of_lt hlt)]
      exact Int.sign_eq_one_of_pos (by omega)
    rw [iterations, if_neg (Nat.ne_of_lt hlt), hd, if_neg (by decide), if_pos rfl]
    congr 1
    omega
  · rw [iterations, if_pos rfl, sub_self, Int.natAbs_zero]
  · have hd : dir = -1 := by
      rw [hdir (Nat.ne_of_gt hgt)]
      exact Int.sign_eq_neg_one_of_neg (by omega)
    rw [iterations, if_neg (Nat.ne_of_gt hgt), hd, if_neg (by decide), if_neg (by decide)]
    congr 1
    omega

/-- From a known position in the direction of the index, the links are the distance. -/
lemma walkWithLinks_arrives (h : Linked H xs) (hlen : xs.length ≤ 2 ^ 64) (hp : p < xs.length)
    (hi : index < xs.length) {dir : ℤ} (hdir : p ≠ index → dir = ((index : ℤ) - p).sign) :
    ((iterations dir p index).bind fun n => walkWithLinks H dir n xs[p]? 0) =
      some (xs[index]?, ((index : ℤ) - p).natAbs) := by
  have hw := walk_arrives h hlen hp hi hdir
  rw [iterations_eq (by omega) (by omega) hdir] at hw ⊢
  rw [Option.bind_some] at hw ⊢
  rw [walkWithLinks_eq, hw, Option.map_some, Nat.zero_add]

/-- The links `operator[]` follows. From a cursor just behind twice the index it goes back, although
the start is nearer. -/
def links (index : ℕ) (l : LinkedList α) : ℕ :=
  if l.currentI = 2 * index + 1 ∨ l.currentI = 2 * index + 2 then l.currentI - index
  else min index (min (l.len - 1 - index) ((index : ℤ) - l.currentI).natAbs)

lemma Coherent.currentI_lt (hc : l.Coherent xs) (hset : l.current ≠ none) :
    l.currentI < xs.length := by
  obtain ⟨-, -, hlt, -⟩ := hc.cases.resolve_left hset
  exact hlt

theorem getWithLinks_coherent (h : Represents H l xs) (hshort : l.len < 2 ^ 31)
    (hc : l.Coherent xs) (hset : l.current ≠ none) (hi : index < l.len) :
    getWithLinks index l H =
      some ((xs[index]?, { l with current := xs[index]?, currentI := index }), links index l) := by
  have hlen := h.len_eq
  have hne : xs ≠ [] := List.ne_nil_of_length_pos (by omega)
  have hp := hc.currentI_lt hset
  have habs (hneg : index < l.currentI) :
      (abs (Int32.ofInt ((index : ℤ) - l.currentI))).toInt = (l.currentI : ℤ) - index - 2 := by
    have hd : (index : ℤ) - l.currentI = -((l.currentI - index : ℕ) : ℤ) := by omega
    rw [hd, abs_neg_toInt (by omega) (by omega)]
    omega
  rw [getWithLinks, if_neg (Nat.not_le.mpr hi), if_neg hset]
  dsimp only
  split_ifs with hstart hend
  · obtain ⟨hneg, hlt⟩ := hstart
    rw [habs (by omega)] at hlt
    have hway : ((index : ℤ) - (0 : ℕ)).natAbs = links index l := by
      rw [links, if_neg (by omega)]
      omega
    dsimp only
    rw [h.start_eq hne, List.head?_eq_getElem?, walkWithLinks_arrives h.linked (by omega)
      (List.length_pos_of_ne_nil hne) (by omega) fun _ => (Int.sign_eq_one_of_pos (by omega)).symm,
      hway]
  · have hway : ((index : ℤ) - (xs.length - 1 : ℕ)).natAbs = links index l := by
      rw [links, if_neg (by omega)]
      omega
    dsimp only
    rw [h.end_eq hne, List.getLast?_eq_getElem?, hlen, walkWithLinks_arrives h.linked (by omega)
      (by omega) (by omega) fun _ => (Int.sign_eq_neg_one_of_neg (by omega)).symm, hway]
  · have hway : ((index : ℤ) - l.currentI).natAbs = links index l := by
      by_cases hneg : index < l.currentI
      · rw [habs hneg] at hstart
        rw [links]
        split_ifs <;> omega
      · rw [links, if_neg (by omega)]
        omega
    dsimp only
    rw [hc.resolve_left hset, walkWithLinks_arrives h.linked (by omega) hp (by omega) fun _ =>
      sign_ofInt (by omega) (by omega), hway]

/-- `operator[]` takes the shortest way exactly if the index of the cursor is neither one nor two
more than twice the index. -/
theorem getWithLinks_shortest_iff (h : Represents H l xs) (hshort : l.len < 2 ^ 31)
    (hc : l.Coherent xs) (hset : l.current ≠ none) (hi : index < l.len) :
    (getWithLinks index l H).map Prod.snd =
        some (min index (min (l.len - 1 - index) ((index : ℤ) - l.currentI).natAbs)) ↔
      l.currentI ≠ 2 * index + 1 ∧ l.currentI ≠ 2 * index + 2 := by
  have hlen := h.len_eq
  have hp := hc.currentI_lt hset
  rw [getWithLinks_coherent h hshort hc hset hi, Option.map_some, Option.some_inj, links]
  split_ifs with hslip
  · exact iff_of_false (by omega) (by omega)
  · exact iff_of_true rfl (by omega)

/-- From the last of four nodes the read of the one before goes back over one link. -/
theorem getWithLinks_shortest_back :
    (getWithLinks 2 ⟨4, some 1, some 4, some 4, 3⟩
      (fun y : ℕ => ⟨some (y - 1), some (y + 1)⟩)).map Prod.snd = some (min 2 (min 1 1)) :=
  (getWithLinks_shortest_iff (l := ⟨4, some 1, some 4, some 4, 3⟩)
    (show Represents _ _ [1, 2, 3, 4] from
      ⟨rfl, fun _ => rfl, fun _ => rfl, by simp [Linked], by decide⟩) (by decide) (.inr rfl)
    (by decide) (by decide)).mpr (by decide)

/-- With the cursor on the second of two appended nodes, the read of the first one follows a link,
although the list starts there. -/
theorem not_getWithLinks_shortest : ∃ s : Deque UInt64,
    Machine.run Deque.step { links := fun _ => ⟨none, none⟩ }
      [.append 1, .append 2, .index 1] = some s ∧ Represents s.links s.list s.seq ∧
    s.list.Coherent s.seq ∧ s.list.current ≠ none ∧ 0 < s.list.len ∧ s.list.len < 2 ^ 31 ∧
    (getWithLinks 0 s.list s.links).map Prod.snd = some 1 ∧
    min 0 (min (s.list.len - 1 - 0) (((0 : ℕ) : ℤ) - s.list.currentI).natAbs) ≠ 1 := by
  have h : (Machine.run Deque.step ({ links := fun _ => ⟨none, none⟩ } : Deque UInt64)
      [.append 1, .append 2, .index 1]).any (fun s =>
        decide (s.list.Coherent s.seq ∧ s.list.current ≠ none ∧ 0 < s.list.len ∧
          s.list.len < 2 ^ 31 ∧ (getWithLinks 0 s.list s.links).map Prod.snd = some 1 ∧
          min 0 (min (s.list.len - 1 - 0) (((0 : ℕ) : ℤ) - s.list.currentI).natAbs) ≠ 1))
      = true := by decide +kernel
  obtain ⟨s, hs, hq⟩ := (Option.any_eq_true _ _).mp h
  exact ⟨s, hs, Deque.faithful_of_run hs, of_decide_eq_true hq⟩

end LinkedList
end EpochKernel.Util
