import EpochKernel.Util.Word

/-! The intrusive list of `util/linked_list.cpp`. The link fields live in the listed objects, so
every operation works on the list head and on one memory of link fields shared by all lists.
Values left over in removed nodes, in boundary nodes and in an emptied head are kept as they are. -/
namespace EpochKernel.Util

/-- `NULL` is `none`. -/
structure ListNode (α : Type*) where
  prev : Option α
  next : Option α
  deriving DecidableEq, Repr

/-- The link fields of every object in memory. -/
abbrev Links (α : Type*) := α → ListNode α

variable {α : Type*}

/-- `p->prev` and `p->next`. -/
def Links.prev (H : Links α) (p : Option α) : Option α := p.bind fun x => (H x).prev
def Links.next (H : Links α) (p : Option α) : Option α := p.bind fun x => (H x).next

structure LinkedList (α : Type*) where
  len : ℕ := 0
  start : Option α := none
  end_ : Option α := none
  current : Option α := none
  currentI : ℕ := 0
  deriving DecidableEq, Repr

namespace LinkedList

/-- Consecutive nodes point at each other; the outer links of the ends are unconstrained. -/
def Linked (H : Links α) (xs : List α) : Prop :=
  xs.IsChain fun x y => (H x).next = some y ∧ (H y).prev = some x

/-- The list head and the link fields store the sequence `xs`. -/
structure Represents (H : Links α) (l : LinkedList α) (xs : List α) : Prop where
  len_eq : l.len = xs.length
  start_eq : xs ≠ [] → l.start = xs.head?
  end_eq : xs ≠ [] → l.end_ = xs.getLast?
  linked : Linked H xs
  nodup : xs.Nodup

/-- The nodes met by following `next` from `p`, at most `n` of them. -/
def nodesFrom (H : Links α) : ℕ → Option α → List α
  | 0, _ => []
  | _ + 1, none => []
  | n + 1, some x => x :: nodesFrom H n (H x).next

/-- The nodes met by following `prev` from `p`, at most `n` of them. -/
def nodesTo (H : Links α) : ℕ → Option α → List α
  | 0, _ => []
  | _ + 1, none => []
  | n + 1, some x => x :: nodesTo H n (H x).prev

/-- The stored sequence, read off by walking from `start`. -/
def nodes (H : Links α) (l : LinkedList α) : List α := nodesFrom H l.len l.start

section Representation
variable {H H' : Links α} {l : LinkedList α} {xs : List α}

/-- Only the links between members matter: the last `next` and the first `prev` may change. -/
lemma Linked.congr_inner (h : Linked H xs) (hnd : xs.Nodup)
    (hnext : ∀ x ∈ xs, xs.getLast? ≠ some x → (H' x).next = (H x).next)
    (hprev : ∀ x ∈ xs, xs.head? ≠ some x → (H' x).prev = (H x).prev) : Linked H' xs := by
  refine List.isChain_iff_forall_rel_of_append_cons_cons.mpr ?_
  rintro x y as bs rfl
  have hxy := List.isChain_iff_forall_rel_of_append_cons_cons.mp h rfl
  have hx : (as ++ x :: y :: bs).getLast? ≠ some x := by
    rw [List.getLast?_append_of_ne_nil _ (List.cons_ne_nil _ _), List.getLast?_cons_cons]
    intro hl
    exact (List.nodup_cons.mp (List.nodup_append.mp hnd).2.1).1 (List.mem_of_getLast? hl)
  have hy : (as ++ x :: y :: bs).head? ≠ some y := by
    rw [List.append_cons] at hnd ⊢
    intro hl
    have hmem : y ∈ as ++ [x] := by
      apply List.mem_of_mem_head?
      rw [Option.mem_def, ← hl]
      cases as <;> simp
    exact (List.nodup_append.mp hnd).2.2 y hmem y (by simp) rfl
  rw [hnext x (by simp) hx, hprev y (by simp) hy]
  exact hxy

lemma Linked.congr (h : Linked H xs) (he : ∀ x ∈ xs, H' x = H x) : Linked H' xs := by
  refine List.IsChain.imp_of_mem_imp (fun x y hx hy hxy => ?_) h
  rw [he x hx, he y hy]
  exact hxy

lemma Represents.congr (h : Represents H l xs) (he : ∀ x ∈ xs, H' x = H x) :
    Represents H' l xs :=
  { h with linked := h.linked.congr he }

/-- The cursor fields are not part of the stored sequence. -/
lemma Represents.of_fields {l' : LinkedList α} (h : Represents H l xs) (hl : l'.len = l.len)
    (hs : l'.start = l.start) (he : l'.end_ = l.end_) : Represents H l' xs :=
  ⟨hl.trans h.len_eq, fun hne => hs.trans (h.start_eq hne), fun hne => he.trans (h.end_eq hne),
    h.linked, h.nodup⟩

@[simp] theorem represents_empty (H : Links α) : Represents H {} [] :=
  ⟨rfl, by simp, by simp, List.isChain_nil, List.nodup_nil⟩

lemma nodesFrom_linked (h : Linked H xs) {p : Option α} (hp : xs ≠ [] → p = xs.head?) :
    nodesFrom H xs.length p = xs := by
  induction xs generalizing p with
  | nil => rfl
  | cons x xs ih =>
    rw [hp (by simp), List.length_cons, List.head?_cons, nodesFrom, ih h.tail]
    intro hne
    obtain ⟨y, ys, rfl⟩ := List.exists_cons_of_ne_nil hne
    exact (List.isChain_cons_cons.mp h).1.1

lemma nodesTo_linked (h : Linked H xs) {p : Option α} (hp : xs ≠ [] → p = xs.getLast?) :
    nodesTo H xs.length p = xs.reverse := by
  induction xs using List.reverseRecOn generalizing p with
  | nil => rfl
  | append_singleton xs x ih =>
    have hx : p = some x := by simpa using hp (by simp)
    rw [List.length_append, List.length_singleton, hx, nodesTo, List.reverse_append,
      ih h.left_of_append]
    · rfl
    intro hne
    rw [List.getLast?_eq_some_getLast hne]
    have hlast : xs.getLast hne ∈ xs.getLast? := List.getLast?_eq_some_getLast hne
    exact ((List.isChain_append.mp h).2.2 _ hlast x rfl).2

lemma Represents.nodes_eq (h : Represents H l xs) : nodes H l = xs := by
  rw [nodes, h.len_eq, nodesFrom_linked h.linked h.start_eq]

lemma Represents.len_eq_zero (h : Represents H l xs) : l.len = 0 ↔ xs = [] := by
  rw [h.len_eq, List.length_eq_zero_iff]

end Representation

section Cursor

/-- `n` iterations of the pointer walk of `operator[]`, each followed by `assert(zone)`. -/
def walk (H : Links α) (dir : ℤ) : ℕ → Option α → Option (Option α)
  | 0, zone => some zone
  | n + 1, zone =>
    match (if dir = 1 then H.next zone else H.prev zone) with
    | none => none
    | some x => walk H dir n (some x)

/-- The number of times the 64-bit counter `i` is stepped by `dir` until it equals `index`. -/
def iterations (dir : ℤ) (i index : ℕ) : Option ℕ :=
  if i = index then some 0
  else if dir = 0 then none
  else if dir = 1 then some ((index + 2 ^ 64 - i) % 2 ^ 64)
  else some ((i + 2 ^ 64 - index) % 2 ^ 64)

/-- `operator[]`: the node found and the list with its cursor moved there. The outer `none` stands
for a failed assertion or a walk that never ends. -/
def get (index : ℕ) (l : LinkedList α) (H : Links α) : Option (Option α × LinkedList α) :=
  if l.len ≤ index then some (none, l)
  else
    let l := if l.current = none then { l with current := l.start, currentI := 0 } else l
    let diffStart : ℤ := index
    let diffEnd : ℤ := l.len - index - 1
    let diffMiddle : ℤ := index - l.currentI
    let (zone, i, dir) : Option α × ℕ × ℤ :=
      if diffMiddle < 0 ∧ diffStart < (abs (Int32.ofInt diffMiddle)).toInt then (l.start, 0, 1)
      else if diffEnd < diffMiddle then (l.end_, l.len - 1, -1)
      else (l.current, l.currentI, sign (Int32.ofInt diffMiddle))
    match (iterations dir i index).bind fun n => walk H dir n zone with
    | none => none
    | some zone => some (zone, { l with current := zone, currentI := index })

variable {H : Links α} {l : LinkedList α}

/-- `operator[]` only moves the cursor, and leaves it on the node it returns. -/
lemma get_fields {index : ℕ} {z : Option α} {l' : LinkedList α} (h : get index l H = some (z, l')) :
    l'.len = l.len ∧ l'.start = l.start ∧ l'.end_ = l.end_ ∧
      (z ≠ none → index < l.len ∧ l'.current = z ∧ l'.currentI = index) := by
  rw [get] at h
  split_ifs at h with hlen hcur
  · obtain ⟨rfl, rfl⟩ := Prod.mk.inj (Option.some.inj h)
    exact ⟨rfl, rfl, rfl, fun hz => absurd rfl hz⟩
  all_goals
    dsimp only at h
    split at h
    · cases h
    · obtain ⟨rfl, rfl⟩ := Prod.mk.inj (Option.some.inj h)
      exact ⟨rfl, rfl, rfl, fun _ => ⟨Nat.lt_of_not_le hlen, rfl, rfl⟩⟩

/-- Indexing the node under the cursor returns it and changes nothing. -/
lemma get_cursor {index : ℕ} {x : α} (hlen : index < l.len) (hc : l.current = some x)
    (hi : l.currentI = index) : get index l H = some (some x, l) := by
  have hl : { l with current := some x, currentI := index } = l := by
    rw [← hc, ← hi]
  rw [get, if_neg (Nat.not_le.mpr hlen)]
  simp only [hc, hi, reduceCtorEq, if_false, sub_self]
  have hend : ¬ (l.len : ℤ) - index - 1 < 0 := by omega
  simp only [lt_irrefl, false_and, if_false, hend]
  simp [iterations, walk, hl]

end Cursor
end LinkedList

variable [DecidableEq α]

/-- `p->prev = v`. A store through `NULL` has no effect here; no represented list performs one. -/
def Links.setPrev (H : Links α) : Option α → Option α → Links α
  | none, _ => H
  | some x, v => Function.update H x { H x with prev := v }

/-- `p->next = v`. -/
def Links.setNext (H : Links α) : Option α → Option α → Links α
  | none, _ => H
  | some x, v => Function.update H x { H x with next := v }

namespace LinkedList

def prepend (zone : α) (l : LinkedList α) (H : Links α) : LinkedList α × Links α :=
  let l := { l with len := l.len + 1, currentI := l.currentI + 1 }
  if l.len = 1 then ({ l with start := some zone, end_ := some zone }, H)
  else
    ({ l with start := some zone }, (H.setPrev l.start (some zone)).setNext (some zone) l.start)

def append (zone : α) (l : LinkedList α) (H : Links α) : LinkedList α × Links α :=
  let l := { l with len := l.len + 1 }
  if l.len = 1 then ({ l with start := some zone, end_ := some zone }, H)
  else
    ({ l with end_ := some zone }, (H.setNext l.end_ (some zone)).setPrev (some zone) l.end_)

def popStart (l : LinkedList α) (H : Links α) : Option α × LinkedList α :=
  if l.len = 0 then (none, l)
  else
    let l := { l with
      len := l.len - 1
      current := if l.current = l.start then none else l.current }
    if l.len = 0 then (l.start, l) else (l.start, { l with start := H.next l.start })

def pop (l : LinkedList α) (H : Links α) : Option α × LinkedList α :=
  if l.len = 0 then (none, l)
  else
    let l := { l with
      len := l.len - 1
      current := if l.current = l.end_ then none else l.current }
    if l.len = 0 then (l.end_, l) else (l.end_, { l with end_ := H.prev l.end_ })

def removeP (zone : α) (l : LinkedList α) (H : Links α) : LinkedList α × Links α :=
  if l.len = 0 then (l, H)
  else
    let l := { l with
      len := l.len - 1
      current := if l.current = some zone then none else l.current }
    if l.len = 0 then (l, H)
    else if some zone = l.start then ({ l with start := (H zone).next }, H)
    else if some zone = l.end_ then ({ l with end_ := (H zone).prev }, H)
    else
      let H := H.setNext (H zone).prev (H zone).next
      (l, H.setPrev (H zone).next (H zone).prev)

/-- `insert`. The outer `none` also stands for a store through `NULL`. -/
def insert (index : ℕ) (zone : α) (l : LinkedList α) (H : Links α) :
    Option (Bool × LinkedList α × Links α) :=
  if l.len < index then some (false, l, H)
  else if index = l.len then some (true, append zone l H)
  else if index = 0 then some (true, prepend zone l H)
  else
    let l := if index ≤ l.currentI then { l with currentI := l.currentI + 1 } else l
    let l := { l with len := l.len + 1 }
    match get index l H with
    | some (some temp, l) =>
      if (H temp).prev = none then none
      else
        let H := H.setNext (H temp).prev (some zone)
        let H := H.setPrev (some zone) (H temp).prev
        let H := H.setPrev (some temp) (some zone)
        some (true, l, H.setNext (some zone) (some temp))
    | _ => none

/-- `remove`, by index. The node is looked up after `len` has been decremented. -/
def remove (index : ℕ) (l : LinkedList α) (H : Links α) :
    Option (Option α × LinkedList α × Links α) :=
  if l.len < index then some (none, l, H)
  else if index + 1 = l.len then some ((pop l H).1, (pop l H).2, H)
  else if index = 0 then some ((popStart l H).1, (popStart l H).2, H)
  else
    match get index { l with len := l.len - 1 } H with
    | some (some temp, l) =>
      let l := if index ≤ l.currentI then { l with current := (H temp).next } else l
      if (H temp).prev = none ∨ (H temp).next = none then none
      else
        let H := H.setNext (H temp).prev (H temp).next
        some (some temp, l, H.setPrev (H temp).next (H temp).prev)
    | _ => none

variable {H : Links α} {l : LinkedList α} {xs : List α} {zone : α}

/-- What `append` stores: the new node points back, the old last node points forward. -/
lemma append_links (h : Represents H l xs) (hz : zone ∉ xs) (y : α) :
    ((append zone l H).2 y).next = (if xs.getLast? = some y then some zone else (H y).next) ∧
    ((append zone l H).2 y).prev =
      (if y = zone ∧ xs ≠ [] then xs.getLast? else (H y).prev) := by
  rcases List.eq_nil_or_concat xs with rfl | ⟨as, x, rfl⟩
  · simp [append, h.len_eq]
  · have hl : l.len + 1 ≠ 1 := by simp [h.len_eq]
    have he : l.end_ = some x := by simpa using h.end_eq (by simp)
    have hx : x ≠ zone := by
      rintro rfl
      simp at hz
    simp only [append, hl, if_false, he, Links.setNext, Links.setPrev, List.concat_eq_append,
      List.getLast?_append_of_ne_nil _ (List.cons_ne_nil x []), List.getLast?_singleton,
      Function.update_apply]
    by_cases hyz : y = zone
    · subst hyz
      simp [hx, Ne.symm hx]
    · by_cases hyx : y = x
      · subst hyx
        simp [hyz]
      · simp [hyz, hyx, Ne.symm hyx]

lemma append_links_of_notMem (h : Represents H l xs) (hz : zone ∉ xs) {y : α}
    (hy : y ∉ xs) (hyz : y ≠ zone) : (append zone l H).2 y = H y := by
  have hl : xs.getLast? ≠ some y := fun hl => hy (List.mem_of_getLast? hl)
  obtain ⟨hn, hp⟩ := append_links h hz y
  rw [if_neg hl] at hn
  rw [if_neg (by simp [hyz])] at hp
  cases hA : (append zone l H).2 y
  cases hB : H y
  simp_all

theorem append_represents (h : Represents H l xs) (hz : zone ∉ xs) :
    Represents (append zone l H).2 (append zone l H).1 (xs ++ [zone]) := by
  have hlen : (append zone l H).1.len = xs.length + 1 := by
    rw [append]
    split_ifs <;> simp [h.len_eq]
  have hend : (append zone l H).1.end_ = some zone := by
    rw [append]
    split_ifs <;> rfl
  refine ⟨by simp [hlen], fun _ => ?_, by simp [hend], ?_, ?_⟩
  · rcases xs with _ | ⟨x, xs⟩
    · simp [append, h.len_eq]
    · have hl : l.len + 1 ≠ 1 := by simp [h.len_eq]
      have hs : l.start = some x := h.start_eq (by simp)
      simp only [append, hl, if_false, hs]
      simp
  · refine List.isChain_append.mpr ⟨?_, List.isChain_singleton _, ?_⟩
    · refine h.linked.congr_inner h.nodup (fun x _ hx => ?_) (fun x hx _ => ?_)
      · rw [(append_links h hz x).1, if_neg hx]
      · have hxz : x ≠ zone := fun he => hz (he ▸ hx)
        rw [(append_links h hz x).2, if_neg (by simp [hxz])]
    · intro x hx y hy
      obtain rfl : zone = y := by simpa using hy
      have hne : xs ≠ [] := by
        rintro rfl
        simp at hx
      rw [(append_links h hz x).1, (append_links h hz zone).2]
      simp [hne, Option.mem_def.mp hx]
  · exact List.nodup_append.mpr ⟨h.nodup, List.nodup_singleton _, by
      rintro a ha b hb rfl
      rw [List.mem_singleton.mp hb] at ha
      exact hz ha⟩

/-- What `prepend` stores: the new node points forward, the old first node points back. -/
lemma prepend_links (h : Represents H l xs) (hz : zone ∉ xs) (y : α) :
    ((prepend zone l H).2 y).prev = (if xs.head? = some y then some zone else (H y).prev) ∧
    ((prepend zone l H).2 y).next =
      (if y = zone ∧ xs ≠ [] then xs.head? else (H y).next) := by
  cases xs with
  | nil => simp [prepend, h.len_eq]
  | cons x xs =>
    have hl : l.len + 1 ≠ 1 := by simp [h.len_eq]
    have hs : l.start = some x := h.start_eq (by simp)
    have hx : x ≠ zone := by
      rintro rfl
      simp at hz
    simp only [prepend, hl, if_false, hs, Links.setNext, Links.setPrev, List.head?_cons,
      Function.update_apply]
    by_cases hyz : y = zone
    · subst hyz
      simp [hx, Ne.symm hx]
    · by_cases hyx : y = x
      · subst hyx
        simp [hyz]
      · simp [hyz, hyx, Ne.symm hyx]

theorem prepend_represents (h : Represents H l xs) (hz : zone ∉ xs) :
    Represents (prepend zone l H).2 (prepend zone l H).1 (zone :: xs) := by
  have hlen : (prepend zone l H).1.len = xs.length + 1 := by
    rw [prepend]
    split_ifs <;> simp [h.len_eq]
  have hstart : (prepend zone l H).1.start = some zone := by
    rw [prepend]
    split_ifs <;> rfl
  refine ⟨by simp [hlen], fun _ => hstart, fun _ => ?_, ?_, List.nodup_cons.mpr ⟨hz, h.nodup⟩⟩
  · cases xs with
    | nil => simp [prepend, h.len_eq]
    | cons x xs =>
      have hl : l.len + 1 ≠ 1 := by simp [h.len_eq]
      simp only [prepend, hl, if_false]
      rw [h.end_eq (by simp), List.getLast?_cons_cons]
  · refine List.isChain_cons.mpr ⟨?_, ?_⟩
    · intro x hx
      have hne : xs ≠ [] := by
        rintro rfl
        simp at hx
      rw [(prepend_links h hz x).1, (prepend_links h hz zone).2]
      simp [hne, Option.mem_def.mp hx]
    · refine h.linked.congr_inner h.nodup (fun x hx _ => ?_) (fun x _ hx => ?_)
      · have hxz : x ≠ zone := fun he => hz (he ▸ hx)
        rw [(prepend_links h hz x).2, if_neg (by simp [hxz])]
      · rw [(prepend_links h hz x).1, if_neg hx]

theorem popStart_nil (h : Represents H l []) : popStart l H = (none, l) := by
  simp [popStart, h.len_eq]

theorem popStart_cons {x : α} (h : Represents H l (x :: xs)) :
    (popStart l H).1 = some x ∧ Represents H (popStart l H).2 xs := by
  have hs : l.start = some x := h.start_eq (by simp)
  have hl : l.len = xs.length + 1 := h.len_eq
  have ht : Linked H xs := h.linked.tail
  have hn : xs.Nodup := (List.nodup_cons.mp h.nodup).2
  rcases xs with _ | ⟨y, ys⟩
  · simp only [List.length_nil] at hl
    refine ⟨by simp [popStart, hl, hs], by simp [popStart, hl], by simp, by simp, ht, hn⟩
  · have hxy : (H x).next = some y := (List.isChain_cons_cons.mp h.linked).1.1
    have he : l.end_ = (y :: ys).getLast? := by
      rw [h.end_eq (by simp), List.getLast?_cons_cons]
    simp only [List.length_cons] at hl
    refine ⟨by simp [popStart, hl, hs], by simp [popStart, hl], fun _ => ?_, fun _ => ?_, ht, hn⟩
    · simp [popStart, hl, hs, Links.next, hxy]
    · simp [popStart, hl, he]

theorem pop_nil (h : Represents H l []) : pop l H = (none, l) := by
  simp [pop, h.len_eq]

theorem pop_concat {x : α} (h : Represents H l (xs ++ [x])) :
    (pop l H).1 = some x ∧ Represents H (pop l H).2 xs := by
  have he : l.end_ = some x := by simpa using h.end_eq (by simp)
  have hl : l.len = xs.length + 1 := by simpa using h.len_eq
  have ht : Linked H xs := h.linked.left_of_append
  have hn : xs.Nodup := (List.nodup_append.mp h.nodup).1
  rcases List.eq_nil_or_concat xs with rfl | ⟨ys, y, rfl⟩
  · simp only [List.length_nil] at hl
    exact ⟨by simp [pop, hl, he], by simp [pop, hl], by simp, by simp, ht, hn⟩
  · have hyx : (H x).prev = some y := by
      have hr := (List.isChain_append.mp h.linked).2.2
      exact (hr y (by simp) x (by simp)).2
    have hs : l.start = (ys ++ [y]).head? := by
      rw [h.start_eq (by simp), List.concat_eq_append]
      cases ys <;> simp
    simp only [List.concat_eq_append, List.length_append, List.length_cons, List.length_nil] at hl
    refine ⟨by simp [pop, hl, he], by simp [pop, hl], fun _ => ?_, fun _ => ?_, ht, hn⟩
    · simp [pop, hl, hs]
    · simp [pop, hl, he, Links.prev, hyx]

lemma removeP_singleton (h : Represents H l [zone]) :
    (removeP zone l H).2 = H ∧ Represents H (removeP zone l H).1 [] := by
  have hl : l.len = 1 := h.len_eq
  refine ⟨by simp [removeP, hl], by simp [removeP, hl], by simp, by simp, List.isChain_nil, ?_⟩
  exact List.nodup_nil

lemma removeP_first {b : α} {bs : List α} (h : Represents H l (zone :: b :: bs)) :
    (removeP zone l H).2 = H ∧ Represents H (removeP zone l H).1 (b :: bs) := by
  have hl : l.len = bs.length + 2 := h.len_eq
  have hs : l.start = some zone := h.start_eq (by simp)
  have he : l.end_ = (b :: bs).getLast? := by rw [h.end_eq (by simp), List.getLast?_cons_cons]
  have hn : (H zone).next = some b := (List.isChain_cons_cons.mp h.linked).1.1
  refine ⟨by simp [removeP, hl, hs], by simp [removeP, hl, hs], fun _ => ?_, fun _ => ?_,
    List.IsChain.tail h.linked, (List.nodup_cons.mp h.nodup).2⟩
  · simp [removeP, hl, hs, hn]
  · simp [removeP, hl, hs, he]

lemma removeP_last {a : α} (as : List α) (h : Represents H l (as ++ [a, zone])) :
    (removeP zone l H).2 = H ∧ Represents H (removeP zone l H).1 (as ++ [a]) := by
  have hl : l.len = as.length + 2 := by simpa using h.len_eq
  have he : l.end_ = some zone := by
    rw [h.end_eq (by simp), List.getLast?_append_of_ne_nil _ (by simp)]
    rfl
  have hs : l.start = (as ++ [a]).head? := by
    rw [h.start_eq (by simp)]
    cases as <;> simp
  have hlink : Linked H ((as ++ [a]) ++ [zone]) := by simpa using h.linked
  have hnd : ((as ++ [a]) ++ [zone]).Nodup := by simpa using h.nodup
  have hz : zone ∉ as ++ [a] := fun hz => (List.nodup_append.mp hnd).2.2 _ hz _ (by simp) rfl
  have hp : (H zone).prev = some a :=
    ((List.isChain_append.mp hlink).2.2 a (by simp) zone (by simp)).2
  have hsz : some zone ≠ l.start := by
    rw [hs]
    intro hc
    exact hz (List.mem_of_mem_head? hc.symm)
  refine ⟨by simp [removeP, hl, he, hsz], by simp [removeP, hl, he, hsz], fun _ => ?_,
    fun _ => ?_, hlink.left_of_append, (List.nodup_append.mp hnd).1⟩
  · rw [← hs]
    simp [removeP, hl, he, hsz]
  · simp [removeP, hl, he, hsz, hp]

omit [DecidableEq α] in
/-- A node inside the list, with its two neighbours. -/
lemma Represents.around {a b : α} {as bs : List α} (h : Represents H l (as ++ a :: zone :: b :: bs)) :
    (H zone).prev = some a ∧ (H zone).next = some b ∧ a ≠ zone ∧ zone ≠ b ∧ a ≠ b := by
  have hlink := (List.isChain_append.mp h.linked).2.1
  have hnd := (List.nodup_append.mp h.nodup).2.1
  simp only [List.nodup_cons, List.mem_cons, not_or] at hnd
  obtain ⟨haz, hzb⟩ := List.isChain_cons_cons.mp hlink
  exact ⟨haz.2, (List.isChain_cons_cons.mp hzb).1.1, hnd.1.1, hnd.2.1.1, hnd.1.2.1⟩

/-- Making the two neighbours of a node point at each other takes it out of the sequence. -/
lemma Represents.bridge {a b : α} {as bs : List α} (h : Represents H l (as ++ a :: zone :: b :: bs))
    {l' : LinkedList α} (hlen : l'.len + 1 = l.len) (hs : l'.start = l.start)
    (he : l'.end_ = l.end_) :
    Represents ((H.setNext (some a) (some b)).setPrev (some b) (some a)) l' (as ++ a :: b :: bs) := by
  obtain ⟨-, -, -, -, hab⟩ := h.around
  have hsplit : ((as ++ [a]) ++ zone :: b :: bs).Nodup := by simpa using h.nodup
  obtain ⟨hnda, hndz, hdisj⟩ := List.nodup_append.mp hsplit
  have hndb : (b :: bs).Nodup := (List.nodup_cons.mp hndz).2
  have hright := (List.isChain_append.mp h.linked).2.1
  have hbs : Linked H (b :: bs) :=
    (List.isChain_cons_cons.mp (List.isChain_cons_cons.mp hright).2).2
  refine ⟨?_, fun _ => ?_, fun _ => ?_, ?_, ?_⟩
  · have := h.len_eq
    simp only [List.length_append, List.length_cons] at this ⊢
    omega
  · rw [hs, h.start_eq (by simp)]
    cases as <;> simp
  · rw [he, h.end_eq (by simp), List.getLast?_append_of_ne_nil _ (by simp),
      List.getLast?_append_of_ne_nil _ (by simp), List.getLast?_cons_cons,
      List.getLast?_cons_cons, List.getLast?_cons_cons]
  · rw [List.append_cons]
    refine List.isChain_append.mpr ⟨?_, ?_, ?_⟩
    · have hlink := h.linked
      rw [List.append_cons] at hlink
      have hpre : Linked H (as ++ [a]) := hlink.left_of_append
      refine hpre.congr_inner hnda (fun x hx hxl => ?_) (fun x hx _ => ?_)
      · have hxa : x ≠ a := by
          rintro rfl
          simp at hxl
        have hxb : x ≠ b := fun he => hdisj x hx b (by simp) he
        simp [Links.setNext, Links.setPrev, hxa, hxb]
      · have hxb : x ≠ b := fun he => hdisj x hx b (by simp) he
        by_cases hxa : x = a <;> simp [Links.setNext, Links.setPrev, hxa, hxb, hab]
    · refine hbs.congr_inner hndb (fun x hx _ => ?_) (fun x hx hxh => ?_)
      · have hxa : x ≠ a := fun he => hdisj a (by simp) x (by simp_all) he.symm
        by_cases hxb : x = b <;> simp [Links.setNext, Links.setPrev, hxa, hxb, Ne.symm hab]
      · have hxa : x ≠ a := fun he => hdisj a (by simp) x (by simp_all) he.symm
        have hxb : x ≠ b := by
          rintro rfl
          simp at hxh
        simp [Links.setNext, Links.setPrev, hxa, hxb]
    · intro x hx y hy
      obtain rfl : a = x := by simpa using hx
      obtain rfl : b = y := by simpa using hy
      simp [Links.setNext, Links.setPrev, hab]
  · rw [List.append_cons]
    exact List.nodup_append.mpr ⟨hnda, hndb, fun x hx y hy => hdisj x hx y (by simp_all)⟩

lemma bridge_of_notMem {a b : α} {as bs : List α} {y : α} (hy : y ∉ as ++ a :: zone :: b :: bs) :
    ((H.setNext (some a) (some b)).setPrev (some b) (some a)) y = H y := by
  simp only [List.mem_append, List.mem_cons, not_or] at hy
  simp [Links.setNext, Links.setPrev, hy.2.1, hy.2.2.2.1]

/-- Inside the list the two neighbours are made to point at each other. -/
lemma removeP_middle {a b : α} {as bs : List α}
    (h : Represents H l (as ++ a :: zone :: b :: bs)) :
    (removeP zone l H).2 = (H.setNext (some a) (some b)).setPrev (some b) (some a) ∧
    (removeP zone l H).1.len + 1 = l.len ∧ (removeP zone l H).1.start = l.start ∧
    (removeP zone l H).1.end_ = l.end_ := by
  obtain ⟨hp, hn, haz, hzb, -⟩ := h.around
  have hl : l.len = as.length + bs.length + 3 := by
    rw [h.len_eq]
    simp
    omega
  have hnd := h.nodup
  have hsz : some zone ≠ l.start := by
    rw [h.start_eq (by simp), List.append_cons]
    intro hc
    have hz : zone ∈ as ++ [a] := by
      apply List.mem_of_mem_head?
      rw [Option.mem_def, hc]
      cases as <;> simp
    rw [List.append_cons] at hnd
    exact (List.nodup_append.mp hnd).2.2 _ hz _ (by simp) rfl
  have hez : some zone ≠ l.end_ := by
    rw [h.end_eq (by simp), List.getLast?_append_of_ne_nil _ (by simp), List.getLast?_cons_cons,
      List.getLast?_cons_cons]
    intro hc
    have hndz := (List.nodup_cons.mp (List.nodup_append.mp hnd).2.1).2
    exact (List.nodup_cons.mp hndz).1 (List.mem_of_getLast? hc.symm)
  have hz : (H.setNext (some a) (some b)) zone = H zone := by
    simp [Links.setNext, Ne.symm haz]
  refine ⟨?_, ?_, ?_, ?_⟩
  · simp only [removeP, hl, hsz, hez, hp, hn, hz]
    rfl
  all_goals simp [removeP, hl, hsz, hez]

theorem removeP_represents {as bs : List α} (h : Represents H l (as ++ zone :: bs)) :
    Represents (removeP zone l H).2 (removeP zone l H).1 (as ++ bs) ∧
    ∀ y ∉ as ++ zone :: bs, (removeP zone l H).2 y = H y := by
  rcases List.eq_nil_or_concat as with rfl | ⟨as, a, rfl⟩
  · cases bs with
    | nil =>
      obtain ⟨hH, hr⟩ := removeP_singleton h
      rw [hH]
      exact ⟨hr, fun _ _ => rfl⟩
    | cons b bs =>
      obtain ⟨hH, hr⟩ := removeP_first h
      rw [hH]
      exact ⟨hr, fun _ _ => rfl⟩
  rw [List.concat_eq_append] at h ⊢
  cases bs with
  | nil =>
    obtain ⟨hH, hr⟩ := removeP_last (a := a) as (by simpa using h)
    rw [hH]
    exact ⟨by simpa using hr, fun _ _ => rfl⟩
  | cons b bs =>
    have h' : Represents H l (as ++ a :: zone :: b :: bs) := by simpa using h
    obtain ⟨hH, hlen, hs, he⟩ := removeP_middle h'
    rw [hH]
    exact ⟨by simpa using h'.bridge hlen hs he, fun y hy => bridge_of_notMem (by simpa using hy)⟩

/-- `remove` of an inner node under the cursor, whatever index the cursor has. -/
theorem remove_cursor {a b : α} {as bs : List α} {index : ℕ}
    (h : Represents H l (as ++ a :: zone :: b :: bs)) (hc : l.current = some zone)
    (hi : l.currentI = index) (h0 : 0 < index) (hlen : index + 1 < l.len) :
    ∃ l' H', remove index l H = some (some zone, l', H') ∧ Represents H' l' (as ++ a :: b :: bs) ∧
      l'.current = some b ∧ l'.currentI = index ∧
      ∀ y ∉ as ++ a :: zone :: b :: bs, H' y = H y := by
  obtain ⟨hp, hn, haz, hzb, -⟩ := h.around
  have hget : get index { l with len := l.len - 1 } H = some (some zone, { l with len := l.len - 1 }) :=
    get_cursor (show index < l.len - 1 by omega) hc hi
  have hz : (H.setNext (some a) (some b)) zone = H zone := by
    simp [Links.setNext, Ne.symm haz]
  refine ⟨{ l with len := l.len - 1, current := some b },
    (H.setNext (some a) (some b)).setPrev (some b) (some a), ?_,
    h.bridge (Nat.sub_add_cancel (by omega)) rfl rfl, rfl, hi, fun y hy => bridge_of_notMem hy⟩
  rw [remove, if_neg (by omega), if_neg (by omega), if_neg (by omega), hget]
  dsimp only
  rw [hp, hn, if_pos (Nat.le_of_eq hi.symm), if_neg (by simp), hz, hp, hn]

end LinkedList
end EpochKernel.Util
