import EpochKernel.Library.Run

/-! The pointer array of `util/array_list.hpp`. Only the cells below `len` are in use; the others
hold what the memory held. The buffer is in memory, so `capacity * 8` does not wrap. `list` is never
`NULL`: the constructors assert it, and `insert` goes back to the old buffer where `krealloc` has none. -/
namespace EpochKernel.Util
open EpochKernel.Library

/-- `NULL` entries are `none`; the initial capacity is `ARRAY_LIST_INTIAL_CAPACITY`. -/
structure ArrayList (α : Type*) where
  len : ℕ := 0
  capacity : ℕ := 8
  list : ℕ → Option α

namespace ArrayList
variable {α : Type*} (l : ArrayList α)

/-- `operator[]`. -/
def get (i : ℕ) : Option α := if l.len ≤ i then none else l.list i

/-- `set`; `none` stands for the result `false`. -/
def set (i : ℕ) (x : Option α) : Option (ArrayList α) :=
  if l.len ≤ i then none else some { l with list := Function.update l.list i x }

@[simp] lemma get_of_len_le {l : ArrayList α} {i : ℕ} (h : l.len ≤ i) : l.get i = none := if_pos h

@[simp] lemma set_of_len_le {l : ArrayList α} {i : ℕ} {x : Option α} (h : l.len ≤ i) :
    l.set i x = none := if_pos h

/-- The pointers that the buffer holds for a capacity: `krealloc` gives 16 bytes at least. -/
def room (capacity : ℕ) : ℕ := max 2 capacity

/-- A read of `list[j]`; `none` outside the buffer. -/
def load (j : ℕ) : Option (Option α) :=
  if j < room l.capacity then some (l.list j) else none

/-- `list[j] = x`; `none` outside the buffer. -/
def store (j : ℕ) (x : Option α) : Option (ArrayList α) :=
  if j < room l.capacity then some { l with list := Function.update l.list j x } else none

/-- `krealloc` of the buffer to a capacity `c`. It keeps what fits into both buffers, and the other
cells hold `fresh`. -/
def realloc (c : ℕ) (fresh : ℕ → Option α) : ArrayList α :=
  { l with
    capacity := c
    list := fun j => if j < min (room l.capacity) (room c) then l.list j else fresh j }

/-- `for (usize j = len; j > i; j --) list[j] = list[j - 1]`, from `j` on. -/
def shiftUp (i : ℕ) : ℕ → ArrayList α → Option (ArrayList α)
  | 0, l => some l
  | j + 1, l =>
    if i < j + 1 then do
      let x ← l.load j
      shiftUp i j (← l.store (j + 1) x)
    else some l

/-- `for (; i < len; i ++) list[i] = list[i + 1]`, for `n` elements from `i` on. -/
def shiftDown : ℕ → ℕ → ArrayList α → Option (ArrayList α)
  | 0, _, l => some l
  | n + 1, i, l => do
    let x ← l.load (i + 1)
    shiftDown n (i + 1) (← l.store i x)

/-- `insert`, with what `krealloc` finds in a larger buffer, or `none` if it returns `NULL`. As `list`
is not `NULL`, its first test fails. -/
def insert (answer : Option (ℕ → Option α)) (x : Option α) (i : ℕ) :
    Option (Bool × ArrayList α) :=
  if l.len < i then some (false, l)
  else if i < l.capacity then do
    let l ← l.store i x
    some (true, { l with len := l.len + 1 })
  else
    match answer with
    | none => some (false, l)
    | some fresh => do
      let l := l.realloc (2 * l.capacity) fresh
      let l ← shiftUp i l.len l
      let l ← l.store i x
      some (true, { l with len := l.len + 1 })

/-- `push`. -/
def push (answer : Option (ℕ → Option α)) (x : Option α) : Option (Bool × ArrayList α) :=
  l.insert answer x l.len

/-- `remove`, with what `krealloc` finds in a smaller buffer. -/
def remove (fresh : ℕ → Option α) (i : ℕ) : Option (Option α × ArrayList α) :=
  if l.len ≤ i then some (none, l)
  else do
    let out ← l.load i
    let l := { l with len := l.len - 1 }
    let l ← shiftDown (l.len - i) i l
    some (out, if l.len ≤ l.capacity >>> 2 then l.realloc (l.capacity >>> 1) fresh else l)

/-- `pop`; for an empty list `len - 1` wraps, which is past the end as well. -/
def pop (fresh : ℕ → Option α) : Option (Option α × ArrayList α) := l.remove fresh (l.len - 1)

/-- The elements of the list. -/
def elems : List (Option α) := (List.range l.len).map l.list

/-- The list is `xs`, all of it in the buffer. -/
structure Holds (l : ArrayList α) (xs : List (Option α)) : Prop where
  fits : l.len ≤ room l.capacity
  elems : l.elems = xs

variable {l : ArrayList α} {xs : List (Option α)} {x : Option α} {i j : ℕ}
  {fresh : ℕ → Option α}

@[simp] lemma length_elems : l.elems.length = l.len := by simp [elems]

lemma getElem?_elems (h : j < l.len) : l.elems[j]? = some (l.list j) := by simp [elems, h]

lemma elems_eq_iff :
    l.elems = xs ↔ xs.length = l.len ∧ ∀ j < l.len, xs[j]? = some (l.list j) := by
  constructor
  · rintro rfl
    exact ⟨length_elems, fun j hj => getElem?_elems hj⟩
  · rintro ⟨hlen, h⟩
    apply List.ext_getElem?
    intro j
    by_cases hj : j < l.len
    · rw [getElem?_elems hj, h j hj]
    · rw [List.getElem?_eq_none (by simpa using hj), List.getElem?_eq_none (by omega)]

lemma le_room (c : ℕ) : c ≤ room c := le_max_right _ _

lemma load_eq (h : j < room l.capacity) : l.load j = some (l.list j) := if_pos h

lemma store_eq (h : j < room l.capacity) :
    l.store j x = some { l with list := Function.update l.list j x } := if_pos h

lemma realloc_list {c : ℕ} (h : j < room l.capacity) (hc : j < room c) :
    (l.realloc c fresh).list j = l.list j := if_pos (lt_min h hc)

@[simp] lemma shiftUp_self : shiftUp i i l = some l := by
  cases i with
  | zero => rfl
  | succ i => exact if_neg (lt_irrefl _)

section Insertion

/-- Below the capacity, the cell `i` is written and nothing is moved. -/
lemma insert_of_lt (answer : Option (ℕ → Option α)) (hi : i ≤ l.len) (hc : i < l.capacity) :
    l.insert answer x i =
      some (true, { l with list := Function.update l.list i x, len := l.len + 1 }) := by
  unfold insert
  rw [if_neg (Nat.not_lt.mpr hi), if_pos hc, store_eq (hc.trans_le (le_room _))]
  rfl

/-- The buffer grows only when it is full, and then for an element at its end. -/
lemma insert_of_full (h : l.len = l.capacity) :
    l.insert (some fresh) x l.len =
      some (true, { l.realloc (2 * l.capacity) fresh with
        list := Function.update (l.realloc (2 * l.capacity) fresh).list l.len x
        len := l.len + 1 }) := by
  have hroom : l.len < room (l.realloc (2 * l.capacity) fresh).capacity := by
    change l.len < max 2 (2 * l.capacity)
    omega
  have hshift : shiftUp l.len (l.realloc (2 * l.capacity) fresh).len
      (l.realloc (2 * l.capacity) fresh) = some (l.realloc (2 * l.capacity) fresh) := shiftUp_self
  unfold insert
  rw [if_neg (lt_irrefl _), if_neg (Nat.not_lt.mpr h.ge)]
  dsimp only
  rw [hshift, Option.bind_eq_bind, Option.bind_some, store_eq hroom]
  rfl

lemma insert_of_null (h : l.len = l.capacity) : l.insert none x l.len = some (false, l) := by
  unfold insert
  rw [if_neg (lt_irrefl _), if_neg (Nat.not_lt.mpr h.ge)]

/-- A write at the end of the list. -/
lemma map_update_end {β : Type*} {f g : ℕ → β} {n : ℕ} {b : β} (h : ∀ j < n, g j = f j) :
    (List.range (n + 1)).map (Function.update g n b) = (List.range n).map f ++ [b] := by
  have hsame : (List.range n).map (Function.update g n b) = (List.range n).map f := by
    apply List.map_congr_left
    intro j hj
    have hlt : j < n := List.mem_range.mp hj
    rw [Function.update_of_ne hlt.ne, h j hlt]
  rw [List.range_succ, List.map_append, hsame]
  simp

/-- A write at `i` inserts when the elements from `i` on and the cell after them are one pointer. -/
lemma map_update_iff {β : Type*} {f : ℕ → β} {n : ℕ} {b : β} (hi : i ≤ n) :
    (List.range (n + 1)).map (Function.update f i b) = ((List.range n).map f).insertIdx i b ↔
      ∀ j, i ≤ j → j < n → f (j + 1) = f j := by
  have hget : ∀ j < n + 1, ((List.range (n + 1)).map (Function.update f i b))[j]? =
      some (Function.update f i b j) := fun j hj => by simp [hj]
  have hold : ∀ j < n, ((List.range n).map f)[j]? = some (f j) := fun j hj => by simp [hj]
  constructor
  · intro h j hij hj
    have hgt : i < j + 1 := Nat.lt_succ_of_le hij
    have hj1 := hget (j + 1) (Nat.succ_lt_succ hj)
    rw [h, List.getElem?_insertIdx_of_gt hgt, Nat.add_sub_cancel, hold j hj,
      Function.update_of_ne hgt.ne'] at hj1
    exact (Option.some.inj hj1).symm
  · intro h
    apply List.ext_getElem?
    intro j
    by_cases hj : j < n + 1
    · rw [hget j hj]
      rcases lt_trichotomy j i with hlt | rfl | hgt
      · rw [List.getElem?_insertIdx_of_lt hlt, hold j (hlt.trans_le hi),
          Function.update_of_ne hlt.ne]
      · rw [List.getElem?_insertIdx_self, Function.update_self]
        simp [hi]
      · obtain ⟨k, rfl⟩ : ∃ k, j = k + 1 := ⟨j - 1, by omega⟩
        have hk : k < n := Nat.lt_of_succ_lt_succ hj
        rw [List.getElem?_insertIdx_of_gt hgt, Nat.add_sub_cancel, Function.update_of_ne hgt.ne',
          h k (Nat.le_of_lt_succ hgt) hk, hold k hk]
    · have hlen : (((List.range n).map f).insertIdx i b).length = n + 1 := by
        rw [List.length_insertIdx_of_le_length (by simpa using hi)]
        simp
      rw [List.getElem?_eq_none (by simpa using hj), List.getElem?_eq_none (by omega)]

/-- An insertion that succeeds puts the element at `i` and shifts the others, and one that fails
changes nothing. -/
def Inserts (l : ArrayList α) (answer : Option (ℕ → Option α)) (x : Option α) (i : ℕ) : Prop :=
  ∃ ok l', l.insert answer x i = some (ok, l') ∧
    (ok = true → l'.Holds (l.elems.insertIdx i x)) ∧ (ok = false → l' = l)

/-- At the end of the list `insert` is right, with and without growth. -/
lemma inserts_end (h : l.len ≤ l.capacity) (answer : Option (ℕ → Option α)) (x : Option α) :
    l.Inserts answer x l.len := by
  have hend : l.elems.insertIdx l.len x = l.elems ++ [x] := by
    rw [← length_elems, List.insertIdx_length_self]
  rcases h.lt_or_eq with hlt | hfull
  · refine ⟨true, _, insert_of_lt answer le_rfl hlt, fun _ => ⟨?_, ?_⟩, nofun⟩
    · exact (Nat.succ_le_of_lt hlt).trans (le_room _)
    · rw [hend]
      exact map_update_end fun _ _ => rfl
  · cases answer with
    | none => exact ⟨false, l, insert_of_null hfull, nofun, fun _ => rfl⟩
    | some fresh =>
      refine ⟨true, _, insert_of_full hfull, fun _ => ⟨?_, ?_⟩, nofun⟩
      · change l.len + 1 ≤ max 2 (2 * l.capacity)
        omega
      · rw [hend]
        refine map_update_end fun j hj => realloc_list (hj.trans_le (h.trans (le_room _))) ?_
        exact (hj.trans_le (h.trans (Nat.le_mul_of_pos_left _ Nat.two_pos))).trans_le (le_room _)

/-- Only the path of `insert` that grows the buffer shifts the elements from `i` on, and there are
none then. Without growth the element at `i` is overwritten, and the cell after the list becomes its
last element. -/
theorem inserts_iff_shifted (h : l.len ≤ l.capacity) (answer : Option (ℕ → Option α)) (x : Option α)
    (hi : i ≤ l.len) :
    l.Inserts answer x i ↔
      i = l.len ∨ l.len < room l.capacity ∧ ∀ j, i ≤ j → j < l.len → l.list (j + 1) = l.list j := by
  rcases hi.eq_or_lt with rfl | hlt
  · exact iff_of_true (inserts_end h answer x) (.inl rfl)
  · have hins := insert_of_lt (x := x) answer hi (hlt.trans_le h)
    rw [or_iff_right hlt.ne, ← map_update_iff (b := x) hi]
    constructor
    · rintro ⟨ok, l', he, htrue, -⟩
      rw [hins] at he
      obtain ⟨rfl, rfl⟩ := Prod.mk.inj (Option.some.inj he)
      exact ⟨(htrue rfl).fits, (htrue rfl).elems⟩
    · exact fun hs => ⟨true, _, hins, fun _ => ⟨hs.1, hs.2⟩, nofun⟩

theorem inserts_full :
    (⟨8, 8, some⟩ : ArrayList ℕ).Inserts (some fun _ => none) (some 3) 8 :=
  (inserts_iff_shifted le_rfl _ _ le_rfl).mpr (.inl rfl)

/-- The list `[1, 2]`, with 3 inserted at its front. -/
theorem not_inserts_front :
    ¬ (⟨2, 8, fun j => if j = 0 then some 1 else if j = 1 then some 2 else none⟩ :
        ArrayList ℕ).Inserts none (some 3) 0 := by
  rintro ⟨ok, l', h, htrue, -⟩
  obtain ⟨rfl, rfl⟩ := Prod.mk.inj (Option.some.inj h)
  exact absurd (htrue rfl).elems (by decide)

end Insertion

section Removal

/-- The elements behind `i` move down by one cell. -/
lemma shiftDown_eq {n : ℕ} (h : i + n < room l.capacity) :
    ∃ list, shiftDown n i l = some { l with list := list } ∧
      (∀ j < i, list j = l.list j) ∧ ∀ j, i ≤ j → j < i + n → list j = l.list (j + 1) := by
  induction n generalizing i l with
  | zero => exact ⟨l.list, rfl, fun _ _ => rfl, fun j hij hj => absurd hij (by omega)⟩
  | succ n ih =>
    obtain ⟨list, hrun, hbelow, hmoved⟩ :=
      ih (l := { l with list := Function.update l.list i (l.list (i + 1)) }) (i := i + 1)
        (by dsimp only; omega)
    refine ⟨list, ?_, fun j hj => ?_, fun j hij hj => ?_⟩
    · rw [shiftDown, load_eq (by omega), Option.bind_eq_bind, Option.bind_some,
        store_eq (by omega)]
      exact hrun
    · rw [hbelow j (by omega)]
      exact Function.update_of_ne hj.ne _ _
    · rcases hij.eq_or_lt with rfl | hlt
      · rw [hbelow i (Nat.lt_succ_self i)]
        exact Function.update_self _ _ _
      · rw [hmoved j hlt (by omega)]
        exact Function.update_of_ne (by omega) _ _

lemma map_eraseIdx {β : Type*} {f g : ℕ → β} {n : ℕ} (hi : i < n + 1) (hbelow : ∀ j < i, g j = f j)
    (hmoved : ∀ j, i ≤ j → j < n → g j = f (j + 1)) :
    (List.range n).map g = ((List.range (n + 1)).map f).eraseIdx i := by
  apply List.ext_getElem?
  intro j
  by_cases hj : j < n
  · have hnew : ((List.range n).map g)[j]? = some (g j) := by simp [hj]
    have hold : ∀ k < n + 1, ((List.range (n + 1)).map f)[k]? = some (f k) :=
      fun k hk => by simp [hk]
    rw [hnew, List.getElem?_eraseIdx]
    split_ifs with hlt
    · rw [hold j (Nat.lt_succ_of_lt hj), hbelow j hlt]
    · rw [hold (j + 1) (Nat.succ_lt_succ hj), hmoved j (Nat.not_lt.mp hlt) hj]
  · have hlen : (((List.range (n + 1)).map f).eraseIdx i).length = n := by
      rw [List.length_eraseIdx_of_lt (by simpa using hi)]
      simp
    rw [List.getElem?_eq_none (by simpa using hj), List.getElem?_eq_none (by omega)]

/-- `remove` returns the element and takes it out; the buffer is cut to half its capacity when the
elements left fill a quarter of it at most. -/
lemma remove_of_lt (fresh : ℕ → Option α) (hc : l.len ≤ l.capacity) (hi : i < l.len) :
    ∃ l', l.remove fresh i = some (l.list i, l') ∧ l'.len ≤ l'.capacity ∧
      l'.elems = l.elems.eraseIdx i := by
  obtain ⟨n, hn⟩ : ∃ n, l.len = n + 1 := ⟨l.len - 1, by omega⟩
  have hroom := le_room l.capacity
  obtain ⟨list, hrun, hbelow, hmoved⟩ :=
    shiftDown_eq (l := { l with len := n }) (i := i) (n := n - i) (by dsimp only; omega)
  have helems : (List.range n).map list = l.elems.eraseIdx i := by
    rw [elems, hn]
    exact map_eraseIdx (hn ▸ hi) hbelow fun j hij hj => hmoved j hij (by omega)
  have hres : l.remove fresh i = some (l.list i,
      if n ≤ l.capacity >>> 2 then ArrayList.realloc ⟨n, l.capacity, list⟩ (l.capacity >>> 1) fresh
      else ⟨n, l.capacity, list⟩) := by
    unfold remove
    rw [if_neg (Nat.not_le.mpr hi), load_eq (by omega), hn]
    dsimp only [Option.bind_eq_bind, Option.bind_some]
    rw [Nat.add_sub_cancel, hrun]
    rfl
  refine ⟨_, hres, ?_⟩
  split_ifs with hquarter
  · have hhalf : n ≤ l.capacity >>> 1 := by
      rw [Nat.shiftRight_eq_div_pow] at hquarter ⊢
      omega
    refine ⟨hhalf, ?_⟩
    rw [← helems]
    apply List.map_congr_left
    intro j hj
    have hlt : j < n := List.mem_range.mp hj
    exact realloc_list (l := ⟨n, l.capacity, list⟩) (show j < room l.capacity by omega)
      (hlt.trans_le (hhalf.trans (le_room _)))
  · exact ⟨by dsimp only; omega, helems⟩

end Removal

/-- An operation on a list, with what `krealloc` finds in the new buffer if it is called. -/
inductive Op (α : Type*)
  | push (x : Option α) (fresh : ℕ → Option α)
  | pop (fresh : ℕ → Option α)
  | remove (i : ℕ) (fresh : ℕ → Option α)
  | set (i : ℕ) (x : Option α)
  | get (i : ℕ)

/-- The operation on the array list; `none` if it reads or writes outside the buffer. -/
def step (l : ArrayList α) : Op α → Option (ArrayList α)
  | .push x fresh => (l.push (some fresh) x).map Prod.snd
  | .pop fresh => (l.pop fresh).map Prod.snd
  | .remove i fresh => (l.remove fresh i).map Prod.snd
  | .set i x => if l.len ≤ i then some l else l.store i x
  | .get i => if l.len ≤ i then some l else (l.load i).map fun _ => l

/-- The operation on the sequence that the list stands for. -/
def Op.apply (xs : List (Option α)) : Op α → List (Option α)
  | .push x _ => xs ++ [x]
  | .pop _ => xs.dropLast
  | .remove i _ => xs.eraseIdx i
  | .set i x => xs.set i x
  | .get _ => xs

/-- The array list next to its sequence. -/
def stepBoth : Machine (ArrayList α × List (Option α)) (Op α) :=
  fun s op => (s.1.step op).map fun l => (l, op.apply s.2)

/-- No push is made on a list of capacity 0, whose doubling is 0 again. -/
def Op.Growable (l : ArrayList α) : Op α → Prop
  | .push _ _ => l.capacity ≠ 0
  | _ => True

/-- The length is within the capacity, and the list is the sequence, all of it in the buffer. -/
def Within (s : ArrayList α × List (Option α)) : Prop :=
  s.1.len ≤ s.1.capacity ∧ s.1.Holds s.2

lemma within_of_elems {l : ArrayList α} {xs : List (Option α)} (hc : l.len ≤ l.capacity)
    (h : l.elems = xs) : Within (l, xs) := ⟨hc, hc.trans (le_room _), h⟩

lemma push_within (hc : l.len ≤ l.capacity) (hcap : l.capacity ≠ 0) (x : Option α)
    (fresh : ℕ → Option α) :
    ∃ l', l.step (.push x fresh) = some l' ∧ Within (l', l.elems ++ [x]) := by
  rcases hc.lt_or_eq with hlt | hfull
  · refine ⟨_, congrArg (Option.map Prod.snd) (insert_of_lt (some fresh) le_rfl hlt), ?_⟩
    exact within_of_elems hlt (map_update_end fun _ _ => rfl)
  · refine ⟨_, congrArg (Option.map Prod.snd) (insert_of_full hfull), ?_⟩
    refine within_of_elems ?_ (map_update_end fun j hj => ?_)
    · change l.len + 1 ≤ 2 * l.capacity
      omega
    · refine realloc_list (hj.trans_le (hc.trans (le_room _))) ?_
      exact (show j < 2 * l.capacity by omega).trans_le (le_room _)

lemma remove_within (hc : l.len ≤ l.capacity) (i : ℕ) (fresh : ℕ → Option α) :
    ∃ l', l.step (.remove i fresh) = some l' ∧ Within (l', l.elems.eraseIdx i) := by
  by_cases hi : i < l.len
  · obtain ⟨l', hrem, hc', helems⟩ := remove_of_lt fresh hc hi
    exact ⟨l', congrArg (Option.map Prod.snd) hrem, within_of_elems hc' helems⟩
  · have hnone : l.remove fresh i = some (none, l) := if_pos (Nat.not_lt.mp hi)
    refine ⟨l, congrArg (Option.map Prod.snd) hnone, within_of_elems hc ?_⟩
    rw [List.eraseIdx_of_length_le (by simpa using hi)]

lemma set_within (hc : l.len ≤ l.capacity) (i : ℕ) (x : Option α) :
    ∃ l', l.step (.set i x) = some l' ∧ Within (l', l.elems.set i x) := by
  by_cases hi : i < l.len
  · have hstep : l.step (.set i x) = some { l with list := Function.update l.list i x } := by
      rw [step, if_neg (Nat.not_le.mpr hi), store_eq (hi.trans_le (hc.trans (le_room _)))]
    refine ⟨_, hstep, within_of_elems hc (elems_eq_iff.mpr ⟨by simp, fun j hj => ?_⟩)⟩
    change (l.elems.set i x)[j]? = some (Function.update l.list i x j)
    by_cases he : j = i
    · subst he
      rw [List.getElem?_set_self (by simpa using hi), Function.update_self]
    · rw [List.getElem?_set_ne (Ne.symm he), getElem?_elems (l := l) hj, Function.update_of_ne he]
  · refine ⟨l, if_pos (Nat.not_lt.mp hi), within_of_elems hc ?_⟩
    rw [List.set_eq_of_length_le (by simpa using hi)]

lemma get_within (hc : l.len ≤ l.capacity) (i : ℕ) :
    ∃ l', l.step (.get i) = some l' ∧ Within (l', l.elems) := by
  refine ⟨l, ?_, within_of_elems hc rfl⟩
  rw [step]
  split_ifs with hi
  · rfl
  · rw [load_eq ((Nat.not_le.mp hi).trans_le (hc.trans (le_room _)))]
    rfl

/-- Every operation on a list within its capacity keeps it so, unless it is a push on a list of
capacity 0. -/
lemma Within.step {s : ArrayList α × List (Option α)} {op : Op α} (h : Within s)
    (hop : op.Growable s.1) : ∃ s', stepBoth s op = some s' ∧ Within s' := by
  have hstep : ∃ l', s.1.step op = some l' ∧ Within (l', op.apply s.1.elems) := by
    cases op with
    | push x fresh => exact push_within h.1 hop x fresh
    | pop fresh =>
      have hlast : s.1.elems.dropLast = s.1.elems.eraseIdx (s.1.len - 1) := by
        rw [← length_elems, List.eraseIdx_length_sub_one]
      obtain ⟨l', hl, hw⟩ := remove_within h.1 (s.1.len - 1) fresh
      refine ⟨l', hl, ?_⟩
      rw [Op.apply, hlast]
      exact hw
    | remove i fresh => exact remove_within h.1 i fresh
    | set i x => exact set_within h.1 i x
    | get i => exact get_within h.1 i
  obtain ⟨l', hl, hw⟩ := hstep
  rw [h.2.elems] at hw
  exact ⟨_, congrArg _ hl, hw⟩

/-- A push on a list of capacity 0 leaves the capacity as it is. -/
lemma growable_of_within {s s' : ArrayList α × List (Option α)} {op : Op α} (h : Within s)
    (hstep : stepBoth s op = some s') (h' : Within s') : op.Growable s.1 := by
  cases op with
  | push x fresh =>
    intro hcap
    have hfull : s.1.len = s.1.capacity := by
      have hc := h.1
      omega
    have hs : s.1.step (.push x fresh) = some _ :=
      congrArg (Option.map Prod.snd) (insert_of_full hfull)
    rw [stepBoth, hs] at hstep
    obtain rfl := Option.some.inj hstep
    have hc' : s.1.len + 1 ≤ 2 * s.1.capacity := h'.1
    omega
  | pop fresh => trivial
  | remove i fresh => trivial
  | set i x => trivial
  | get i => trivial

/-- The capacity is halved down to 0, from which doubling does not lead up again: the runs from the
constructor that stay within the buffer are those that never push onto a list of capacity 0. -/
theorem within_iff_growable (mem : ℕ → Option α) (ops : List (Op α)) :
    (∀ as bs, as ++ bs = ops →
      ∃ s, Machine.run stepBoth (({ list := mem } : ArrayList α), []) as = some s ∧ Within s) ↔
    Machine.Along stepBoth (fun s op => op.Growable s.1) ({ list := mem }, []) ops :=
  Machine.ends_iff_along (fun _ _ h hop => h.step hop)
    (fun _ _ _ h hstep h' => growable_of_within h hstep h') (within_of_elems (Nat.zero_le _) rfl)

/-- One element goes in and out of the list until the capacity is 0, and then one goes in. -/
theorem not_within_alternate :
    ¬ ∀ as bs, as ++ bs = (List.replicate 4 [Op.push (some 1) fun _ => none,
        Op.pop fun _ => none]).flatten ++ [Op.push (some 1) fun _ => none] →
      ∃ s, Machine.run stepBoth (({ list := fun _ => none } : ArrayList ℕ), []) as = some s ∧
        Within s := by
  intro h
  obtain ⟨s, hrun, hw⟩ := h _ [] (List.append_nil _)
  have hlen : (Machine.run stepBoth (({ list := fun _ => none } : ArrayList ℕ), [])
      ((List.replicate 4 [Op.push (some 1) fun _ => none, Op.pop fun _ => none]).flatten ++
        [Op.push (some 1) fun _ => none])).map (fun s => (s.1.len, s.1.capacity)) = some (1, 0) :=
    rfl
  rw [hrun] at hlen
  obtain ⟨hl, hc⟩ := Prod.mk.inj (Option.some.inj hlen)
  have hle := hw.1
  omega

end ArrayList
end EpochKernel.Util
