import EpochKernel.Library.Run
import EpochKernel.Util.LinkedList2

/-! `process::threads` while the process is alive. A thread is registered by `new_thread`, and in a
debug build once more by its constructor, inside an assertion; its destructor takes out one entry. -/
namespace EpochKernel.Sched
open EpochKernel.Util EpochKernel.Library

/-- The table of a process. `live` are the threads constructed and not destroyed, `gone` those
destroyed; both are not part of the program. -/
structure ThreadTable (α Θ : Type*) where
  threads : LinkedList2 α Θ
  deleted : Bool := false
  live : List Θ := []
  gone : List Θ := []

/-- The calls, with what the kernel heap returns in them: the thread object, the list node of the
constructor and the one of `new_thread`. -/
inductive ThreadTable.Event (α Θ : Type*)
  | newThread (out : Option Θ) (node₁ node₂ : Option α)
  | destroy (t : Θ)

namespace ThreadTable
variable {α Θ : Type*} [DecidableEq α]

section Model
variable [DecidableEq Θ]

/-- `process::add_thread`; the heap returns no node that is in use. -/
def addThread (s : ThreadTable α Θ) (t : Θ) (node : Option α) : Option (Bool × ThreadTable α Θ) :=
  if ∀ n ∈ node, n ∉ LinkedList.nodes s.threads.links s.threads.list then
    some ((s.threads.append t node).1, { s with threads := (s.threads.append t node).2 })
  else none

/-- The loop of `process::rem_thread`. -/
def remLoop (t : Θ) : ℕ → ℕ → LinkedList2 α Θ → Option (LinkedList2 α Θ)
  | 0, _, _ => none
  | fuel + 1, i, l =>
    if i < l.list.len then
      match l.get i with
      | some (some x, l) => if t = x then l.remove i else remLoop t fuel (i + 1) l
      | _ => none
    else some l

/-- `process::rem_thread`. -/
def remThread (s : ThreadTable α Θ) (t : Θ) : Option (ThreadTable α Θ) :=
  (remLoop t (s.threads.list.len + 1) 0 s.threads).map fun l =>
    { s with threads := l, deleted := if l.list.len = 0 then true else s.deleted }

/-- `delete` of a thread whose process is alive. -/
def destroy (s : ThreadTable α Θ) (t : Θ) : Option (ThreadTable α Θ) :=
  (s.remThread t).map fun s => { s with live := s.live.erase t, gone := t :: s.gone }

/-- The end of `thread::init`: a failed assertion stops the kernel, and without assertions nothing
is done. -/
def init (debug : Bool) (s : ThreadTable α Θ) (t : Θ) (node : Option α) :
    Option (ThreadTable α Θ) :=
  if debug then
    (s.addThread t node).bind fun r => if r.1 then some r.2 else none
  else some s

/-- `process::new_thread`. -/
def newThread (debug : Bool) (s : ThreadTable α Θ) (t : Θ) (node₁ node₂ : Option α) :
    Option (ThreadTable α Θ) :=
  (init debug { s with live := s.live ++ [t] } t node₁).bind fun s =>
    (s.addThread t node₂).bind fun r => if r.1 then some r.2 else r.2.destroy t

/-- A call on its own. Where the heap has no thread object, the constructor is run on the null pointer
and there is no next state. -/
def step (debug : Bool) : Machine (ThreadTable α Θ) (Event α Θ)
  | _, .newThread none _ _ => none
  | s, .newThread (some t) node₁ node₂ =>
    if s.deleted ∨ t ∈ s.live then none else s.newThread debug t node₁ node₂
  | s, .destroy t => if s.deleted ∨ t ∉ s.live then none else s.destroy t

/-- The table holds the live threads, each once, and the process is gone if its last thread is. -/
def Exact (s : ThreadTable α Θ) : Prop :=
  s.threads.items.Perm s.live ∧ s.live.Nodup ∧
    (s.deleted = true ↔ s.live = [] ∧ s.gone ≠ [])

/-- A creation for which the heap has all it is asked for. -/
def Event.Complete : Event α Θ → Prop
  | .newThread (some _) (some _) (some _) => True
  | _ => False

end Model

variable {s s' : ThreadTable α Θ} {t : Θ} {xs as bs : List α} {l : LinkedList2 α Θ}

lemma addThread_some (h : s.threads.Shows xs) {n : α} {r : Bool × ThreadTable α Θ}
    (hr : s.addThread t (some n) = some r) :
    r.1 = true ∧ r.2.threads.Shows (xs ++ [n]) ∧ r.2.threads.items = s.threads.items ++ [t] ∧
      r.2.live = s.live ∧ r.2.gone = s.gone ∧ r.2.deleted = s.deleted ∧
      r.2.threads.list.len = s.threads.list.len + 1 := by
  rw [addThread, Option.ite_none_right_eq_some] at hr
  obtain ⟨hn, hr⟩ := hr
  have hn' : n ∉ xs := by
    rw [← h.represents.nodes_eq]
    exact hn n rfl
  obtain ⟨hs, hi⟩ := h.append hn' t
  cases hr
  refine ⟨rfl, hs, hi, rfl, rfl, rfl, ?_⟩
  rw [hs.represents.len_eq, h.represents.len_eq, List.length_append, List.length_singleton]

lemma addThread_none (s : ThreadTable α Θ) (t : Θ) : s.addThread t none = some (false, s) :=
  if_pos (by simp)

variable [DecidableEq Θ]

/-- The loop takes out the first entry of the thread, if there is one. -/
lemma remLoop_spec (as : List α) (t : Θ) (fuel : ℕ) (h : l.Shows (as ++ bs)) (has : ∀ a ∈ as, t ≠ l.item a)
    (hfuel : bs.length < fuel) (hshort : l.list.len ≤ 2 ^ 31) :
    ∃ l' xs, remLoop t fuel as.length l = some l' ∧ l'.Shows xs ∧ l'.item = l.item ∧
      xs.map l.item = ((as ++ bs).map l.item).erase t := by
  induction fuel generalizing l as bs with
  | zero => omega
  | succ fuel ih =>
    have hnot : t ∉ as.map l.item := by
      intro ht
      obtain ⟨a, ha, rfl⟩ := List.mem_map.mp ht
      exact has a ha rfl
    have hlen : l.list.len = as.length + bs.length := by simpa using h.represents.len_eq
    cases bs with
    | nil =>
      rw [List.append_nil] at h ⊢
      rw [remLoop, if_neg (by simp [hlen])]
      exact ⟨l, as, rfl, h, rfl, (List.erase_of_not_mem hnot).symm⟩
    | cons b bs =>
      rw [List.length_cons] at hlen hfuel
      obtain ⟨l₁, hget, h₁, hitem, hcur, hi, hlen₁⟩ :=
        h.get hshort (i := as.length) (by simp)
      have hb : (as ++ b :: bs)[as.length] = b := by simp
      rw [hb] at hget hcur
      rw [remLoop, if_pos (by omega), hget]
      dsimp only
      by_cases ht : t = l.item b
      · obtain ⟨l₂, hrem, h₂, hitem₂⟩ := h₁.remove hcur hi
        rw [if_pos ht, hrem]
        refine ⟨l₂, as ++ bs, rfl, h₂, hitem₂.trans hitem, ?_⟩
        rw [List.map_append, List.map_append, List.erase_append_right _ hnot, List.map_cons, ht,
          List.erase_cons_head]
      · rw [if_neg ht]
        have h₁' : l₁.Shows ((as ++ [b]) ++ bs) := by simpa using h₁
        obtain ⟨l₂, ys, hrec, h₂, hitem₂, hys⟩ := ih _ h₁' (fun a ha => by
          rw [hitem]
          rcases List.mem_append.mp ha with ha | ha
          · exact has a ha
          · rw [List.mem_singleton.mp ha]
            exact ht) (by omega) (by omega)
        rw [List.length_append, List.length_singleton] at hrec
        refine ⟨l₂, ys, hrec, h₂, hitem₂.trans hitem, ?_⟩
        rw [hitem] at hys
        simpa using hys

lemma remThread_spec (h : s.threads.Shows xs) (hshort : s.threads.list.len ≤ 2 ^ 31) (t : Θ) :
    ∃ s' ys, s.remThread t = some s' ∧ s'.threads.Shows ys ∧
      s'.threads.items = s.threads.items.erase t ∧ s'.live = s.live ∧ s'.gone = s.gone ∧
      s'.deleted = if s.threads.items.erase t = [] then true else s.deleted := by
  obtain ⟨l', ys, hrem, h', hitem, hys⟩ := remLoop_spec [] t (s.threads.list.len + 1) h
    (by simp) (by rw [h.represents.len_eq]; simp) hshort
  have hitems : l'.items = s.threads.items.erase t := by
    rw [h'.items_eq, h.items_eq, hitem]
    exact hys
  have hlen : l'.list.len = 0 ↔ s.threads.items.erase t = [] := by
    rw [← hitems, h'.items_eq, List.map_eq_nil_iff, h'.represents.len_eq_zero]
  refine ⟨_, ys, congrArg (Option.map _) hrem, h', hitems, rfl, rfl, ?_⟩
  simp only [hlen]

/-- A destruction is exact if the entries that remain are those of the threads that remain. -/
lemma destroy_exact (h : s.threads.Shows xs) (hshort : s.threads.list.len ≤ 2 ^ 31)
    (hd : s.deleted = false) (hnd : s.live.Nodup)
    (hp : (s.threads.items.erase t).Perm (s.live.erase t)) :
    ∃ s' ys, s.destroy t = some s' ∧ s'.threads.Shows ys ∧ s'.Exact := by
  obtain ⟨s₁, ys, hrem, h₁, hitems, hlive, hgone, hdel⟩ := remThread_spec h hshort t
  refine ⟨_, ys, congrArg (Option.map _) hrem, h₁, ?_, ?_, ?_⟩
  · change s₁.threads.items.Perm (s₁.live.erase t)
    rw [hitems, hlive]
    exact hp
  · change (s₁.live.erase t).Nodup
    rw [hlive]
    exact hnd.erase t
  · change s₁.deleted = true ↔ s₁.live.erase t = [] ∧ t :: s₁.gone ≠ []
    have hnil : s.threads.items.erase t = [] ↔ s.live.erase t = [] :=
      ⟨fun he => (he ▸ hp).nil_eq.symm, fun he => (he ▸ hp).eq_nil⟩
    rw [hdel, hlive, hd, ← hnil]
    by_cases he : s.threads.items.erase t = [] <;> simp [he]

/-- A table whose list is well formed and not too long for its cursor. -/
def WellFormed (s : ThreadTable α Θ) : Prop := ∃ xs, s.threads.Shows xs

/-- The destructor of a live thread. -/
lemma destroy_step (hw : s.WellFormed) (hx : s.Exact) (hd : s.deleted = false)
    (hshort : s.threads.list.len ≤ 2 ^ 31) :
    ∃ s', s.destroy t = some s' ∧ s'.WellFormed ∧ s'.Exact := by
  obtain ⟨xs, h⟩ := hw
  obtain ⟨s', ys, hs, h', hx'⟩ := destroy_exact (t := t) h hshort hd hx.2.1 (hx.1.erase t)
  exact ⟨s', hs, ⟨ys, h'⟩, hx'⟩

/-- `new_thread`, but for the constructor: the thread is registered, or destroyed again. -/
lemma register_step (hw : s.WellFormed) (hx : s.Exact) (hd : s.deleted = false)
    (hshort : s.threads.list.len < 2 ^ 31) (ht : t ∉ s.live) (node : Option α)
    (hs : s.newThread false t none node = some s') : s'.WellFormed ∧ s'.Exact := by
  obtain ⟨xs, h⟩ := hw
  set s₀ : ThreadTable α Θ := { s with live := s.live ++ [t] } with hs₀
  have hnd : (s.live ++ [t]).Nodup := List.nodup_append.mpr ⟨hx.2.1, List.nodup_singleton t, by
    rintro a ha b hb rfl
    exact ht (List.mem_singleton.mp hb ▸ ha)⟩
  rw [newThread, init, if_neg (by decide), Option.bind_some, ← hs₀] at hs
  cases node with
  | none =>
    rw [addThread_none, Option.bind_some] at hs
    have hnot : t ∉ s.threads.items := fun hm => ht (hx.1.mem_iff.mp hm)
    have hp : (s₀.threads.items.erase t).Perm (s₀.live.erase t) := by
      change (s.threads.items.erase t).Perm ((s.live ++ [t]).erase t)
      rw [List.erase_of_not_mem hnot, List.erase_append_right _ ht, List.erase_cons_head,
        List.append_nil]
      exact hx.1
    obtain ⟨s₁, ys, hs₁, h₁, hx₁⟩ := destroy_exact (s := s₀) h (Nat.le_of_lt hshort) hd hnd hp
    obtain rfl : s₁ = s' := Option.some.inj (hs₁.symm.trans hs)
    exact ⟨⟨ys, h₁⟩, hx₁⟩
  | some n =>
    rw [Option.bind_eq_some_iff] at hs
    obtain ⟨r, hr, hs⟩ := hs
    obtain ⟨hok, h₁, hi, hlive, hgone, hdel, -⟩ := addThread_some (s := s₀) h hr
    rw [if_pos hok] at hs
    cases hs
    refine ⟨⟨_, h₁⟩, ?_, ?_, ?_⟩
    · rw [hi, hlive]
      exact hx.1.append_right [t]
    · rw [hlive]
      exact hnd
    · rw [hdel, hlive]
      change s.deleted = true ↔ s.live ++ [t] = [] ∧ _
      simp [hd]

/-- `new_thread` with assertions: where the second registration fails, the destructor takes the
first one out again; where it succeeds, the thread is in the table twice. -/
lemma debug_step (hw : s.WellFormed) (hx : s.Exact) (hd : s.deleted = false)
    (hshort : s.threads.list.len < 2 ^ 31) (ht : t ∉ s.live) {node₁ node₂ : Option α}
    (hs : s.newThread true t node₁ node₂ = some s') :
    node₁ ≠ none ∧ (node₂ = none → s'.WellFormed ∧ s'.Exact) ∧ (node₂ ≠ none → ¬ s'.Exact) := by
  obtain ⟨xs, h⟩ := hw
  set s₀ : ThreadTable α Θ := { s with live := s.live ++ [t] } with hs₀
  have hnd : (s.live ++ [t]).Nodup := List.nodup_append.mpr ⟨hx.2.1, List.nodup_singleton t, by
    rintro a ha b hb rfl
    exact ht (List.mem_singleton.mp hb ▸ ha)⟩
  rw [newThread, init, if_pos rfl, ← hs₀] at hs
  cases node₁ with
  | none => simp [addThread_none] at hs
  | some n =>
    rw [Option.bind_eq_some_iff] at hs
    obtain ⟨s₁, hinit, hs⟩ := hs
    rw [Option.bind_eq_some_iff] at hinit
    obtain ⟨r, hr, hinit⟩ := hinit
    obtain ⟨hok, h₁, hi, hlive, hgone, hdel, hlen⟩ := addThread_some (s := s₀) h hr
    rw [if_pos hok] at hinit
    cases hinit
    refine ⟨Option.some_ne_none n, fun h2 => ?_, fun h2 => ?_⟩
    · subst h2
      rw [addThread_none, Option.bind_some] at hs
      have hp : (r.2.threads.items.erase t).Perm (r.2.live.erase t) := by
        rw [hi, hlive]
        exact (hx.1.append_right [t]).erase t
      obtain ⟨s₂, ys, hs₂, h₂, hx₂⟩ :=
        destroy_exact h₁ (by rw [hlen]; exact hshort) (hdel.trans hd) (hlive ▸ hnd) hp
      obtain rfl : s₂ = s' := Option.some.inj (hs₂.symm.trans hs)
      exact ⟨⟨ys, h₂⟩, hx₂⟩
    · obtain ⟨m, rfl⟩ := Option.ne_none_iff_exists'.mp h2
      rw [Option.bind_eq_some_iff] at hs
      obtain ⟨r', hr', hs⟩ := hs
      obtain ⟨hok', -, hi', hlive', -, -, -⟩ := addThread_some h₁ hr'
      rw [if_pos hok'] at hs
      cases hs
      rintro ⟨hp, hnd', -⟩
      have hnodup : r'.2.threads.items.Nodup := hp.nodup_iff.mpr hnd'
      rw [hi', hi, List.append_assoc] at hnodup
      have := (List.nodup_append.mp hnodup).2.1
      simp at this

/-- In every run that stays below 2^31 threads the table is exact throughout if and only if the
build has no assertions or no creation is complete. -/
theorem exact_iff (debug : Bool) (links : Links α) (item : α → Θ) {ops : List (Event α Θ)}
    (hrun : Machine.run (step debug) { threads := ⟨{}, links, item⟩ } ops = some s')
    (hshort : Machine.Along (step debug) (fun s _ => s.threads.list.len < 2 ^ 31)
      { threads := ⟨{}, links, item⟩ } ops) :
    Machine.Throughout (step debug) Exact { threads := ⟨{}, links, item⟩ } ops ↔
      ∀ e ∈ ops, debug = false ∨ ¬ e.Complete := by
  have hinit : Exact ({ threads := ⟨{}, links, item⟩ } : ThreadTable α Θ) := by
    refine ⟨?_, List.nodup_nil, by simp⟩
    rw [(LinkedList2.shows_init links item).items_eq]
    exact List.Perm.nil
  rw [← Machine.along_forall hrun]
  refine Machine.throughout_iff_along_of (I := WellFormed) ?_ ?_
    ⟨[], LinkedList2.shows_init links item⟩ hinit (hshort.and (Machine.along_of_run hrun))
  · rintro s e s' hw hx ⟨hlen, -⟩ hgood hs
    cases e with
    | destroy t =>
      rw [step, Option.ite_none_left_eq_some, not_or, Bool.not_eq_true] at hs
      obtain ⟨s₁, hs₁, h₁⟩ := destroy_step (t := t) hw hx hs.1.1 (Nat.le_of_lt hlen)
      obtain rfl : s₁ = s' := Option.some.inj (hs₁.symm.trans hs.2)
      exact h₁
    | newThread out node₁ node₂ =>
      cases out with
      | none => cases hs
      | some t =>
        rw [step, Option.ite_none_left_eq_some, not_or, Bool.not_eq_true] at hs
        obtain ⟨⟨hd, ht⟩, hs⟩ := hs
        cases debug with
        | false => exact register_step hw hx hd hlen ht node₂ hs
        | true =>
          obtain ⟨h1, h2, -⟩ := debug_step hw hx hd hlen ht hs
          obtain ⟨n, rfl⟩ := Option.ne_none_iff_exists'.mp h1
          refine h2 ?_
          cases node₂ with
          | none => rfl
          | some m => exact absurd trivial (hgood.resolve_left (by decide))
  · rintro s e hw hx ⟨hlen, hsome⟩ hbad
    rw [not_or, Bool.not_eq_false, not_not] at hbad
    obtain ⟨rfl, hc⟩ := hbad
    obtain ⟨s', hs⟩ := Option.ne_none_iff_exists'.mp hsome
    refine ⟨s', hs, ?_⟩
    cases e with
    | destroy t => exact False.elim hc
    | newThread out node₁ node₂ =>
      cases out with
      | none => exact False.elim hc
      | some t =>
        rw [step, Option.ite_none_left_eq_some, not_or, Bool.not_eq_true] at hs
        obtain ⟨-, -, h3⟩ := debug_step hw hx hs.1.1 hlen hs.1.2 hs.2
        refine h3 ?_
        rintro rfl
        cases node₁ <;> exact hc

/-- The table of a new process, over zeroed memory. -/
def zeroed : ThreadTable ℕ ℕ := { threads := ⟨{}, fun _ => ⟨none, none⟩, fun _ => 0⟩ }

/-- Without assertions two threads come and go, and a third creation runs out of memory. -/
theorem exact_iff_release : Machine.Throughout (step false) Exact zeroed
    [.newThread (some 1) none (some 10), .newThread (some 2) none (some 11), .destroy 1,
      .newThread (some 3) none none, .destroy 2] := by
  obtain ⟨s, hs⟩ := Option.isSome_iff_exists.mp (show (Machine.run (step false) zeroed
    [.newThread (some 1) none (some 10), .newThread (some 2) none (some 11), .destroy 1,
      .newThread (some 3) none none, .destroy 2]).isSome by decide +kernel)
  exact (exact_iff false _ _ hs (by decide +kernel)).mpr fun _ _ => Or.inl rfl

/-- With assertions the first thread leaves an entry behind, and the process is not deleted. -/
theorem not_exact_debug : ∃ s : ThreadTable ℕ ℕ, Machine.run (step true) zeroed
    [.newThread (some 1) (some 10) (some 11), .destroy 1] = some s ∧
    s.threads.items = [1] ∧ s.live = [] ∧ s.deleted = false ∧ ¬ s.Exact := by
  have h : (Machine.run (step true) zeroed [.newThread (some 1) (some 10) (some 11),
      .destroy 1]).any (fun s => decide (s.threads.items = [1] ∧ s.live = [] ∧
        s.deleted = false)) = true := by decide +kernel
  obtain ⟨s, hs, hq⟩ := (Option.any_eq_true _ _).mp h
  obtain ⟨hi, hl, hd⟩ := of_decide_eq_true hq
  refine ⟨s, hs, hi, hl, hd, fun hx => ?_⟩
  have hp := hx.1
  rw [hi, hl] at hp
  cases hp.eq_nil

end ThreadTable
end EpochKernel.Sched
