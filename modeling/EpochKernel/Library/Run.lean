import Mathlib

/-! Runs of a machine given by a partial step function, and the rules that carry a property of one
step to every state of a run. -/
namespace EpochKernel.Library

/-- `step s i` is `none` when the event `i` cannot happen in the state `s`. -/
abbrev Machine (σ ι : Type*) := σ → ι → Option σ

namespace Machine
variable {σ ι : Type*} (step : Machine σ ι)

/-- The state after a list of events; `none` if one of them cannot happen. -/
def run : σ → List ι → Option σ
  | s, [] => some s
  | s, i :: is => (step s i).bind fun s' => run s' is

/-- Every event of the run satisfies `P` in the state in which it happens. -/
def Along (P : σ → ι → Prop) : σ → List ι → Prop
  | _, [] => True
  | s, i :: is => P s i ∧ ∀ s', step s i = some s' → Along P s' is

instance decidableAlong (P : σ → ι → Prop) [∀ s i, Decidable (P s i)] :
    (s : σ) → (is : List ι) → Decidable (Along step P s is)
  | _, [] => isTrue trivial
  | s, i :: is =>
    have : Decidable (∀ s', step s i = some s' → Along step P s' is) :=
      match step s i with
      | none => isTrue nofun
      | some s' =>
        have := decidableAlong P s' is
        decidable_of_iff (Along step P s' is) (by simp)
    inferInstanceAs (Decidable (_ ∧ _))

/-- `Q` holds in every state of the run, the first one included. -/
def Throughout (Q : σ → Prop) (s : σ) (is : List ι) : Prop :=
  ∀ as bs s', as ++ bs = is → run step s as = some s' → Q s'

variable {step} {P : σ → ι → Prop} {I Q : σ → Prop} {s s' : σ} {i : ι} {is as bs : List ι}

@[simp] lemma run_nil : run step s [] = some s := rfl

lemma run_cons : run step s (i :: is) = (step s i).bind fun s' => run step s' is := rfl

lemma run_append (as bs : List ι) : run step s (as ++ bs) = (run step s as).bind (run step · bs) := by
  induction as generalizing s with
  | nil => rfl
  | cons i as ih =>
    rw [List.cons_append, run_cons, run_cons, Option.bind_assoc]
    exact congrArg _ (funext fun s' => ih)

/-- A property kept by every step is kept by every run. -/
theorem run_invariant (hstep : ∀ s i s', I s → step s i = some s' → I s') (h : I s)
    (hr : run step s is = some s') : I s' := by
  induction is generalizing s with
  | nil =>
    obtain rfl : s = s' := Option.some.inj hr
    exact h
  | cons i is ih =>
    rw [run_cons, Option.bind_eq_some_iff] at hr
    obtain ⟨s1, h1, h2⟩ := hr
    exact ih (hstep s i s1 h h1) h2

/-- A property kept by every step that satisfies `P` is kept by the runs along `P`. -/
theorem run_invariant_along (hstep : ∀ s i s', I s → P s i → step s i = some s' → I s') (h : I s)
    (hP : Along step P s is) (hr : run step s is = some s') : I s' := by
  induction is generalizing s with
  | nil =>
    obtain rfl : s = s' := Option.some.inj hr
    exact h
  | cons i is ih =>
    rw [run_cons, Option.bind_eq_some_iff] at hr
    obtain ⟨s1, h1, h2⟩ := hr
    exact ih (hstep s i s1 h hP.1 h1) (hP.2 s1 h1) h2

lemma Along.left (h : Along step P s (as ++ bs)) : Along step P s as := by
  induction as generalizing s with
  | nil => trivial
  | cons i as ih => exact ⟨h.1, fun s1 h1 => ih (h.2 s1 h1)⟩

lemma Along.of_run (as : List ι) (h : Along step P s (as ++ i :: bs))
    (hr : run step s as = some s') : P s' i := by
  induction as generalizing s with
  | nil =>
    obtain rfl : s = s' := Option.some.inj hr
    exact h.1
  | cons j as ih =>
    rw [run_cons, Option.bind_eq_some_iff] at hr
    obtain ⟨s1, h1, h2⟩ := hr
    exact ih (h.2 s1 h1) h2

lemma Along.and {N : σ → ι → Prop} (hN : Along step N s is) (hP : Along step P s is) :
    Along step (fun s i => N s i ∧ P s i) s is := by
  induction is generalizing s with
  | nil => trivial
  | cons i is ih => exact ⟨⟨hN.1, hP.1⟩, fun s1 h1 => ih (hN.2 s1 h1) (hP.2 s1 h1)⟩

lemma along_true (s : σ) (is : List ι) : Along step (fun _ _ => True) s is := by
  induction is generalizing s with
  | nil => trivial
  | cons i is ih => exact ⟨trivial, fun s1 _ => ih s1⟩

/-- A run that has come to its end met no event that cannot happen. -/
lemma along_of_run (hr : run step s is = some s') : Along step (fun s i => step s i ≠ none) s is := by
  induction is generalizing s with
  | nil => trivial
  | cons i is ih =>
    rw [run_cons, Option.bind_eq_some_iff] at hr
    obtain ⟨s1, h1, h2⟩ := hr
    refine ⟨Option.ne_none_iff_exists'.mpr ⟨s1, h1⟩, fun s2 hs2 => ?_⟩
    obtain rfl : s1 = s2 := Option.some.inj (h1.symm.trans hs2)
    exact ih h2

lemma along_forall {G : ι → Prop} (hr : run step s is = some s') :
    Along step (fun _ i => G i) s is ↔ ∀ i ∈ is, G i := by
  induction is generalizing s with
  | nil => exact iff_of_true trivial (by simp)
  | cons i is ih =>
    rw [run_cons, Option.bind_eq_some_iff] at hr
    obtain ⟨s1, h1, h2⟩ := hr
    rw [List.forall_mem_cons, ← ih h2]
    refine and_congr_right fun _ => ⟨fun h => h s1 h1, fun h s2 hs2 => ?_⟩
    obtain rfl : s1 = s2 := Option.some.inj (h1.symm.trans hs2)
    exact h

/-- Where `P` only depends on the event, and the events that have it can happen, the runs along `P`
are those all of whose events have it. -/
theorem along_iff_forall {G : ι → Prop} (hP : ∀ s i, I s → (P s i ↔ G i))
    (hstep : ∀ s i s', I s → step s i = some s' → I s')
    (hsome : ∀ s i, I s → G i → ∃ s', step s i = some s') (h : I s) :
    Along step P s is ↔ ∀ i ∈ is, G i := by
  induction is generalizing s with
  | nil => exact iff_of_true trivial (by simp)
  | cons i is ih =>
    rw [List.forall_mem_cons]
    constructor
    · rintro ⟨h1, h2⟩
      have hG : G i := (hP s i h).mp h1
      obtain ⟨s', hs⟩ := hsome s i h hG
      exact ⟨hG, (ih (hstep s i s' h hs)).mp (h2 s' hs)⟩
    · rintro ⟨h1, h2⟩
      exact ⟨(hP s i h).mpr h1, fun s' hs => (ih (hstep s i s' h hs)).mpr h2⟩

/-- Every state of a run along `P` has the invariant. -/
theorem throughout_of_along (hstep : ∀ s i s', I s → P s i → step s i = some s' → I s') (h : I s)
    (hP : Along step P s is) : Throughout step I s is := by
  rintro as bs s' rfl hr
  exact run_invariant_along hstep h hP.left hr

/-- What every state with the invariant promises for an event that satisfies `P`, it promises all
along such a run. -/
theorem along_of_along {R : σ → ι → Prop} (hstep : ∀ s i s', I s → P s i → step s i = some s' → I s')
    (hR : ∀ s i, I s → P s i → R s i) (h : I s) (hP : Along step P s is) : Along step R s is := by
  induction is generalizing s with
  | nil => trivial
  | cons i is ih =>
    exact ⟨hR s i h hP.1, fun s1 h1 => ih (hstep s i s1 h hP.1 h1) (hP.2 s1 h1)⟩

/-- If the events of the states with the invariant satisfy `R` exactly when they satisfy `P`, and the
invariant is kept by those that do, the runs along `R` are the runs along `P`. All this is about runs
along `N` only. -/
theorem along_iff_along {N R : σ → ι → Prop}
    (hstep : ∀ s i s', I s → N s i → P s i → step s i = some s' → I s')
    (hiff : ∀ s i, I s → N s i → (R s i ↔ P s i)) (h : I s) (hN : Along step N s is) :
    Along step R s is ↔ Along step P s is := by
  induction is generalizing s with
  | nil => exact Iff.rfl
  | cons i is ih =>
    rw [Along, Along, hiff s i h hN.1]
    refine and_congr_right fun hP => forall_congr' fun s1 => ?_
    exact ⟨fun hr h1 => (ih (hstep s i s1 h hN.1 hP h1) (hN.2 s1 h1)).mp (hr h1),
      fun hr h1 => (ih (hstep s i s1 h hN.1 hP h1) (hN.2 s1 h1)).mpr (hr h1)⟩

/-- If in every state with the invariant a good state is followed by a good state exactly when the
event satisfies `P`, the runs that stay good are the runs along `P`. All this is about runs along
`N` only. -/
theorem throughout_iff_along_of {N : σ → ι → Prop}
    (hI : ∀ s i s', I s → Q s → N s i → P s i → step s i = some s' → I s' ∧ Q s')
    (hbad : ∀ s i, I s → Q s → N s i → ¬ P s i → ∃ s', step s i = some s' ∧ ¬ Q s')
    (h : I s) (hQ : Q s) (hN : Along step N s is) : Throughout step Q s is ↔ Along step P s is := by
  constructor
  · intro ht
    induction is generalizing s with
    | nil => trivial
    | cons i is ih =>
      have hP : P s i := by
        by_contra hn
        obtain ⟨s', hs, hq⟩ := hbad s i h hQ hN.1 hn
        exact hq (ht [i] is s' rfl (by rw [run_cons, hs]; rfl))
      refine ⟨hP, fun s1 h1 => ?_⟩
      obtain ⟨hI1, hQ1⟩ := hI s i s1 h hQ hN.1 hP h1
      refine ih hI1 hQ1 (hN.2 s1 h1) fun as bs s' he hr => ?_
      exact ht (i :: as) bs s' (by rw [List.cons_append, he]) (by rw [run_cons, h1]; exact hr)
  · intro hP as bs s' he hr
    have hk := throughout_of_along (I := fun s => I s ∧ Q s) (P := fun s i => N s i ∧ P s i)
      (fun s i s' hs hP h' => hI s i s' hs.1 hs.2 hP.1 hP.2 h') ⟨h, hQ⟩ (hN.and hP)
    exact (hk as bs s' he hr).2

theorem throughout_iff_along (hI : ∀ s i s', I s → Q s → P s i → step s i = some s' → I s' ∧ Q s')
    (hbad : ∀ s i, I s → Q s → ¬ P s i → ∃ s', step s i = some s' ∧ ¬ Q s') (h : I s) (hQ : Q s) :
    Throughout step Q s is ↔ Along step P s is :=
  throughout_iff_along_of (N := fun _ _ => True) (fun s i s' h hQ _ => hI s i s' h hQ)
    (fun s i h hQ _ => hbad s i h hQ) h hQ (along_true s is)

/-- Where every event that satisfies `P` can happen in a good state and leads to a good one, a run
along `P` comes to its end. -/
theorem run_ends (hstep : ∀ s i, Q s → P s i → ∃ s', step s i = some s' ∧ Q s') (h : Q s)
    (hP : Along step P s is) : ∃ s', run step s is = some s' ∧ Q s' := by
  induction is generalizing s with
  | nil => exact ⟨s, rfl, h⟩
  | cons i is ih =>
    obtain ⟨s1, h1, hQ1⟩ := hstep s i h hP.1
    rw [run_cons, h1]
    exact ih hQ1 (hP.2 s1 h1)

/-- If an event that does not satisfy `P` leaves no good state, the runs that reach a good state
with each of their beginnings are the runs along `P`. -/
theorem ends_iff_along (hstep : ∀ s i, Q s → P s i → ∃ s', step s i = some s' ∧ Q s')
    (hbad : ∀ s i s', Q s → step s i = some s' → Q s' → P s i) (h : Q s) :
    (∀ as bs, as ++ bs = is → ∃ s', run step s as = some s' ∧ Q s') ↔ Along step P s is := by
  constructor
  · intro hall
    induction is generalizing s with
    | nil => trivial
    | cons i is ih =>
      obtain ⟨s1, hrun, hQ1⟩ := hall [i] is rfl
      rw [run_cons, Option.bind_eq_some_iff] at hrun
      obtain ⟨s2, h2, hs⟩ := hrun
      obtain rfl : s2 = s1 := Option.some.inj hs
      refine ⟨hbad s i s2 h h2 hQ1, fun s' hs' => ?_⟩
      obtain rfl : s2 = s' := Option.some.inj (h2.symm.trans hs')
      refine ih hQ1 fun as bs he => ?_
      obtain ⟨s3, h3, hQ3⟩ := hall (i :: as) bs (by rw [List.cons_append, he])
      rw [run_cons, h2] at h3
      exact ⟨s3, h3, hQ3⟩
  · rintro hP as bs rfl
    exact run_ends hstep h hP.left

lemma throughout_nil : Throughout step Q s [] ↔ Q s := by
  refine ⟨fun h => h [] [] s rfl rfl, fun h as bs s' he hr => ?_⟩
  obtain rfl := (List.append_eq_nil_iff.mp he).1
  obtain rfl : s = s' := Option.some.inj hr
  exact h

lemma throughout_cons : Throughout step Q s (i :: is) ↔
    Q s ∧ ∀ s', step s i = some s' → Throughout step Q s' is := by
  constructor
  · refine fun h => ⟨h [] (i :: is) s rfl rfl, fun s1 h1 as bs s' he hr => ?_⟩
    exact h (i :: as) bs s' (by rw [List.cons_append, he]) (by rw [run_cons, h1]; exact hr)
  · rintro ⟨h, hrest⟩ as bs s' he hr
    cases as with
    | nil =>
      obtain rfl : s = s' := Option.some.inj hr
      exact h
    | cons j as =>
      obtain ⟨rfl, he'⟩ := List.cons.inj he
      obtain ⟨s1, h1, h2⟩ := Option.bind_eq_some_iff.mp hr
      exact hrest s1 h1 as bs s' he' h2

instance decidableThroughout (Q : σ → Prop) [DecidablePred Q] :
    (s : σ) → (is : List ι) → Decidable (Throughout step Q s is)
  | s, [] => decidable_of_iff (Q s) throughout_nil.symm
  | s, i :: is =>
    have : Decidable (∀ s', step s i = some s' → Throughout step Q s' is) :=
      match step s i with
      | none => isTrue (by simp)
      | some s' =>
        have := decidableThroughout Q s' is
        decidable_of_iff (Throughout step Q s' is) (by simp)
    decidable_of_iff (Q s ∧ ∀ s', step s i = some s' → Throughout step Q s' is)
      throughout_cons.symm

end Machine
section Loop
variable {σ : Type*} {b : ℕ → σ → σ} {n : ℕ} {s : σ}

/-- `for (i = 0; i < n; i ++)` around a body that does not change `i`. -/
def forTo (b : ℕ → σ → σ) : ℕ → σ → σ
  | 0, s => s
  | n + 1, s => b n (forTo b n s)

/-- What one turn carries from `i` to `i + 1` the loop carries to `n`. -/
theorem forTo_invariant {I : ℕ → σ → Prop} (hstep : ∀ i < n, ∀ s, I i s → I (i + 1) (b i s))
    (h : I 0 s) : I n (forTo b n s) := by
  induction n with
  | zero => exact h
  | succ n ih =>
    apply hstep n n.lt_succ_self
    exact ih fun i hi => hstep i (hi.trans n.lt_succ_self)

end Loop

end EpochKernel.Library
