import EpochKernel.Library.Run

/-! What one party sees of a machine that it shares with others. If its own events change its view by a
function of the view, and the events of the others leave the view alone, then the view at the end of
a run is what its own events make of it. -/
namespace EpochKernel.Library.Machine
variable {σ ι α : Type*} (step : Machine σ ι) (I : σ → Prop) (P : σ → ι → Prop) (own : ι → Prop)
  (after : α → ι → α) (R : σ → α → Prop)

/-- `R s a` says that the party sees `a` in the state `s`, which has the invariant `I`. -/
structure Views : Prop where
  keep : ∀ s i s', I s → P s i → step s i = some s' → I s'
  mine : ∀ s i s' a, I s → P s i → step s i = some s' → R s a → own i → R s' (after a i)
  others : ∀ s i s' a, I s → P s i → step s i = some s' → R s a → ¬ own i → R s' a

variable {step I P own after R} {s s' : σ} {is : List ι} {a : α}

theorem Views.run [DecidablePred own] (V : Views step I P own after R) (h : I s)
    (hP : Along step P s is) (ha : R s a) (hr : Machine.run step s is = some s') :
    R s' ((is.filter own).foldl after a) := by
  induction is generalizing s a with
  | nil =>
    obtain rfl : s = s' := Option.some.inj hr
    exact ha
  | cons i is ih =>
    rw [run_cons, Option.bind_eq_some_iff] at hr
    obtain ⟨s1, h1, h2⟩ := hr
    have hI := V.keep s i s1 h hP.1 h1
    by_cases hi : own i
    · have hfilter : (i :: is).filter own = i :: is.filter own := by simp [hi]
      rw [hfilter, List.foldl_cons]
      exact ih hI (hP.2 s1 h1) (V.mine s i s1 a h hP.1 h1 ha hi) h2
    · have hfilter : (i :: is).filter own = is.filter own := by simp [hi]
      rw [hfilter]
      exact ih hI (hP.2 s1 h1) (V.others s i s1 a h hP.1 h1 ha hi) h2

end EpochKernel.Library.Machine
