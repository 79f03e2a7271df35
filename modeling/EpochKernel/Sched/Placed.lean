import EpochKernel.Sched.Kernel

/-! Where threads are. `Placed` says that every live thread is in the one list that its state names,
except possibly one thread that is on its way from a list to another; removing a thread from a list
and linking it into the next one are the two halves of every move. -/
namespace EpochKernel.Sched
open EpochKernel.Util EpochKernel.Util.LinkedList EpochKernel.Library

variable {Θ P S : Type*}

/-- What neither a move nor a switch of threads changes. -/
structure Kept (k k' : Kernel Θ P S) : Prop where
  threadPostC : k'.threadPostC = k.threadPostC
  threadPostFlag : k'.threadPostFlag = k.threadPostFlag
  semaphore : k'.semaphore = k.semaphore
  alive : k'.alive = k.alive
  sems : k'.sems = k.sems
  proc : ∀ t, (k'.thread t).proc = (k.thread t).proc

/-- What no move of a thread changes. -/
structure Frame (k k' : Kernel Θ P S) : Prop extends Kept k k' where
  threadC : k'.threadC = k.threadC
  context : k'.context = k.context
  last : Fifo.lastDispatched k'.log = Fifo.lastDispatched k.log

section Frames
variable {k k' k'' : Kernel Θ P S}

lemma Kept.trans (h : Kept k k') (h' : Kept k' k'') : Kept k k'' :=
  ⟨h'.threadPostC.trans h.threadPostC, h'.threadPostFlag.trans h.threadPostFlag,
    h'.semaphore.trans h.semaphore, h'.alive.trans h.alive, h'.sems.trans h.sems,
    fun t => (h'.proc t).trans (h.proc t)⟩

lemma Frame.refl (k : Kernel Θ P S) : Frame k k :=
  ⟨⟨rfl, rfl, rfl, rfl, rfl, fun _ => rfl⟩, rfl, rfl, rfl⟩

lemma Frame.trans (h : Frame k k') (h' : Frame k' k'') : Frame k k'' :=
  ⟨h.toKept.trans h'.toKept, h'.threadC.trans h.threadC, h'.context.trans h.context,
    h'.last.trans h.last⟩

end Frames

variable [DecidableEq Θ]

structure Placed (k : Kernel Θ P S) (q : Place S → List Θ) (hole : Option Θ) : Prop where
  family : Family k.links k.lists q
  tList : ∀ st t, t ∈ q (.tList st) →
    t ∈ k.alive ∧ (k.thread t).state = st ∧ st ≠ .semaphoreWait
  waiting : ∀ s t, t ∈ q (.waiting s) → t ∈ k.alive ∧ (k.thread t).state = .semaphoreWait ∧
    s ∈ k.sems ∧ (k.semaphore s).owner = (k.thread t).proc
  absent : ∀ t, hole = some t → t ∈ k.alive ∧ ∀ l, t ∉ q l
  placed : ∀ t ∈ k.alive, hole ≠ some t → (k.thread t).state ≠ .semaphoreWait →
    t ∈ q (.tList (k.thread t).state)
  waits : ∀ t ∈ k.alive, hole ≠ some t → (k.thread t).state = .semaphoreWait →
    ∃ s, t ∈ q (.waiting s)
  dead : ∀ t, t ∉ k.alive → (k.thread t).state ≠ .sleep
  fifo : Fifo.replay k.log = some (q (.tList .ready))
  nodup : k.alive.Nodup
  sems_nodup : k.sems.Nodup

namespace Kernel
variable (k : Kernel Θ P S) (st : TState) (t : Θ)

lemma setState_frame : Frame k (k.setState t st) := by
  refine ⟨⟨rfl, rfl, rfl, rfl, rfl, fun t' => ?_⟩, rfl, rfl, rfl⟩
  by_cases h : t' = t
  · subst h
    simp [setState, setThread]
  · simp [setState, setThread, h]

@[simp] lemma setState_state : ((k.setState t st).thread t).state = st := by
  simp [setState, setThread]

lemma setState_of_ne {t' : Θ} (h : t' ≠ t) : (k.setState t st).thread t' = k.thread t' := by
  simp [setState, setThread, h]

end Kernel

namespace Placed
variable {k : Kernel Θ P S} {q : Place S → List Θ} {t : Θ}

lemma len_eq {hole : Option Θ} (h : Placed k q hole) (l : Place S) : k.len l = (q l).length :=
  h.family.len_eq l

/-- Fields that `Placed` does not read may change. -/
lemma congr {k' : Kernel Θ P S} {hole : Option Θ} (h : Placed k q hole) (hlinks : k'.links = k.links)
    (hlists : k'.lists = k.lists) (halive : k'.alive = k.alive) (hsems : k'.sems = k.sems)
    (hsem : ∀ s, (k'.semaphore s).owner = (k.semaphore s).owner) (hlog : k'.log = k.log)
    (hstate : ∀ t, (k'.thread t).state = (k.thread t).state)
    (hproc : ∀ t, (k'.thread t).proc = (k.thread t).proc) : Placed k' q hole := by
  refine ⟨?_, ?_, ?_, ?_, ?_, ?_, ?_, ?_, ?_, ?_⟩
  · rw [hlinks, hlists]
    exact h.family
  · simpa only [halive, hstate] using h.tList
  · simpa only [halive, hstate, hsems, hsem, hproc] using h.waiting
  · simpa only [halive] using h.absent
  · simpa only [halive, hstate] using h.placed
  · simpa only [halive, hstate] using h.waits
  · simpa only [halive, hstate] using h.dead
  · rw [hlog]
    exact h.fifo
  · rw [halive]
    exact h.nodup
  · rw [hsems]
    exact h.sems_nodup

theorem setState (h : Placed k q (some t)) (st : TState) : Placed (k.setState t st) q (some t) := by
  obtain ⟨hal, hno⟩ := h.absent t rfl
  have hst : ∀ l, ∀ t' ∈ q l, (k.setState t st).thread t' = k.thread t' := fun l t' ht' =>
    Kernel.setState_of_ne k st t fun he => hno l (he ▸ ht')
  have hst' : ∀ t', some t ≠ some t' → (k.setState t st).thread t' = k.thread t' := fun t' hne =>
    Kernel.setState_of_ne k st t fun he => hne (by rw [he])
  refine ⟨h.family, fun st' t' ht' => ?_, fun s t' ht' => ?_, h.absent, fun t' ha hne => ?_,
    fun t' ha hne => ?_, fun t' ha => ?_, h.fifo, h.nodup, h.sems_nodup⟩
  · rw [hst _ t' ht']
    exact h.tList st' t' ht'
  · rw [hst _ t' ht']
    exact h.waiting s t' ht'
  · rw [hst' t' hne]
    exact h.placed t' ha hne
  · rw [hst' t' hne]
    exact h.waits t' ha hne
  · rw [hst' t' fun he => ha (Option.some.inj he ▸ hal)]
    exact h.dead t' ha

end Placed

variable [DecidableEq S]

namespace Kernel

/-- The first half of `move_to`, out of `t_list[st]`. -/
def unlink (k : Kernel Θ P S) (st : TState) (t : Θ) : Kernel Θ P S :=
  let k := k.removeP (.tList st) t
  if st = .ready then k.record (.left t) else k

/-- The second half, into `t_list[st]`. -/
def link (k : Kernel Θ P S) (st : TState) (t : Θ) : Kernel Θ P S :=
  let k := k.append (.tList st) t
  if st = .ready then k.record (.ready t) else k

section Fields
variable (k : Kernel Θ P S) (st : TState) (t : Θ)

lemma unlink_frame : Frame k (k.unlink st t) := by
  rw [unlink]
  split_ifs
  · exact ⟨⟨rfl, rfl, rfl, rfl, rfl, fun _ => rfl⟩, rfl, rfl, by simp [record, removeP]⟩
  · exact ⟨⟨rfl, rfl, rfl, rfl, rfl, fun _ => rfl⟩, rfl, rfl, rfl⟩

lemma link_frame : Frame k (k.link st t) := by
  rw [link]
  split_ifs
  · exact ⟨⟨rfl, rfl, rfl, rfl, rfl, fun _ => rfl⟩, rfl, rfl, by simp [record, append]⟩
  · exact ⟨⟨rfl, rfl, rfl, rfl, rfl, fun _ => rfl⟩, rfl, rfl, rfl⟩

@[simp] lemma unlink_thread : (k.unlink st t).thread = k.thread := by
  rw [unlink]
  split_ifs <;> rfl

@[simp] lemma link_thread : (k.link st t).thread = k.thread := by
  rw [link]
  split_ifs <;> rfl

lemma unlink_lists : (k.unlink st t).links = (k.removeP (.tList st) t).links ∧
    (k.unlink st t).lists = (k.removeP (.tList st) t).lists := by
  rw [unlink]
  split_ifs <;> exact ⟨rfl, rfl⟩

lemma link_lists : (k.link st t).links = (k.append (.tList st) t).links ∧
    (k.link st t).lists = (k.append (.tList st) t).lists := by
  rw [link]
  split_ifs <;> exact ⟨rfl, rfl⟩

lemma moveTo_self (h : (k.thread t).state = st) : k.moveTo t st = k := by
  simp [moveTo, h]

/-- Between two of the indexed states `move_to` is its two halves around the new state. -/
lemma moveTo_eq (hne : (k.thread t).state ≠ st) (hold : (k.thread t).state ≠ .semaphoreWait)
    (hnew : st ≠ .semaphoreWait) :
    k.moveTo t st = ((k.unlink (k.thread t).state t).setState t st).link st t := by
  simp [moveTo, hne, hold, hnew, unlink, link]

lemma moveTo_wait (hold : (k.thread t).state ≠ .semaphoreWait) :
    k.moveTo t .semaphoreWait =
      (k.unlink (k.thread t).state t).setState t .semaphoreWait := by
  simp [moveTo, hold, unlink]

lemma moveTo_of_wait (hold : (k.thread t).state = .semaphoreWait) (hnew : st ≠ .semaphoreWait) :
    k.moveTo t st = (k.setState t st).link st t := by
  simp [moveTo, hold, hnew, Ne.symm hnew, link]

end Fields
end Kernel

namespace Placed
variable {k : Kernel Θ P S} {q : Place S → List Θ} {st : TState} {t : Θ} {s : S}

/-- A thread is in no second list. -/
lemma notMem_erase (h : Placed k q none) {l : Place S} (ht : t ∈ q l) (l' : Place S) :
    t ∉ Function.update q l ((q l).erase t) l' := by
  by_cases hl : l' = l
  · subst hl
    rw [Function.update_self, (h.family.nodup l').mem_erase_iff]
    simp
  · rw [Function.update_of_ne hl]
    exact fun ht' => hl (h.family.disjoint l' l t ht' ht)

theorem unlink (h : Placed k q none) (ht : t ∈ q (.tList st)) :
    Placed (k.unlink st t)
      (Function.update q (.tList st) ((q (.tList st)).erase t)) (some t) := by
  have hfr := k.unlink_frame st t
  obtain ⟨hlinks, hlists⟩ := k.unlink_lists st t
  have hsub : ∀ l, ∀ t' ∈ Function.update q (.tList st) ((q (.tList st)).erase t) l, t' ∈ q l := by
    intro l t' ht'
    by_cases hl : l = .tList st
    · subst hl
      rw [Function.update_self] at ht'
      exact List.mem_of_mem_erase ht'
    · rwa [Function.update_of_ne hl] at ht'
  have hkeep : ∀ l, ∀ t' ∈ q l, t' ≠ t →
      t' ∈ Function.update q (.tList st) ((q (.tList st)).erase t) l := by
    intro l t' ht' hne
    by_cases hl : l = .tList st
    · subst hl
      rw [Function.update_self]
      exact (List.mem_erase_of_ne hne).mpr ht'
    · rwa [Function.update_of_ne hl]
  have hmem := h.tList st t ht
  refine ⟨?_, fun st' t' ht' => ?_, fun s t' ht' => ?_, fun t' ht' => ?_, fun t' ha hne hst => ?_,
    fun t' ha hne hst => ?_, fun t' ha => ?_, ?_, ?_, ?_⟩
  · rw [hlinks, hlists]
    exact h.family.removeP ht
  · rw [hfr.alive, Kernel.unlink_thread]
    exact h.tList st' t' (hsub _ t' ht')
  · rw [hfr.alive, Kernel.unlink_thread, hfr.sems, hfr.semaphore]
    exact h.waiting s t' (hsub _ t' ht')
  · obtain rfl := Option.some.inj ht'
    rw [hfr.alive]
    exact ⟨hmem.1, h.notMem_erase ht⟩
  · rw [hfr.alive] at ha
    rw [Kernel.unlink_thread] at hst ⊢
    exact hkeep _ t' (h.placed t' ha (by simp) hst) fun he => hne (by rw [he])
  · rw [hfr.alive] at ha
    rw [Kernel.unlink_thread] at hst
    obtain ⟨s, hs⟩ := h.waits t' ha (by simp) hst
    exact ⟨s, hkeep _ t' hs fun he => hne (by rw [he])⟩
  · rw [hfr.alive] at ha
    rw [Kernel.unlink_thread]
    exact h.dead t' ha
  · rw [Kernel.unlink]
    split_ifs with hr
    · subst hr
      rw [Function.update_self]
      exact Fifo.replay_left h.fifo ht
    · rw [Function.update_of_ne (by simpa using Ne.symm hr)]
      exact h.fifo
  · rw [hfr.alive]
    exact h.nodup
  · rw [hfr.sems]
    exact h.sems_nodup

/-- Linking the moving thread into the list of its state. -/
theorem link (h : Placed k q (some t)) (st : TState) (hst : (k.thread t).state = st)
    (hnw : st ≠ .semaphoreWait) :
    Placed (k.link st t) (Function.update q (.tList st) (q (.tList st) ++ [t])) none := by
  have hfr := k.link_frame st t
  obtain ⟨hlinks, hlists⟩ := k.link_lists st t
  obtain ⟨hal, hno⟩ := h.absent t rfl
  set q' := Function.update q (.tList st) (q (.tList st) ++ [t]) with hq'
  have hmem : ∀ l t', t' ∈ q' l ↔ t' ∈ q l ∨ l = .tList st ∧ t' = t := by
    intro l t'
    by_cases hl : l = .tList st
    · subst hl
      simp [hq']
    · simp [hq', hl]
  refine ⟨?_, fun st' t' ht' => ?_, fun s t' ht' => ?_, by simp, fun t' ha _ hst' => ?_,
    fun t' ha _ hst' => ?_, fun t' ha => ?_, ?_, ?_, ?_⟩
  · rw [hlinks, hlists]
    exact h.family.append (.tList st) hno
  · rw [hfr.alive, Kernel.link_thread]
    rcases (hmem _ t').mp ht' with ht' | ⟨hl, rfl⟩
    · exact h.tList st' t' ht'
    · obtain rfl : st' = st := by simpa using hl
      exact ⟨hal, hst, hnw⟩
  · rw [hfr.alive, Kernel.link_thread, hfr.sems, hfr.semaphore]
    rcases (hmem _ t').mp ht' with ht' | ⟨hl, -⟩
    · exact h.waiting s t' ht'
    · simp at hl
  · rw [hfr.alive] at ha
    rw [Kernel.link_thread] at hst' ⊢
    refine (hmem _ t').mpr ?_
    by_cases he : t' = t
    · exact Or.inr ⟨by rw [he, hst], he⟩
    · exact Or.inl (h.placed t' ha (fun hc => he (Option.some.inj hc).symm) hst')
  · rw [hfr.alive] at ha
    rw [Kernel.link_thread] at hst'
    have he : t' ≠ t := by
      rintro rfl
      exact hnw (hst.symm.trans hst')
    obtain ⟨s, hs⟩ := h.waits t' ha (fun hc => he (Option.some.inj hc).symm) hst'
    exact ⟨s, (hmem _ t').mpr (Or.inl hs)⟩
  · rw [hfr.alive] at ha
    rw [Kernel.link_thread]
    exact h.dead t' ha
  · rw [Kernel.link]
    split_ifs with hr
    · subst hr
      rw [hq', Function.update_self]
      exact Fifo.replay_ready h.fifo (hno _)
    · rw [hq', Function.update_of_ne (by simpa using Ne.symm hr)]
      exact h.fifo
  · rw [hfr.alive]
    exact h.nodup
  · rw [hfr.sems]
    exact h.sems_nodup

/-- Linking the moving thread into the list of a semaphore. -/
theorem wait (h : Placed k q (some t)) (hst : (k.thread t).state = .semaphoreWait)
    (hs : s ∈ k.sems) (ho : (k.semaphore s).owner = (k.thread t).proc) :
    Placed (k.append (.waiting s) t)
      (Function.update q (.waiting s) (q (.waiting s) ++ [t])) none := by
  obtain ⟨hal, hno⟩ := h.absent t rfl
  set q' := Function.update q (.waiting s) (q (.waiting s) ++ [t]) with hq'
  have hmem : ∀ l t', t' ∈ q' l ↔ t' ∈ q l ∨ l = .waiting s ∧ t' = t := by
    intro l t'
    by_cases hl : l = .waiting s
    · subst hl
      simp [hq']
    · simp [hq', hl]
  refine ⟨h.family.append (.waiting s) hno, fun st' t' ht' => ?_, fun s' t' ht' => ?_, by simp,
    fun t' ha _ hst' => ?_, fun t' ha _ hst' => ?_, h.dead, ?_, h.nodup, h.sems_nodup⟩
  · exact h.tList st' t' (((hmem _ t').mp ht').resolve_right (by simp))
  · rcases (hmem _ t').mp ht' with ht' | ⟨hl, rfl⟩
    · exact h.waiting s' t' ht'
    · obtain rfl : s' = s := by simpa using hl
      exact ⟨hal, hst, hs, ho⟩
  · have he : t' ≠ t := by
      rintro rfl
      exact hst' hst
    exact (hmem _ t').mpr (Or.inl (h.placed t' ha (fun hc => he (Option.some.inj hc).symm) hst'))
  · by_cases he : t' = t
    · exact ⟨s, (hmem _ t').mpr (Or.inr ⟨rfl, he⟩)⟩
    · obtain ⟨s', hs'⟩ := h.waits t' ha (fun hc => he (Option.some.inj hc).symm) hst'
      exact ⟨s', (hmem _ t').mpr (Or.inl hs')⟩
  · rw [hq', Function.update_of_ne (by simp)]
    exact h.fifo

/-- The sequences after a thread moved from one indexed list to another. -/
def moved (q : Place S → List Θ) (a b : TState) (t : Θ) : Place S → List Θ :=
  let q := Function.update q (.tList a) ((q (.tList a)).erase t)
  Function.update q (.tList b) (q (.tList b) ++ [t])

lemma moved_from (q : Place S → List Θ) {a b : TState} (h : a ≠ b) (t : Θ) :
    moved q a b t (.tList a) = (q (.tList a)).erase t := by
  simp [moved, h]

lemma moved_to (q : Place S → List Θ) {a b : TState} (h : a ≠ b) (t : Θ) :
    moved q a b t (.tList b) = q (.tList b) ++ [t] := by
  simp [moved, Ne.symm h]

lemma moved_of_ne (q : Place S → List Θ) {a b : TState} (t : Θ) {l : Place S}
    (ha : l ≠ .tList a) (hb : l ≠ .tList b) : moved q a b t l = q l := by
  simp [moved, ha, hb]

theorem moveTo (h : Placed k q none) (st : TState) (ht : t ∈ q (.tList (k.thread t).state))
    (hne : (k.thread t).state ≠ st) (hnew : st ≠ .semaphoreWait) :
    Placed (k.moveTo t st) (moved q (k.thread t).state st t) none ∧ Frame k (k.moveTo t st) ∧
      ((k.moveTo t st).thread t).state = st ∧
      ∀ t' ≠ t, (k.moveTo t st).thread t' = k.thread t' := by
  have hold := (h.tList _ t ht).2.2
  rw [Kernel.moveTo_eq k st t hne hold hnew]
  have h1 := (h.unlink ht).setState st
  refine ⟨h1.link st (by simp) hnew, ?_, by simp, fun t' hne => ?_⟩
  · exact ((k.unlink_frame _ t).trans (Kernel.setState_frame _ st t)).trans
      (Kernel.link_frame _ st t)
  · rw [Kernel.link_thread, Kernel.setState_of_ne _ _ _ hne, Kernel.unlink_thread]

/-- Popping the first thread of a list takes it out of all lists. -/
theorem popStart {ts : List Θ} {l : Place S} (h : Placed k q none) (hq : q l = t :: ts)
    (log : List (Fifo.Event Θ))
    (hlog : Fifo.replay log = some (Function.update q l ts (.tList .ready))) :
    (k.popStart l).1 = some t ∧
      Placed { (k.popStart l).2 with log := log } (Function.update q l ts) (some t) := by
  have ht : t ∈ q l := by simp [hq]
  have hupd : Function.update q l ts = Function.update q l ((q l).erase t) := by
    rw [hq, List.erase_cons_head]
  obtain ⟨hpop, hfam⟩ := h.family.popStart hq
  have hal : t ∈ k.alive := by
    cases l with
    | tList st => exact (h.tList st t ht).1
    | waiting s => exact (h.waiting s t ht).1
  have hsub : ∀ l', ∀ t' ∈ Function.update q l ts l', t' ∈ q l' := by
    intro l' t' ht'
    by_cases hl' : l' = l
    · subst hl'
      rw [Function.update_self] at ht'
      simp [hq, ht']
    · rwa [Function.update_of_ne hl'] at ht'
  have hkeep : ∀ l', ∀ t' ∈ q l', t' ≠ t → t' ∈ Function.update q l ts l' := by
    intro l' t' ht' hne
    by_cases hl' : l' = l
    · subst hl'
      rw [hq] at ht'
      rw [Function.update_self]
      exact (List.mem_cons.mp ht').resolve_left hne
    · rwa [Function.update_of_ne hl']
  refine ⟨hpop, hfam, fun st' t' ht' => h.tList st' t' (hsub _ t' ht'),
    fun s t' ht' => h.waiting s t' (hsub _ t' ht'), fun t' ht' => ?_, fun t' ha hne hst => ?_,
    fun t' ha hne hst => ?_, h.dead, hlog, h.nodup, h.sems_nodup⟩
  · obtain rfl := Option.some.inj ht'
    exact ⟨hal, fun l' => hupd ▸ h.notMem_erase ht l'⟩
  · exact hkeep _ t' (h.placed t' ha (by simp) hst) fun he => hne (by rw [he])
  · obtain ⟨s, hs⟩ := h.waits t' ha (by simp) hst
    exact ⟨s, hkeep _ t' hs fun he => hne (by rw [he])⟩

end Placed
end EpochKernel.Sched
