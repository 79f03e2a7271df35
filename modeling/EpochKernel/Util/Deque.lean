import EpochKernel.Util.LinkedList
import EpochKernel.Library.Run

/-! One intrusive list from its constructor on, beside the sequence its calls describe. Link fields
are never cleared, so the memory of links a run starts from is arbitrary. -/
namespace EpochKernel.Util
open Library

/-- A call of a member function of `linked_list`. -/
inductive Deque.Op (α : Type*)
  | prepend (zone : α)
  | append (zone : α)
  | popStart
  | pop
  | removeP (zone : α)
  | index (i : ℕ)

/-- The list head, the link fields in memory, and the sequence the list is meant to hold. -/
structure Deque (α : Type*) where
  list : LinkedList α := {}
  links : Links α
  seq : List α := []

namespace Deque
variable {α : Type*}

/-- The head and the links store the sequence. -/
def Faithful (s : Deque α) : Prop := LinkedList.Represents s.links s.list s.seq

lemma faithful_init (links : Links α) : Faithful { links := links } :=
  LinkedList.represents_empty links

variable [DecidableEq α]

/-- A node is inserted while it is not a member and removed while it is one; an indexed read needs
the walk to come to an end. -/
def step : Machine (Deque α) (Op α)
  | s, .prepend zone =>
    if zone ∈ s.seq then none
    else some ⟨(s.list.prepend zone s.links).1, (s.list.prepend zone s.links).2, zone :: s.seq⟩
  | s, .append zone =>
    if zone ∈ s.seq then none
    else some ⟨(s.list.append zone s.links).1, (s.list.append zone s.links).2, s.seq ++ [zone]⟩
  | s, .popStart => some ⟨(s.list.popStart s.links).2, s.links, s.seq.tail⟩
  | s, .pop => some ⟨(s.list.pop s.links).2, s.links, s.seq.dropLast⟩
  | s, .removeP zone =>
    if zone ∈ s.seq then
      some ⟨(s.list.removeP zone s.links).1, (s.list.removeP zone s.links).2, s.seq.erase zone⟩
    else none
  | s, .index i => (s.list.get i s.links).map fun r => { s with list := r.2 }

variable {s s' : Deque α} {op : Op α}

lemma Faithful.popStart (h : s.Faithful) :
    (s.list.popStart s.links).1 = s.seq.head? ∧
    LinkedList.Represents s.links (s.list.popStart s.links).2 s.seq.tail := by
  cases hs : s.seq with
  | nil =>
    have hr : LinkedList.Represents s.links s.list [] := hs ▸ h
    rw [LinkedList.popStart_nil hr]
    exact ⟨rfl, hr⟩
  | cons x xs =>
    have hr : LinkedList.Represents s.links s.list (x :: xs) := hs ▸ h
    exact LinkedList.popStart_cons hr

lemma Faithful.pop (h : s.Faithful) :
    (s.list.pop s.links).1 = s.seq.getLast? ∧
    LinkedList.Represents s.links (s.list.pop s.links).2 s.seq.dropLast := by
  rcases List.eq_nil_or_concat s.seq with hs | ⟨xs, x, hs⟩
  · have hr : LinkedList.Represents s.links s.list [] := hs ▸ h
    rw [LinkedList.pop_nil hr, hs]
    exact ⟨rfl, hr⟩
  · rw [List.concat_eq_append] at hs
    have hr : LinkedList.Represents s.links s.list (xs ++ [x]) := hs ▸ h
    obtain ⟨hv, hr⟩ := LinkedList.pop_concat hr
    rw [hs, List.getLast?_concat, List.dropLast_concat]
    exact ⟨hv, hr⟩

lemma Faithful.step (h : s.Faithful) (hstep : step s op = some s') : s'.Faithful := by
  cases op with
  | prepend zone =>
    rw [Deque.step, Option.ite_none_left_eq_some] at hstep
    obtain ⟨hz, hs⟩ := hstep
    cases hs
    exact LinkedList.prepend_represents h hz
  | append zone =>
    rw [Deque.step, Option.ite_none_left_eq_some] at hstep
    obtain ⟨hz, hs⟩ := hstep
    cases hs
    exact LinkedList.append_represents h hz
  | popStart =>
    cases hstep
    exact h.popStart.2
  | pop =>
    cases hstep
    exact h.pop.2
  | removeP zone =>
    rw [Deque.step, Option.ite_none_right_eq_some] at hstep
    obtain ⟨hz, hs⟩ := hstep
    cases hs
    obtain ⟨as, bs, -, hq, he⟩ := List.exists_erase_eq hz
    have hr : LinkedList.Represents s.links s.list (as ++ zone :: bs) := hq ▸ h
    change LinkedList.Represents _ _ (s.seq.erase zone)
    rw [he]
    exact (LinkedList.removeP_represents hr).1
  | index i =>
    rw [Deque.step, Option.map_eq_some_iff] at hstep
    obtain ⟨⟨z, l⟩, hget, rfl⟩ := hstep
    obtain ⟨hl, hs, he, -⟩ := LinkedList.get_fields hget
    exact LinkedList.Represents.of_fields h hl hs he

theorem faithful_of_run {links : Links α} {ops : List (Op α)}
    (hrun : Machine.run step { links := links } ops = some s) : s.Faithful :=
  Machine.run_invariant (fun _ _ _ h hs => h.step hs) (faithful_init links) hrun

/-- After every run the two traversals visit the described sequence, `next` from `start` to `end`
and `prev` from `end` backwards, and both ends are popped as described. -/
theorem deque_of_run {links : Links α} {ops : List (Op α)}
    (hrun : Machine.run step { links := links } ops = some s) :
    s.list.len = s.seq.length ∧
    LinkedList.nodesFrom s.links s.list.len s.list.start = s.seq ∧
    LinkedList.nodesTo s.links s.list.len s.list.end_ = s.seq.reverse ∧
    (s.seq ≠ [] → s.list.start = s.seq.head? ∧ s.list.end_ = s.seq.getLast?) ∧
    (s.list.popStart s.links).1 = s.seq.head? ∧ (s.list.pop s.links).1 = s.seq.getLast? := by
  have h : s.Faithful := faithful_of_run hrun
  refine ⟨h.len_eq, h.nodes_eq, ?_, fun hne => ⟨h.start_eq hne, h.end_eq hne⟩, h.popStart.1,
    h.pop.1⟩
  rw [h.len_eq]
  exact LinkedList.nodesTo_linked h.linked h.end_eq

/-- A node comes back after it was removed, and the emptied list is filled again. -/
theorem deque_of_run_reused : ∃ s : Deque ℕ,
    Machine.run step { links := fun _ => ⟨some 3, some 3⟩ }
      [.append 1, .prepend 0, .append 2, .removeP 1, .popStart, .prepend 1, .pop, .pop, .append 2,
        .append 0] = some s ∧
    LinkedList.nodesFrom s.links s.list.len s.list.start = s.seq := by
  obtain ⟨s, hs⟩ := Option.isSome_iff_exists.mp (show (Machine.run step
    { links := fun _ : ℕ => ⟨some 3, some 3⟩ } [.append 1, .prepend 0, .append 2, .removeP 1,
      .popStart, .prepend 1, .pop, .pop, .append 2, .append 0]).isSome by decide)
  exact ⟨s, hs, (deque_of_run hs).2.1⟩

end Deque
end EpochKernel.Util
