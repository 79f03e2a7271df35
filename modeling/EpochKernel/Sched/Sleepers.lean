import EpochKernel.Mem.Pallocator
import EpochKernel.Sched.Run
import EpochKernel.Util.Cursor

/-! The threads that the timer handler wakes. The loop removes from the list it indexes, and each
removal unsets the cursor, so the next read starts from an end of the list. -/
namespace EpochKernel.Sched
open EpochKernel.Util EpochKernel.Util.LinkedList EpochKernel.Library

variable {Θ P S : Type*} [DecidableEq Θ] [DecidableEq S]

variable {k k' : Kernel Θ P S} {q : Place S → List Θ} {x : Θ} {kept rest : List Θ}
  {nsec : UInt64} {trap : Trap} {i : ℕ}

lemma moveTo_sleepTime (t : Θ) (st : TState) (t' : Θ) :
    ((k.moveTo t st).thread t').sleepTime = (k.thread t').sleepTime := by
  have hset : ∀ j : Kernel Θ P S,
      ((j.setState t st).thread t').sleepTime = (j.thread t').sleepTime := by
    intro j
    by_cases he : t' = t
    · subst he
      simp [Kernel.setState, Kernel.setThread]
    · rw [Kernel.setState_of_ne j st t he]
  rw [Kernel.moveTo]
  dsimp only
  split_ifs <;> first | rfl | exact hset _

/-- A read of the list of sleeping threads only moves its cursor. -/
lemma get_sleeping (hp : Placed k q none)
    (hc : (k.lists (.tList .sleep)).Coherent (q (.tList .sleep)))
    (hlen : (q (.tList .sleep)).length ≤ 2 ^ 32) (hx : (q (.tList .sleep))[i]? = some x) :
    ∃ k', k.get (.tList .sleep) i = some (some x, k') ∧
      k'.get (.tList .sleep) i = some (some x, k') ∧ Placed k' q none ∧
      (k'.lists (.tList .sleep)).current = some x ∧ (k'.lists (.tList .sleep)).currentI = i ∧
      k'.thread = k.thread ∧ k'.threadPostC = k.threadPostC := by
  obtain ⟨hi, -⟩ := List.getElem?_eq_some_iff.mp hx
  have hr := hp.family.represents (.tList .sleep)
  have hlen' := hr.len_eq
  have hget := get_coherent hr (by omega) hc hi (hc.straight hlen' (by omega) (by omega))
  rw [hx] at hget
  obtain ⟨k', hk'⟩ : ∃ k', k.get (.tList .sleep) i = some (some x, k') := by
    rw [Kernel.get, hget]
    exact ⟨_, rfl⟩
  obtain ⟨list, rfl, h1, h2, h3, h4, h5, h6⟩ := Kernel.get_eq hk'
  refine ⟨_, hk', ?_, ?_, by simpa using h5, by simpa using h6, rfl, rfl⟩
  · exact Kernel.get_cursor (by simpa using h4) (by simpa using h5) (by simpa using h6)
  · exact ⟨hp.family.setCursor h1 h2 h3, hp.tList, hp.waiting, hp.absent, hp.placed, hp.waits,
      hp.dead, hp.fifo, hp.nodup, hp.sems_nodup⟩

variable [DecidableEq P]

/-- The loop of `sched_time_handler` with its counter as the `usize` it is: after a removal `i --`
wraps at 0, and `i ++` wraps back. -/
def Kernel.sleepLoop (nsec : UInt64) (trap : Trap) :
    ℕ → UInt64 → Kernel Θ P S → Option (Kernel Θ P S)
  | 0, _, _ => none
  | fuel + 1, i, k =>
    if i.toNat < k.len (.tList .sleep) then
      match k.get (.tList .sleep) i.toNat with
      | some (some temp, k) =>
        if (k.thread temp).sleepTime ≤ nsec then
          match k.get (.tList .sleep) i.toNat with
          | some (some temp, k) => sleepLoop nsec trap fuel (i - 1 + 1) (k.unblock temp trap)
          | _ => none
        else sleepLoop nsec trap fuel (i + 1) k
      | _ => none
    else some k

/-- The threads whose time has come are ready, in their order behind those that were, the others
sleep on in their order, and the cursor of the sleeping threads is coherent. -/
structure Wakes (nsec : UInt64) (k k' : Kernel Θ P S) (q q' : Place S → List Θ) : Prop where
  placed : Placed k' q' none
  sleep : q' (.tList .sleep) =
    (q (.tList .sleep)).filter fun t => nsec < (k.thread t).sleepTime
  ready : q' (.tList .ready) = q (.tList .ready) ++
    (q (.tList .sleep)).filter fun t => (k.thread t).sleepTime ≤ nsec
  others : ∀ l, l ≠ .tList .sleep → l ≠ .tList .ready → q' l = q l
  coherent : (k'.lists (.tList .sleep)).Coherent (q' (.tList .sleep))

/-- Waking the thread under the cursor unsets the cursor. -/
lemma unblock_sleeping (trap : Trap) (hp : Placed k q none) (hx : x ∈ q (.tList .sleep))
    (hcur : (k.lists (.tList .sleep)).current = some x) (hpost : k.threadPostC ≠ 0) :
    Placed (k.unblock x trap) (Placed.moved q .sleep .ready x) none ∧
      ((k.unblock x trap).lists (.tList .sleep)).current = none ∧
      (∀ t, ((k.unblock x trap).thread t).sleepTime = (k.thread t).sleepTime) ∧
      (k.unblock x trap).threadPostC = k.threadPostC := by
  have hst : (k.thread x).state = .sleep := (hp.tList _ x hx).2.1
  have hne : (k.thread x).state ≠ .ready := by
    rw [hst]
    decide
  obtain ⟨hp', hf, -, -⟩ := hp.moveTo .ready (hst ▸ hx) hne (by decide)
  rw [hst] at hp'
  have hcur' : ((k.moveTo x .ready).lists (.tList .sleep)).current = none := by
    have hlen : (k.lists (.tList .sleep)).len ≠ 0 := by
      rw [hp.family.len_eq]
      exact (List.length_pos_of_mem hx).ne'
    rw [Kernel.moveTo_eq k .ready x hne (by rw [hst]; decide) (by decide), hst,
      (Kernel.link_lists _ _ _).2, Kernel.append]
    dsimp only
    rw [Function.update_of_ne (by simp)]
    change ((k.unlink .sleep x).lists (.tList .sleep)).current = none
    rw [(Kernel.unlink_lists k .sleep x).2, Kernel.removeP]
    dsimp only
    rw [Function.update_self, (removeP_cursor x hlen).1, hcur, if_pos rfl]
  rcases unblock_locked trap (x := x) hpost hf.threadPostC with he | ⟨-, he⟩
  · rw [he]
    exact ⟨hp', hcur', moveTo_sleepTime x .ready, hf.threadPostC⟩
  · rw [he]
    exact ⟨hp'.congr rfl rfl rfl rfl (fun _ => rfl) rfl (fun _ => rfl) fun _ => rfl, hcur',
      moveTo_sleepTime x .ready, hf.threadPostC⟩

section Loops
variable {k₁ : Kernel Θ P S} {fuel : ℕ} {n : UInt64}

lemma sleepLoop_succ (hlt : n.toNat < k.len (.tList .sleep))
    (hget : k.get (.tList .sleep) n.toNat = some (some x, k₁))
    (hget₁ : k₁.get (.tList .sleep) n.toNat = some (some x, k₁)) :
    k.sleepLoop nsec trap (fuel + 1) n =
      if (k₁.thread x).sleepTime ≤ nsec then
        (k₁.unblock x trap).sleepLoop nsec trap fuel (n - 1 + 1)
      else k₁.sleepLoop nsec trap fuel (n + 1) := by
  rw [Kernel.sleepLoop, if_pos hlt, hget]
  dsimp only
  rw [hget₁]

lemma wakeLoop_succ (hlt : i < k.len (.tList .sleep))
    (hget : k.get (.tList .sleep) i = some (some x, k₁))
    (hget₁ : k₁.get (.tList .sleep) i = some (some x, k₁)) :
    k.wakeLoop nsec trap (fuel + 1) i =
      if (k₁.thread x).sleepTime ≤ nsec then (k₁.unblock x trap).wakeLoop nsec trap fuel i
      else k₁.wakeLoop nsec trap fuel (i + 1) := by
  rw [Kernel.wakeLoop, if_pos hlt, hget]
  dsimp only
  rw [hget₁]

end Loops

/-- The loop behind the threads `kept` that it has passed, over the threads `rest` that are left.
Both counters reach the end, in the same state. -/
lemma Placed.sleepLoop (hp : Placed k q none)
    (hc : (k.lists (.tList .sleep)).Coherent (q (.tList .sleep)))
    (hlen : (q (.tList .sleep)).length ≤ 2 ^ 32) (hpost : k.threadPostC ≠ 0)
    (hq : q (.tList .sleep) = kept ++ rest) {n : UInt64} (hn : n.toNat = kept.length)
    (hkept : ∀ t ∈ kept, nsec < (k.thread t).sleepTime) {fuel : ℕ} (hfuel : rest.length < fuel) :
    ∃ k' q', k.sleepLoop nsec trap fuel n = some k' ∧
      k.wakeLoop nsec trap fuel n.toNat = some k' ∧ Wakes nsec k k' q q' := by
  induction rest generalizing k q kept n fuel with
  | nil =>
    obtain ⟨fuel, rfl⟩ : ∃ f, fuel = f + 1 := ⟨fuel - 1, by omega⟩
    rw [List.append_nil] at hq
    have hend : ¬ n.toNat < k.len (.tList .sleep) := by
      rw [hp.len_eq, hq]
      omega
    refine ⟨k, q, if_neg hend, if_neg hend, hp, ?_, ?_, fun _ _ _ => rfl, hc⟩
    · rw [hq, List.filter_eq_self.mpr fun t ht => decide_eq_true (hkept t ht)]
    · rw [hq, List.filter_eq_nil_iff.mpr fun t ht => ?_, List.append_nil]
      simpa using UInt64.not_le.mpr (hkept t ht)
  | cons x rest ih =>
    obtain ⟨fuel, rfl⟩ : ∃ f, fuel = f + 1 := ⟨fuel - 1, by omega⟩
    rw [List.length_cons] at hfuel
    have hlt : n.toNat < k.len (.tList .sleep) := by
      rw [hp.len_eq, hq, List.length_append, List.length_cons]
      omega
    have hx : (q (.tList .sleep))[n.toNat]? = some x := by
      rw [hq, hn, List.getElem?_append_right le_rfl, Nat.sub_self, List.getElem?_cons_zero]
    have hmem : x ∈ q (.tList .sleep) := List.mem_of_getElem? hx
    obtain ⟨k1, hget, hget1, hp1, hcur, hcuri, hth, hpost1⟩ := get_sleeping hp hc hlen hx
    rw [sleepLoop_succ hlt hget hget1, wakeLoop_succ hlt hget hget1, hth]
    by_cases hdue : (k.thread x).sleepTime ≤ nsec
    · -- the cursor is unset by the removal, and the same index holds the next thread
      obtain ⟨hp2, hcur2, htime2, hpost2⟩ := unblock_sleeping trap hp1 hmem hcur
        (hpost1 ▸ hpost)
      have hnotMem : x ∉ kept := by
        have hnd := hp.family.nodup (.tList .sleep)
        rw [hq] at hnd
        exact fun hin => List.disjoint_of_nodup_append hnd hin List.mem_cons_self
      have hsleep : Placed.moved q .sleep .ready x (.tList .sleep) = kept ++ rest := by
        rw [Placed.moved_from q (by decide), hq, List.erase_append_right _ hnotMem,
          List.erase_cons_head]
      have htime : ∀ t, ((k1.unblock x trap).thread t).sleepTime = (k.thread t).sleepTime := by
        intro t
        rw [htime2, hth]
      obtain ⟨k', q', hrun, hwake, hw⟩ := ih hp2 (.inl hcur2)
        (by rw [hsleep, List.length_append]; rw [hq, List.length_append, List.length_cons] at hlen; omega)
        (by rw [hpost2, hpost1]; exact hpost) hsleep hn
        (fun t ht => by rw [htime]; exact hkept t ht) (Nat.lt_of_succ_lt_succ hfuel)
      rw [if_pos hdue, if_pos hdue, UInt64.sub_add_cancel]
      refine ⟨k', q', hrun, hwake, hw.placed, ?_, ?_, fun l hs hr => ?_, hw.coherent⟩
      · rw [hw.sleep, hsleep, hq, List.filter_append, List.filter_append,
          List.filter_cons_of_neg (by simpa using hdue)]
        simp only [htime]
      · have hnone : kept.filter (fun t => (k.thread t).sleepTime ≤ nsec) = [] := by
          rw [List.filter_eq_nil_iff]
          intro t ht
          simpa using UInt64.not_le.mpr (hkept t ht)
        rw [hw.ready, Placed.moved_to q (by decide), hsleep, hq]
        simp only [htime, List.filter_append, hnone, List.nil_append]
        rw [List.filter_cons_of_pos (by simpa using hdue), List.append_assoc]
        rfl
      · rw [hw.others l hs hr, Placed.moved_of_ne q x hs hr]
    · have hnext : (n + 1).toNat = kept.length + 1 := by
        rw [UInt64.toNat_add, hn]
        change (kept.length + 1) % 2 ^ 64 = kept.length + 1
        rw [hq, List.length_append] at hlen
        omega
      have hkept' : ∀ t ∈ kept ++ [x], nsec < (k1.thread t).sleepTime := by
        rw [hth]
        intro t ht
        rcases List.mem_append.mp ht with ht | ht
        · exact hkept t ht
        · rw [List.mem_singleton.mp ht]
          exact UInt64.not_le.mp hdue
      have hc1 : (k1.lists (.tList .sleep)).Coherent (q (.tList .sleep)) := by
        right
        rw [hcur, hcuri, hx]
      obtain ⟨k', q', hrun, hwake, hw⟩ := ih hp1 hc1 hlen (hpost1 ▸ hpost)
        (by rw [hq, List.append_assoc]; rfl) (hnext.trans (by simp)) hkept'
        (Nat.lt_of_succ_lt_succ hfuel)
      rw [if_neg hdue, if_neg hdue, hn, ← hnext]
      refine ⟨k', q', hrun, hwake, hw.placed, ?_, ?_, hw.others, hw.coherent⟩
      · rw [hw.sleep, hth]
      · rw [hw.ready, hth]

section Objects
variable {k : Kernel UInt64 P S} {q : Place S → List UInt64} {ts : List UInt64}

/-- A thread object holds its `registers` at least. -/
def threadSize : ℕ := 164

/-- The threads are objects in the kernel's part of the address space that do not overlap. -/
structure Objects (ts : List UInt64) : Prop where
  kernel : ∀ t ∈ ts, Mem.kernelVma ≤ t
  apart : ts.Pairwise fun a b =>
    a.toNat + threadSize ≤ b.toNat ∨ b.toNat + threadSize ≤ a.toNat

/-- The 512 GiB of the kernel hold fewer than 2^32 threads. -/
lemma Objects.length_le (h : Objects ts) : ts.length ≤ 2 ^ 32 := by
  have hv : Mem.kernelVma.toNat = 2 ^ 64 - 2 ^ 39 := by decide
  have hnodup : (ts.map fun t => t.toNat / 164).Nodup := by
    refine List.pairwise_map.mpr (h.apart.imp fun {a b} hab => ?_)
    unfold threadSize at hab
    omega
  have hsub : (ts.map fun t => t.toNat / 164).toFinset ⊆
      Finset.Icc ((2 ^ 64 - 2 ^ 39) / 164) (2 ^ 64 / 164) := by
    intro m hm
    obtain ⟨t, ht, rfl⟩ := List.mem_map.mp (List.mem_toFinset.mp hm)
    have hle := UInt64.le_iff_toNat_le.mp (h.kernel t ht)
    have hlt := t.toNat_lt
    rw [hv] at hle
    rw [Finset.mem_Icc]
    omega
  have hcard := Finset.card_le_card hsub
  rw [List.toFinset_card_of_nodup hnodup, List.length_map, Nat.card_Icc] at hcard
  omega

/-- While the scheduler is locked the loop of the timer handler ends, with its wrapping counter in
the state in which one that stays at the index ends, and it wakes the threads whose time has come,
in their order, and no other thread. -/
theorem sleepLoop_wakes (hp : Placed k q none)
    (hc : (k.lists (.tList .sleep)).Coherent (q (.tList .sleep)))
    (ho : Objects (q (.tList .sleep))) (hpost : k.threadPostC ≠ 0) (nsec : UInt64) (trap : Trap) :
    ∃ k' q', k.sleepLoop nsec trap (k.len (.tList .sleep) + 1) 0 = some k' ∧
      k.wakeLoop nsec trap (k.len (.tList .sleep) + 1) 0 = some k' ∧ Wakes nsec k k' q q' := by
  have hq : q (.tList .sleep) = [] ++ q (.tList .sleep) := rfl
  refine hp.sleepLoop hc ho.length_le hpost hq rfl (by simp) ?_
  rw [hp.len_eq]
  exact Nat.lt_succ_self _

/-- Memory before the boot, for threads that are objects of the kernel's heap. -/
def zeroedHeap : Kernel UInt64 ℕ ℕ where
  links := fun _ => ⟨none, none⟩
  lists := fun _ => {}
  thread := fun _ => ⟨.running, 0, 0, 0⟩
  threadC := 0
  threadPostC := 0
  threadPostFlag := false
  nsecLast := 0
  cr3 := 0
  context := ⟨fun _ => Registers.kernelRegs, 0, 0, 0, fun _ => Registers.kernelRegs⟩
  semaphore := fun _ => ⟨0, 0, 0⟩
  alive := []
  sems := []
  log := []

/-- Two threads go to sleep, until 40 and until 60; the loop runs at 50. -/
theorem sleepLoop_wakes_two : ∃ (k : Kernel UInt64 ℕ ℕ) (q : Place ℕ → List UInt64),
    q (.tList .sleep) = [0xffffff8000001000, 0xffffff8000002000] ∧
    ∃ k' q', k.sleepLoop 50 (trapAt 51 0) (k.len (.tList .sleep) + 1) 0 = some k' ∧
      k.wakeLoop 50 (trapAt 51 0) (k.len (.tList .sleep) + 1) 0 = some k' ∧
      Wakes 50 k k' q q' := by
  have h : (Machine.run (Kernel.step 0xffffff8000000000)
      (Kernel.boot 0xffffff8000000000 0 zeroedHeap) [
        .create 0xffffff8000001000 1 (userThread 0x1000000),
        .create 0xffffff8000002000 1 (userThread 0x2000000), .schedule 5,
        .nsleepUntil 40 20 (trapAt 20 0), .nsleepUntil 60 30 (trapAt 30 0)]).any
      (fun k => decide (k.members (.tList .sleep) = [0xffffff8000001000, 0xffffff8000002000] ∧
        (k.lists (.tList .sleep)).current = none)) = true := by decide +kernel
  obtain ⟨k, hrun, hk⟩ := (Option.any_eq_true _ _).mp h
  obtain ⟨hmem, hcur⟩ := of_decide_eq_true hk
  obtain ⟨q, hI⟩ := Machine.run_invariant (I := fun k => ∃ q, Inv _ k q)
    (fun k c k' ⟨q, h⟩ hs => (h.step hs).imp fun _ h => h.1)
    ⟨_, Kernel.boot_inv fun _ => show TState.running ≠ .sleep by decide⟩ hrun
  have hq : q (.tList .sleep) = [0xffffff8000001000, 0xffffff8000002000] := by
    rw [← hI.members_eq, hmem]
  have hlock : Placed k.lockAll q none :=
    hI.placed.congr rfl rfl rfl rfl (fun _ => rfl) rfl (fun _ => rfl) fun _ => rfl
  refine ⟨k.lockAll, q, hq, sleepLoop_wakes hlock (.inl hcur) ?_ ?_ 50 (trapAt 51 0)⟩
  · rw [hq]
    exact ⟨by simp [Mem.kernelVma], by simp [threadSize]⟩
  · change k.threadPostC + 1 ≠ 0
    rw [hI.postC]
    decide

end Objects

end EpochKernel.Sched
