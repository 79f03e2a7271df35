import EpochKernel.Library.Run
import EpochKernel.Mem.Pallocator
import EpochKernel.Sched.Registers

/-! The memory of the threads of a process: what `thread::init` takes from the address space of the
process and from the kernel heap, what `~thread` gives back, and what is left of a `new_thread` that
does not get all it asks for. -/
namespace EpochKernel.Sched
open EpochKernel.Util EpochKernel.Mem EpochKernel.Library

/-- Whom a region was taken from: `addr_space::alloc` of the process, or `kalloc`. -/
inductive Source
  | addrSpace | heap
  deriving DecidableEq, Repr

structure Region where
  source : Source
  start : UInt64
  size : UInt64
  deriving DecidableEq, Repr

deriving instance DecidableEq for NewThread

def stackInitialSize : UInt64 := 1 <<< (18 : UInt64)

namespace NewThread

def kstackBytes (n : NewThread) : UInt64 := if n.uid = 0 then 0 else kstackSize

/-- The regions that `thread::init` has obtained; a start of 0 is a `NULL` that it was given. -/
def regions (n : NewThread) : List Region :=
  (if n.stackStart = 0 then []
    else [⟨if n.uid = 0 then .heap else .addrSpace, n.stackStart, n.stackSize⟩]) ++
  (if n.uid = 0 ∨ n.kstackStart = 0 then [] else [⟨.heap, n.kstackStart, kstackSize⟩])

/-- Those of them that come from `kalloc`. -/
def heapRegions (n : NewThread) : List Region := n.regions.filter (·.source = .heap)

end NewThread

/-- A process whose threads come and go. `held` are the regions that are allocated, and `gone` the
threads destroyed, which are not part of the program. -/
structure ThreadMemory (Θ : Type*) where
  uid : UInt8
  threads : List Θ := []
  ready : List Θ := []
  deleted : Bool := false
  held : List Region := []
  live : List (Θ × NewThread) := []
  gone : List NewThread := []

/-- What the allocators return in a call of `new_thread`, 0 for `NULL`: the object, the stack, the
kernel stack and whether there is a list node for `add_thread` in `thread::init` and in
`new_thread`. -/
structure Answers (Θ : Type*) where
  object : Option Θ
  stack : UInt64
  kstack : UInt64
  node₁ : Bool
  node₂ : Bool

namespace ThreadMemory
variable {Θ : Type*}

section Model
variable [DecidableEq Θ]

/-- `process::add_thread`. -/
def addThread (s : ThreadMemory Θ) (t : Θ) (node : Bool) : Bool × ThreadMemory Θ :=
  if node then (true, { s with threads := s.threads ++ [t] }) else (false, s)

/-- `process::rem_thread`. -/
def remThread (s : ThreadMemory Θ) (t : Θ) : ThreadMemory Θ :=
  { s with
    threads := s.threads.erase t
    deleted := if (s.threads.erase t).length = 0 then true else s.deleted }

/-- `addr_space::free`, whose walk over the zones is assumed to come to the one that starts at `mem`, as
it does while the list and its cursor are in order. -/
def addrSpaceFree (s : ThreadMemory Θ) (mem : UInt64) : ThreadMemory Θ :=
  { s with held := s.held.filter fun r =>
      ¬ (r.source = .addrSpace ∧ r.start = alignDown mem pageSize) }

/-- `delete` of a thread of the process, which is alive. -/
def destroy (s : ThreadMemory Θ) (t : Θ) (n : NewThread) : ThreadMemory Θ :=
  let s := s.addrSpaceFree n.stackStart
  let s := if n.kstackBytes ≠ 0 then s.addrSpaceFree n.kstackStart else s
  { s.remThread t with live := s.live.erase (t, n), gone := n :: s.gone }

/-- The fields that `thread::init` sets. -/
def newStacks (s : ThreadMemory Θ) (func : UInt64) (a : Answers Θ) : NewThread where
  uid := s.uid
  func := func
  stackStart := a.stack
  stackSize := stackInitialSize
  kstackStart := if s.uid = 0 then 0 else a.kstack

/-- `thread::init`, once there is the idle thread. The assertion at its end is only compiled in a
debug build; if it fails the kernel stops. -/
def init (debug : Bool) (s : ThreadMemory Θ) (t : Θ) (func : UInt64) (a : Answers Θ) :
    Option (ThreadMemory Θ) :=
  let n := s.newStacks func a
  let s := { s with
    held := s.held ++ n.regions
    ready := s.ready ++ [t]
    live := s.live ++ [(t, n)] }
  if debug then
    let (added, s) := s.addThread t a.node₁
    if added then some s else none
  else some s

/-- `process::new_thread`. Without an object the constructor writes through the null pointer, so that
the call does not come back to its test for `NULL`. -/
def newThread (debug : Bool) (s : ThreadMemory Θ) (func : UInt64) (a : Answers Θ) :
    Option (Option Θ × ThreadMemory Θ) :=
  match a.object with
  | none => none
  | some t =>
    (init debug s t func a).map fun s' =>
      let (added, s') := s'.addThread t a.node₂
      if added then (some t, s') else (none, s'.destroy t (s.newStacks func a))

/-- `sys_thread_new`. -/
def sysThreadNew (debug : Bool) (s : ThreadMemory Θ) (func : UInt64) (a : Answers Θ) :
    Option (Bool × ThreadMemory Θ) :=
  (s.newThread debug func a).map fun r => (r.1.isSome, r.2)

/-- One of the allocations that are needed fails. -/
def Fails (debug : Bool) (s : ThreadMemory Θ) (a : Answers Θ) : Prop :=
  a.object = none ∨ a.stack = 0 ∨ (s.uid ≠ 0 ∧ a.kstack = 0) ∨ (debug ∧ a.node₁ = false) ∨
    a.node₂ = false

/-- The thread has its stack behind its `rsp`. -/
def HasStack (s : ThreadMemory Θ) (t : Θ) : Prop :=
  ∃ n, (t, n) ∈ s.live ∧ ∃ r ∈ s.held, r.start = n.stackStart ∧ r.size = n.stackSize ∧
    n.regs.rsp = r.start + r.size - 8

/-- A call that lacks memory returns `NULL` and leaves no trace, and a thread that it makes ready has
a stack. -/
def Reports (debug : Bool) (s : ThreadMemory Θ) (func : UInt64) (a : Answers Θ) : Prop :=
  ∃ out s', s.newThread debug func a = some (out, s') ∧
    s.sysThreadNew debug func a = some (out.isSome, s') ∧
    (Fails debug s a → out = none ∧ s'.ready = s.ready ∧ s'.threads = s.threads ∧
      s'.held.Perm s.held) ∧
    ∀ t ∈ s'.ready, t ∈ s.ready ∨ s'.HasStack t

end Model

variable {debug : Bool} {s s' : ThreadMemory Θ} {func : UInt64} {a : Answers Θ} {t : Θ}

/-- The process once `thread::init` has run to its end, without its list node. -/
def started (s : ThreadMemory Θ) (t : Θ) (n : NewThread) : ThreadMemory Θ :=
  { s with
    held := s.held ++ n.regions
    ready := s.ready ++ [t]
    live := s.live ++ [(t, n)] }

lemma init_eq (debug : Bool) (s : ThreadMemory Θ) (t : Θ) (func : UInt64) (a : Answers Θ) :
    init debug s t func a = if debug = true ∧ a.node₁ = false then none
      else some (if debug then ((s.started t (s.newStacks func a)).addThread t true).2
        else s.started t (s.newStacks func a)) := by
  unfold init started addThread
  cases debug <;> cases a.node₁ <;> rfl

@[simp] lemma addThread_fields (s : ThreadMemory Θ) (t : Θ) (node : Bool) :
    (s.addThread t node).2.ready = s.ready ∧ (s.addThread t node).2.held = s.held ∧
      (s.addThread t node).2.live = s.live := by
  cases node <;> exact ⟨rfl, rfl, rfl⟩

section Calls
variable [DecidableEq Θ]

@[simp] lemma ready_destroy (n : NewThread) : (s.destroy t n).ready = s.ready := by
  unfold destroy
  split_ifs <;> rfl

/-- A call that gets the object and does not stop the kernel, up to its last `add_thread`. -/
lemma newThread_spec (s : ThreadMemory Θ) (func : UInt64) (ho : a.object = some t)
    (hn : debug = true → a.node₁ = true) :
    ∃ s1, init debug s t func a = some s1 ∧ s1.ready = s.ready ++ [t] ∧
      s1.held = s.held ++ (s.newStacks func a).regions ∧
      s1.live = s.live ++ [(t, s.newStacks func a)] ∧
      s.newThread debug func a = some (if a.node₂ then (some t, (s1.addThread t true).2)
        else (none, s1.destroy t (s.newStacks func a))) := by
  have hstop : ¬ (debug = true ∧ a.node₁ = false) := fun h => by simp [hn h.1] at h
  have hinit := init_eq debug s t func a
  rw [if_neg hstop] at hinit
  refine ⟨_, hinit, ?_, ?_, ?_, ?_⟩
  · cases debug <;> rfl
  · cases debug <;> rfl
  · cases debug <;> rfl
  · rw [newThread, ho]
    dsimp only
    rw [hinit]
    cases a.node₂ <;> rfl

lemma newThread_of_node (ho : a.object = some t) (hd : debug = true) (hn : a.node₁ = false) :
    s.newThread debug func a = none := by
  rw [newThread, ho]
  dsimp only
  rw [init_eq, if_pos ⟨hd, hn⟩]
  rfl

/-- The stack, when it was allocated. -/
lemma stack_mem {n : NewThread} (h : n.stackStart ≠ 0) : ∃ r ∈ n.regions,
    r.start = n.stackStart ∧ r.size = n.stackSize ∧ n.regs.rsp = r.start + r.size - 8 := by
  refine ⟨⟨if n.uid = 0 then .heap else .addrSpace, n.stackStart, n.stackSize⟩, ?_, rfl, rfl, rfl⟩
  unfold NewThread.regions
  rw [if_neg h]
  exact List.mem_append_left _ (List.mem_singleton.mpr rfl)

/-- `new_thread` never reports that it lacks memory. -/
theorem reports_iff (debug : Bool) (s : ThreadMemory Θ) (func : UInt64) (a : Answers Θ) :
    s.Reports debug func a ↔ ¬ s.Fails debug a := by
  cases ho : a.object with
  | none =>
    refine iff_of_false ?_ (not_not_intro (Or.inl ho))
    rintro ⟨out, s', hnew, -⟩
    rw [newThread, ho] at hnew
    cases hnew
  | some t =>
    by_cases hn : debug = true → a.node₁ = true
    · obtain ⟨s1, -, hr1, hh1, hl1, hnew1⟩ := newThread_spec s func ho hn
      constructor
      · rintro ⟨out, s', hnew, -, hfail, -⟩ hf
        obtain ⟨-, hready, -, -⟩ := hfail hf
        have hready' : s'.ready = s.ready ++ [t] := by
          rw [hnew1] at hnew
          cases h2 : a.node₂ <;> simp only [h2, Bool.false_eq_true, if_false, if_true,
            Option.some_inj, Prod.mk.injEq] at hnew <;> rw [← hnew.2]
          · rw [ready_destroy, hr1]
          · rw [(addThread_fields s1 t true).1, hr1]
        simp [hready'] at hready
      · intro hf
        have hstack : a.stack ≠ 0 := fun h => hf (Or.inr (Or.inl h))
        have h2 : a.node₂ = true := by
          by_contra h
          exact hf (Or.inr (Or.inr (Or.inr (Or.inr (Bool.eq_false_iff.mpr h)))))
        rw [h2, if_pos rfl] at hnew1
        refine ⟨some t, _, hnew1, ?_, fun h => absurd h hf, fun x hx => ?_⟩
        · rw [sysThreadNew, hnew1]
          rfl
        · rw [(addThread_fields s1 t true).1, hr1, List.mem_append, List.mem_singleton] at hx
          refine hx.imp_right fun hx => ?_
          subst hx
          obtain ⟨r, hr, hfields⟩ := stack_mem (n := s.newStacks func a) hstack
          refine ⟨s.newStacks func a, ?_, r, ?_, hfields⟩
          · rw [(addThread_fields s1 x true).2.2, hl1]
            exact List.mem_append_right _ (List.mem_singleton.mpr rfl)
          · rw [(addThread_fields s1 x true).2.1, hh1]
            exact List.mem_append_right _ hr
    · push Not at hn
      have hn1 : a.node₁ = false := Bool.eq_false_iff.mpr hn.2
      refine iff_of_false ?_ (not_not_intro ?_)
      · rintro ⟨out, s', hnew, -⟩
        rw [newThread_of_node ho hn.1 hn1] at hnew
        cases hnew
      · exact Or.inr (Or.inr (Or.inr (Or.inl ⟨hn.1, hn1⟩)))

/-- A user process that gets no stack for its thread. -/
theorem not_reports_stack :
    ¬ ({ uid := 2 } : ThreadMemory ℕ).Reports true 0x400000 ⟨some 0, 0, kernelVma, true, true⟩ := by
  rintro ⟨out, s', hnew, -, hfail, -⟩
  obtain ⟨rfl, -⟩ := hfail (Or.inr (Or.inl rfl))
  simp [newThread, init, addThread] at hnew

end Calls

/-! ## Threads that come and go -/

section Model
variable [DecidableEq Θ]

inductive Event (Θ : Type*)
  | newThread (func : UInt64) (a : Answers Θ)
  | destroy (t : Θ)
  | schedule (ready : List Θ)

/-- The object is new, and the allocators return regions that are not in use: whole pages of the lower
half of the address space, and kernel addresses. -/
def Fresh (s : ThreadMemory Θ) (a : Answers Θ) : Prop :=
  (∀ t ∈ a.object, ∀ x ∈ s.live, x.1 ≠ t) ∧
  (a.stack ≠ 0 → if s.uid = 0 then kernelVma ≤ a.stack else
    a.stack < kernelVma ∧ alignDown a.stack pageSize = a.stack ∧
      ∀ r ∈ s.held, r.source = .addrSpace → r.start ≠ a.stack) ∧
  (a.kstack ≠ 0 → kernelVma ≤ a.kstack)

instance (s : ThreadMemory Θ) (a : Answers Θ) : Decidable (s.Fresh a) :=
  inferInstanceAs (Decidable (_ ∧ _ ∧ _))

/-- Only runs in which the process is not deleted are looked at. -/
def stayAlive (s : ThreadMemory Θ) : Option (ThreadMemory Θ) := if s.deleted then none else some s

/-- Threads are created, moved between the lists of the scheduler, and destroyed by the cleaner. -/
def step (debug : Bool) : Machine (ThreadMemory Θ) (Event Θ)
  | s, .newThread func a =>
    if s.Fresh a then (s.newThread debug func a).bind fun r => r.2.stayAlive else none
  | s, .destroy t =>
    if t ∈ s.ready then none
    else (s.live.find? (·.1 = t)).bind fun x => (s.destroy x.1 x.2).stayAlive
  | s, .schedule ready => some { s with ready := ready }

/-- What is allocated besides `base` are the regions of the threads that there are. -/
def Neutral (base : List Region) (s : ThreadMemory Θ) : Prop :=
  s.held.Perm (base ++ s.live.flatMap fun x => x.2.regions)

/-- The zones of an address space start at different addresses of its lower half. -/
structure Zones (held : List Region) : Prop where
  low : ∀ r ∈ held, r.source = .addrSpace → r.start ≠ 0 ∧ r.start < kernelVma
  nodup : ((held.filter (·.source = .addrSpace)).map (·.start)).Nodup

/-- Where the regions of a thread lie. -/
def Placed (n : NewThread) : Prop :=
  (n.stackStart = 0 ∨ if n.uid = 0 then kernelVma ≤ n.stackStart else
    n.stackStart < kernelVma ∧ alignDown n.stackStart pageSize = n.stackStart) ∧
  (n.kstackStart = 0 ∨ kernelVma ≤ n.kstackStart)

/-- Where all regions have gone: what the threads that are gone had from `kalloc` is still
allocated. -/
structure Accounted (base : List Region) (s : ThreadMemory Θ) : Prop where
  zones : Zones s.held
  placed : ∀ x ∈ s.live, Placed x.2
  perm : s.held.Perm (base ++ (s.live.flatMap fun x => x.2.regions) ++
    s.gone.flatMap NewThread.heapRegions)

end Model

variable {base : List Region} {n : NewThread}

def addrRegions (n : NewThread) : List Region := n.regions.filter (·.source = .addrSpace)

lemma addrRegions_eq (n : NewThread) : addrRegions n =
    if n.stackStart = 0 ∨ n.uid = 0 then [] else [⟨.addrSpace, n.stackStart, n.stackSize⟩] := by
  unfold addrRegions NewThread.regions
  by_cases hs : n.stackStart = 0 <;> by_cases hu : n.uid = 0 <;>
    by_cases hk : n.kstackStart = 0 <;> simp [hs, hu, hk]

lemma regions_perm (n : NewThread) : n.regions.Perm (addrRegions n ++ n.heapRegions) := by
  have h := (List.filter_append_perm (fun r : Region => decide (r.source = .addrSpace)) n.regions).symm
  have hnot : (fun r : Region => !decide (r.source = .addrSpace)) =
      fun r : Region => decide (r.source = .heap) := by
    funext r
    cases r.source <;> rfl
  rwa [hnot] at h

/-- `addr_space::free` of an address at which no zone starts. -/
lemma addrSpaceFree_of_ne {mem : UInt64} (h : ∀ r ∈ s.held, r.source = .addrSpace →
    r.start ≠ alignDown mem pageSize) : (s.addrSpaceFree mem).held = s.held := by
  refine List.filter_eq_self.mpr fun r hr => ?_
  simp only [decide_eq_true_eq, not_and]
  exact h r hr

lemma alignDown_kernel {mem : UInt64} (h : kernelVma ≤ mem) : kernelVma ≤ alignDown mem pageSize := by
  have hdown := alignDown_toNat (x := mem) (a := pageSize) (k := 12) rfl
  rw [UInt64.le_iff_toNat_le] at h ⊢
  have hk : kernelVma.toNat = 0xffffff8000000000 := rfl
  omega

/-- Neither `NULL` nor an address of the kernel heap is one of a zone. -/
lemma addrSpaceFree_heap (hz : Zones s.held) {mem : UInt64} (h : mem = 0 ∨ kernelVma ≤ mem) :
    (s.addrSpaceFree mem).held = s.held := by
  refine addrSpaceFree_of_ne fun r hr hs heq => ?_
  obtain ⟨h0, hlow⟩ := hz.low r hr hs
  rcases h with rfl | h
  · exact h0 heq
  · exact UInt64.not_le.mpr hlow (heq ▸ alignDown_kernel h)

lemma filter_start {l : List Region} (hl : (l.map (·.start)).Nodup) {r : Region} (hr : r ∈ l) :
    l.filter (fun x => x.start = r.start) = [r] := by
  induction l with
  | nil => cases hr
  | cons y l ih =>
    rw [List.map_cons, List.nodup_cons] at hl
    rcases List.mem_cons.mp hr with rfl | hr
    · have hnone : l.filter (fun x => x.start = r.start) = [] := by
        refine List.filter_eq_nil_iff.mpr fun x hx heq => hl.1 ?_
        exact List.mem_map.mpr ⟨x, hx, of_decide_eq_true heq⟩
      rw [List.filter_cons_of_pos (by simp), hnone]
    · have hne : y.start ≠ r.start := fun h => hl.1 (h ▸ List.mem_map_of_mem hr)
      rw [List.filter_cons_of_neg (by simpa using hne), ih hl.2 hr]

/-- `addr_space::free` of a zone. -/
lemma addrSpaceFree_zone (hz : Zones s.held) {r : Region} (hr : r ∈ s.held)
    (hs : r.source = .addrSpace) {mem : UInt64} (h : alignDown mem pageSize = r.start) :
    s.held.Perm (r :: (s.addrSpaceFree mem).held) := by
  have hsplit := (List.filter_append_perm
    (fun x : Region => decide (x.source = .addrSpace ∧ x.start = alignDown mem pageSize)) s.held).symm
  have hone : s.held.filter (fun x => decide (x.source = .addrSpace ∧
      x.start = alignDown mem pageSize)) = [r] := by
    have hmem : r ∈ s.held.filter (·.source = .addrSpace) :=
      List.mem_filter.mpr ⟨hr, decide_eq_true hs⟩
    have hfilter := filter_start hz.nodup hmem
    rw [List.filter_filter] at hfilter
    rw [← hfilter, h]
    congr 1
    funext x
    rw [Bool.decide_and, Bool.and_comm]
  rw [hone] at hsplit
  refine hsplit.trans (List.Perm.of_eq ?_)
  rw [List.singleton_append, addrSpaceFree]
  congr 2
  funext x
  rw [decide_not]

lemma addrSpaceFree_zones (hz : Zones s.held) (mem : UInt64) : Zones (s.addrSpaceFree mem).held where
  low r hr := hz.low r (List.mem_of_mem_filter hr)
  nodup := hz.nodup.sublist ((List.filter_sublist.filter _).map _)

lemma Fresh.placed (hf : s.Fresh a) (func : UInt64) : Placed (s.newStacks func a) := by
  obtain ⟨-, hstack, hkstack⟩ := hf
  unfold Placed newStacks
  dsimp only
  constructor
  · by_cases h0 : a.stack = 0
    · exact Or.inl h0
    · have hs := hstack h0
      by_cases hu : s.uid = 0
      · rw [if_pos hu] at hs ⊢
        exact Or.inr hs
      · rw [if_neg hu] at hs ⊢
        exact Or.inr ⟨hs.1, hs.2.1⟩
  · by_cases hu : s.uid = 0
    · exact Or.inl (if_pos hu)
    · rw [if_neg hu]
      exact or_iff_not_imp_left.mpr hkstack

/-- A stack from the address space is one more zone. -/
lemma Fresh.zones (hf : s.Fresh a) (hz : Zones s.held) (func : UInt64) :
    Zones (s.held ++ (s.newStacks func a).regions) := by
  have hone : addrRegions (s.newStacks func a) = if a.stack = 0 ∨ s.uid = 0 then []
      else [⟨.addrSpace, a.stack, stackInitialSize⟩] := addrRegions_eq _
  by_cases hzone : a.stack = 0 ∨ s.uid = 0
  · rw [if_pos hzone] at hone
    have hnot : ∀ r ∈ (s.newStacks func a).regions, r.source ≠ .addrSpace := by
      simpa [addrRegions, List.filter_eq_nil_iff] using hone
    constructor
    · intro r hr hs
      exact hz.low r ((List.mem_append.mp hr).resolve_right fun hr => hnot r hr hs) hs
    · rw [List.filter_append]
      change ((s.held.filter (·.source = .addrSpace) ++ addrRegions _).map (·.start)).Nodup
      rw [hone, List.append_nil]
      exact hz.nodup
  · rw [if_neg hzone] at hone
    push Not at hzone
    have hstack := hf.2.1 hzone.1
    rw [if_neg hzone.2] at hstack
    constructor
    · intro r hr hs
      rcases List.mem_append.mp hr with hr | hr
      · exact hz.low r hr hs
      · have hmem : r ∈ addrRegions (s.newStacks func a) :=
          List.mem_filter.mpr ⟨hr, decide_eq_true hs⟩
        rw [hone, List.mem_singleton] at hmem
        subst hmem
        exact ⟨hzone.1, hstack.1⟩
    · rw [List.filter_append, List.map_append]
      refine List.Nodup.append hz.nodup ?_ ?_
      · change ((addrRegions (s.newStacks func a)).map (·.start)).Nodup
        rw [hone]
        exact List.nodup_singleton _
      · intro x hx hx'
        change x ∈ (addrRegions (s.newStacks func a)).map (·.start) at hx'
        rw [hone, List.map_singleton, List.mem_singleton] at hx'
        obtain ⟨r, hr, rfl⟩ := List.mem_map.mp hx
        obtain ⟨hr, hs⟩ := List.mem_filter.mp hr
        exact hstack.2.2 r hr (of_decide_eq_true hs) hx'

lemma stayAlive_eq (h : s.stayAlive = some s') : s' = s := by
  unfold stayAlive at h
  split_ifs at h
  exact (Option.some.inj h).symm

lemma Accounted.addThread (h : Accounted base s) (node : Bool) :
    Accounted base (s.addThread t node).2 := by
  obtain ⟨-, hheld, hlive⟩ := addThread_fields s t node
  have hgone : (s.addThread t node).2.gone = s.gone := by cases node <;> rfl
  refine ⟨?_, ?_, ?_⟩
  · rw [hheld]
    exact h.zones
  · rw [hlive]
    exact h.placed
  · rw [hheld, hlive, hgone]
    exact h.perm

lemma Accounted.started (h : Accounted base s) (hf : s.Fresh a) (t : Θ) (func : UInt64) :
    Accounted base (s.started t (s.newStacks func a)) := by
  refine ⟨hf.zones h.zones func, fun x hx => ?_, ?_⟩
  · rcases List.mem_append.mp hx with hx | hx
    · exact h.placed x hx
    · rw [List.mem_singleton.mp hx]
      exact hf.placed func
  · have hperm := h.perm
    rw [← Multiset.coe_eq_coe] at hperm ⊢
    unfold ThreadMemory.started
    dsimp only
    rw [List.flatMap_append, List.flatMap_singleton]
    simp only [← Multiset.coe_add] at hperm ⊢
    rw [hperm]
    abel

variable [DecidableEq Θ]

/-- A destroyed thread gives back its zone and nothing else. -/
lemma destroy_held (hz : Zones s.held) (hn : Placed n) (hr : ∀ r ∈ n.regions, r ∈ s.held) :
    Zones (s.destroy t n).held ∧ s.held.Perm (addrRegions n ++ (s.destroy t n).held) := by
  have hsecond (s1 : ThreadMemory Θ) (hz1 : Zones s1.held) :
      (if n.kstackBytes ≠ 0 then s1.addrSpaceFree n.kstackStart else s1).held = s1.held := by
    by_cases hk : n.kstackBytes ≠ 0
    · rw [if_pos hk, addrSpaceFree_heap hz1 hn.2]
    · rw [if_neg hk]
  have hheld : (s.destroy t n).held = (s.addrSpaceFree n.stackStart).held :=
    hsecond _ (addrSpaceFree_zones hz _)
  rw [hheld]
  refine ⟨addrSpaceFree_zones hz _, ?_⟩
  have hone := addrRegions_eq n
  by_cases hzone : n.stackStart = 0 ∨ n.uid = 0
  · have hstack : n.stackStart = 0 ∨ kernelVma ≤ n.stackStart := by
      rcases hn.1 with h | h
      · exact Or.inl h
      · rcases hzone with h0 | h0
        · exact Or.inl h0
        · exact Or.inr (by rwa [if_pos h0] at h)
    rw [hone, if_pos hzone, addrSpaceFree_heap hz hstack]
    exact List.Perm.refl _
  · rw [if_neg hzone] at hone
    push Not at hzone
    have hmem : ⟨.addrSpace, n.stackStart, n.stackSize⟩ ∈ addrRegions n := by simp [hone]
    have hdown : alignDown n.stackStart pageSize = n.stackStart := by
      have h := hn.1.resolve_left hzone.1
      rw [if_neg hzone.2] at h
      exact h.2
    rw [hone]
    exact addrSpaceFree_zone hz (hr _ (List.mem_of_mem_filter hmem)) rfl hdown

/-- What a thread leaves behind. -/
lemma Accounted.destroy (h : Accounted base s) (hx : (t, n) ∈ s.live) :
    Accounted base (s.destroy t n) := by
  have hregions : ∀ r ∈ n.regions, r ∈ s.held := fun r hr => h.perm.mem_iff.mpr
    (List.mem_append_left _ (List.mem_append_right _ (List.mem_flatMap.mpr ⟨(t, n), hx, hr⟩)))
  obtain ⟨hz, hheld⟩ := destroy_held (t := t) h.zones (h.placed _ hx) hregions
  have hfields : (s.destroy t n).live = s.live.erase (t, n) ∧
      (s.destroy t n).gone = n :: s.gone := by
    unfold ThreadMemory.destroy
    split_ifs <;> exact ⟨rfl, rfl⟩
  refine ⟨hz, ?_, ?_⟩
  · rw [hfields.1]
    exact fun x hx => h.placed x (List.mem_of_mem_erase hx)
  · have hlive : (s.live.flatMap fun x => x.2.regions).Perm
        (n.regions ++ (s.live.erase (t, n)).flatMap fun x => x.2.regions) :=
      (List.perm_cons_erase hx).flatMap_right _
    have hperm := hheld.symm.trans h.perm
    rw [hfields.1, hfields.2, List.flatMap_cons]
    rw [← Multiset.coe_eq_coe] at hlive hperm ⊢
    have hn := Multiset.coe_eq_coe.mpr (regions_perm n)
    simp only [← Multiset.coe_add] at hlive hperm hn ⊢
    rw [hlive, hn] at hperm
    apply add_left_cancel (a := (addrRegions n : Multiset Region))
    rw [hperm]
    abel

lemma Accounted.newThread {out : Option Θ} (h : Accounted base s) (hf : s.Fresh a)
    (hr : s.newThread debug func a = some (out, s')) : Accounted base s' := by
  cases ho : a.object with
  | none =>
    rw [ThreadMemory.newThread, ho] at hr
    cases hr
  | some t =>
    by_cases hn : debug = true → a.node₁ = true
    · obtain ⟨s1, hinit, -, -, hl1, hnew⟩ := newThread_spec s func ho hn
      have h1 : Accounted base s1 := by
        have hstarted := h.started hf t func
        rw [init_eq, if_neg (fun hc => by simp [hn hc.1] at hc), Option.some_inj] at hinit
        rw [← hinit]
        cases debug with
        | false => exact hstarted
        | true => exact hstarted.addThread true
      rw [hnew] at hr
      cases h2 : a.node₂ with
      | true =>
        rw [h2, if_pos rfl] at hr
        cases hr
        exact h1.addThread true
      | false =>
        rw [h2, if_neg (by simp)] at hr
        cases hr
        refine h1.destroy ?_
        rw [hl1]
        exact List.mem_append_right _ (List.mem_singleton.mpr rfl)
    · push Not at hn
      rw [newThread_of_node ho hn.1 (Bool.eq_false_iff.mpr hn.2)] at hr
      cases hr

lemma Accounted.step {e : Event Θ} (h : Accounted base s) (hs : step debug s e = some s') :
    Accounted base s' := by
  cases e with
  | newThread func a =>
    rw [ThreadMemory.step, Option.ite_none_right_eq_some] at hs
    obtain ⟨hf, hs⟩ := hs
    obtain ⟨r, hr, hs⟩ := Option.bind_eq_some_iff.mp hs
    rw [stayAlive_eq hs]
    exact h.newThread hf hr
  | destroy t =>
    rw [ThreadMemory.step, Option.ite_none_left_eq_some] at hs
    obtain ⟨x, hx, hs⟩ := Option.bind_eq_some_iff.mp hs.2
    rw [stayAlive_eq hs]
    exact h.destroy (List.mem_of_find?_eq_some hx)
  | schedule ready =>
    cases hs
    exact ⟨h.zones, h.placed, h.perm⟩

/-- Creating and destroying threads is memory neutral as long as no thread that is destroyed has had a
region from `kalloc`, and only then. -/
theorem neutral_iff {s₀ : ThreadMemory Θ} {is : List (Event Θ)} (hz : Zones s₀.held)
    (h0 : s₀.live = [] ∧ s₀.gone = []) (hr : Machine.run (step debug) s₀ is = some s) :
    Neutral s₀.held s ↔ ∀ n ∈ s.gone, n.heapRegions = [] := by
  have hacc : Accounted s₀.held s := by
    refine Machine.run_invariant (fun _ _ _ h hs => h.step hs) ⟨hz, ?_, ?_⟩ hr
    · simp [h0.1]
    · simp [h0.1, h0.2]
  have hperm := hacc.perm
  unfold Neutral
  rw [← List.flatMap_eq_nil_iff]
  constructor
  · intro h
    have hlen := (hperm.symm.trans h).length_eq
    rw [List.length_append] at hlen
    exact List.length_eq_zero_iff.mp (by omega)
  · intro h
    rwa [h, List.append_nil] at hperm

/-- A user process of two threads; the second one comes and goes. -/
def pairOfThreads : ThreadMemory ℕ := { uid := 2, threads := [0], held := [⟨.addrSpace, 0x1000, 0x1000⟩] }

def comesAndGoes : List (Event ℕ) :=
  [.newThread 0x400000 ⟨some 1, 0x2000, kernelVma + 0x100000, true, true⟩, .schedule [],
    .destroy 1]

lemma pairOfThreads_zones : Zones pairOfThreads.held := by
  constructor
  · intro r hr _
    rw [List.mem_singleton.mp hr]
    decide
  · decide

lemma pairOfThreads_run : ((step true).run pairOfThreads comesAndGoes).isSome = true := by
  decide +kernel

theorem neutral_iff_pair : Zones pairOfThreads.held ∧
    (pairOfThreads.live = [] ∧ pairOfThreads.gone = []) ∧
    ∃ s, (step true).run pairOfThreads comesAndGoes = some s ∧
      (Neutral pairOfThreads.held s ↔ ∀ n ∈ s.gone, n.heapRegions = []) := by
  obtain ⟨s, hs⟩ := Option.isSome_iff_exists.mp pairOfThreads_run
  exact ⟨pairOfThreads_zones, ⟨rfl, rfl⟩, s, hs, neutral_iff pairOfThreads_zones ⟨rfl, rfl⟩ hs⟩

/-- The kernel stack of the thread is still allocated. -/
theorem not_neutral_pair : ∃ s, (step true).run pairOfThreads comesAndGoes = some s ∧
    s.live = [] ∧ ⟨.heap, kernelVma + 0x100000, kstackSize⟩ ∈ s.held ∧
    ¬ Neutral pairOfThreads.held s := by
  obtain ⟨s, hs⟩ := Option.isSome_iff_exists.mp pairOfThreads_run
  have hfields : ((step true).run pairOfThreads comesAndGoes).map (fun s => (s.live, s.held)) =
      some ([], [⟨.addrSpace, 0x1000, 0x1000⟩, ⟨.heap, kernelVma + 0x100000, kstackSize⟩]) := by
    decide +kernel
  rw [hs, Option.map_some, Option.some_inj, Prod.mk.injEq] at hfields
  obtain ⟨hlive, hheld⟩ := hfields
  refine ⟨s, hs, hlive, by simp [hheld], fun h => ?_⟩
  have hlen := h.length_eq
  rw [hheld, hlive] at hlen
  revert hlen
  decide

end ThreadMemory
end EpochKernel.Sched
