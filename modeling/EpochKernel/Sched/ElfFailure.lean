import EpochKernel.Sched.ElfLoad

/-! What a `process::load_elf` that returns `NULL` leaves behind: the list of processes and the blocks
taken from the physical allocators. -/
namespace EpochKernel.Sched
open EpochKernel.Util EpochKernel.Mem

/-- How `new_thread` ends: with a thread, without the node that `add_thread` needs, or not at all,
because the constructor of the thread has no object or an assertion in it fails. -/
inductive ThreadAnswer
  | created | noNode | never
  deriving DecidableEq

/-- Besides: the object of the process, its `pml4_table`, the page tables that `map_at` takes for the
program header `i`, the pages that the kernel heap takes when it grows, and what `~addr_space` hands to
`mem::free` for the zones that are mapped once the program headers before `k` have been gone through. -/
structure Supply (α : Type*) extends Env where
  process : α
  pml4 : UInt64
  tables : ℕ → List UInt64
  grownProcess : List UInt64
  grown : ℕ → List UInt64
  grownThread : List UInt64
  teardown : ℕ → List UInt64
  thread : ThreadAnswer

/-- `proc_list` and the blocks that are allocated. -/
structure Holdings (α : Type*) where
  procs : List α
  blocks : List UInt64
  deriving DecidableEq

/-- `load_elf` returns, `NULL` or not, or it has used an object after it was deleted. -/
inductive LoadEnd (α : Type*)
  | returned (loaded : Bool) (h : Holdings α)
  | wild
  deriving DecidableEq

namespace Holdings
variable {α : Type*} [DecidableEq α] (h : Holdings α)

def take (blocks : List UInt64) : Holdings α := { h with blocks := h.blocks ++ blocks }

/-- The constructor of `process`, for an object that was allocated. -/
def newProcess (env : Supply α) : Holdings α :=
  { h.take (env.grownProcess ++ [env.pml4]) with procs := h.procs ++ [env.process] }

/-- `delete` of the process, for which `~addr_space` hands `freed` to `mem::free`, and `pml4_table` at
its end. -/
def deleteProcess (env : Supply α) (freed : List UInt64) : Holdings α where
  procs := h.procs.erase env.process
  blocks := h.blocks.diff (freed ++ [env.pml4])

end Holdings

namespace Image
variable {α : Type*} [DecidableEq α] (P : Image)

/-- The body of the loop for `p_hdrs[i]`, and whether the loop goes on. -/
def holdSegment (env : Supply α) (i : ℕ) (h : Holdings α) : Bool × Holdings α :=
  if ¬ P.IsLoad i then (true, h)
  else if P.pOffset i + P.pFilesz i > P.len then (false, h)
  else
    match env.allocz i (P.pMemsz i) with
    | none => (false, h)
    | some mem => (env.mapAt i (P.flags i), h.take (mem :: (env.grown i ++ env.tables i)))

attribute [irreducible] holdSegment

/-- The loop, for `k` headers from `i` on, with the number of headers gone through in the end. -/
def holdSegments (env : Supply α) : ℕ → ℕ → Holdings α → ℕ × Bool × Holdings α
  | 0, i, h => (i, true, h)
  | k + 1, i, h =>
    match P.holdSegment env i h with
    | (true, h) => holdSegments env k (i + 1) h
    | (false, h) => (i + 1, false, h)

/-- What `~addr_space` gives back besides `pml4_table` after `k` program headers: nothing if none of them
was given a block, for then no zone is mapped. -/
def freedFor (env : Supply α) (k : ℕ) : List UInt64 :=
  if ∀ j < k, ¬ P.Granted env.toEnv j then [] else env.teardown k

/-- `load_elf`; `none` if it does not come back, as where the constructor of the process has no object
to write to. If `new_thread` deletes the only thread of the process, `rem_thread` deletes the process,
which `load_elf` then deletes once more. -/
def hold (env : Supply α) (h : Holdings α) : Option (LoadEnd α) :=
  if ¬ (P.check Elf.checks).2 then some (.returned false h)
  else if P.tableRejected then some (.returned false h)
  else if ¬ env.newProcess then none
  else
    match P.holdSegments env P.pHdrN 0 (h.newProcess env) with
    | (k, false, h) => some (.returned false (h.deleteProcess env (P.freedFor env k)))
    | (_, true, h) =>
      match env.thread with
      | .created => some (.returned true (h.take env.grownThread))
      | .noNode => some .wild
      | .never => none

/-- `unmap` hands over page tables only (perhaps one of them more than once): no block of a segment and
no page of the kernel heap. -/
def Unmaps (env : Supply α) : Prop :=
  ∀ k ≤ P.pHdrN, ∀ b ∈ env.teardown k, b ∉ env.grownProcess ∧
    ∀ j < k, env.allocz j (P.pMemsz j) ≠ some b

/-- The loop ends with the program header before `k`, or goes through all of them and there is no
thread. -/
def FailsAt (env : Supply α) (k : ℕ) : Prop :=
  (∃ j < P.pHdrN, k = j + 1 ∧ (∀ l < j, P.GoesOn env.toEnv l) ∧ ¬ P.GoesOn env.toEnv j) ∨
    (k = P.pHdrN ∧ (∀ l < k, P.GoesOn env.toEnv l) ∧ env.thread ≠ .created)

variable {P} {env : Supply α} {i k : ℕ} {h : Holdings α}

section Loop
omit [DecidableEq α]

end Loop

omit [DecidableEq α] in
lemma FailsAt.unique {k' : ℕ} (h : P.FailsAt env k) (h' : P.FailsAt env k') : k = k' := by
  rcases h with ⟨j, hj, hk, hall, hn⟩ | ⟨hk, hall, -⟩
  · rcases h' with ⟨j', hj', hk', hall', hn'⟩ | ⟨hk', hall', -⟩
    · rcases lt_trichotomy j j' with hlt | heq | hlt
      · exact absurd (hall' j hlt) hn
      · rw [hk, hk', heq]
      · exact absurd (hall j' hlt) hn'
    · exact absurd (hall' j (hk' ▸ hj)) hn
  · rcases h' with ⟨j', hj', hk', hall', hn'⟩ | ⟨hk', -, -⟩
    · exact absurd (hall j' (hk ▸ hj')) hn'
    · rw [hk, hk']

end Image
end EpochKernel.Sched
