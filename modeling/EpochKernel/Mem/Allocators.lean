import EpochKernel.Mem.PallocatorSizes
import EpochKernel.Mem.PallocatorSpace

/-! The array of physical allocators behind `mem::alloc` and `mem::free`. -/
namespace EpochKernel.Mem
open EpochKernel.Util EpochKernel.Library EpochKernel.Library.Block

namespace Pallocator
variable {p : Pallocator} {ps : List Pallocator} {n : UInt64}

/-- `mem::alloc`: the first allocator that does not return `NULL`. -/
def memAlloc (n : UInt64) : List Pallocator → Option UInt64 × List Pallocator
  | [] => (none, [])
  | p :: ps =>
    let r := p.alloc n
    match r.1.filter (· ≠ 0) with
    | some out => (some out, r.2 :: ps)
    | none => (memAlloc n ps).map id fun ps => r.2 :: ps

/-- `mem::free`. -/
def memFree (mem : UInt64) : List Pallocator → List Pallocator
  | [] => []
  | p :: ps =>
    if mem ≥ p.startAddr ∧ mem < p.endAddr then p.free mem :: ps else p :: memFree mem ps

/-- An allocator of pages in the states between two calls. -/
structure Sound (p : Pallocator) : Prop where
  foBits : p.foBits = 12
  pos : 0 < p.lo
  holds : ∃ live q, Holds p live q ∧ BuddyFree (blocksOf p.fo q)

def memFreeBytes (ps : List Pallocator) : ℕ := (ps.map freeBytes).sum

lemma memFreeBytes_cons : memFreeBytes (p :: ps) = p.freeBytes + memFreeBytes ps := rfl

/-- The bytes in free zones of at least `2 ^ e` bytes. -/
def memBytesFrom (e : ℕ) (ps : List Pallocator) : ℕ := (ps.map fun p => p.bytesFrom e).sum

lemma memBytesFrom_cons (e : ℕ) : memBytesFrom e (p :: ps) = p.bytesFrom e + memBytesFrom e ps := rfl

lemma memBytesFrom_anti {e e' : ℕ} (he : e ≤ e') : memBytesFrom e' ps ≤ memBytesFrom e ps :=
  List.sum_le_sum fun _ _ => bytesFrom_anti he

lemma memBytesFrom_twelve (h : ∀ p ∈ ps, p.Sound) : memBytesFrom 12 ps = memFreeBytes ps := by
  refine congrArg List.sum (List.map_congr_left fun p hp => ?_)
  have hfo : p.fo = 12 := congrArg UInt8.toNat (h p hp).foBits
  rw [← hfo, bytesFrom_fo]

lemma dvd_memBytesFrom (h : ∀ p ∈ ps, p.Sound) (e : ℕ) : 2 ^ e ∣ memBytesFrom e ps := by
  refine List.dvd_sum fun x hx => ?_
  obtain ⟨p, hp, rfl⟩ := List.mem_map.mp hx
  obtain ⟨live, q, hq, -⟩ := (h p hp).holds
  exact hq.dvd_bytesFrom e

/-- A granted request takes a block of its order from one allocator, a refused one changes nothing
and finds no zone of its order or above. -/
lemma Sound.alloc (h : p.Sound) (hn : n ≠ 0) :
    (∃ a p', p.alloc n = (some a, p') ∧ a ≠ 0 ∧ p'.Sound ∧ ∀ e ≤ 12 + (p.getOrder n).toNat,
      p'.bytesFrom e + 2 ^ (12 + (p.getOrder n).toNat) = p.bytesFrom e) ∨
    (p.alloc n = (none, p) ∧ ∀ k, (p.getOrder n).toNat ≤ k → p.zones k = []) := by
  obtain ⟨live, q, hq, hB⟩ := h.holds
  have hfo : p.fo = 12 := congrArg UInt8.toNat h.foBits
  have hz : p.zones = q := funext hq.zones_eq
  rw [Pallocator.alloc, if_neg hn]
  rcases hq.oalloc hB (p.getOrder n) with ⟨p', q', a, heq, h', hB', hl, -, -, -, hlow, -⟩ | ⟨heq, hall⟩
  · have hfo' : p'.fo = p.fo := congrArg (·.foBits.toNat) hl
    have hlo : p'.lo = p.lo := congrArg (·.startAddr.toNat) hl
    have hhi : p'.hi = p.hi := congrArg (·.endAddr.toNat) hl
    have hin := (h'.live_bounds List.mem_cons_self).1
    have hsum := hq.freeBytes_add
    have hsum' := h'.freeBytes_add
    rw [liveBytes_cons, hfo', hlo, hhi, hfo] at hsum'
    rw [hfo] at hsum
    refine .inl ⟨a, p', heq, ?_, ⟨?_, ?_, _, q', h', by rw [hfo']; exact hB'⟩, fun e he =>
      hq.bytesFrom_add h' hl hlow (hfo ▸ he) (by dsimp only at hsum'; omega)⟩
    · rintro rfl
      have hpos := h.pos
      rw [hlo] at hin
      exact absurd hin (Nat.not_le.mpr hpos)
    · rw [hl]
      exact h.foBits
    · rw [hlo]
      exact h.pos
  · exact .inr ⟨heq, hz ▸ hall⟩

lemma memAlloc_cons (n : UInt64) (p : Pallocator) (ps : List Pallocator) :
    memAlloc n (p :: ps) =
      if ((p.alloc n).1.filter (· ≠ 0)).isSome then
        ((p.alloc n).1.filter (· ≠ 0), (p.alloc n).2 :: ps)
      else ((memAlloc n ps).1, (p.alloc n).2 :: (memAlloc n ps).2) := by
  rw [memAlloc]
  cases (p.alloc n).1.filter (· ≠ 0) <;> rfl

/-- What `mem::alloc` does at one allocator. -/
lemma Sound.memAlloc_cons (h : p.Sound) (n : UInt64) (ps : List Pallocator) :
    (∃ a p', memAlloc n (p :: ps) = (some a, p' :: ps) ∧ p'.Sound ∧ ∀ e ≤ 12 + (p.getOrder n).toNat,
      p'.bytesFrom e + 2 ^ (12 + (p.getOrder n).toNat) = p.bytesFrom e) ∨
    (memAlloc n (p :: ps) = ((memAlloc n ps).1, p :: (memAlloc n ps).2) ∧
      (n ≠ 0 → ∀ k, (p.getOrder n).toNat ≤ k → p.zones k = [])) := by
  rw [Pallocator.memAlloc_cons]
  by_cases hn : n = 0
  · right
    have hnone : p.alloc n = (none, p) := if_pos hn
    rw [hnone]
    exact ⟨rfl, fun hne => absurd hn hne⟩
  · rcases h.alloc hn with ⟨a, p', heq, ha0, hp', hbytes⟩ | ⟨heq, hall⟩
    · left
      have hfilter : (some a).filter (· ≠ 0) = some a := by simp [ha0]
      rw [heq, hfilter]
      exact ⟨a, p', rfl, hp', hbytes⟩
    · right
      rw [heq]
      exact ⟨rfl, fun _ => hall⟩

lemma memAlloc_refused (h : ∀ p ∈ ps, p.Sound) (ha : (memAlloc n ps).1 = none) :
    (memAlloc n ps).2 = ps ∧
      (n ≠ 0 → ∀ p ∈ ps, ∀ k, (p.getOrder n).toNat ≤ k → p.zones k = []) := by
  induction ps with
  | nil => exact ⟨rfl, fun _ p hp => absurd hp List.not_mem_nil⟩
  | cons p ps ih =>
    rcases (h p List.mem_cons_self).memAlloc_cons n ps with ⟨a, p', heq, -⟩ | ⟨heq, hall⟩
    · rw [heq] at ha
      cases ha
    · rw [heq] at ha ⊢
      obtain ⟨hrest, hrest'⟩ := ih (fun p hp => h p (List.mem_cons_of_mem _ hp)) ha
      refine ⟨congrArg (p :: ·) hrest, fun hn p' hp' => ?_⟩
      rcases List.mem_cons.mp hp' with rfl | hp'
      · exact hall hn
      · exact hrest' hn p' hp'

lemma memAlloc_granted (h : ∀ p ∈ ps, p.Sound) (ha : (memAlloc n ps).1 ≠ none) :
    (∀ p ∈ (memAlloc n ps).2, p.Sound) ∧
      ∃ o : UInt8, (∀ c : Layout, c.foBits = 12 → c.getOrder n = o) ∧ ∀ e ≤ 12 + o.toNat,
        memBytesFrom e (memAlloc n ps).2 + 2 ^ (12 + o.toNat) = memBytesFrom e ps := by
  induction ps with
  | nil => exact absurd rfl ha
  | cons p ps ih =>
    have hp := h p List.mem_cons_self
    have hps : ∀ p ∈ ps, p.Sound := fun p hp => h p (List.mem_cons_of_mem _ hp)
    rcases hp.memAlloc_cons n ps with ⟨a, p', heq, hp', hbytes⟩ | ⟨heq, -⟩
    · rw [heq]
      refine ⟨List.forall_mem_cons.mpr ⟨hp', hps⟩, p.getOrder n, fun r hr => ?_, fun e he => ?_⟩
      · unfold Layout.getOrder
        rw [hr, hp.foBits]
      · have := hbytes e he
        rw [memBytesFrom_cons, memBytesFrom_cons]
        omega
    · rw [heq] at ha ⊢
      obtain ⟨hs, o, ho, hbytes⟩ := ih hps ha
      refine ⟨List.forall_mem_cons.mpr ⟨hp, hs⟩, o, ho, fun e he => ?_⟩
      have := hbytes e he
      rw [memBytesFrom_cons, memBytesFrom_cons]
      omega

end Pallocator

end EpochKernel.Mem
