import EpochKernel.Library.Views
import EpochKernel.Mem.Rights
import EpochKernel.Mem.Translate

/-! Several address spaces in one physical memory: their constructors, the pages of data that are
allocated for them, what is mapped and unmapped in them, and what their programs write. The trees of
page tables and the pages of data stay apart from each other, as long as `unmap_internal` gives no
page table back; a call of `map_internal` that fails is left out. -/
namespace EpochKernel.Mem
open EpochKernel.Util EpochKernel.Library
namespace PageTables
variable {m m' : PageTables} {pml4Table t u v p virtAddr n : UInt64} {user kernel : ℕ → Set UInt64}
  {d i x : ℕ}

/-- `mem::alloc (PAGE_SIZE)`. -/
def alloc (m : PageTables) : UInt64 × PageTables :=
  match m.supply with
  | [] => (0, m)
  | p :: ps => (p, { m with supply := ps })

lemma alloc_nil (hs : m.supply = []) : m.alloc = (0, m) := by
  unfold alloc
  rw [hs]

lemma alloc_cons {ps : List UInt64} (hs : m.supply = p :: ps) :
    m.alloc = (p, { m with supply := ps }) := by
  unfold alloc
  rw [hs]

section Frame
variable (h : WellFormed m pml4Table user kernel)
  (huser : ∀ d ≤ 3, ∀ t ∈ user d, m'.entry t = m.entry t)
include huser

lemma child_same (hd : d ≤ 3) (ht : t ∈ user d) :
    m'.child pml4Table t = m.child pml4Table t := by
  funext j
  exact child_congr (by rw [huser d hd t ht])

include h

lemma WellFormed.node_same (hd : d ≤ 3) : Radix.node 512 (m'.child pml4Table) pml4Table d x =
    Radix.node 512 (m.child pml4Table) pml4Table d x :=
  h.forest.node_congr (fun _ he _ ht => child_same huser he.le ht) hd

/-- A tree whose tables are not written stays a tree. -/
theorem WellFormed.congr
    (hkernel : ∀ d, 1 ≤ d → d ≤ 3 → ∀ t ∈ kernel d, m'.entry t = m.entry t) :
    WellFormed m' pml4Table user kernel where
  forest := h.forest.congr fun d hd t ht => child_same huser hd.le ht
  small d hd t ht i hc := by
    rw [huser d hd.le t ht]
    exact h.small d hd t ht i (child_same huser hd.le ht ▸ hc)
  counted d hd t ht := counted_congr (huser (d + 1) hd t ht) (h.counted d hd t ht)
  kernelRoot hp := by
    have hroot := huser 0 (Nat.zero_le 3) _ h.forest.mem_root
    have hnext : m'.next pml4Table 511 = m.next pml4Table 511 := next_congr (by rw [hroot])
    rw [hnext]
    exact h.kernelRoot ((present_congr (by rw [hroot])).mp hp)
  kernelNext d h1 hd t ht i hi hp hl := by
    have hsame := hkernel d h1 hd.le t ht
    have hnext : m'.next t i = m.next t i := next_congr (by rw [hsame])
    rw [hsame] at hl
    rw [hnext]
    exact h.kernelNext d h1 hd t ht i hi ((present_congr (by rw [hsame])).mp hp) hl
  apart := h.apart

lemma WellFormed.leaf_same (x : ℕ) : m'.leaf pml4Table x = m.leaf pml4Table x := by
  unfold leaf
  rw [h.node_same huser le_rfl]
  cases hu : Radix.node 512 (m.child pml4Table) pml4Table 3 (x / 512) with
  | none => rfl
  | some u => exact page_congr (by rw [huser 3 le_rfl u (h.forest.node_mem le_rfl hu)])

lemma Permissive.congr (hp : m.Permissive pml4Table) : m'.Permissive pml4Table := by
  intro d hd x t i ht hc
  rw [h.node_same huser hd.le] at ht
  have hmem := h.forest.node_mem hd.le ht
  rw [huser d hd.le t hmem]
  exact hp d hd x t i ht (child_same huser hd.le hmem ▸ hc)

lemma Tidy.congr (ht : m.Tidy pml4Table) : m'.Tidy pml4Table := by
  intro d hd x t hn
  rw [h.node_same huser hd] at hn
  exact (ht d hd x t hn).congr fun j _ => by rw [huser d hd t (h.forest.node_mem hd hn)]

end Frame

/-- The walk from a table that an entry of the top table leads to. -/
def walkPdp (m : PageTables) (table v : UInt64) : Option (UInt64 × UInt64) :=
  (m.read table (getBits v 30 38).toNat).bind fun e =>
    if large e then
      some ((e &&& 0x0000ffffc0000000) ||| (v &&& 0x3ffff000), e &&& pageFlagsPos)
    else (m.read ((e &&& pageAddrPos) + kernelVma) (getBits v 21 29).toNat).bind fun e =>
      if large e then
        some ((e &&& 0x0000ffffffe00000) ||| (v &&& 0x1ff000), e &&& pageFlagsPos)
      else (m.read ((e &&& pageAddrPos) + kernelVma) (getBits v 12 20).toNat).map fun e =>
        (e &&& pageAddrPos, e &&& pageFlagsPos)

lemma walk_eq_walkPdp (m : PageTables) (pml4Table v : UInt64) :
    m.walk pml4Table v = (m.read pml4Table (getBits v 39 47).toNat).bind fun e =>
      m.walkPdp ((e &&& pageAddrPos) + kernelVma) v := rfl

/-- It stays in the kernel's tables. -/
lemma walkPdp_same {kernelPdpTable : UInt64} (hk : KernelTables m kernelPdpTable kernel)
    (hkernel : ∀ d, 1 ≤ d → d ≤ 3 → ∀ t ∈ kernel d, m'.entry t = m.entry t) (ht : t ∈ kernel 1)
    (v : UInt64) : m'.walkPdp t v = m.walkPdp t v := by
  obtain ⟨-, h2, h1, h0⟩ := index_digits v
  have hread : ∀ d, 1 ≤ d → d ≤ 3 → ∀ t ∈ kernel d, ∀ i, m'.read t i = m.read t i :=
    fun d h1 hd t ht i => read_congr (congrFun (hkernel d h1 hd t ht) i)
  have hnext : ∀ {d t i e}, 1 ≤ d → d < 3 → t ∈ kernel d → i < 512 → m.read t i = some e → ¬ large e →
      (e &&& pageAddrPos) + kernelVma ∈ kernel (d + 1) := by
    intro d t i e h1 hd ht hi he hl
    obtain ⟨hp, rfl⟩ := read_eq_some.mp he
    exact hk.next d h1 hd t ht i hi hp hl
  unfold walkPdp
  rw [h2, h1, h0, hread 1 le_rfl (by norm_num) t ht]
  apply Option.bind_congr
  intro e he
  split_ifs with hl
  · rfl
  · have ht₂ := hnext le_rfl (by norm_num) ht (by omega) he hl
    rw [hread 2 (by norm_num) (by norm_num) _ ht₂]
    apply Option.bind_congr
    intro e' he'
    split_ifs with hl'
    · rfl
    · have ht₃ := hnext (by norm_num) (by norm_num) ht₂ (by omega) he' hl'
      rw [hread 3 (by norm_num) le_rfl _ ht₃]

/-- The tables of the kernel may be taken for more than they are, for the room that others need. -/
lemma WellFormed.withKernel {kernel' : ℕ → Set UInt64} {kernelPdpTable : UInt64}
    (h : WellFormed m pml4Table user kernel') (hsub : ∀ d, 1 ≤ d → d ≤ 3 → kernel d ⊆ kernel' d)
    (hk : KernelTables m kernelPdpTable kernel)
    (htop : m.entry pml4Table 511 &&& pageDataPos = pageEntry kernelPdpTable 2) :
    WellFormed m pml4Table user kernel where
  forest := h.forest
  small := h.small
  counted := h.counted
  kernelRoot _ := by
    have haddr : m.entry pml4Table 511 &&& pageAddrPos = kernelPdpTable &&& pageAddrPos := by
      rw [@and_data pageAddrPos (by decide), htop, pageEntry_addr]
    rw [next, haddr]
    exact hk.root
  kernelNext := hk.next
  apart d hd e h1 he t ht hke := h.apart d hd e h1 he t ht (hsub e h1 he hke)

section Page
variable {e : UInt64} (h : WellFormed m pml4Table user kernel) (ht : t ∈ user 3)
include h ht

lemma ne_leaf (hd : d < 3) (hu : u ∈ user d) : u ≠ t := by
  intro hut
  have := h.forest.apart d hd.le 3 le_rfl u hu (hut ▸ ht)
  omega

lemma node_writePage (w : Writes m m' t i e) (hd : d ≤ 3) :
    Radix.node 512 (m'.child pml4Table) pml4Table d x =
      Radix.node 512 (m.child pml4Table) pml4Table d x :=
  h.forest.node_congr (fun _ he _ hu => h.child_writePage w ht he hu) hd

/-- The entries for tables are not changed with a page. -/
lemma Permissive.writePage (w : Writes m m' t i e) (hp : m.Permissive pml4Table) :
    m'.Permissive pml4Table := by
  intro d hd x u j hu hc
  rw [node_writePage h ht w hd.le] at hu
  have hmem := h.forest.node_mem hd.le hu
  rw [w.other u (ne_leaf h ht hd hmem)]
  exact hp d hd x u j hu (h.child_writePage w ht hd hmem ▸ hc)

/-- A table without its first page has no more counters than before. -/
lemma Tidy.unmapped (htidy : m.Tidy pml4Table) : (m.unmapped t 0).Tidy pml4Table := by
  have w : Writes m (m.unmapped t 0) t 0 0 := writes_unmapPage (by norm_num)
  intro d hd x u hu
  rw [node_writePage h ht w hd] at hu
  by_cases hut : u = t
  · subst hut
    refine (htidy d hd x u hu).congr fun j hj => ?_
    unfold PageTables.unmapped
    rw [pageUnset_same (by omega)]
    split_ifs
    · exact counterAdd_later m u u (-1) hj
    · rfl
  · exact (htidy d hd x u hu).congr fun j _ => congrFun (w.other u hut) j

end Page

/-- On the way of a quiet call every index but the first one is 0. -/
lemma Quiet.first {c : UInt64} {w k : ℕ} (hq : m.Quiet w k 2 t)
    (ht : Radix.node 512 (m.child pml4Table) pml4Table 1 (w / 512 / 512 / 512) = some t)
    (hc : Radix.node 512 (m.child pml4Table) pml4Table 3 (w / 512) = some c) : w % 512 = 0 := by
  obtain ⟨t₂, ht₂, hc₃⟩ := Radix.node_succ.mp hc
  obtain ⟨t₁, ht₁, hc₂⟩ := Radix.node_succ.mp ht₂
  obtain rfl : t = t₁ := Option.some.inj (ht.symm.trans ht₁)
  obtain ⟨hzero₂, -, -, hq₁⟩ := hq
  have hi₂ : w / 512 / 512 % 512 = 0 := by
    norm_num at hzero₂
    omega
  rw [hi₂] at hc₂
  obtain ⟨hp₂, -, -, hn₂⟩ := child_eq_some.mp hc₂
  have hq₁ := hq₁ hp₂
  rw [hn₂] at hq₁
  obtain ⟨hzero₁, -, -, hq₀⟩ := hq₁
  have hi₁ : w / 512 % 512 = 0 := by
    norm_num at hzero₁
    omega
  rw [hi₁] at hc₃
  obtain ⟨hp₃, -, -, hn₃⟩ := child_eq_some.mp hc₃
  have hq₀ := hq₀ hp₃
  rw [hn₃] at hq₀
  exact hq₀.1

/-- A call of `unmap_internal` that gives no table back takes one page out at most. -/
theorem unmapInternal_kept (h : WellFormed m pml4Table user kernel) (htidy : m.Tidy pml4Table)
    (hn : pages n ≠ 0) (hle : pages n ≤ 512 ^ 3) (hv : pageNumber virtAddr < 511 * 512 ^ 3)
    (hfreed : (unmapInternal pml4Table virtAddr n m).freed = m.freed) :
    (unmapInternal pml4Table virtAddr n m = m ∧ m.leaf pml4Table (pageNumber virtAddr) = none) ∨
      ∃ c, Radix.node 512 (m.child pml4Table) pml4Table 3 (pageNumber virtAddr / 512) = some c ∧
        pageNumber virtAddr % 512 = 0 ∧ unmapInternal pml4Table virtAddr n m = m.unmapped c 0 := by
  have hleaf (hnode : Radix.node 512 (m.child pml4Table) pml4Table 3 (pageNumber virtAddr / 512) = none) :
      m.leaf pml4Table (pageNumber virtAddr) = none := by
    rw [leaf, hnode]
    rfl
  by_cases hp : m.present pml4Table (pageNumber virtAddr / 512 ^ 3)
  · have hq : m.Quiet (pageNumber virtAddr) (pages n) 2
        (m.next pml4Table (pageNumber virtAddr / 512 ^ 3)) := by
      by_contra hq
      obtain ⟨c, l, -, hl, f, hf, -⟩ := unmapInternal_ruined h htidy hn hv hp hq
      have hnil : l = [] := by
        rw [hfreed] at hl
        exact List.self_eq_append_right.mp hl
      rw [hnil] at hf
      exact List.not_mem_nil hf
    cases unmapInternal_quiet h htidy hn hv hp hq with
    | inl hsame => exact Or.inl ⟨hsame.1, hleaf hsame.2⟩
    | inr hgone =>
      obtain ⟨c, hc, he⟩ := hgone
      have hroot : Radix.node 512 (m.child pml4Table) pml4Table 0 0 = some pml4Table := Radix.node_zero
      have hdiv : pageNumber virtAddr / 512 / 512 / 512 = pageNumber virtAddr / 512 ^ 3 := by omega
      have hfirst : Radix.node 512 (m.child pml4Table) pml4Table 1
          (pageNumber virtAddr / 512 / 512 / 512) =
            some (m.next pml4Table (pageNumber virtAddr / 512 ^ 3)) := by
        have hstep := Radix.node_step (by omega : pageNumber virtAddr / 512 ^ 3 < 512) hroot
        have hzero : 512 * 0 + pageNumber virtAddr / 512 ^ 3 = pageNumber virtAddr / 512 ^ 3 := by omega
        rw [hzero] at hstep
        rw [hdiv]
        exact hstep.trans (child_eq_some.mpr ⟨hp, by omega, by omega, rfl⟩)
      exact Or.inr ⟨c, hc, hq.first hfirst hc, he⟩
  · have hnone : Radix.node 512 (m.child pml4Table) pml4Table 1
        (pageNumber virtAddr / 512 / 512 ^ 2) = none := by
      have hroot : Radix.node 512 (m.child pml4Table) pml4Table 0 0 = some pml4Table := Radix.node_zero
      have hstep := Radix.node_step (by omega : pageNumber virtAddr / 512 ^ 3 < 512) hroot
      have hdiv : pageNumber virtAddr / 512 / 512 ^ 2 = 512 * 0 + pageNumber virtAddr / 512 ^ 3 := by
        omega
      rw [hdiv, hstep]
      exact if_neg fun hx => hp hx.1
    exact Or.inl ⟨unmapInternal_absent h htidy hn hv hp hle,
      hleaf (Radix.node_eq_none (by norm_num) hnone)⟩

/-- The constructor writes to its top table only. -/
lemma construct_memory {kernelPdpTable : UInt64} {ps : List UInt64} (hs : m.supply = p :: ps)
    (hp : p ≠ 0) : (construct kernelPdpTable m).2.supply = ps ∧
      (∀ u ≠ p, (construct kernelPdpTable m).2.entry u = m.entry u) ∧
      (construct kernelPdpTable m).2.entry p 511 &&& pageDataPos = pageEntry kernelPdpTable 2 := by
  have halloc : m.allocz = (p, { m with
      entry := Function.update m.entry p fun _ => 0
      supply := ps }) := by
    unfold allocz
    rw [hs]
    simp only [if_neg hp]
  have hc : construct kernelPdpTable m = (p, ({ m with
      entry := Function.update m.entry p fun _ => 0
      supply := ps } : PageTables).pageSet p 511 kernelPdpTable 2 |>.2) := by
    unfold construct
    rw [halloc]
    rfl
  rw [hc]
  refine ⟨?_, fun u hu => ?_, pageSet_data⟩
  · unfold pageSet
    rfl
  · rw [pageSet_other hu]
    exact Function.update_of_ne hu _ _

instance decidableRequest {physAddr virtAddr n : UInt64} {k : ℕ} :
    Decidable (Request physAddr virtAddr n k) :=
  decidable_of_iff (k = (n.toNat + 4095) / 4096 ∧ (kernelVma ≤ physAddr ∧ physAddr.toNat % 4096 = 0) ∧
      (physAddr - kernelVma).toNat + 4096 * k ≤ 2 ^ 39 ∧ virtAddr.toNat % 4096 = 0 ∧
      (virtAddr &&& pageAddrPos).toNat + 4096 * k ≤ 511 * 2 ^ 39)
    ⟨fun h => ⟨h.1, h.2.1, h.2.2.1, h.2.2.2.1, h.2.2.2.2⟩,
      fun r => ⟨r.size, r.phys, r.physEnd, r.virt, r.virtEnd⟩⟩

end PageTables

/-- The number of the word at an address in its page. -/
def wordIndex (v : UInt64) : ℕ := v.toNat % 4096 / 8

/-- The physical memory with the address spaces in it: `roots` are their top tables, and `owner` tells
for which of them a page of data was allocated, which is not part of the program. -/
structure Spaces where
  memory : PageTables
  roots : List UInt64
  owner : UInt64 → Option UInt64

/-- What happens to the address spaces: a new one is made, a page of data is allocated for one, the
kernel writes to such a page, or maps or unmaps pages, and a program writes to memory. -/
inductive SpaceEvent
  | create
  | alloc (root : UInt64)
  | fill (root page : UInt64) (i : ℕ) (e : UInt64)
  | map (root physAddr virtAddr n flags : UInt64)
  | unmap (root virtAddr n : UInt64)
  | store (root v e : UInt64)

/-- The address space that an event is about. -/
def SpaceEvent.root : SpaceEvent → Option UInt64
  | .create => none
  | .alloc root | .fill root _ _ _ | .map root _ _ _ _ | .unmap root _ _ | .store root _ _ => some root

namespace Spaces

/-- The page and the rights of a user program's access; there is no walk for other addresses. -/
def access (s : Spaces) (root v : UInt64) : Option (UInt64 × Rights) :=
  if PageTables.canonical v then (s.memory.access root v).filter fun r => r.2.user else none

/-- A user program reads a word; `none` is a page fault. -/
def load (s : Spaces) (root v : UInt64) : Option UInt64 :=
  (s.access root v).map fun r => s.memory.entry (r.1 + kernelVma) (wordIndex v)

/-- A user program writes a word, which a page fault prevents. -/
def store (s : Spaces) (root v e : UInt64) : Spaces :=
  match (s.access root v).filter fun r => r.2.write with
  | none => s
  | some r => { s with memory := s.memory.set (r.1 + kernelVma) (wordIndex v) e }

/-- One event. The data of an address space is in pages that were allocated for it. -/
def step (kernelPdpTable : UInt64) (s : Spaces) : SpaceEvent → Option Spaces
  | .create =>
    let (pml4Table, m) := PageTables.construct kernelPdpTable s.memory
    if pml4Table = 0 then none else some { s with memory := m, roots := pml4Table :: s.roots }
  | .alloc root =>
    if root ∈ s.roots then
      let (p, m) := s.memory.alloc
      some { s with
        memory := m
        owner := if p = 0 then s.owner else Function.update s.owner p (some root) }
    else none
  | .fill root page i e =>
    if s.owner page = some root ∧ i < 512 then some { s with memory := s.memory.set page i e } else none
  | .map root physAddr virtAddr n flags =>
    let k := (n.toNat + 4095) / 4096
    if root ∈ s.roots ∧ PageTables.Request physAddr virtAddr n k ∧
        ∀ j < k, s.owner (physAddr + 4096 * UInt64.ofNat j) = some root then
      match s.memory.mapInternal root physAddr virtAddr n flags with
      | (true, m) => some { s with memory := m }
      | (false, _) => none
    else none
  | .unmap root virtAddr n =>
    if root ∈ s.roots ∧ PageTables.pages n ≠ 0 ∧ PageTables.pages n ≤ 512 ^ 3 ∧
        PageTables.pageNumber virtAddr < 511 * 512 ^ 3 then
      some { s with memory := s.memory.unmapInternal root virtAddr n }
    else none
  | .store root v e => if root ∈ s.roots then some (s.store root v e) else none

/-- `unmap_internal` gives no page table back. -/
def Sparing (s : Spaces) : SpaceEvent → Prop
  | .unmap root virtAddr n => (s.memory.unmapInternal root virtAddr n).freed = s.memory.freed
  | _ => True

/-- The memory before the first address space. -/
def boot (m : PageTables) : Spaces := ⟨m, [], fun _ => none⟩

end Spaces
end EpochKernel.Mem
