import EpochKernel.Mem.PageTablesMap

/-! `translate` of `mem/vmem.cpp`, which walks the page tables itself. -/
namespace EpochKernel.Mem
open EpochKernel.Util
namespace PageTables

/-- Bits 47 to 63 of an address are equal. -/
def canonical (a : UInt64) : Prop := a < 0x800000000000 ∨ 0xffff800000000000 ≤ a

instance (a : UInt64) : Decidable (canonical a) := inferInstanceAs (Decidable (_ ∨ _))

/-- A read of memory, which faults at an address that is not canonical. -/
def load (m : PageTables) (a : UInt64) : Option UInt64 :=
  if canonical a then
    some (m.entry (alignDown a pageSize) ((a - alignDown a pageSize) / 8).toNat)
  else none

/-- `translate`; `none` if it faults, and `some 0` for `NULL`. -/
def translate (m : PageTables) (pml4Table virtAddr : UInt64) : Option UInt64 := do
  let pml4T := (pml4Table &&& pageAddrPos) + kernelVma
  let pml4E ← m.load (pml4T + 8 * getBits virtAddr 39 47)
  if pml4E &&& vPresent = 0 then return 0
  let pdpT := (pml4E &&& UInt64.ofNat pageEntries) + kernelVma
  let pdpE ← m.load (pdpT + 8 * getBits virtAddr 30 38)
  if pdpE &&& vPresent = 0 then return 0
  let pdT := (pdpE &&& UInt64.ofNat pageEntries) + kernelVma
  let pdE ← m.load (pdT + 8 * getBits virtAddr 21 29)
  if pdE &&& vPresent = 0 then return 0
  let pageT := (pdE &&& UInt64.ofNat pageEntries) + kernelVma
  let pageE ← m.load (pageT + 8 * getBits virtAddr 12 20)
  if pageE &&& vPresent = 0 then return 0
  return (pageE &&& UInt64.ofNat pageEntries) + kernelVma

variable {m : PageTables} {pml4Table : UInt64}

/-- The address of the top table is already one of the linear mapping, and as a physical address it
gives one that is not canonical. -/
lemma not_canonical_top (hp : kernelVma ≤ pml4Table) (v : UInt64) :
    ¬ canonical ((pml4Table &&& pageAddrPos) + kernelVma + 8 * getBits v 39 47) := by
  have hv : kernelVma.toNat = 2 ^ 64 - 2 ^ 39 := by decide
  have hlt := pml4Table.toNat_lt
  have hi : (8 * getBits v 39 47).toNat < 4096 := by
    rw [UInt64.toNat_mul, getBits_toNat v (by decide) (by decide)]
    change 8 * (v.toNat % 2 ^ 48 / 2 ^ 39) % 2 ^ 64 < 4096
    omega
  have ha := and_pageAddrPos_toNat pml4Table
  have hlow : (0x800000000000 : UInt64).toNat = 2 ^ 47 := rfl
  have hhigh : (0xffff800000000000 : UInt64).toNat = 2 ^ 64 - 2 ^ 47 := rfl
  rw [UInt64.le_iff_toNat_le, hv] at hp
  unfold canonical
  rw [UInt64.lt_iff_toNat_lt, UInt64.le_iff_toNat_le, hlow, hhigh, UInt64.toNat_add,
    UInt64.toNat_add, hv, ha]
  omega

lemma translate_faults (hp : kernelVma ≤ pml4Table) (v : UInt64) :
    m.translate pml4Table v = none := by
  have hload : m.load ((pml4Table &&& pageAddrPos) + kernelVma + 8 * getBits v 39 47) = none :=
    if_neg (not_canonical_top hp v)
  unfold translate
  simp only [hload]
  rfl

/-- `translate` finds neither a page that is mapped nor that one is not. -/
theorem not_translates (hp : kernelVma ≤ pml4Table) (v : UInt64) :
    (∀ p flags, m.walk pml4Table v = some (p, flags) →
      m.translate pml4Table v ≠ some (p + kernelVma)) ∧
    (m.walk pml4Table v = none → m.translate pml4Table v ≠ some 0) := by
  rw [translate_faults hp]
  exact ⟨fun _ _ _ => nofun, fun _ => nofun⟩

theorem not_translates_sample :
    (∀ p flags, sampleTables.walk 0xffffff8000001000 0x1000 = some (p, flags) →
      sampleTables.translate 0xffffff8000001000 0x1000 ≠ some (p + kernelVma)) ∧
    (sampleTables.walk 0xffffff8000001000 0x1000 = none →
      sampleTables.translate 0xffffff8000001000 0x1000 ≠ some 0) :=
  not_translates (by decide) 0x1000

/-- One page is mapped, and `translate` faults on it. -/
theorem not_translated_page :
    (mapInternal 0xffffff8000001000 0xffffff8000400000 0x1000 0x1000 6 sampleTables).1 = true ∧
    (mapInternal 0xffffff8000001000 0xffffff8000400000 0x1000 0x1000 6 sampleTables).2.walk
      0xffffff8000001000 0x1000 = some (0x400000, 6) ∧
    (mapInternal 0xffffff8000001000 0xffffff8000400000 0x1000 0x1000 6 sampleTables).2.translate
      0xffffff8000001000 0x1000 = none := by
  refine ⟨?_, ?_, ?_⟩
  all_goals decide +kernel

end PageTables
end EpochKernel.Mem
