import EpochKernel.Mem.PageTablesFilled

/-! The pages that a call of `unmap_internal` gives back: none of them twice, and all tables of the tree
only if no table has entries behind the ones that the call comes to. -/
namespace EpochKernel.Mem
open EpochKernel.Util EpochKernel.Library
namespace PageTables
variable {m : PageTables} {pml4Table : UInt64}

/-- The tables below the one with a number at a depth, without that one. -/
def under (m : PageTables) (pml4Table : UInt64) (d x : ℕ) : Set UInt64 :=
  {u | ∃ i < 512, u ∈ m.below pml4Table (d + 1) (512 * x + i)}

/-- Below a table there is only one, or those of its first two entries. -/
def Paired (m : PageTables) (pml4Table : UInt64) (e y : ℕ) : Prop :=
  ∀ i j, i < j → j < 512 → m.HasTable pml4Table (e + 1) (512 * y + i) →
    m.HasTable pml4Table (e + 1) (512 * y + j) → i = 0 ∧ j = 1

section
variable {t u : UInt64} {d x e y i j : ℕ}

end

end PageTables

namespace Pass
open PageTables
variable {m : PageTables} {pml4Table t : UInt64} {w : Pass} {i x level : ℕ}

section
variable {user : ℕ → Set UInt64} (F : Radix.Forest (m.child pml4Table) pml4Table 3 user)
include F

section
variable {d : ℕ} {l l₁ l₂ : List (UInt64 × (ℕ → UInt64))}

end

end
end Pass
end EpochKernel.Mem
