import EpochKernel.Library.Run

/-! A heap as its clients know it: blocks that do not overlap, and what is known of the cells in them.
A request can always be refused. A client can rely on a run of this heap alone, if an allocator has
no others. -/
namespace EpochKernel.Library

section Simulation
variable {σ ι α κ : Type*} {step : Machine σ ι} {astep : α → κ → α → Prop}

/-- A run of a system that is given by a relation. -/
inductive Reaches (astep : α → κ → α → Prop) : α → List κ → α → Prop
  | nil (a : α) : Reaches astep a [] a
  | cons {a b c : α} {i : κ} {is : List κ} (hi : astep a i b) (his : Reaches astep b is c) :
      Reaches astep a (i :: is) c

/-- A machine each of whose steps is one of the abstract system has no other runs than that has. -/
theorem Machine.reaches {I : σ → Prop} {P : σ → ι → Prop} {R : σ → α → Prop} {f : ι → κ}
    (hkeep : ∀ s i s', I s → P s i → step s i = some s' → I s')
    (hstep : ∀ s i s' a, I s → P s i → step s i = some s' → R s a → ∃ a', astep a (f i) a' ∧ R s' a')
    {s s' : σ} {is : List ι} {a : α} (h : I s) (hP : Along step P s is) (ha : R s a)
    (hr : run step s is = some s') : ∃ a', Reaches astep a (is.map f) a' ∧ R s' a' := by
  induction is generalizing s a with
  | nil =>
    obtain rfl : s = s' := Option.some.inj hr
    exact ⟨a, .nil a, ha⟩
  | cons i is ih =>
    rw [run_cons, Option.bind_eq_some_iff] at hr
    obtain ⟨s1, h1, h2⟩ := hr
    obtain ⟨a1, hi, ha1⟩ := hstep s i s1 a h hP.1 h1 ha
    obtain ⟨a2, his, ha2⟩ := ih (hkeep s i s1 h hP.1 h1) (hP.2 s1 h1) ha1 h2
    exact ⟨a2, .cons hi his, ha2⟩

end Simulation

/-- The cells of a block, of which the first one and their number are given. -/
def cells (b : ℕ × ℕ) : Set ℕ := Set.Ico b.1 (b.1 + b.2)

lemma mem_cells {b : ℕ × ℕ} {a : ℕ} : a ∈ cells b ↔ b.1 ≤ a ∧ a < b.1 + b.2 := Set.mem_Ico

lemma disjoint_cells {b c : ℕ × ℕ} :
    Disjoint (cells b) (cells c) ↔ ∀ a, b.1 ≤ a → a < b.1 + b.2 → c.1 ≤ a → c.1 + c.2 ≤ a := by
  rw [Set.disjoint_left]
  simp only [mem_cells, not_and, not_lt, and_imp]

/-- The blocks in use, and what is known to be in a cell. -/
structure BlockHeap (ν : Type*) where
  blocks : Set (ℕ × ℕ)
  known : ℕ → Option ν
  disjoint : blocks.PairwiseDisjoint cells
  owned : ∀ a, known a ≠ none → ∃ b ∈ blocks, a ∈ cells b

namespace BlockHeap
variable {ν : Type*}

@[ext] lemma ext {g h : BlockHeap ν} (hb : g.blocks = h.blocks) (hk : g.known = h.known) : g = h := by
  cases g
  cases h
  cases hb
  cases hk
  rfl

def empty : BlockHeap ν where
  blocks := ∅
  known _ := none
  disjoint := Set.pairwiseDisjoint_empty
  owned _ ha := absurd rfl ha

open Classical in
/-- A new block, with the contents `v`. -/
noncomputable def give (h : BlockHeap ν) (b : ℕ × ℕ) (hb : ∀ c ∈ h.blocks, Disjoint (cells b) (cells c))
    (v : ℕ → Option ν) : BlockHeap ν where
  blocks := insert b h.blocks
  known a := if a ∈ cells b then v a else h.known a
  disjoint := h.disjoint.insert fun c hc _ => hb c hc
  owned a ha := by
    by_cases hab : a ∈ cells b
    · exact ⟨b, Set.mem_insert b h.blocks, hab⟩
    · rw [if_neg hab] at ha
      obtain ⟨c, hc, hac⟩ := h.owned a ha
      exact ⟨c, Set.mem_insert_of_mem b hc, hac⟩

open Classical in
/-- A block is given back, and what was in it forgotten. -/
noncomputable def take (h : BlockHeap ν) (b : ℕ × ℕ) : BlockHeap ν where
  blocks := h.blocks \ {b}
  known a := if a ∈ cells b then none else h.known a
  disjoint := h.disjoint.subset Set.sdiff_subset
  owned a ha := by
    by_cases hab : a ∈ cells b
    · exact absurd (if_pos hab) ha
    · rw [if_neg hab] at ha
      obtain ⟨c, hc, hac⟩ := h.owned a ha
      refine ⟨c, ⟨hc, ?_⟩, hac⟩
      rintro rfl
      exact hab hac

lemma mem_take {h : BlockHeap ν} {b c : ℕ × ℕ} : c ∈ (h.take b).blocks ↔ c ∈ h.blocks ∧ c ≠ b := Iff.rfl

/-- A client writes or reads a cell. -/
def learn (h : BlockHeap ν) (a : ℕ) (v : ν) (ha : ∃ b ∈ h.blocks, a ∈ cells b) : BlockHeap ν where
  blocks := h.blocks
  known := Function.update h.known a (some v)
  disjoint := h.disjoint
  owned x hx := by
    by_cases hxa : x = a
    · exact hxa ▸ ha
    · rw [Function.update_of_ne hxa] at hx
      exact h.owned x hx

/-- The calls of clients, with what they return. -/
inductive Call (ν : Type*)
  | request (n : ℕ) (fill : Option ν) (ret : Option ℕ)
  | resize (a n : ℕ) (ret : Option ℕ)
  | release (a : ℕ)
  | store (a : ℕ) (v : ν)
  | load (a : ℕ) (v : ν)

/-- What the heap can do. A cell is `width` numbers wide, and a block is named by any of its first
`unit` numbers. -/
inductive Step (unit width : ℕ) : BlockHeap ν → Call ν → BlockHeap ν → Prop
  | refuse (h : BlockHeap ν) (n : ℕ) (fill : Option ν) : Step unit width h (.request n fill none) h
  | request (h : BlockHeap ν) (n : ℕ) (fill : Option ν) (b : ℕ × ℕ) (hn : n ≤ b.2)
      (hb : ∀ c ∈ h.blocks, Disjoint (cells b) (cells c)) :
      Step unit width h (.request n fill (some b.1))
        (h.give b hb fun a => if a + width ≤ b.1 + n then fill else none)
  | keep (h : BlockHeap ν) (a n : ℕ) : Step unit width h (.resize a n none) h
  | resize (h : BlockHeap ν) (a n : ℕ) (b c : ℕ × ℕ) (hb : b ∈ h.blocks) (ha : b.1 ≤ a ∧ a < b.1 + unit)
      (hn : n ≤ c.2) (hc : ∀ d ∈ (h.take b).blocks, Disjoint (cells c) (cells d)) :
      Step unit width h (.resize a n (some c.1)) ((h.take b).give c hc fun x =>
        if x < c.1 + min b.2 n then h.known (b.1 + (x - c.1)) else none)
  | release (h : BlockHeap ν) (a : ℕ) (b : ℕ × ℕ) (hb : b ∈ h.blocks) (ha : b.1 ≤ a ∧ a < b.1 + unit) :
      Step unit width h (.release a) (h.take b)
  | foreign (h : BlockHeap ν) (a : ℕ) (ha : ∀ b ∈ h.blocks, ¬ (b.1 ≤ a ∧ a < b.1 + unit)) :
      Step unit width h (.release a) h
  | store (h : BlockHeap ν) (a : ℕ) (v : ν) (ha : ∃ b ∈ h.blocks, a ∈ cells b) :
      Step unit width h (.store a v) (h.learn a v ha)
  | load (h : BlockHeap ν) (a : ℕ) (v : ν) (ha : ∃ b ∈ h.blocks, a ∈ cells b)
      (hv : ∀ w, h.known a = some w → w = v) : Step unit width h (.load a v) (h.learn a v ha)

end BlockHeap
end EpochKernel.Library
