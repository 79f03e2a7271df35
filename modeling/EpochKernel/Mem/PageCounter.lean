import EpochKernel.Mem.PageEntries

/-! The first entry of a page table under any sequence of `page_set`, `page_unset` and
`page_counter_add`: its counter and its data do not disturb each other. -/
namespace EpochKernel.Mem
open EpochKernel.Util
namespace PageTables
variable {m : PageTables} {table : UInt64}

/-- What is done to the entries of a table; `add` is `page_counter_add` of the first one. -/
inductive EntryOp
  | set (i : UInt16) (n flags : UInt64)
  | unset (i : UInt16)
  | add (n : Int16)

/-- The increment is widened with its sign. -/
def apply (m : PageTables) (table : UInt64) : EntryOp → PageTables
  | .set i n flags => (m.pageSet table i.toNat n flags).2
  | .unset i => m.pageUnset table i.toNat
  | .add n => m.counterAdd table n.toInt64.toUInt64

namespace EntryOp

/-- What the operation adds to the counter. -/
def increment : EntryOp → ℤ
  | .add n => n.toInt
  | _ => 0

/-- What the operation leaves in an entry `i`, if it is one on this entry. -/
def data (i : ℕ) : EntryOp → Option UInt64
  | .set j n flags =>
    if j.toNat = i then some ((n &&& pageAddrPos) ||| (flags &&& pageFlagsPos) ||| vPresent) else none
  | .unset j => if j.toNat = i then some 0 else none
  | .add _ => none

/-- The data of the last `page_set` or `page_unset` of the entry; none is in a zeroed table. -/
def last (ops : List EntryOp) (i : ℕ) : UInt64 := (ops.reverse.findSome? (data i)).getD 0

lemma last_concat (ops : List EntryOp) (op : EntryOp) (i : ℕ) :
    last (ops ++ [op]) i = (op.data i).getD (last ops i) := by
  unfold last
  rw [List.reverse_concat, List.findSome?_cons]
  cases op.data i with
  | none => rfl
  | some e => rfl

end EntryOp

lemma toNat_widen (n : Int16) : (n.toInt64.toUInt64.toNat : ℤ) % 1024 = n.toInt % 1024 := by
  have hwide : n.toInt64.toUInt64.toBitVec.toInt = n.toInt := Int16.toInt_toInt64 n
  rw [BitVec.toInt_eq_toNat_cond] at hwide
  have hnat : n.toInt64.toUInt64.toBitVec.toNat = n.toInt64.toUInt64.toNat := rfl
  rw [hnat] at hwide
  split_ifs at hwide with hlt
  · rw [hwide]
  · rw [← hwide]
    push_cast
    omega

/-- The counter of a table counts modulo 1024. -/
def Tallied (m : PageTables) (table : UInt64) (sum : ℤ) : Prop :=
  ((pageCounterGet (m.entry table 0)).toNat : ℤ) = sum % 1024

lemma Tallied.apply {sum : ℤ} (h : m.Tallied table sum) (op : EntryOp) :
    (m.apply table op).Tallied table (sum + op.increment) := by
  unfold Tallied at h ⊢
  cases op with
  | set i n flags =>
    change ((pageCounterGet ((m.pageSet table i.toNat n flags).2.entry table 0)).toNat : ℤ) = _
    rw [pageSet_counter, h]
    exact congrArg (· % 1024) (Int.add_zero sum).symm
  | unset i =>
    change ((pageCounterGet ((m.pageUnset table i.toNat).entry table 0)).toNat : ℤ) = _
    rw [pageUnset_counter, h]
    exact congrArg (· % 1024) (Int.add_zero sum).symm
  | add n =>
    have hwiden := toNat_widen n
    have hmask : (1023 : UInt64).toNat = 2 ^ 10 - 1 := rfl
    change ((pageCounterGet ((m.counterAdd table n.toInt64.toUInt64).entry table 0)).toNat : ℤ) =
      (sum + n.toInt) % 1024
    rw [counterAdd_counter, UInt64.toNat_and, UInt64.toNat_add, hmask, Nat.and_two_pow_sub_one_eq_mod]
    push_cast
    omega

lemma apply_data (m : PageTables) (table : UInt64) (op : EntryOp) (i : ℕ) :
    (m.apply table op).entry table i &&& pageDataPos =
      (op.data i).getD (m.entry table i &&& pageDataPos) := by
  cases op with
  | set j n flags =>
    change (m.pageSet table j.toNat n flags).2.entry table i &&& pageDataPos = _
    rw [EntryOp.data]
    split_ifs with hij
    · rw [← hij]
      exact pageSet_data
    · rw [pageSet_same (Ne.symm hij)]
      rfl
  | unset j =>
    change (m.pageUnset table j.toNat).entry table i &&& pageDataPos = _
    rw [EntryOp.data]
    split_ifs with hij
    · rw [← hij]
      exact pageUnset_data
    · rw [pageUnset_same (Ne.symm hij)]
      rfl
  | add n => exact counterAdd_data m table _ i

/-- After any operations on a zeroed table the counter is the sum of the increments modulo 1024, and
every entry has the data of its last `page_set` or `page_unset`. -/
theorem entries_independent (h : ∀ i, m.entry table i = 0) (ops : List EntryOp) :
    (ops.foldl (apply · table) m).Tallied table (ops.map EntryOp.increment).sum ∧
      ∀ i, (ops.foldl (apply · table) m).entry table i &&& pageDataPos = EntryOp.last ops i := by
  induction ops using List.reverseRecOn with
  | nil =>
    have hzero : pageCounterGet 0 = 0 := by decide
    constructor
    · unfold Tallied
      rw [List.foldl_nil, h, hzero]
      rfl
    · intro i
      rw [List.foldl_nil, h]
      rfl
  | append_singleton ops op ih =>
    obtain ⟨htally, hdata⟩ := ih
    rw [List.foldl_concat, List.map_append, List.sum_append, List.map_singleton, List.sum_singleton]
    constructor
    · exact htally.apply op
    · intro i
      rw [apply_data, hdata, EntryOp.last_concat]

section Sample

def zeroedMemory : PageTables where
  entry _ _ := 0
  supply := []
  left _ _ := 0

/-- A first entry that is counted, set with all bits and removed. -/
def sampleOps : List EntryOp :=
  [.add (-1), .set 0 0x7fffffffffffffff 7, .add 3, .unset 0, .set 1 0x5000 2]

theorem entries_independent_sample :
    (sampleOps.foldl (apply · 0x1000) zeroedMemory).Tallied 0x1000
        (sampleOps.map EntryOp.increment).sum ∧
      ∀ i, (sampleOps.foldl (apply · 0x1000) zeroedMemory).entry 0x1000 i &&& pageDataPos =
        EntryOp.last sampleOps i :=
  entries_independent (fun _ => rfl) sampleOps

end Sample

end PageTables
end EpochKernel.Mem
