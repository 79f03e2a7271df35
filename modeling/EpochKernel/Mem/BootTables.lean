import EpochKernel.Library.Bytes
import EpochKernel.Mem.Private

/-! The page tables that `boot.asm` builds before paging is on, byte by byte in physical memory, and
that `long_init.asm` cuts down to the kernel's part: 1 GiB pages that map an address to its low 39
bits. The kernel's part of every address space is the same. -/
namespace EpochKernel.Mem
open EpochKernel.Util EpochKernel.Library EpochKernel.Library.Bytes

/-- The registers of the code that builds the tables, and physical memory. -/
structure Start where
  eax : UInt32
  ecx : UInt32
  edx : UInt32
  mem : Memory

namespace Start

/-- `mov [a], v`. -/
def mov (s : Start) (a v : UInt32) : Start := { s with mem := store s.mem a.toUInt64 4 v.toNat }

/-- One turn of the loop at `.map_PD_table`. The second write overlaps the first. -/
def mapEntry (pdpTable : UInt32) (s : Start) : Start :=
  let s := s.mov (pdpTable + s.ecx * 8) s.eax
  let s := s.mov (pdpTable + 2 + s.ecx * 8) s.edx
  let s := { s with edx := s.edx + 0x00004000 }
  { s with ecx := s.ecx + 1 }

/-- The loop; `none` if it is not at its end after `fuel` turns. -/
def mapPdTable (pdpTable : UInt32) : ℕ → Start → Option Start
  | 0, _ => none
  | fuel + 1, s =>
    let s := s.mapEntry pdpTable
    if s.ecx.toInt32 < 512 then mapPdTable pdpTable fuel s else some s

/-- `map kernel pages` up to the loop. -/
def mapRoot (pml4Table pdpTable : UInt32) (s : Start) : Start :=
  let s := { s with eax := pdpTable }
  let s := { s with eax := s.eax ||| 0b11 }
  let s := s.mov pml4Table s.eax
  let s := s.mov (pml4Table + 511 * 8) s.eax
  { s with ecx := 0, eax := 0b10000011, edx := 0 }

/-- `PML4_table` and `PDP_table` are the first two pages of `.boot_bss`. -/
def mapKernel (pml4Table : UInt32) (s : Start) : Option Start :=
  (s.mapRoot pml4Table (pml4Table + 4096)).mapPdTable (pml4Table + 4096) 512

/-- `mov qword [PML4_table], 0`, by which `long_init.asm` unmaps the lower half. -/
def unmapLower (pml4Table : UInt32) (mem : Memory) : Memory := store mem pml4Table.toUInt64 8 0

/-- Where the loader puts `.boot_bss`, and the zeroes in it. -/
structure Loaded (pml4Table : UInt32) (mem : Memory) : Prop where
  aligned : pml4Table.toNat % 4096 = 0
  below : pml4Table.toNat + 8192 ≤ 2 ^ 32
  zero : ∀ a, Within pml4Table.toUInt64 8192 a → mem a = 0

end Start

namespace PageTables

/-- The page tables in physical memory. -/
def ofMemory (mem : Memory) (supply : List UInt64) (left : UInt64 → ℕ → UInt64) : PageTables where
  entry t i := UInt64.ofNat (Bytes.load mem (t - kernelVma + 8 * UInt64.ofNat i) 8)
  supply := supply
  left := left

end PageTables

namespace Start
variable {pml4Table pdpTable : UInt32} {s s' : Start} {mem : Memory} {k i : ℕ}

lemma load_overlap {m : Memory} {a : UInt64} {x y : ℕ} (h6 : m (a + 6) = 0) (h7 : m (a + 7) = 0) :
    load (store (store m a 4 x) (a + 2) 4 y) a 8 = x % 2 ^ 16 + 2 ^ 16 * (y % 2 ^ 32) := by
  have hne : ∀ j k : UInt64, a + j = a + k ↔ j = k := fun j k => add_right_inj a
  simp +decide only [load, store, UInt64.add_assoc, Function.update_apply, add_eq_left, left_eq_add, hne,
    UInt64.reduceAdd, if_true, if_false, h6, h7, UInt8.toNat_ofNat', UInt8.toNat_zero]
  omega

/-- `jl` goes on for all turns but the last. -/
lemma toInt32_lt (hk : k ≤ 512) : (UInt32.ofNat k).toInt32 < 512 ↔ k < 512 := by
  have hval : (UInt32.ofNat k).toInt32.toInt = k := by
    have hbits : (UInt32.ofNat k).toInt32.toBitVec = BitVec.ofNat 32 k := rfl
    rw [← Int32.toInt_toBitVec, hbits, BitVec.toInt_eq_toNat_of_lt]
    · rw [BitVec.toNat_ofNat]
      omega
    · rw [BitVec.toNat_ofNat]
      omega
  rw [Int32.lt_iff_toInt_lt, hval]
  change (k : ℤ) < 512 ↔ _
  omega

/-- An entry of a table at a low address. -/
lemma entry_address (hp : pdpTable.toNat + 4096 ≤ 2 ^ 32) (hk : k < 512) :
    (pdpTable + UInt32.ofNat k * 8).toUInt64 = pdpTable.toUInt64 + UInt64.ofNat (8 * k) := by
  apply UInt64.toNat_inj.mp
  rw [UInt64.toNat_add, UInt32.toNat_toUInt64, UInt32.toNat_toUInt64, UInt32.toNat_add, UInt32.toNat_mul,
    UInt32.toNat_ofNat', UInt64.toNat_ofNat']
  change (_ + _ % 2 ^ 32 * 8 % 2 ^ 32) % 2 ^ 32 = _
  omega

/-- After `k` turns of the loop. -/
structure Filled (pdpTable : UInt32) (mem : Memory) (k : ℕ) (s : Start) : Prop where
  eax : s.eax = 0x83
  ecx : s.ecx = UInt32.ofNat k
  edx : s.edx = UInt32.ofNat (2 ^ 14 * k)
  entry : ∀ i < k, load s.mem (pdpTable.toUInt64 + UInt64.ofNat (8 * i)) 8 = 0x83 + 2 ^ 30 * i
  other : ∀ a, ¬ Within pdpTable.toUInt64 (8 * k) a → s.mem a = mem a

/-- The two writes of a turn, as byte addresses behind the table. -/
lemma mapEntry_mem (h : Filled pdpTable mem k s) (hk : k < 512) (hp : pdpTable.toNat + 4096 ≤ 2 ^ 32) :
    (s.mapEntry pdpTable).mem =
      store (store s.mem (pdpTable.toUInt64 + UInt64.ofNat (8 * k)) 4 0x83)
        (pdpTable.toUInt64 + UInt64.ofNat (8 * k + 2)) 4 (2 ^ 14 * k) := by
  have hedx : (UInt32.ofNat (2 ^ 14 * k)).toNat = 2 ^ 14 * k := by
    rw [UInt32.toNat_ofNat']
    omega
  have heax : (0x83 : UInt32).toNat = 0x83 := rfl
  have hsecond : (pdpTable + 2 + UInt32.ofNat k * 8).toUInt64 =
      pdpTable.toUInt64 + UInt64.ofNat (8 * k + 2) := by
    apply UInt64.toNat_inj.mp
    rw [UInt64.toNat_add, UInt32.toNat_toUInt64, UInt32.toNat_toUInt64, UInt32.toNat_add,
      UInt32.toNat_add, UInt32.toNat_mul, UInt32.toNat_ofNat', UInt64.toNat_ofNat']
    change ((_ + 2) % 2 ^ 32 + _ % 2 ^ 32 * 8 % 2 ^ 32) % 2 ^ 32 = _
    omega
  unfold Start.mapEntry mov
  dsimp only
  rw [h.eax, h.ecx, h.edx, entry_address hp hk, hsecond, hedx, heax]

lemma Filled.mapEntry (h : Filled pdpTable mem k s) (hk : k < 512)
    (hp : pdpTable.toNat + 4096 ≤ 2 ^ 32)
    (hzero : ∀ a, Within pdpTable.toUInt64 4096 a → mem a = 0) :
    Filled pdpTable mem (k + 1) (s.mapEntry pdpTable) := by
  have hmem := mapEntry_mem h hk hp
  have hother : ∀ a, ((a - pdpTable.toUInt64).toNat < 8 * k ∨ 8 * k + 6 ≤ (a - pdpTable.toUInt64).toNat) →
      (s.mapEntry pdpTable).mem a = s.mem a := by
    intro a ha
    rw [hmem, store_of_not_within (by norm_num), store_of_not_within (by norm_num)]
    · rw [within_offset (by omega)]
      omega
    · rw [within_offset (by omega)]
      omega
  refine ⟨h.eax, ?_, ?_, fun i hi => ?_, fun a ha => ?_⟩
  · change s.ecx + 1 = _
    rw [h.ecx, UInt32.ofNat_add]
    rfl
  · change s.edx + 0x4000 = _
    rw [h.edx, Nat.mul_add, UInt32.ofNat_add]
    rfl
  · by_cases hik : i = k
    · subst hik
      have hbyte : ∀ j : ℕ, 6 ≤ j → j < 8 →
          s.mem (pdpTable.toUInt64 + UInt64.ofNat (8 * i) + UInt64.ofNat j) = 0 := by
        intro j h6 h8
        have hoff : (pdpTable.toUInt64 + UInt64.ofNat (8 * i) + UInt64.ofNat j -
            pdpTable.toUInt64).toNat = 8 * i + j := by
          rw [UInt64.add_assoc, UInt64.add_comm, UInt64.add_sub_cancel, UInt64.toNat_add,
            UInt64.toNat_ofNat', UInt64.toNat_ofNat']
          omega
        rw [h.other, hzero]
        · unfold Within
          omega
        · unfold Within
          omega
      have hadd : pdpTable.toUInt64 + UInt64.ofNat (8 * i + 2) =
          pdpTable.toUInt64 + UInt64.ofNat (8 * i) + 2 := by
        rw [UInt64.ofNat_add, ← UInt64.add_assoc]
        rfl
      rw [hmem, hadd, load_overlap (hbyte 6 le_rfl (by norm_num)) (hbyte 7 (by norm_num) (by norm_num))]
      omega
    · rw [← h.entry i (by omega)]
      refine load_congr (by norm_num) fun a ha => hother a ?_
      rw [within_offset (by omega)] at ha
      omega
  · rw [hother a, h.other a]
    · unfold Within at ha ⊢
      omega
    · unfold Within at ha
      omega

/-- The loop ends after 512 turns. -/
lemma Filled.mapPdTable (hp : pdpTable.toNat + 4096 ≤ 2 ^ 32)
    (hzero : ∀ a, Within pdpTable.toUInt64 4096 a → mem a = 0) (n : ℕ) (hn : n < 512)
    (h : Filled pdpTable mem (511 - n) s) :
    ∃ s', s.mapPdTable pdpTable (n + 1) = some s' ∧ Filled pdpTable mem 512 s' := by
  have hnext := h.mapEntry (by omega) hp hzero
  induction n generalizing s with
  | zero =>
    refine ⟨_, ?_, hnext⟩
    rw [Start.mapPdTable]
    exact if_neg (by rw [hnext.ecx]; decide)
  | succ n ih =>
    have hk : 511 - (n + 1) + 1 = 511 - n := by omega
    rw [hk] at hnext
    obtain ⟨s', hs', hf⟩ := ih (by omega) hnext (hnext.mapEntry (by omega) hp hzero)
    refine ⟨s', ?_, hf⟩
    rw [Start.mapPdTable]
    refine (if_pos ?_).trans hs'
    rw [hnext.ecx, toInt32_lt (by omega)]
    omega

/-- What a write leaves at an address depends on what was there only. -/
lemma store_congr {m m' : Memory} {a b : UInt64} {v : ℕ} (h : m b = m' b) :
    store m a k v b = store m' a k v b := by
  induction k generalizing m m' a v with
  | zero => exact h
  | succ k ih =>
    apply ih
    by_cases hb : b = a
    · rw [hb, Function.update_self, Function.update_self]
    · rw [Function.update_of_ne hb, Function.update_of_ne hb, h]

/-- A doubleword in an empty entry. -/
lemma load_low {m : Memory} {a : UInt64} {x : ℕ} (h4 : m (a + 4) = 0) (h5 : m (a + 5) = 0)
    (h6 : m (a + 6) = 0) (h7 : m (a + 7) = 0) : load (store m a 4 x) a 8 = x % 2 ^ 32 := by
  have hne : ∀ j k : UInt64, a + j = a + k ↔ j = k := fun j k => add_right_inj a
  simp +decide only [load, store, UInt64.add_assoc, Function.update_apply, add_eq_left, left_eq_add, hne,
    UInt64.reduceAdd, if_true, if_false, h4, h5, h6, h7, UInt8.toNat_ofNat', UInt8.toNat_zero]
  omega

lemma load_zero {m : Memory} {a : UInt64} (h : ∀ x, Within a k x → m x = 0) (hk : k ≤ 2 ^ 64) :
    load m a k = 0 := by
  induction k generalizing a with
  | zero => rfl
  | succ k ih =>
    have hself : Within a (k + 1) a := by
      unfold Within
      rw [UInt64.sub_self]
      exact Nat.succ_pos k
    rw [load, h a hself, ih (fun x hx => h x (within_add_one (by omega) hx)) (by omega)]
    rfl

/-- The tables, with the lower half or without it. -/
structure Tables (pml4Table : UInt32) (mem : Memory) (lower : Bool) : Prop where
  aligned : pml4Table.toNat % 4096 = 0
  below : pml4Table.toNat + 8192 ≤ 2 ^ 32
  root : ∀ i < 512, load mem (pml4Table.toUInt64 + UInt64.ofNat (8 * i)) 8 =
    if (i = 0 ∧ lower = true) ∨ i = 511 then pml4Table.toNat + 4096 + 3 else 0
  pdp : ∀ i < 512, load mem (pml4Table.toUInt64 + UInt64.ofNat (4096 + 8 * i)) 8 = 0x83 + 2 ^ 30 * i

lemma or_three {n : ℕ} (hn : n % 4096 = 0) : n ||| 3 = n + 3 := by
  obtain ⟨q, rfl⟩ := Nat.dvd_of_mod_eq_zero hn
  have h := Nat.shiftLeft_add_eq_or_of_lt (by norm_num : 3 < 2 ^ 12) q
  rw [Nat.shiftLeft_eq, Nat.mul_comm] at h
  exact h.symm

section
variable (h : Loaded pml4Table mem)
include h

lemma Loaded.pdp_toNat : (pml4Table + 4096).toNat = pml4Table.toNat + 4096 := by
  have hb := h.below
  rw [UInt32.toNat_add]
  change (_ + 4096) % 2 ^ 32 = _
  omega

lemma Loaded.pdp_address :
    (pml4Table + 4096).toUInt64 = pml4Table.toUInt64 + UInt64.ofNat 4096 := by
  have hb := h.below
  apply UInt64.toNat_inj.mp
  rw [UInt64.toNat_add, UInt32.toNat_toUInt64, UInt32.toNat_toUInt64, h.pdp_toNat]
  change _ = (_ + 4096) % 2 ^ 64
  omega

/-- The entries of the top table, and the zeroes behind it. -/
lemma Loaded.mapRoot {s : Start} (hs : s.mem = mem) :
    (∀ i < 512, load (s.mapRoot pml4Table (pml4Table + 4096)).mem
      (pml4Table.toUInt64 + UInt64.ofNat (8 * i)) 8 =
        if i = 0 ∨ i = 511 then pml4Table.toNat + 4096 + 3 else 0) ∧
    (∀ a, Within (pml4Table + 4096).toUInt64 4096 a →
      (s.mapRoot pml4Table (pml4Table + 4096)).mem a = 0) ∧
    Filled (pml4Table + 4096) (s.mapRoot pml4Table (pml4Table + 4096)).mem 0
      (s.mapRoot pml4Table (pml4Table + 4096)) := by
  have hb := h.below
  have hvalue : ((pml4Table + 4096) ||| 0b11).toNat = pml4Table.toNat + 4096 + 3 := by
    have ha := h.aligned
    rw [UInt32.toNat_or, h.pdp_toNat]
    exact or_three (by omega)
  have hlast : (pml4Table + 511 * 8).toUInt64 = pml4Table.toUInt64 + UInt64.ofNat 4088 := by
    apply UInt64.toNat_inj.mp
    rw [UInt64.toNat_add, UInt32.toNat_toUInt64, UInt32.toNat_toUInt64, UInt32.toNat_add]
    change (_ + 4088) % 2 ^ 32 = (_ + 4088) % 2 ^ 64
    omega
  have hmem : (s.mapRoot pml4Table (pml4Table + 4096)).mem =
      store (store mem (pml4Table.toUInt64 + UInt64.ofNat 0) 4 (pml4Table.toNat + 4096 + 3))
        (pml4Table.toUInt64 + UInt64.ofNat 4088) 4 (pml4Table.toNat + 4096 + 3) := by
    have hzero : pml4Table.toUInt64 + UInt64.ofNat 0 = pml4Table.toUInt64 := UInt64.add_zero _
    unfold Start.mapRoot mov
    dsimp only
    rw [hvalue, hlast, hs, hzero]
  have hbytes : ∀ o j : ℕ, o + j < 8192 →
      mem (pml4Table.toUInt64 + UInt64.ofNat o + UInt64.ofNat j) = 0 := by
    intro o j ho
    apply h.zero
    unfold Within
    rw [UInt64.add_assoc, UInt64.add_comm, UInt64.add_sub_cancel, UInt64.toNat_add, UInt64.toNat_ofNat',
      UInt64.toNat_ofNat']
    omega
  have hrest : ∀ a, ((a - pml4Table.toUInt64).toNat < 4088 ∨ 4092 ≤ (a - pml4Table.toUInt64).toNat) →
      4 ≤ (a - pml4Table.toUInt64).toNat →
      (s.mapRoot pml4Table (pml4Table + 4096)).mem a = mem a := by
    intro a ha ha4
    rw [hmem, store_of_not_within (by norm_num), store_of_not_within (by norm_num)]
    · rw [within_offset (by norm_num)]
      omega
    · rw [within_offset (by norm_num)]
      omega
  refine ⟨fun i hi => ?_, fun a ha => ?_, ⟨rfl, rfl, rfl, fun i hi => absurd hi (Nat.not_lt_zero i),
    fun _ _ => rfl⟩⟩
  · by_cases hends : i = 0 ∨ i = 511
    · rw [if_pos hends]
      have hentry : load (s.mapRoot pml4Table (pml4Table + 4096)).mem
          (pml4Table.toUInt64 + UInt64.ofNat (8 * i)) 8 =
            load (store mem (pml4Table.toUInt64 + UInt64.ofNat (8 * i)) 4 (pml4Table.toNat + 4096 + 3))
              (pml4Table.toUInt64 + UInt64.ofNat (8 * i)) 8 := by
        refine load_congr (by norm_num) fun a ha => ?_
        rw [within_offset (by omega)] at ha
        rw [hmem]
        cases hends with
        | inl hi =>
          rw [hi, store_of_not_within (by norm_num)]
          rw [within_offset (by norm_num)]
          omega
        | inr hi =>
          rw [hi]
          apply store_congr
          rw [store_of_not_within (by norm_num)]
          rw [within_offset (by norm_num)]
          omega
      rw [hentry, load_low (hbytes _ 4 (by omega)) (hbytes _ 5 (by omega)) (hbytes _ 6 (by omega))
        (hbytes _ 7 (by omega))]
      omega
    · rw [if_neg hends]
      refine load_zero (fun x hx => ?_) (by norm_num)
      rw [within_offset (by omega)] at hx
      rw [hrest x (by omega) (by omega)]
      apply h.zero
      unfold Within
      omega
  · have hoff : Within (pml4Table.toUInt64 + UInt64.ofNat 4096) 4096 a := h.pdp_address ▸ ha
    rw [within_offset (by norm_num)] at hoff
    rw [hrest a (by omega) (by omega)]
    apply h.zero
    unfold Within
    omega

/-- The code builds the tables, both halves alike. -/
theorem Loaded.mapKernel {s : Start} (hs : s.mem = mem) :
    ∃ s', s.mapKernel pml4Table = some s' ∧
      Tables pml4Table s'.mem true := by
  have hb := h.below
  obtain ⟨hroot, hzero, hstart⟩ := h.mapRoot hs
  have hend : (pml4Table + 4096).toNat + 4096 ≤ 2 ^ 32 := by
    rw [h.pdp_toNat]
    omega
  obtain ⟨s', hs', hf⟩ := Filled.mapPdTable hend hzero 511 (by norm_num) hstart
  refine ⟨s', hs', ⟨h.aligned, hb, fun i hi => ?_, fun i hi => ?_⟩⟩
  · have hsame : load s'.mem (pml4Table.toUInt64 + UInt64.ofNat (8 * i)) 8 =
        load (s.mapRoot pml4Table (pml4Table + 4096)).mem
          (pml4Table.toUInt64 + UInt64.ofNat (8 * i)) 8 := by
      refine load_congr (by norm_num) fun a ha => hf.other a ?_
      rw [within_offset (by omega)] at ha
      rw [h.pdp_address, within_offset (by norm_num)]
      omega
    rw [hsame, hroot i hi]
    simp
  · have haddr : pml4Table.toUInt64 + UInt64.ofNat (4096 + 8 * i) =
        (pml4Table + 4096).toUInt64 + UInt64.ofNat (8 * i) := by
      rw [h.pdp_address, UInt64.ofNat_add, UInt64.add_assoc]
    rw [haddr]
    exact hf.entry i hi

end

/-- `long_init.asm` takes the lower half out. -/
lemma Tables.unmapLower {lower : Bool} (h : Tables pml4Table mem lower) :
    Tables pml4Table (unmapLower pml4Table mem) false := by
  have hsame : ∀ o, 8 ≤ o → o + 8 ≤ 8192 →
      load (Start.unmapLower pml4Table mem) (pml4Table.toUInt64 + UInt64.ofNat o) 8 =
        load mem (pml4Table.toUInt64 + UInt64.ofNat o) 8 := by
    intro o h8 ho
    refine load_congr (by norm_num) fun a ha => store_of_not_within (by norm_num) fun hw => ?_
    rw [within_offset (by omega)] at ha
    unfold Within at hw
    omega
  refine ⟨h.aligned, h.below, fun i hi => ?_,
    fun i hi => (hsame _ (by omega) (by omega)).trans (h.pdp i hi)⟩
  by_cases h0 : i = 0
  · subst h0
    have hzero : pml4Table.toUInt64 + UInt64.ofNat (8 * 0) = pml4Table.toUInt64 := UInt64.add_zero _
    rw [hzero]
    exact load_store (by norm_num)
  · rw [hsame _ (by omega) (by omega), h.root i hi]
    simp [h0]

/-- What `vmem.cpp` finds at the addresses of the linear mapping. -/
lemma ofMemory_entry (mem : Memory) (supply : List UInt64) (left : UInt64 → ℕ → UInt64) (a : UInt64)
    (i : ℕ) : (PageTables.ofMemory mem supply left).entry (kernelVma + a) i =
      UInt64.ofNat (load mem (a + UInt64.ofNat (8 * i)) 8) := by
  have hsub : kernelVma + a - kernelVma = a := by
    rw [UInt64.add_comm, UInt64.add_sub_cancel]
  unfold PageTables.ofMemory
  dsimp only
  rw [hsub, UInt64.ofNat_mul]
  rfl

/-- An entry for a page of 1 GiB. -/
lemma huge_entry {i : UInt64} (hi : i.toNat < 512) :
    UInt64.ofNat (0x83 + 2 ^ 30 * i.toNat) = (i <<< 30) ||| 0x83 := by
  have h : (0x83 : UInt64).toNat = 0x83 := rfl
  have hs : (i <<< 30).toNat = i.toNat * 2 ^ 30 := by
    rw [UInt64.toNat_shiftLeft, Nat.shiftLeft_eq]
    change _ * 2 ^ 30 % _ = _
    omega
  apply UInt64.toNat_inj.mp
  rw [UInt64.toNat_ofNat', UInt64.toNat_or, hs, h, ← Nat.shiftLeft_eq,
    ← Nat.shiftLeft_add_eq_or_of_lt (by norm_num), Nat.shiftLeft_eq]
  omega

/-- A bit of a constant is set in what it is put into. -/
lemma present_or {n c mask : UInt64} (h : c &&& mask ≠ 0) : (n ||| c) &&& mask ≠ 0 := by
  rw [or_and]
  exact fun hz => h (UInt64.or_eq_zero_iff.mp hz).2

/-- Bits of the entry are bits of the address, and so are the others. -/
lemma huge_page (v : UInt64) :
    (((getBits v 30 38 <<< 30) ||| 0x83) &&& 0x0000ffffc0000000) ||| (v &&& 0x3ffff000) =
      v &&& 0x7ffffff000 := by
  rw [getBits_eq v (by decide)]
  apply UInt64.toBitVec_inj.mp
  apply BitVec.eq_of_getLsbD_eq
  intro i hi
  simp
  interval_cases i <;> simp

lemma huge_flags (v : UInt64) : ((getBits v 30 38 <<< 30) ||| 0x83) &&& pageFlagsPos = 0x82 := by
  have hlow : (getBits v 30 38 <<< 30) &&& pageFlagsPos = 0 := by
    unfold pageFlagsPos
    rw [getBits_eq v (by decide)]
    apply UInt64.toBitVec_inj.mp
    apply BitVec.eq_of_getLsbD_eq
    intro i hi
    simp
    interval_cases i <;> simp
  rw [or_and, hlow]
  rfl

section
variable {lower : Bool} (h : Tables pml4Table mem lower) (supply : List UInt64)
  (left : UInt64 → ℕ → UInt64)
include h

/-- The address of `PDP_table`, as the kernel takes it. -/
lemma Tables.pdp_toNat : (pml4Table.toUInt64 + 4096).toNat = pml4Table.toNat + 4096 := by
  have hb := h.below
  rw [UInt64.toNat_add, UInt32.toNat_toUInt64]
  change (_ + 4096) % 2 ^ 64 = _
  omega

/-- An entry of the top table that leads to `PDP_table`. -/
lemma Tables.root_entry {i : ℕ} (hi : i < 512) (hp : (i = 0 ∧ lower = true) ∨ i = 511) :
    (PageTables.ofMemory mem supply left).entry (kernelVma + pml4Table.toUInt64) i =
      pml4Table.toUInt64 + 4096 ||| 3 := by
  have ha := h.aligned
  have hthree : (3 : UInt64).toNat = 3 := rfl
  rw [ofMemory_entry, h.root i hi, if_pos hp]
  apply UInt64.toNat_inj.mp
  rw [UInt64.toNat_or, h.pdp_toNat, hthree, or_three (by omega), UInt64.toNat_ofNat']
  have hb := h.below
  omega

/-- The address in it. -/
lemma Tables.root_next : (pml4Table.toUInt64 + 4096 ||| 3) &&& pageAddrPos =
    pml4Table.toUInt64 + 4096 := by
  have ha := h.aligned
  have hb := h.below
  have hzero : (3 : UInt64) &&& pageAddrPos = 0 := by decide
  rw [or_and, hzero, UInt64.or_zero]
  apply UInt64.toNat_inj.mp
  rw [PageTables.and_pageAddrPos_toNat, h.pdp_toNat]
  omega

lemma Tables.root_read {i : ℕ} (hi : i < 512) (hp : (i = 0 ∧ lower = true) ∨ i = 511) :
    (PageTables.ofMemory mem supply left).read (kernelVma + pml4Table.toUInt64) i =
      some (pml4Table.toUInt64 + 4096 ||| 3) := by
  have he := h.root_entry supply left hi hp
  refine PageTables.read_eq_some.mpr ⟨?_, he⟩
  unfold PageTables.present
  rw [he]
  exact present_or (by decide)

lemma Tables.root_absent {i : ℕ} (hi : i < 512) (hp : ¬ ((i = 0 ∧ lower = true) ∨ i = 511)) :
    (PageTables.ofMemory mem supply left).read (kernelVma + pml4Table.toUInt64) i = none := by
  have hzero : (PageTables.ofMemory mem supply left).entry (kernelVma + pml4Table.toUInt64) i = 0 := by
    rw [ofMemory_entry, h.root i hi, if_neg hp]
    rfl
  have habsent : ¬ (PageTables.ofMemory mem supply left).present (kernelVma + pml4Table.toUInt64) i := by
    unfold PageTables.present
    rw [hzero, UInt64.zero_and]
    exact not_not_intro rfl
  exact if_neg habsent

/-- The entries of `PDP_table`. -/
lemma Tables.pdp_entry {i : UInt64} (hi : i.toNat < 512) :
    (PageTables.ofMemory mem supply left).entry (pml4Table.toUInt64 + 4096 + kernelVma) i.toNat =
      (i <<< 30) ||| 0x83 := by
  have haddr : pml4Table.toUInt64 + 4096 + UInt64.ofNat (8 * i.toNat) =
      pml4Table.toUInt64 + UInt64.ofNat (4096 + 8 * i.toNat) := by
    rw [UInt64.ofNat_add, ← UInt64.add_assoc]
    rfl
  rw [UInt64.add_comm _ kernelVma, ofMemory_entry, haddr, h.pdp i.toNat hi, huge_entry hi]

/-- The processor's walk in the tables: the low 39 bits are the physical address, in the halves that
are mapped. -/
theorem Tables.walk (v : UInt64) :
    (PageTables.ofMemory mem supply left).walk (kernelVma + pml4Table.toUInt64) v =
      if (PageTables.pageNumber v / 512 ^ 3 = 0 ∧ lower = true) ∨
          PageTables.pageNumber v / 512 ^ 3 = 511 then
        some (v &&& 0x7ffffff000, 0x82)
      else none := by
  have hlt : PageTables.pageNumber v < 2 ^ 36 := Nat.mod_lt _ (by norm_num)
  obtain ⟨h3, h2, -, -⟩ := PageTables.index_digits v
  have htop : (getBits v 39 47).toNat = PageTables.pageNumber v / 512 ^ 3 := by
    rw [h3]
    omega
  have hidx : (getBits v 30 38).toNat < 512 := by
    rw [h2]
    omega
  unfold PageTables.walk
  rw [htop]
  split_ifs with hp
  · have hread : (PageTables.ofMemory mem supply left).read (pml4Table.toUInt64 + 4096 + kernelVma)
        (getBits v 30 38).toNat = some ((getBits v 30 38 <<< 30) ||| 0x83) := by
      have hentry := h.pdp_entry supply left hidx
      refine PageTables.read_eq_some.mpr ⟨?_, hentry⟩
      unfold PageTables.present
      rw [hentry]
      exact present_or (by decide)
    have hlarge : PageTables.large ((getBits v 30 38 <<< 30) ||| 0x83) := present_or (by decide)
    rw [h.root_read supply left (by omega) hp, Option.bind_some, h.root_next, hread, Option.bind_some,
      if_pos hlarge, huge_page, huge_flags]
  · rw [h.root_absent supply left (by omega) hp]
    rfl

end

/-- With the lower half for the code that turns paging on, and without it afterwards, the tables map an
address of the kernel to its low 39 bits. -/
theorem mapKernel_walk (hl : Loaded pml4Table s.mem) (supply : List UInt64)
    (left : UInt64 → ℕ → UInt64) :
    ∃ s', s.mapKernel pml4Table = some s' ∧ ∀ v,
      (PageTables.ofMemory s'.mem supply left).walk (kernelVma + pml4Table.toUInt64) v =
        (if PageTables.pageNumber v / 512 ^ 3 = 0 ∨ PageTables.pageNumber v / 512 ^ 3 = 511 then
          some (v &&& 0x7ffffff000, 0x82) else none) ∧
      (PageTables.ofMemory (unmapLower pml4Table s'.mem) supply left).walk
          (kernelVma + pml4Table.toUInt64) v =
        if PageTables.pageNumber v / 512 ^ 3 = 511 then some (v &&& 0x7ffffff000, 0x82) else none := by
  obtain ⟨s', hs', htables⟩ := hl.mapKernel rfl
  refine ⟨s', hs', fun v => ⟨?_, ?_⟩⟩
  · have hwalk := htables.walk supply left v
    simpa only [and_true] using hwalk
  · have hwalk := htables.unmapLower.walk supply left v
    simpa only [Bool.false_eq_true, and_false, false_or] using hwalk

/-- The table that the kernel's entry leads to. -/
def kernelTables (pml4Table : UInt32) (d : ℕ) : Set UInt64 :=
  if d = 1 then {pml4Table.toUInt64 + 4096 + kernelVma} else ∅

/-- They are tables of the kernel for the address spaces to come. -/
lemma Tables.kernel {lower : Bool} {supply : List UInt64} (h : Tables pml4Table mem lower)
    (left : UInt64 → ℕ → UInt64)
    (hfresh : PageTables.Fresh supply (fun _ => ∅) (kernelTables pml4Table)) :
    PageTables.KernelTables (PageTables.ofMemory mem supply left) (pml4Table.toUInt64 + 4096)
      (kernelTables pml4Table) where
  root := by
    have hnext : (pml4Table.toUInt64 + 4096) &&& pageAddrPos = pml4Table.toUInt64 + 4096 := by
      have ha := h.aligned
      have hb := h.below
      apply UInt64.toNat_inj.mp
      rw [PageTables.and_pageAddrPos_toNat, h.pdp_toNat]
      omega
    rw [hnext, kernelTables, if_pos rfl]
    exact Set.mem_singleton _
  next d _ _ t ht i hi _ hl := by
    unfold kernelTables at ht
    split_ifs at ht with hd
    · obtain rfl : t = _ := ht
      have hi' : (UInt64.ofNat i).toNat = i := by
        rw [UInt64.toNat_ofNat']
        omega
      have hentry := h.pdp_entry supply left (i := UInt64.ofNat i) (by omega)
      rw [hi'] at hentry
      rw [hentry] at hl
      exact absurd (present_or (by decide)) hl
    · cases ht
  fresh := hfresh

/-- In every state of the address spaces, each of them maps the kernel as the tables of `boot.asm` do. -/
theorem kernel_mapped {supply : List UInt64} (hl : Loaded pml4Table s.mem)
    (left : UInt64 → ℕ → UInt64)
    (hfresh : PageTables.Fresh supply (fun _ => ∅) (kernelTables pml4Table)) :
    ∃ s', s.mapKernel pml4Table = some s' ∧ ∀ es t,
      let start := Spaces.boot (PageTables.ofMemory (unmapLower pml4Table s'.mem) supply left)
      Machine.Along (Spaces.step (pml4Table.toUInt64 + 4096)) Spaces.Sparing start es →
      Machine.run (Spaces.step (pml4Table.toUInt64 + 4096)) start es = some t →
      ∀ r ∈ t.roots, ∀ v, 511 * 512 ^ 3 ≤ PageTables.pageNumber v →
        t.memory.walk r v = some (v &&& 0x7ffffff000, 0x82) := by
  obtain ⟨s', hs', htables⟩ := hl.mapKernel rfl
  refine ⟨s', hs', ?_⟩
  intro es t start hspare hrun r hr v hv
  have hlower := htables.unmapLower
  have hlt : PageTables.pageNumber v < 2 ^ 36 := Nat.mod_lt _ (by norm_num)
  have htop : PageTables.pageNumber v / 512 ^ 3 = 511 := by omega
  obtain ⟨hpresent, hentry⟩ := PageTables.read_eq_some.mp
    (hlower.root_read supply left (by norm_num) (Or.inr rfl))
  have hk := hlower.kernel left hfresh
  have hroot : (PageTables.ofMemory (unmapLower pml4Table s'.mem) supply left).entry
      (kernelVma + pml4Table.toUInt64) 511 &&& pageAddrPos =
        (pml4Table.toUInt64 + 4096) &&& pageAddrPos := by
    rw [hentry, or_and]
    exact UInt64.or_zero
  rw [Spaces.walk_kernel_shared hk hpresent hroot hspare hrun hr hv, hlower.walk supply left v,
    if_pos (Or.inr htop)]

section Sample

/-- Empty memory, and `.boot_bss` behind the first pages of the image. -/
def sampleStart : Start := ⟨0, 0, 0, fun _ => 0⟩

lemma sampleStart_loaded : Loaded 0x103000 sampleStart.mem :=
  ⟨by decide, by decide, fun _ _ => rfl⟩

theorem mapKernel_walk_sample : ∃ s', sampleStart.mapKernel 0x103000 = some s' ∧
    (PageTables.ofMemory s'.mem [] fun _ _ => 0).walk 0xffffff8000103000 0x100000 =
      some (0x100000, 0x82) := by
  obtain ⟨s', hs', hwalk⟩ := mapKernel_walk sampleStart_loaded [] fun _ _ => 0
  have hpage : PageTables.pageNumber 0x100000 / 512 ^ 3 = 0 := by decide
  have hv := (hwalk 0x100000).1
  rw [if_pos (Or.inl hpage)] at hv
  exact ⟨s', hs', hv⟩

lemma sampleStart_fresh : PageTables.Fresh [0xffffff8000200000] (fun _ => ∅) (kernelTables 0x103000) where
  distinct := List.pairwise_singleton _ _
  linear p hp _ := by
    obtain rfl := List.mem_singleton.mp hp
    exact ⟨by decide, by decide⟩
  user p _ _ _ _ := Set.notMem_empty p
  kernel p hp _ d _ _ hm := by
    obtain rfl := List.mem_singleton.mp hp
    unfold kernelTables at hm
    split_ifs at hm
    · exact absurd hm (by decide)
    · cases hm

/-- The screen is where the driver looks for it in the first address space. -/
theorem kernel_mapped_sample : ∃ s' t, sampleStart.mapKernel 0x103000 = some s' ∧
    Machine.run (Spaces.step 0x104000) (Spaces.boot (PageTables.ofMemory (unmapLower 0x103000 s'.mem)
      [0xffffff8000200000] fun _ _ => 0)) [.create] = some t ∧
    t.memory.walk 0xffffff8000200000 0xffffff80000b8000 = some (0xb8000, 0x82) := by
  obtain ⟨s', hs', hmapped⟩ := kernel_mapped sampleStart_loaded (fun _ _ => 0) sampleStart_fresh
  have hrun : Machine.run (Spaces.step 0x104000) (Spaces.boot (PageTables.ofMemory
      (unmapLower 0x103000 s'.mem) [0xffffff8000200000] fun _ _ => 0)) [.create] =
        some ⟨(PageTables.construct 0x104000 (PageTables.ofMemory (unmapLower 0x103000 s'.mem)
          [0xffffff8000200000] fun _ _ => 0)).2, [0xffffff8000200000], fun _ => none⟩ := rfl
  exact ⟨s', _, hs', hrun, hmapped [.create] _ ⟨trivial, fun _ _ => trivial⟩ hrun _
    List.mem_cons_self 0xffffff80000b8000 (by decide)⟩

end Sample

end Start
end EpochKernel.Mem
