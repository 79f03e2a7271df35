import EpochKernel.Mem.Pallocator

/-! `process::load_elf` of `sched/process.cpp`, by the memory that it accesses. -/
namespace EpochKernel.Sched
open EpochKernel.Util EpochKernel.Mem

/-- A field of a structure in memory: its offset and its number of bytes. -/
structure Field where
  off : ℕ
  width : ℕ
  off_lt : off < 2 ^ 64 := by decide
  width_pos : 0 < width := by decide

namespace Elf

/-! `elf::header`. -/
def magic : Field := { off := 0, width := 4 }
def bits : Field := { off := 4, width := 1 }
def endian : Field := { off := 5, width := 1 }
def abi : Field := { off := 7, width := 1 }
def arch : Field := { off := 18, width := 2 }
def entry : Field := { off := 24, width := 8 }
def pHdr : Field := { off := 32, width := 8 }
def pHdrEntrySize : Field := { off := 54, width := 2 }
def pHdrN : Field := { off := 56, width := 2 }

/-! `elf::p_header`. -/
def type : Field := { off := 0, width := 4 }
def flags : Field := { off := 4, width := 4 }
def pOffset : Field := { off := 8, width := 8 }
def pVaddr : Field := { off := 16, width := 8 }
def pFilesz : Field := { off := 32, width := 8 }
def pMemsz : Field := { off := 40, width := 8 }
def pHeaderSize : ℕ := 56

/-- The fields compared first, in this order, with the values they must have: `ELF_MAGIC`,
`ELF_64_BIT`, `ELF_LITTLE_ENDIAN`, `ELF_SYSTEM_V`, `ELF_x64` and the size of `elf::p_header`. -/
def checks : List (Field × UInt64) :=
  [(magic, 0x464c457f), (bits, 2), (endian, 1), (abi, 0), (arch, 0x3e), (pHdrEntrySize, 56)]

end Elf

/-- An access to `n` bytes: a read, or a write meant for a block of `size` bytes. -/
inductive Access
  | read (addr : UInt64) (n : ℕ)
  | write (block : UInt64) (size : ℕ) (addr : UInt64) (n : ℕ)
  deriving DecidableEq

/-- `program` and `len` of `load_elf`, with the contents of memory, of which the image is a part. They
stay the same as long as nothing is written outside of a block. -/
structure Image where
  byte : UInt64 → UInt8
  program : UInt64
  len : UInt64
  uid : UInt8 := 0
  fits : program.toNat + len.toNat ≤ 2 ^ 64

/-- What the rest of the kernel answers: whether `new process` succeeds, the block that `allocz`
returns for the program header `i`, and whether `map_at` succeeds for it with the given flags. -/
structure Env where
  newProcess : Bool
  allocz : ℕ → UInt64 → Option UInt64
  mapAt : ℕ → UInt64 → Bool

/-- The size of the zone that `pallocator::alloc` takes for `n` bytes, with pages as the smallest
zones. -/
def blockSize (n : UInt64) : ℕ := 2 ^ max 12 (log2Up n).toNat

/-- `allocz` returns blocks in the address space. -/
def Env.Valid (env : Env) : Prop :=
  ∀ i n block, env.allocz i n = some block → block ≠ 0 ∧ block.toNat + blockSize n ≤ 2 ^ 64

/-- The address lies in `size` bytes from `base`. -/
def InBuffer (base : UInt64) (size : ℕ) (a : UInt64) : Prop :=
  base.toNat ≤ a.toNat ∧ a.toNat < base.toNat + size

instance (base : UInt64) (size : ℕ) (a : UInt64) : Decidable (InBuffer base size a) :=
  inferInstanceAs (Decidable (_ ∧ _))

/-- A little-endian number of `width` bytes. -/
def readNumber (byte : UInt64 → UInt8) (a : UInt64) : ℕ → UInt64
  | 0 => 0
  | width + 1 => (byte a).toUInt64 + readNumber byte (a + 1) width <<< 8

namespace Image
variable (P : Image)

/-- A field of the structure at the given offset from `program`. -/
def get (off : UInt64) (f : Field) : UInt64 :=
  readNumber P.byte (P.program + off + UInt64.ofNat f.off) f.width

/-- Reading a field of the header. -/
def access (f : Field) : Access := .read (P.program + UInt64.ofNat f.off) f.width

/-- The comparisons of header fields, joined by `||`, stop at the first that does not match. -/
def check : List (Field × UInt64) → List Access × Bool
  | [] => ([], true)
  | (f, v) :: l =>
    if P.get 0 f = v then
      let (accesses, ok) := check l
      (P.access f :: accesses, ok)
    else ([P.access f], false)

/-- The offset of `p_hdrs[i]`. -/
def pHeader (i : ℕ) : UInt64 := P.get 0 Elf.pHdr + UInt64.ofNat (i * Elf.pHeaderSize)

/-- `p_hdr->p_hdr + p_hdr_n * p_hdr_entry_size > prgrm + len`. -/
def tableRejected : Bool :=
  P.get 0 Elf.pHdr + P.get 0 Elf.pHdrN * P.get 0 Elf.pHdrEntrySize > P.program + P.len

/-- The flags for `map_at`: `V_XD`, `V_WRITE` and `V_USER`. -/
def flags (i : ℕ) : UInt64 :=
  let pFlags := P.get (P.pHeader i) Elf.flags
  (if pFlags &&& 1 ≠ 0 then 0 else 0x8000000000000000) |||
    (if pFlags &&& 2 ≠ 0 then 2 else 0) ||| (if P.uid = 0 then 0 else 4)

/-- The body of the loop for `p_hdrs[i]`, and whether the loop goes on. -/
def segment (env : Env) (i : ℕ) : List Access × Bool :=
  let off := P.pHeader i
  let copy := Access.read (P.program + off) Elf.pHeaderSize
  if P.get off Elf.type ≠ 1 then ([copy], true)
  else if P.get off Elf.pOffset + P.get off Elf.pFilesz > P.len then ([copy], false)
  else
    match env.allocz i (P.get off Elf.pMemsz) with
    | none => ([copy], false)
    | some mem =>
      let n := (P.get off Elf.pFilesz).toNat
      ([copy, .read (P.program + P.get off Elf.pOffset) n,
        .write mem (blockSize (P.get off Elf.pMemsz)) (mem + P.get off Elf.pVaddr % pageSize) n],
        env.mapAt i (P.flags i))

/-- The loop over the program headers, for `k` headers from `i` on; `p_hdr_n` is read every time. -/
def segments (env : Env) : ℕ → ℕ → List Access × Bool
  | 0, _ => ([P.access Elf.pHdrN], true)
  | k + 1, i =>
    let (accesses, goesOn) := P.segment env i
    if goesOn then
      let (rest, ok) := segments env k (i + 1)
      (P.access Elf.pHdrN :: accesses ++ rest, ok)
    else (P.access Elf.pHdrN :: accesses, false)

/-- The accesses of `load_elf`. -/
def loadElf (env : Env) : List Access :=
  let (accesses, ok) := P.check Elf.checks
  if !ok then accesses
  else
    let accesses := accesses ++ [P.access Elf.pHdr, P.access Elf.pHdrN, P.access Elf.pHdrEntrySize]
    if P.tableRejected then accesses
    else if !env.newProcess then accesses
    else
      let accesses := accesses ++ [P.access Elf.pHdr]
      let (loop, ok) := P.segments env (P.get 0 Elf.pHdrN).toNat 0
      if ok then accesses ++ loop ++ [P.access Elf.entry] else accesses ++ loop

/-- Every byte read lies in the image, and every byte written in its block. -/
def Confined : Access → Prop
  | .read addr n => ∀ i < n, InBuffer P.program P.len.toNat (addr + UInt64.ofNat i)
  | .write block size addr n => ∀ i < n, InBuffer block size (addr + UInt64.ofNat i)

/-- The fields that `check` reads lie in the image. -/
def CheckFits : List (Field × UInt64) → Prop
  | [] => True
  | (f, v) :: l => f.off + f.width ≤ P.len.toNat ∧ (P.get 0 f = v → CheckFits l)

/-- The program header `i` is passed over, or loaded. -/
def GoesOn (env : Env) (i : ℕ) : Prop :=
  let off := P.pHeader i
  P.get off Elf.type ≠ 1 ∨
    P.get off Elf.pOffset + P.get off Elf.pFilesz ≤ P.len ∧
      env.allocz i (P.get off Elf.pMemsz) ≠ none ∧ env.mapAt i (P.flags i) = true

/-- The program header `i` lies in the image; and if it is loaded, its bytes in the file do, as
natural numbers, and they fit into the block behind the offset of `p_vaddr` in its page. -/
def SegmentFits (env : Env) (i : ℕ) : Prop :=
  let off := P.pHeader i
  off.toNat + Elf.pHeaderSize ≤ P.len.toNat ∧
    (P.get off Elf.type = 1 → P.get off Elf.pOffset + P.get off Elf.pFilesz ≤ P.len →
      env.allocz i (P.get off Elf.pMemsz) ≠ none → P.get off Elf.pFilesz ≠ 0 →
        (P.get off Elf.pOffset).toNat + (P.get off Elf.pFilesz).toNat ≤ P.len.toNat ∧
        (P.get off Elf.pVaddr % pageSize).toNat + (P.get off Elf.pFilesz).toNat ≤
          blockSize (P.get off Elf.pMemsz))

/-- What has to hold of an image for `load_elf` to stay in its buffers. -/
def Fits (env : Env) : Prop :=
  P.CheckFits Elf.checks ∧
    ((∀ c ∈ Elf.checks, P.get 0 c.1 = c.2) → 58 ≤ P.len.toNat ∧
      (P.tableRejected = false → env.newProcess = true →
        ∀ i < (P.get 0 Elf.pHdrN).toNat, (∀ j < i, P.GoesOn env j) → P.SegmentFits env i))

end Image

/-- The zones of an allocator whose smallest zones are pages. -/
lemma blockSize_eq (c : Layout) (h : c.foBits = 12) (n : UInt64) :
    blockSize n = 2 ^ (c.foBits.toNat + (c.getOrder n).toNat) := by
  unfold blockSize Layout.getOrder
  rw [h]
  simp only
  split_ifs with hle
  · have hle := UInt8.le_iff_toNat_le.mp hle
    rw [UInt8.toNat_sub_of_le _ _ (UInt8.le_iff_toNat_le.mpr hle)]
    simp only [UInt8.reduceToNat] at hle ⊢
    congr 1
    omega
  · have hlt : (log2Up n).toNat < 12 := by
      by_contra hx
      exact hle (UInt8.le_iff_toNat_le.mpr (Nat.not_lt.mp hx))
    simp only [UInt8.reduceToNat]
    congr 1
    omega

/-- A stretch of addresses from `base + o` on. Should it run around the end of the address space, it
leaves the buffer before. -/
lemma inBuffer_iff {base o : UInt64} {size n : ℕ} (hfit : base.toNat + size ≤ 2 ^ 64)
    (hsize : size < 2 ^ 64) :
    (∀ i < n, InBuffer base size (base + o + UInt64.ofNat i)) ↔ n = 0 ∨ o.toNat + n ≤ size := by
  have hb := base.toNat_lt
  have ho := o.toNat_lt
  have haddr (i : ℕ) : (base + o + UInt64.ofNat i).toNat = (base.toNat + o.toNat + i) % 2 ^ 64 := by
    rw [UInt64.toNat_add, UInt64.toNat_add, UInt64.toNat_ofNat']
    omega
  constructor
  · intro h
    by_contra hn
    have h0 := h 0 (by omega)
    unfold InBuffer at h0
    rw [haddr] at h0
    have hs := h (size - o.toNat) (by omega)
    unfold InBuffer at hs
    rw [haddr] at hs
    omega
  · intro h i hi
    unfold InBuffer
    rw [haddr]
    omega

namespace Image
variable {P : Image} {env : Env}

lemma confined_access (f : Field) : P.Confined (P.access f) ↔ f.off + f.width ≤ P.len.toNat := by
  have h := inBuffer_iff (o := UInt64.ofNat f.off) (n := f.width) P.fits P.len.toNat_lt
  have hoff : (UInt64.ofNat f.off).toNat = f.off := by
    rw [UInt64.toNat_ofNat']
    exact Nat.mod_eq_of_lt f.off_lt
  rw [hoff] at h
  exact h.trans (or_iff_right f.width_pos.ne')

lemma check_ok (l : List (Field × UInt64)) :
    (P.check l).2 = true ↔ ∀ c ∈ l, P.get 0 c.1 = c.2 := by
  induction l with
  | nil => simp [check]
  | cons c l ih =>
    obtain ⟨f, v⟩ := c
    rw [check, List.forall_mem_cons, ← ih]
    by_cases hm : P.get 0 f = v
    · simp [hm]
    · simp [hm]

lemma check_confined (l : List (Field × UInt64)) :
    (∀ a ∈ (P.check l).1, P.Confined a) ↔ P.CheckFits l := by
  induction l with
  | nil => simp [check, CheckFits]
  | cons c l ih =>
    obtain ⟨f, v⟩ := c
    rw [check, CheckFits, ← ih]
    by_cases hm : P.get 0 f = v
    · simp [hm, confined_access]
    · simp [hm, confined_access]

lemma segment_ok (i : ℕ) : (P.segment env i).2 = true ↔ P.GoesOn env i := by
  unfold segment GoesOn
  simp only
  by_cases ht : P.get (P.pHeader i) Elf.type = 1
  · by_cases hc : P.get (P.pHeader i) Elf.pOffset + P.get (P.pHeader i) Elf.pFilesz > P.len
    · have hn : ¬ P.get (P.pHeader i) Elf.pOffset + P.get (P.pHeader i) Elf.pFilesz ≤ P.len :=
        UInt64.not_le.mpr hc
      simp [ht, hc, hn]
    · have hn : P.get (P.pHeader i) Elf.pOffset + P.get (P.pHeader i) Elf.pFilesz ≤ P.len :=
        UInt64.not_lt.mp hc
      cases ha : env.allocz i (P.get (P.pHeader i) Elf.pMemsz) with
      | none => simp [ht, hc]
      | some mem => simp [ht, hc, hn]
  · simp [ht]

lemma segment_confined (hv : env.Valid) (i : ℕ) :
    (∀ a ∈ (P.segment env i).1, P.Confined a) ↔ P.SegmentFits env i := by
  have hcopy : P.Confined (.read (P.program + P.pHeader i) Elf.pHeaderSize) ↔
      (P.pHeader i).toNat + Elf.pHeaderSize ≤ P.len.toNat := by
    exact (inBuffer_iff P.fits P.len.toNat_lt).trans (or_iff_right (by decide))
  unfold segment SegmentFits
  simp only
  by_cases ht : P.get (P.pHeader i) Elf.type = 1
  · by_cases hc : P.get (P.pHeader i) Elf.pOffset + P.get (P.pHeader i) Elf.pFilesz > P.len
    · have hn : ¬ P.get (P.pHeader i) Elf.pOffset + P.get (P.pHeader i) Elf.pFilesz ≤ P.len :=
        UInt64.not_le.mpr hc
      simp [ht, hc, hn, hcopy]
    · have hn : P.get (P.pHeader i) Elf.pOffset + P.get (P.pHeader i) Elf.pFilesz ≤ P.len :=
        UInt64.not_lt.mp hc
      cases ha : env.allocz i (P.get (P.pHeader i) Elf.pMemsz) with
      | none => simp [ht, hc, hcopy]
      | some mem =>
        obtain ⟨h0, hfit⟩ := hv i _ mem ha
        have hpos : 0 < mem.toNat := by
          by_contra hz
          exact h0 (UInt64.toNat_inj.mp (Nat.eq_zero_of_not_pos hz))
        have hread : P.Confined (.read (P.program + P.get (P.pHeader i) Elf.pOffset)
            (P.get (P.pHeader i) Elf.pFilesz).toNat) ↔ _ := inBuffer_iff P.fits P.len.toNat_lt
        have hwrite : P.Confined (.write mem (blockSize (P.get (P.pHeader i) Elf.pMemsz))
            (mem + P.get (P.pHeader i) Elf.pVaddr % pageSize)
            (P.get (P.pHeader i) Elf.pFilesz).toNat) ↔ _ := inBuffer_iff hfit (by omega)
        have hz : (P.get (P.pHeader i) Elf.pFilesz).toNat = 0 ↔
            P.get (P.pHeader i) Elf.pFilesz = 0 := UInt64.toNat_inj (b := 0)
        rw [hz] at hread hwrite
        simp only [ht, hc, ne_eq, not_true_eq_false, if_false, List.forall_mem_cons, hcopy,
          hread, hwrite, hn, reduceCtorEq, not_false_eq_true, forall_const,
          List.not_mem_nil, false_imp_iff, implies_true, and_true]
        rw [← or_and_left, or_iff_not_imp_left]
  · simp [ht, hcopy]

/-- The loop over the headers, which reads `p_hdr_n` in every turn. -/
lemma segments_confined (hv : env.Valid) (k i : ℕ) :
    (∀ a ∈ (P.segments env k i).1, P.Confined a) ↔ 58 ≤ P.len.toNat ∧
      ∀ j < k, (∀ l < j, P.GoesOn env (i + l)) → P.SegmentFits env (i + j) := by
  have hn : P.Confined (P.access Elf.pHdrN) ↔ 58 ≤ P.len.toNat := confined_access _
  induction k generalizing i with
  | zero => simp [segments, hn]
  | succ k ih =>
    have hseg := segment_confined (P := P) hv i
    have hok : (P.segment env i).2 = true ↔ P.GoesOn env i := segment_ok i
    rw [segments]
    by_cases hg : P.GoesOn env i
    · have hrest := ih (i + 1)
      simp only [hok.mpr hg, if_true, List.cons_append, List.forall_mem_cons, List.forall_mem_append,
        hn, hseg, hrest]
      simp only [Nat.forall_lt_succ_left, Nat.not_lt_zero, false_imp_iff, implies_true, true_imp_iff,
        Nat.add_zero, hg, true_and, Nat.add_assoc, Nat.add_comm 1]
      exact ⟨fun ⟨ha, hs, _, hr⟩ => ⟨ha, hs, hr⟩, fun ⟨ha, hs, hr⟩ => ⟨ha, hs, ha, hr⟩⟩
    · have hf : (P.segment env i).2 = false := by
        rw [← Bool.not_eq_true, hok]
        exact hg
      simp only [hf, Bool.false_eq_true, if_false, List.forall_mem_cons, hn, hseg]
      simp only [Nat.forall_lt_succ_left, Nat.not_lt_zero, false_imp_iff, implies_true, true_imp_iff,
        Nat.add_zero, hg, false_and, and_true]

/-- The fields that are read once the comparisons have passed. -/
lemma table_confined :
    (∀ a ∈ [P.access Elf.pHdr, P.access Elf.pHdrN, P.access Elf.pHdrEntrySize], P.Confined a) ↔
      58 ≤ P.len.toNat := by
  simp only [List.forall_mem_cons, confined_access, List.not_mem_nil, false_imp_iff, implies_true,
    and_true]
  exact ⟨fun h => h.2.1, fun h => ⟨h.trans' (by decide), h, h.trans' (by decide)⟩⟩

/-- What comes after the table has been accepted. -/
lemma loop_confined (hv : env.Valid) (h58 : 58 ≤ P.len.toNat) :
    (∀ a ∈ [P.access Elf.pHdr] ++ (P.segments env (P.get 0 Elf.pHdrN).toNat 0).1 ++
        (if (P.segments env (P.get 0 Elf.pHdrN).toNat 0).2 then [P.access Elf.entry] else []),
      P.Confined a) ↔
      ∀ i < (P.get 0 Elf.pHdrN).toNat, (∀ j < i, P.GoesOn env j) → P.SegmentFits env i := by
  have hloop := segments_confined (P := P) hv (P.get 0 Elf.pHdrN).toNat 0
  have hhdr : P.Confined (P.access Elf.pHdr) := (confined_access _).mpr (h58.trans' (by decide))
  have hentry : P.Confined (P.access Elf.entry) := (confined_access _).mpr (h58.trans' (by decide))
  simp only [Nat.zero_add, h58, true_and] at hloop
  rw [List.forall_mem_append, List.forall_mem_append, hloop]
  split_ifs <;> simp [hhdr, hentry]

/-- `load_elf` stays in the image and in the blocks for exactly those images that fit. -/
theorem confined_iff_fits (hv : env.Valid) :
    (∀ a ∈ P.loadElf env, P.Confined a) ↔ P.Fits env := by
  have hcheck := check_confined (P := P) Elf.checks
  unfold Fits
  rw [← check_ok, ← hcheck]
  by_cases hm : (P.check Elf.checks).2 = true
  · by_cases hgo : P.tableRejected = false ∧ env.newProcess = true
    · have hload : P.loadElf env = (P.check Elf.checks).1 ++
          [P.access Elf.pHdr, P.access Elf.pHdrN, P.access Elf.pHdrEntrySize] ++
          ([P.access Elf.pHdr] ++ (P.segments env (P.get 0 Elf.pHdrN).toNat 0).1 ++
          (if (P.segments env (P.get 0 Elf.pHdrN).toNat 0).2 then [P.access Elf.entry] else [])) := by
        unfold loadElf
        simp only [hm, hgo, Bool.not_true, Bool.false_eq_true, if_false, List.append_assoc]
        split_ifs <;> simp
      rw [hload, List.forall_mem_append, List.forall_mem_append, table_confined, and_assoc]
      simp only [hm, hgo, true_imp_iff]
      exact and_congr_right fun _ => and_congr_right fun h58 => loop_confined hv h58
    · have hload : P.loadElf env = (P.check Elf.checks).1 ++
          [P.access Elf.pHdr, P.access Elf.pHdrN, P.access Elf.pHdrEntrySize] := by
        unfold loadElf
        simp only [hm, Bool.not_true, Bool.false_eq_true, if_false]
        by_cases ht : P.tableRejected
        · rw [if_pos ht]
        · have hp : env.newProcess = false := by simpa [ht] using hgo
          simp [ht, hp]
      have hno : (P.tableRejected = false → env.newProcess = true →
          ∀ i < (P.get 0 Elf.pHdrN).toNat, (∀ j < i, P.GoesOn env j) → P.SegmentFits env i) :=
        fun ht hp => absurd ⟨ht, hp⟩ hgo
      rw [hload, List.forall_mem_append, table_confined]
      simp only [hm, true_imp_iff]
      exact and_congr_right fun _ => (and_iff_left hno).symm
  · have hload : P.loadElf env = (P.check Elf.checks).1 := by
      unfold loadElf
      simp only [Bool.not_eq_true] at hm
      simp [hm]
    rw [hload]
    simp only [hm, Bool.false_eq_true, false_imp_iff, and_true]

/-- A valid header, one program header and 16 bytes for a segment of 0x1000 bytes at 0x400008. -/
def offsetImage : Image where
  byte a :=
    let header : List UInt8 := [0x7f, 0x45, 0x4c, 0x46, 2, 1, 1, 0] ++ List.replicate 10 0 ++ [0x3e] ++
      List.replicate 13 0 ++ [0x40] ++ List.replicate 21 0 ++ [56, 0, 1] ++ List.replicate 7 0
    let pHeader : List UInt8 := [1, 0, 0, 0, 4, 0, 0, 0, 120, 0, 0, 0, 0, 0, 0, 0, 8, 0, 0x40] ++
      List.replicate 13 0 ++ [16] ++ List.replicate 8 0 ++ [0x10] ++ List.replicate 14 0
    (header ++ pHeader ++ List.replicate 16 0x90).getD (a - 0x100000).toNat 0
  program := 0x100000
  len := 136
  uid := 1
  fits := by decide

/-- The segment gets a page. -/
def offsetEnv : Env where
  newProcess := true
  allocz := fun i n => if i = 0 ∧ n = 0x1000 then some 0x200000 else none
  mapAt := fun _ _ => true

lemma offsetEnv_allocz {i : ℕ} {n mem : UInt64} (h : offsetEnv.allocz i n = some mem) :
    i = 0 ∧ n = 0x1000 ∧ mem = 0x200000 := by
  simp only [offsetEnv, Option.ite_none_right_eq_some, Option.some_inj] at h
  exact ⟨h.1.1, h.1.2, h.2.symm⟩

lemma offsetEnv_valid : offsetEnv.Valid := by
  intro i n mem h
  obtain ⟨rfl, rfl, rfl⟩ := offsetEnv_allocz h
  decide +kernel

/-- The 16 bytes are copied into the page behind the offset of the segment. -/
theorem confined_iff_fits_sample : offsetEnv.Valid ∧
    .write 0x200000 4096 0x200008 16 ∈ offsetImage.loadElf offsetEnv ∧
    ((∀ a ∈ offsetImage.loadElf offsetEnv, offsetImage.Confined a) ↔ offsetImage.Fits offsetEnv) :=
  ⟨offsetEnv_valid, by decide +kernel, confined_iff_fits offsetEnv_valid⟩

/-- A file of 64 bytes, a valid header, whose only program header would come right after it. -/
def sampleImage : Image where
  byte a :=
    let bytes : List UInt8 := [0x7f, 0x45, 0x4c, 0x46, 2, 1, 1, 0] ++ List.replicate 10 0 ++ [0x3e] ++
      List.replicate 13 0 ++ [0x40] ++ List.replicate 21 0 ++ [56, 0, 1]
    bytes.getD (a - 0x100000).toNat 0
  program := 0x100000
  len := 64
  fits := by decide

def sampleEnv : Env where
  newProcess := true
  allocz := fun _ _ => none
  mapAt := fun _ _ => true

lemma sampleEnv_valid : sampleEnv.Valid := nofun

theorem not_confined_sample : sampleEnv.Valid ∧
    .read (sampleImage.program + sampleImage.len) 56 ∈ sampleImage.loadElf sampleEnv ∧
    ¬ ∀ a ∈ sampleImage.loadElf sampleEnv, sampleImage.Confined a := by
  have hmem : .read (sampleImage.program + sampleImage.len) 56 ∈
      sampleImage.loadElf sampleEnv := by
    decide +kernel
  refine ⟨sampleEnv_valid, hmem, fun h => ?_⟩
  have := h _ hmem 0 (by decide)
  revert this
  decide

end Image
end EpochKernel.Sched
