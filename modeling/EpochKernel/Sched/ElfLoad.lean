import EpochKernel.Library.Bytes
import EpochKernel.Mem.AddrSpace
import EpochKernel.Sched.Elf

/-! What `process::load_elf` leaves at the addresses of the segments. -/
namespace EpochKernel.Sched
open EpochKernel.Util EpochKernel.Mem EpochKernel.Library.Bytes

/-- Besides: the bytes that the block for the program header `i` holds when `mem::alloc` hands it out,
and whether `new_thread` succeeds, with the bytes at the addresses of the stack that it maps.
`find_address` places the stack by the order of the zones in their list, which `insert_virt_zone` does
not keep, so that it may lie over a segment. -/
structure Loader extends Env where
  stale : ℕ → Memory
  newThread : Option (UInt64 → Option UInt8)

/-- Memory, and where the page tables of the new process lead an address to. -/
structure Space where
  byte : Memory
  pages : UInt64 → Option UInt64

/-- `load_elf` may end without a process (it returns `NULL`, or does not come back from a constructor
that has no object), with one, or write to memory that is not its own. -/
inductive Outcome (α : Type*)
  | null
  | wild
  | loaded (a : α)

namespace Outcome
variable {α β : Type*}

def bind (f : α → Outcome β) : Outcome α → Outcome β
  | null => null
  | wild => wild
  | loaded a => f a

end Outcome

namespace Space

/-- What the address holds, if it is mapped. -/
def view (s : Space) (v : UInt64) : Option UInt8 := (s.pages v).map s.byte

/-- The block at `mem` is handed out with the contents `stale`. -/
def handOut (s : Space) (mem : UInt64) (size : ℕ) (stale : Memory) : Memory :=
  fun a => if Within mem size a then stale a else s.byte a

/-- The addresses from `virt` on that `map_at` maps for `n` bytes, page by page. -/
def Zone (virt n v : UInt64) : Prop :=
  Within (alignDown virt pageSize) (alignUp n pageSize).toNat v

instance (virt n v : UInt64) : Decidable (Zone virt n v) := inferInstanceAs (Decidable (Within ..))

/-- `map_at`, as far as the page tables go. -/
def mapAt (pages : UInt64 → Option UInt64) (phys virt n v : UInt64) : Option UInt64 :=
  if Zone virt n v then some (alignDown phys pageSize + (v - alignDown virt pageSize)) else pages v

end Space

namespace Image
variable (P : Image)

/-! The fields of the program header `i`. -/
def IsLoad (i : ℕ) : Prop := P.get (P.pHeader i) Elf.type = 1
def pOffset (i : ℕ) : UInt64 := P.get (P.pHeader i) Elf.pOffset
def pVaddr (i : ℕ) : UInt64 := P.get (P.pHeader i) Elf.pVaddr
def pFilesz (i : ℕ) : UInt64 := P.get (P.pHeader i) Elf.pFilesz
def pMemsz (i : ℕ) : UInt64 := P.get (P.pHeader i) Elf.pMemsz
def pHdrN : ℕ := (P.get 0 Elf.pHdrN).toNat

instance (i : ℕ) : Decidable (P.IsLoad i) := inferInstanceAs (Decidable (_ = _))

/-- The offset of the segment in its first page. -/
def inPage (i : ℕ) : UInt64 := P.pVaddr i % pageSize

/-- `allocz` clears `p_memsz` bytes and `memcpy` writes `p_filesz` bytes behind the offset in the
page: both stay in the block. -/
def Stays (i : ℕ) : Prop :=
  (P.pMemsz i).toNat ≤ blockSize (P.pMemsz i) ∧
    (P.pFilesz i = 0 ∨ (P.inPage i).toNat + (P.pFilesz i).toNat ≤ blockSize (P.pMemsz i))

instance (i : ℕ) : Decidable (P.Stays i) := inferInstanceAs (Decidable (_ ∧ _))

/-- Memory after `allocz` and `memcpy`. -/
def segmentBytes (env : Loader) (i : ℕ) (mem : UInt64) (s : Space) : Memory :=
  let byte := s.handOut mem (blockSize (P.pMemsz i)) (env.stale i)
  let byte := fill byte mem 0 (P.pMemsz i).toNat
  copy byte (mem + P.inPage i) (P.program + P.pOffset i) (P.pFilesz i).toNat

/-- The body of the loop for `p_hdrs[i]`. -/
def loadSegment (env : Loader) (i : ℕ) (s : Space) : Outcome Space :=
  if ¬ P.IsLoad i then .loaded s
  else if P.pOffset i + P.pFilesz i > P.len then .null
  else
    match env.allocz i (P.pMemsz i) with
    | none => .null
    | some mem =>
      if P.Stays i then
        let byte := P.segmentBytes env i mem s
        if env.mapAt i (P.flags i) then
          .loaded ⟨byte, Space.mapAt s.pages mem (P.pVaddr i) (P.pMemsz i)⟩
        else .null
      else .wild

/-- The loop over the program headers, for `k` headers from `i` on. -/
def loadSegments (env : Loader) : ℕ → ℕ → Space → Outcome Space
  | 0, _, s => .loaded s
  | k + 1, i, s => (P.loadSegment env i s).bind (loadSegments env k (i + 1))

/-- `load_elf`, with what the addresses of the new process hold in the end. The stack of its first
thread is mapped last, over what is mapped there. -/
def load (env : Loader) : Outcome (UInt64 → Option UInt8) :=
  if ¬ (P.check Elf.checks).2 then .null
  else if P.tableRejected then .null
  else if ¬ env.newProcess then .null
  else (P.loadSegments env P.pHdrN 0 ⟨P.byte, fun _ => none⟩).bind fun s =>
    match env.newThread with
    | none => .null
    | some stack => .loaded fun v => stack v <|> s.view v

/-- The address is on one of the pages of the segment. -/
def OnPages (i : ℕ) (v : UInt64) : Prop :=
  ∃ x < (P.pMemsz i).toNat, v.toNat / 4096 = ((P.pVaddr i).toNat + x) / 4096

/-- Headers and segments in bounds, `p_filesz ≤ p_memsz`, and no page in two segments. -/
structure Regular : Prop where
  header : 64 ≤ P.len.toNat
  table : (P.get 0 Elf.pHdr).toNat + P.pHdrN * Elf.pHeaderSize ≤ P.len.toNat
  file : ∀ i < P.pHdrN, P.IsLoad i → (P.pOffset i).toNat + (P.pFilesz i).toNat ≤ P.len.toNat
  filesz : ∀ i < P.pHdrN, P.IsLoad i → (P.pFilesz i).toNat ≤ (P.pMemsz i).toNat
  memsz : ∀ i < P.pHdrN, P.IsLoad i → (P.pVaddr i).toNat + (P.pMemsz i).toNat ≤ 2 ^ 64
  apart : ∀ i < P.pHdrN, ∀ j < P.pHdrN, i ≠ j → P.IsLoad i → P.IsLoad j →
    ∀ v, ¬ (P.OnPages i v ∧ P.OnPages j v)

/-- `allocz` returns `NULL` for 0 bytes, and else blocks of whole pages, apart from each other and
from the image. -/
structure Provides (env : Loader) : Prop where
  zero : ∀ i, env.allocz i 0 = none
  fits : env.Valid
  aligned : ∀ i n mem, env.allocz i n = some mem → 4096 ∣ mem.toNat
  apart : ∀ i j m n mem mem', i ≠ j → env.allocz i m = some mem → env.allocz j n = some mem' →
    Apart mem (blockSize m) mem' (blockSize n)
  image : ∀ i n mem, env.allocz i n = some mem → Apart P.program P.len.toNat mem (blockSize n)

/-- The header is accepted and there is a process object. -/
def Accepted (env : Loader) : Prop :=
  (P.check Elf.checks).2 = true ∧ P.tableRejected = false ∧ env.newProcess = true

/-- The segment `i` gets a block. -/
def Granted (env : Env) (i : ℕ) : Prop :=
  P.IsLoad i ∧ P.pOffset i + P.pFilesz i ≤ P.len ∧ env.allocz i (P.pMemsz i) ≠ none

instance (env : Env) (i : ℕ) : Decidable (P.Granted env i) :=
  inferInstanceAs (Decidable (_ ∧ _ ∧ _))

/-- The byte that belongs at `p_vaddr + x`. -/
def expected (i x : ℕ) : UInt8 :=
  if x < (P.pFilesz i).toNat then P.byte (P.program + P.pOffset i + UInt64.ofNat x) else 0

/-- If there is a process, every byte of its segments is in place. -/
def Faithful : Outcome (UInt64 → Option UInt8) → Prop
  | .null => True
  | .wild => False
  | .loaded view => ∀ i < P.pHdrN, P.IsLoad i → ∀ x < (P.pMemsz i).toNat,
      view (P.pVaddr i + UInt64.ofNat x) = some (P.expected i x)

/-- The bytes of the segment `i` lie on the pages that are mapped for it, and those that neither
`allocz` clears nor `memcpy` writes were zero before. Where the stack of the first thread is mapped, it
holds the right bytes. -/
def Complete (env : Loader) (stack : UInt64 → Option UInt8) (i : ℕ) : Prop :=
  ∀ mem, env.allocz i (P.pMemsz i) = some mem → ∀ x < (P.pMemsz i).toNat,
    let y := (P.inPage i).toNat + x
    if stack (P.pVaddr i + UInt64.ofNat x) = none then
      y < (alignUp (P.pMemsz i) pageSize).toNat ∧
        ((P.pFilesz i).toNat ≤ x → (P.pMemsz i).toNat ≤ y →
          env.stale i (mem + UInt64.ofNat y) = 0)
    else stack (P.pVaddr i + UInt64.ofNat x) = some (P.expected i x)

/-- The byte `y` of the block of the segment `i`. -/
def content (env : Loader) (i : ℕ) (mem : UInt64) (y : ℕ) : UInt8 :=
  if (P.inPage i).toNat ≤ y ∧ y < (P.inPage i).toNat + (P.pFilesz i).toNat then
    P.byte (P.program + P.pOffset i + UInt64.ofNat (y - (P.inPage i).toNat))
  else if y < (P.pMemsz i).toNat then 0
  else env.stale i (mem + UInt64.ofNat y)

/-- What holds once the program headers before `i` have been gone through. -/
structure Built (env : Loader) (i : ℕ) (s : Space) : Prop where
  image : ∀ a, Within P.program P.len.toNat a → s.byte a = P.byte a
  segment : ∀ j < i, P.IsLoad j → ∃ mem, env.allocz j (P.pMemsz j) = some mem ∧ P.Stays j ∧
    (∀ v, Space.Zone (P.pVaddr j) (P.pMemsz j) v →
      s.pages v = some (mem + (v - alignDown (P.pVaddr j) pageSize))) ∧
    ∀ y < blockSize (P.pMemsz j), s.byte (mem + UInt64.ofNat y) = P.content env j mem y
  unmapped : ∀ v, (∀ j < i, P.IsLoad j → ¬ Space.Zone (P.pVaddr j) (P.pMemsz j) v) →
    s.pages v = none

variable {P} {env : Loader} {i k : ℕ} {s : Space} {mem : UInt64}

lemma blockSize_dvd (n : UInt64) : 4096 ∣ blockSize n :=
  (Nat.pow_dvd_pow 2 (le_max_left 12 _) : 2 ^ 12 ∣ _)

lemma inPage_toNat (i : ℕ) : (P.inPage i).toNat = (P.pVaddr i).toNat % 4096 := by
  rw [inPage, UInt64.toNat_mod]
  rfl

lemma pVaddr_split (i : ℕ) :
    (alignDown (P.pVaddr i) pageSize).toNat + (P.inPage i).toNat = (P.pVaddr i).toNat := by
  have hdown := alignDown_toNat (x := P.pVaddr i) (a := pageSize) (k := 12) rfl
  rw [inPage_toNat, hdown]
  omega

/-- A block that holds `p_memsz` bytes leaves room in the address space to round them up. -/
lemma Provides.size (h : P.Provides env) (ha : env.allocz i (P.pMemsz i) = some mem)
    (hs : P.Stays i) :
    0 < (P.pMemsz i).toNat ∧ blockSize (P.pMemsz i) + 4096 ≤ 2 ^ 64 ∧
      (alignUp (P.pMemsz i) pageSize).toNat = ((P.pMemsz i).toNat + 4095) / 4096 * 4096 ∧
      (alignUp (P.pMemsz i) pageSize).toNat ≤ blockSize (P.pMemsz i) := by
  obtain ⟨h0, hfit⟩ := h.fits i _ mem ha
  have hmem : 0 < mem.toNat := Nat.pos_of_ne_zero fun hz => h0 (UInt64.toNat_inj.mp hz)
  have hdvd := h.aligned i _ mem ha
  have hblock := blockSize_dvd (P.pMemsz i)
  have hle := hs.1
  have hpos : 0 < (P.pMemsz i).toNat := by
    refine Nat.pos_of_ne_zero fun hz => ?_
    have hz : P.pMemsz i = 0 := UInt64.toNat_inj.mp hz
    rw [hz, h.zero] at ha
    cases ha
  have hroom : blockSize (P.pMemsz i) + 4096 ≤ 2 ^ 64 := by omega
  have hup : (alignUp (P.pMemsz i) pageSize).toNat = ((P.pMemsz i).toNat + 4095) / 4096 * 4096 :=
    alignUp_toNat (k := 12) rfl (by omega)
  refine ⟨hpos, hroom, hup, ?_⟩
  rw [hup]
  omega

/-- A page that is mapped for a segment holds a byte of it. -/
lemma onPages_of_zone (hr : P.Regular) (h : P.Provides env) (hi : i < P.pHdrN) (hl : P.IsLoad i)
    (ha : env.allocz i (P.pMemsz i) = some mem) (hs : P.Stays i) {v : UInt64}
    (hv : Space.Zone (P.pVaddr i) (P.pMemsz i) v) : P.OnPages i v := by
  obtain ⟨hpos, hroom, hup, -⟩ := h.size ha hs
  have hend := hr.memsz i hi hl
  have hsplit := pVaddr_split (P := P) i
  have hp := inPage_toNat (P := P) i
  have hdvd : 2 ^ 12 ∣ (alignDown (P.pVaddr i) pageSize).toNat := dvd_alignDown rfl
  unfold Space.Zone Within at hv
  have hvn : v.toNat = (alignDown (P.pVaddr i) pageSize).toNat +
      (v - alignDown (P.pVaddr i) pageSize).toNat := by
    have hlt := v.toNat_lt
    rw [UInt64.toNat_sub] at hv ⊢
    omega
  set d := (v - alignDown (P.pVaddr i) pageSize).toNat
  refine ⟨d / 4096 * 4096 - (P.inPage i).toNat, by omega, ?_⟩
  rw [hvn]
  omega

/-- The bytes that `memcpy` writes are in the block. -/
lemma within_block_of_copied (hroom : blockSize (P.pMemsz i) ≤ 2 ^ 64) (hs : P.Stays i) {a : UInt64}
    (ha : Within (mem + P.inPage i) (P.pFilesz i).toNat a) :
    Within mem (blockSize (P.pMemsz i)) a ∧
      (a - mem).toNat = (P.inPage i).toNat + (a - (mem + P.inPage i)).toNat := by
  refine within_of_within_add (hs.2.resolve_left fun hz => ?_) hroom ha
  rw [hz] at ha
  exact Nat.not_lt_zero _ ha

/-- The bytes of the file are in the image. -/
lemma apart_file (hr : P.Regular) (h : P.Provides env) (hi : i < P.pHdrN) (hl : P.IsLoad i)
    (ha : env.allocz i (P.pMemsz i) = some mem) (hroom : blockSize (P.pMemsz i) ≤ 2 ^ 64)
    (hs : P.Stays i) : Apart (P.program + P.pOffset i) (P.pFilesz i).toNat (mem + P.inPage i)
      (P.pFilesz i).toNat := by
  intro a hsrc hdst
  refine h.image i _ mem ha a ?_ (within_block_of_copied hroom hs hdst).1
  exact (within_of_within_add (hr.file i hi hl) P.len.toNat_lt.le hsrc).1

lemma segmentBytes_of_not_within (hr : P.Regular) (h : P.Provides env) (hi : i < P.pHdrN)
    (hl : P.IsLoad i) (ha : env.allocz i (P.pMemsz i) = some mem) (hs : P.Stays i) {a : UInt64}
    (hn : ¬ Within mem (blockSize (P.pMemsz i)) a) : P.segmentBytes env i mem s a = s.byte a := by
  obtain ⟨-, hroom, -, -⟩ := h.size ha hs
  have hcopied : ¬ Within (mem + P.inPage i) (P.pFilesz i).toNat a := fun hw =>
    hn (within_block_of_copied (by omega) hs hw).1
  have hcleared : ¬ Within mem (P.pMemsz i).toNat a := fun hw => hn (hw.trans_le hs.1)
  unfold segmentBytes Space.handOut
  rw [copy_apply (P.pFilesz i).toNat_lt.le (apart_file hr h hi hl ha (by omega) hs),
    if_neg hcopied, fill_apply (P.pMemsz i).toNat_lt.le, if_neg hcleared, if_neg hn]

/-- The block of a segment. -/
lemma segmentBytes_block (hr : P.Regular) (h : P.Provides env) (hi : i < P.pHdrN) (hl : P.IsLoad i)
    (ha : env.allocz i (P.pMemsz i) = some mem) (hs : P.Stays i)
    (himage : ∀ a, Within P.program P.len.toNat a → s.byte a = P.byte a) {y : ℕ}
    (hy : y < blockSize (P.pMemsz i)) :
    P.segmentBytes env i mem s (mem + UInt64.ofNat y) = P.content env i mem y := by
  obtain ⟨-, hroom, -, -⟩ := h.size ha hs
  have hval : (UInt64.ofNat y).toNat = y := by
    rw [UInt64.toNat_ofNat']
    omega
  have hblock : Within mem (blockSize (P.pMemsz i)) (mem + UInt64.ofNat y) := by
    rw [within_add, hval]
    exact hy
  have hcleared : Within mem (P.pMemsz i).toNat (mem + UInt64.ofNat y) ↔
      y < (P.pMemsz i).toNat := by
    rw [within_add, hval]
  have hcopied : Within (mem + P.inPage i) (P.pFilesz i).toNat (mem + UInt64.ofNat y) ↔
      (P.inPage i).toNat ≤ y ∧ y < (P.inPage i).toNat + (P.pFilesz i).toNat := by
    have hsub : mem + UInt64.ofNat y - (mem + P.inPage i) = UInt64.ofNat y - P.inPage i := by grind
    have hz : P.pFilesz i = 0 → (P.pFilesz i).toNat = 0 := fun hz => by rw [hz]; rfl
    have hle := hs.2.imp_left hz
    unfold Within
    rw [hsub, UInt64.toNat_sub, hval]
    omega
  have hfile := apart_file hr h hi hl ha (by omega) hs
  unfold segmentBytes content
  rw [copy_apply (P.pFilesz i).toNat_lt.le hfile]
  by_cases hc : (P.inPage i).toNat ≤ y ∧ y < (P.inPage i).toNat + (P.pFilesz i).toNat
  · have hsrc : P.program + P.pOffset i + (mem + UInt64.ofNat y - (mem + P.inPage i)) =
        P.program + P.pOffset i + UInt64.ofNat (y - (P.inPage i).toNat) := by
      rw [UInt64.ofNat_sub hc.1, UInt64.ofNat_toNat]
      grind
    have hin : Within P.program P.len.toNat
        (P.program + P.pOffset i + UInt64.ofNat (y - (P.inPage i).toNat)) := by
      refine (within_of_within_add (hr.file i hi hl) P.len.toNat_lt.le (within_add.mpr ?_)).1
      rw [UInt64.toNat_ofNat']
      omega
    have hout := h.image i _ mem ha _ hin
    have hout' := fun hw : Within mem (P.pMemsz i).toNat _ => hout (hw.trans_le hs.1)
    rw [if_pos (hcopied.mpr hc), if_pos hc, hsrc, fill_apply (P.pMemsz i).toNat_lt.le, if_neg hout',
      Space.handOut, if_neg hout, himage _ hin]
  · rw [if_neg (mt hcopied.mp hc), if_neg hc, fill_apply (P.pMemsz i).toNat_lt.le]
    simp only [hcleared, Space.handOut, if_pos hblock]

lemma Built.skip (hb : P.Built env i s) (hl : ¬ P.IsLoad i) : P.Built env (i + 1) s where
  image := hb.image
  segment j hj hlj := hb.segment j (by
    have : j ≠ i := fun h => hl (h ▸ hlj)
    omega) hlj
  unmapped v hv := hb.unmapped v fun j hj => hv j (by omega)

/-- One more segment. Its block and its pages are apart from those of the segments before. -/
lemma Built.load (hr : P.Regular) (h : P.Provides env) (hb : P.Built env i s) (hi : i < P.pHdrN)
    (hl : P.IsLoad i) (ha : env.allocz i (P.pMemsz i) = some mem) (hs : P.Stays i) :
    P.Built env (i + 1) ⟨P.segmentBytes env i mem s,
      Space.mapAt s.pages mem (P.pVaddr i) (P.pMemsz i)⟩ := by
  have hdown : alignDown mem pageSize = mem := by
    have hval := alignDown_toNat (x := mem) (a := pageSize) (k := 12) rfl
    have hdvd := h.aligned i _ mem ha
    apply UInt64.toNat_inj.mp
    omega
  constructor
  case image =>
    intro a hw
    dsimp only
    rw [segmentBytes_of_not_within hr h hi hl ha hs (h.image i _ mem ha a hw)]
    exact hb.image a hw
  case segment =>
    intro j hj hlj
    rcases Nat.lt_succ_iff_lt_or_eq.mp hj with hj | rfl
    · obtain ⟨mem', ha', hs', hpages, hbytes⟩ := hb.segment j hj hlj
      refine ⟨mem', ha', hs', fun v hv => ?_, fun y hy => ?_⟩
      · have hn : ¬ Space.Zone (P.pVaddr i) (P.pMemsz i) v := fun hv' =>
          hr.apart i hi j (by omega) (by omega) hl hlj v
            ⟨onPages_of_zone hr h hi hl ha hs hv', onPages_of_zone hr h (by omega) hlj ha' hs' hv⟩
        dsimp only
        rw [Space.mapAt, if_neg hn]
        exact hpages v hv
      · have hn : ¬ Within mem (blockSize (P.pMemsz i)) (mem' + UInt64.ofNat y) := by
          refine h.apart j i _ _ mem' mem (by omega) ha' ha _ (within_add.mpr ?_)
          rw [UInt64.toNat_ofNat']
          omega
        dsimp only
        rw [segmentBytes_of_not_within hr h hi hl ha hs hn]
        exact hbytes y hy
    · refine ⟨mem, ha, hs, fun v hv => ?_, fun y hy => ?_⟩
      · dsimp only
        rw [Space.mapAt, if_pos hv, hdown]
      · dsimp only
        rw [segmentBytes_block hr h hi hl ha hs hb.image hy]
  case unmapped =>
    intro v hv
    dsimp only
    rw [Space.mapAt, if_neg (hv i (Nat.lt_succ_self i) hl)]
    exact hb.unmapped v fun j hj => hv j (by omega)

/-- The pages at 0x7000, 0x3000 and 0x9000 are mapped in this order for three segments, and then the
stack is allocated: it begins at 0x8000 and covers the third. -/
example : (do
    let L := ListOps.linked fun _ => ⟨none, none⟩
    let s ← AddrSpace.init L 0x100 (fun _ => AddrSpace.kernelZone) kernelVma
    let s ← s.call L .plenty (.mapAt (some 0x200) 0x200000 0x7000 0x1000 4)
    let s ← s.call L .plenty (.mapAt (some 0x300) 0x210000 0x3000 0x1000 4)
    let s ← s.call L .plenty (.mapAt (some 0x400) 0x220000 0x9000 0x1000 4)
    (s.alloc L .plenty (some 0x500) 0x40000 6).map (·.1)) = some 0x8000 := by decide +kernel

end Image
end EpochKernel.Sched
