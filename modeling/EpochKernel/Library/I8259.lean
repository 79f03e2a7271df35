import EpochKernel.Library.Run

/-! Two 8259A interrupt controllers, one cascaded behind the other: the command words that set them up,
the requests, and what is in service. A command word that is not described here is refused. -/
namespace EpochKernel.Library.I8259

/-- The command word that the data port takes next. -/
inductive Word
  | icw2
  | icw3
  | icw4
  | ocw1
  deriving DecidableEq

/-- A controller. The line 0 has the highest priority. -/
structure Chip where
  icw1 : UInt8
  base : UInt8
  cascade : UInt8
  mode : UInt8
  next : Word
  mask : UInt8
  requested : Fin 8 → Bool
  inService : Fin 8 → Bool

def bit (b : UInt8) (i : Fin 8) : Bool := b.toNat.testBit i

namespace Chip

/-- A non-specific end of interrupt is for the line of the highest priority that is in service. -/
def endOfInterrupt (c : Chip) : Chip :=
  match Fin.find? c.inService with
  | none => c
  | some i => { c with inService := Function.update c.inService i false }

/-- A write to the command port: ICW1 or a non-specific end of interrupt. -/
def command (c : Chip) (v : UInt8) : Option Chip :=
  if bit v 4 then
    some { c with icw1 := v, mode := 0, next := .icw2, mask := 0, requested := fun _ => false }
  else if v = 0x20 then some c.endOfInterrupt
  else none

/-- What follows ICW3, or ICW2 of a controller that is not cascaded. -/
def afterCascade (c : Chip) : Word := if bit c.icw1 0 then .icw4 else .ocw1

/-- A write to the data port. -/
def data (c : Chip) (v : UInt8) : Chip :=
  match c.next with
  | .icw2 => { c with base := v &&& 0xf8, next := if bit c.icw1 1 then c.afterCascade else .icw3 }
  | .icw3 => { c with cascade := v, next := c.afterCascade }
  | .icw4 => { c with mode := v, next := .ocw1 }
  | .ocw1 => { c with mask := v }

/-- The line that asks for an interrupt, if those of `inputs` are up besides the requests: it is not
masked, and no line of its priority or a higher one is in service. -/
def wants (c : Chip) (inputs : Fin 8 → Bool) : Option (Fin 8) :=
  if c.next = .ocw1 then
    Fin.find? fun i => (c.requested i || inputs i) && !bit c.mask i &&
      decide (∀ j ≤ i, c.inService j = false)
  else none

/-- The interrupt on a line is acknowledged; with automatic ends of interrupt nothing is in service. -/
def accept (c : Chip) (i : Fin 8) : Chip :=
  { c with
    requested := Function.update c.requested i false
    inService := Function.update c.inService i (!bit c.mode 1) }

/-- The vector of a line in 8086 mode. -/
def vector (c : Chip) (i : Fin 8) : Option UInt8 :=
  if bit c.mode 0 then some (c.base ||| UInt8.ofNat i) else none

def pending (c : Chip) : ℕ := (Finset.univ.filter fun i => c.requested i = true).card

/-- The number of lines in service. -/
def serving (c : Chip) : ℕ := (Finset.univ.filter fun i => c.inService i = true).card

end Chip

/-- A line of one of the controllers. -/
inductive Line
  | master (i : Fin 8)
  | slave (i : Fin 8)
  deriving DecidableEq

structure Pair where
  master : Chip
  slave : Chip

namespace Pair

/-- The lines of the master that the slave pulls. -/
def inputs (p : Pair) (i : Fin 8) : Bool := bit p.master.cascade i && (p.slave.wants fun _ => false).isSome

/-- A device pulls its line. -/
def raise (p : Pair) : Line → Option Pair
  | .master i =>
    if bit p.master.cascade i then none
    else some { p with master := { p.master with requested := Function.update p.master.requested i true } }
  | .slave i =>
    some { p with slave := { p.slave with requested := Function.update p.slave.requested i true } }

/-- The processor acknowledges an interrupt: the line, its vector and the controllers behind it. -/
def acknowledge (p : Pair) : Option (Line × UInt8 × Pair) :=
  (p.master.wants p.inputs).bind fun i =>
    if bit p.master.cascade i then
      if p.slave.cascade = UInt8.ofNat i then
        (p.slave.wants fun _ => false).bind fun j =>
          (p.slave.vector j).map (.slave j, ·, ⟨p.master.accept i, p.slave.accept j⟩)
      else none
    else (p.master.vector i).map (.master i, ·, { p with master := p.master.accept i })

def pending (p : Pair) : ℕ := p.master.pending + p.slave.pending

end Pair

namespace Chip

/-- A controller that is set up for vectors in 8086 mode, without automatic ends of interrupt. -/
structure SetUp (base cascade mask : UInt8) (c : Chip) : Prop where
  base_eq : c.base = base
  cascade_eq : c.cascade = cascade
  mode_eq : c.mode = 1
  next_eq : c.next = .ocw1
  mask_eq : c.mask = mask

variable {c : Chip} {i : Fin 8} {inputs : Fin 8 → Bool} {base cascade mask : UInt8}

lemma SetUp.accept (h : c.SetUp base cascade mask) (i : Fin 8) : (c.accept i).SetUp base cascade mask :=
  ⟨h.base_eq, h.cascade_eq, h.mode_eq, h.next_eq, h.mask_eq⟩

lemma SetUp.request (h : c.SetUp base cascade mask) (requested : Fin 8 → Bool) :
    ({ c with requested } : Chip).SetUp base cascade mask :=
  ⟨h.base_eq, h.cascade_eq, h.mode_eq, h.next_eq, h.mask_eq⟩

lemma SetUp.vector (h : c.SetUp base cascade mask) (i : Fin 8) :
    c.vector i = some (base ||| UInt8.ofNat i) := by
  rw [Chip.vector, h.mode_eq, h.base_eq, if_pos (by decide : bit 1 0 = true)]

lemma SetUp.automatic (h : c.SetUp base cascade mask) : bit c.mode 1 = false := by
  rw [h.mode_eq]
  decide

lemma endOfInterrupt_eq (c : Chip) : ∃ inService, c.endOfInterrupt = { c with inService } := by
  rw [endOfInterrupt]
  cases Fin.find? c.inService with
  | none => exact ⟨c.inService, rfl⟩
  | some i => exact ⟨_, rfl⟩

lemma SetUp.endOfInterrupt (h : c.SetUp base cascade mask) : c.endOfInterrupt.SetUp base cascade mask := by
  obtain ⟨inService, heq⟩ := endOfInterrupt_eq c
  rw [heq]
  exact ⟨h.base_eq, h.cascade_eq, h.mode_eq, h.next_eq, h.mask_eq⟩

lemma requested_endOfInterrupt : c.endOfInterrupt.requested = c.requested := by
  obtain ⟨inService, heq⟩ := endOfInterrupt_eq c
  rw [heq]

lemma wants_eq_some (h : c.wants inputs = some i) :
    (c.requested i = true ∨ inputs i = true) ∧ bit c.mask i = false ∧
      ∀ j ≤ i, c.inService j = false := by
  rw [wants, Option.ite_none_right_eq_some] at h
  have hi := (Fin.find?_eq_some_iff.mp h.2).1
  simpa [and_assoc] using hi

/-- A controller that is set up asks for an interrupt when a line above all those in service is up. -/
lemma wants_isSome (hnext : c.next = .ocw1) (hup : c.requested i = true ∨ inputs i = true)
    (hmask : bit c.mask i = false) (hidle : ∀ j ≤ i, c.inService j = false) :
    (c.wants inputs).isSome = true := by
  rw [wants, if_pos hnext, Fin.isSome_find?_iff]
  refine ⟨i, ?_⟩
  simpa [hmask, hup] using hidle

lemma pending_accept (h : c.requested i = true) : (c.accept i).pending + 1 = c.pending := by
  have hfilter : (Finset.univ.filter fun j => (c.accept i).requested j = true) =
      (Finset.univ.filter fun j => c.requested j = true).erase i := by
    ext j
    rw [Finset.mem_erase, Finset.mem_filter, Finset.mem_filter, accept]
    by_cases hj : j = i
    · simp [hj]
    · simp [hj]
  rw [pending, hfilter, Finset.card_erase_add_one (by simp [h])]
  rfl

lemma serving_eq_zero : c.serving = 0 ↔ ∀ i, c.inService i = false := by
  rw [serving, Finset.card_eq_zero, Finset.filter_eq_empty_iff]
  simp

/-- An acknowledged interrupt is in service. -/
lemma serving_accept (hmode : bit c.mode 1 = false) (h : c.inService i = false) :
    (c.accept i).serving = c.serving + 1 := by
  have hfilter : (Finset.univ.filter fun j => (c.accept i).inService j = true) =
      insert i (Finset.univ.filter fun j => c.inService j = true) := by
    ext j
    rw [Finset.mem_insert, Finset.mem_filter, Finset.mem_filter, accept, hmode]
    by_cases hj : j = i
    · simp [hj]
    · simp [hj]
  rw [serving, hfilter, Finset.card_insert_of_notMem (by simp [h])]
  rfl

/-- An end of interrupt is for one of those in service, whichever it was meant for. -/
lemma serving_endOfInterrupt : c.endOfInterrupt.serving = c.serving - 1 := by
  rw [endOfInterrupt]
  cases hfind : Fin.find? c.inService with
  | none =>
    have hidle : c.serving = 0 := serving_eq_zero.mpr fun i =>
      Bool.eq_false_iff.mpr fun hi => by
        have hsome : (Fin.find? c.inService).isSome = true := Fin.isSome_find?_iff.mpr ⟨i, hi⟩
        rw [hfind] at hsome
        cases hsome
    dsimp only
    rw [hidle]
  | some i =>
    have hi := (Fin.find?_eq_some_iff.mp hfind).1
    have hfilter : (Finset.univ.filter fun j => Function.update c.inService i false j = true) =
        (Finset.univ.filter fun j => c.inService j = true).erase i := by
      ext j
      rw [Finset.mem_erase, Finset.mem_filter, Finset.mem_filter]
      by_cases hj : j = i
      · simp [hj]
      · simp [hj]
    dsimp only [serving]
    rw [hfilter, Finset.card_erase_of_mem (by simp [hi])]

end Chip

end EpochKernel.Library.I8259
