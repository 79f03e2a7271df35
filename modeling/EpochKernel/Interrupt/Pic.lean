import EpochKernel.Library.I8259

/-! The interrupt controllers as `int/pic.cpp` drives them. `init` gives both the vectors from 32 on, and
then `pic_eoi` takes an interrupt of the slave for one of the master. -/
namespace EpochKernel.Interrupt
open Library I8259

def picmCommand : UInt16 := 0x20
def picmData : UInt16 := 0x21
def picsCommand : UInt16 := 0xa0
def picsData : UInt16 := 0xa1

def picEoiCode : UInt8 := 0x20
def icw1Icw4 : UInt8 := 0x01
def icw1Init : UInt8 := 0x10
def icw4Mode8086 : UInt8 := 0x01

def picmOffset : UInt8 := 32
def picsOffset : UInt8 := 40

/-- `inb` of a port of the controllers. -/
def inb (port : UInt16) (p : Pair) : Option UInt8 :=
  if port = picmData then some p.master.mask
  else if port = picsData then some p.slave.mask
  else none

def outb (port : UInt16) (data : UInt8) (p : Pair) : Option Pair :=
  if port = picmCommand then (p.master.command data).map ({ p with master := · })
  else if port = picmData then some { p with master := p.master.data data }
  else if port = picsCommand then (p.slave.command data).map ({ p with slave := · })
  else if port = picsData then some { p with slave := p.slave.data data }
  else some p

/-- `io_wait`; whatever it writes goes to a port that is not theirs. -/
def ioWait : UInt16 × UInt8 := (0x80, 0)

/-- The writes of `pic_remap`. -/
def remapWrites (mOffset sOffset s1 s2 : UInt8) : List (UInt16 × UInt8) := [
  (picmCommand, icw1Init ||| icw1Icw4), ioWait,
  (picsCommand, icw1Init ||| icw1Icw4), ioWait,
  (picmData, mOffset), ioWait,
  (picsData, sOffset), ioWait,
  (picmData, 0b100), ioWait,
  (picsData, 0b10), ioWait,
  (picmData, icw4Mode8086), ioWait,
  (picsData, icw4Mode8086), ioWait,
  (picmData, s1),
  (picsData, s2)]

def picRemap (mOffset sOffset : UInt8) (p : Pair) : Option Pair :=
  (inb picmData p).bind fun s1 => (inb picsData p).bind fun s2 =>
    (remapWrites mOffset sOffset s1 s2).foldlM (fun p w => outb w.1 w.2 p) p

/-- `pic_eoi`; the difference is one of `int`. -/
def picEoi (irq : UInt8) (p : Pair) : Option Pair :=
  (if 7 < (irq.toNat : ℤ) - picmOffset.toNat then outb picsCommand picEoiCode p else some p).bind
    (outb picmCommand picEoiCode)

/-- The controllers, the interrupts that the processor has taken with their vectors, and the vectors of the
handlers that have not come to `pic_eoi`. -/
structure Pic where
  chips : Pair
  served : List (Line × UInt8) := []
  running : List UInt8 := []

/-- A device pulls its line, the processor takes an interrupt, or the handler of one comes to `pic_eoi`. A
handler can be left for another thread before it does, so the ends come in any order. -/
inductive PicEvent
  | raise (line : Line)
  | interrupt
  | eoi (vec : UInt8)

/-- The vectors of `make_irq_handler` and `make_asm_irq_handler`, which end with `pic_eoi`. -/
def IrqVector (vec : UInt8) : Prop := 32 ≤ vec ∧ vec ≤ 47

instance : DecidablePred IrqVector := fun _ => inferInstanceAs (Decidable (_ ∧ _))

namespace Pic

def step : Machine Pic PicEvent
  | s, .raise line => (s.chips.raise line).map ({ s with chips := · })
  | s, .interrupt =>
    s.chips.acknowledge.bind fun r =>
      if IrqVector r.2.1 then some ⟨r.2.2, s.served ++ [(r.1, r.2.1)], r.2.1 :: s.running⟩ else none
  | s, .eoi vec =>
    if vec ∈ s.running then
      (picEoi vec s.chips).map fun chips => ⟨chips, s.served, s.running.erase vec⟩
    else none

end Pic

/-- The lines of the slave among those served. -/
def slaveLine (r : Line × UInt8) : Option (Fin 8) :=
  match r.1 with
  | .master _ => none
  | .slave j => some j

def slaveLines (served : List (Line × UInt8)) : List (Fin 8) := served.filterMap slaveLine

/-- The vector of a line with the slave at `sOffset`. -/
def vectorOf (sOffset : UInt8) : Line → ℕ
  | .master i => picmOffset.toNat + i
  | .slave j => sOffset.toNat + j

/-- What holds in a run with the slave at `sOffset`, after `pic_remap` has found the controllers `p`. As
many interrupts are in service as there are handlers without their `pic_eoi`; while the timer's is, none is
taken. -/
structure Served (sOffset : UInt8) (p : Pair) (s : Pic) : Prop where
  masks : s.chips.master.mask = p.master.mask ∧ s.chips.slave.mask = p.slave.mask
  vectors : ∀ r ∈ s.served, r.2.toNat = vectorOf sOffset r.1
  busy : s.chips.master.serving = s.running.length
  ended : sOffset = picsOffset → s.chips.slave.serving = (s.running.filter (picsOffset ≤ ·)).length
  blocked : s.chips.master.inService 0 = true → s.step .interrupt = none
  kept : sOffset = picmOffset → ∀ j, s.chips.slave.inService j = true ↔ j ∈ slaveLines s.served
  falling : sOffset = picmOffset → (slaveLines s.served).Pairwise (· > ·)

/-- Nothing that is not masked is requested, of the slave only if it is at `PICS_OFFSET`. -/
structure Drained (sOffset : UInt8) (s : Pic) : Prop where
  master : ∀ i, bit s.chips.master.mask i = false → s.chips.master.requested i = false
  slave : sOffset = picsOffset → bit s.chips.master.mask 2 = false →
    ∀ j, bit s.chips.slave.mask j = false → s.chips.slave.requested j = false

/-- The handlers that run come to `pic_eoi`, and then the interrupts with the vectors `vecs` are taken, the
next one when the handler of the last one is done. -/
def settling (running vecs : List UInt8) : List PicEvent :=
  running.map .eoi ++ vecs.flatMap fun vec => [.interrupt, .eoi vec]

/-- A controller that `pic_remap` has set up. -/
def remapped (base cascade mask : UInt8) (requested inService : Fin 8 → Bool) : Chip where
  icw1 := 0x11
  base := base
  cascade := cascade
  mode := 1
  next := .ocw1
  mask := mask
  requested := requested
  inService := inService

section Remap
variable {p : Pair} {m s : UInt8}

lemma picRemap_eq (m s : UInt8) (p : Pair) : picRemap m s p = some
    ⟨remapped (m &&& 0xf8) 4 p.master.mask (fun _ => false) p.master.inService,
      remapped (s &&& 0xf8) 2 p.slave.mask (fun _ => false) p.slave.inService⟩ := by
  have hcode : icw1Init ||| icw1Icw4 = 0x11 := rfl
  have hinit : bit 0x11 4 = true := by decide
  have hcascaded : bit 0x11 1 = false := by decide
  have hicw4 : bit 0x11 0 = true := by decide
  simp [picRemap, inb, remapWrites, outb, ioWait, Chip.command, Chip.data, Chip.afterCascade, remapped,
    picmCommand, picmData, picsCommand, picsData, icw4Mode8086, hcode, hinit, hcascaded, hicw4]

lemma bit_cascade (i : Fin 8) : bit 4 i = decide (i = 2) := by
  revert i
  decide

lemma toNat_vector {s : UInt8} (hs : s = picmOffset ∨ s = picsOffset) (i : Fin 8) :
    (s ||| UInt8.ofNat i).toNat = s.toNat + i := by
  rcases hs with rfl | rfl
  · revert i
    decide
  · revert i
    decide

/-- Every vector of the controllers has a handler that ends with `pic_eoi`. -/
lemma irqVector_vector {s : UInt8} (hs : s = picmOffset ∨ s = picsOffset) (i : Fin 8) :
    IrqVector (s ||| UInt8.ofNat i) := by
  rcases hs with rfl | rfl
  · revert i
    decide
  · revert i
    decide

lemma outb_picmCommand (p : Pair) :
    outb picmCommand picEoiCode p = some { p with master := p.master.endOfInterrupt } := rfl

lemma outb_picsCommand (p : Pair) :
    outb picsCommand picEoiCode p = some { p with slave := p.slave.endOfInterrupt } := rfl

/-- `pic_eoi` of a vector from 32 to 39 is only for the master. -/
lemma picEoi_first {vec : UInt8} (h : vec < picsOffset) (p : Pair) :
    picEoi vec p = some { p with master := p.master.endOfInterrupt } := by
  have hlt := UInt8.lt_iff_toNat_lt.mp h
  have hfirst : picmOffset.toNat = 32 := rfl
  have hsecond : picsOffset.toNat = 40 := rfl
  rw [picEoi, if_neg (by omega), Option.bind_some, outb_picmCommand]

/-- `pic_eoi` of a vector from 40 on is for both. -/
lemma picEoi_second {vec : UInt8} (h : picsOffset ≤ vec) (p : Pair) :
    picEoi vec p = some ⟨p.master.endOfInterrupt, p.slave.endOfInterrupt⟩ := by
  have hle := UInt8.le_iff_toNat_le.mp h
  have hfirst : picmOffset.toNat = 32 := rfl
  have hsecond : picsOffset.toNat = 40 := rfl
  rw [picEoi, if_pos (by omega), outb_picsCommand, Option.bind_some, outb_picmCommand]

end Remap

section Runs
variable {s : UInt8} {p : Pair} {t t' : Pic}

lemma slaveLines_master (served : List (Line × UInt8)) (i : Fin 8) (v : UInt8) :
    slaveLines (served ++ [(.master i, v)]) = slaveLines served := by
  rw [slaveLines, List.filterMap_append]
  exact List.append_nil _

lemma slaveLines_slave (served : List (Line × UInt8)) (j : Fin 8) (v : UInt8) :
    slaveLines (served ++ [(.slave j, v)]) = slaveLines served ++ [j] := by
  rw [slaveLines, List.filterMap_append]
  rfl

/-- What the runs keep. -/
structure PicInv (s : UInt8) (p : Pair) (t : Pic) : Prop where
  master : t.chips.master.SetUp picmOffset 4 p.master.mask
  slave : t.chips.slave.SetUp s 2 p.slave.mask
  cascade : t.chips.master.requested 2 = false
  vectors : ∀ r ∈ t.served, r.2.toNat = vectorOf s r.1
  low : s = picmOffset → ∀ vec ∈ t.running, vec < picsOffset
  busy : t.chips.master.serving = t.running.length
  ended : s = picsOffset → t.chips.slave.serving = (t.running.filter (picsOffset ≤ ·)).length
  kept : s = picmOffset → ∀ j, t.chips.slave.inService j = true ↔ j ∈ slaveLines t.served
  falling : s = picmOffset → (slaveLines t.served).Pairwise (· > ·)

namespace PicInv

lemma inputs_eq (h : PicInv s p t) (i : Fin 8) :
    t.chips.inputs i = (decide (i = 2) && (t.chips.slave.wants fun _ => false).isSome) := by
  rw [Pair.inputs, h.master.cascade_eq, ← bit_cascade]

/-- The processor is not asked, or it is for a line of the master, or for one of the slave. -/
lemma acknowledge_cases (h : PicInv s p t) :
    (t.chips.master.wants t.chips.inputs = none ∧ t.chips.acknowledge = none) ∨
    (∃ i, i ≠ 2 ∧ t.chips.master.requested i = true ∧ (∀ j ≤ i, t.chips.master.inService j = false) ∧
      t.chips.acknowledge = some (.master i, picmOffset ||| UInt8.ofNat i,
        { t.chips with master := t.chips.master.accept i })) ∨
    ∃ j, t.chips.slave.requested j = true ∧ (∀ k ≤ j, t.chips.slave.inService k = false) ∧
      (∀ k ≤ 2, t.chips.master.inService k = false) ∧
      t.chips.acknowledge = some (.slave j, s ||| UInt8.ofNat j,
        ⟨t.chips.master.accept 2, t.chips.slave.accept j⟩) := by
  have hcascade (i : Fin 8) : bit t.chips.master.cascade i = decide (i = 2) := by
    rw [h.master.cascade_eq, bit_cascade]
  cases hw : t.chips.master.wants t.chips.inputs with
  | none =>
    refine .inl ⟨rfl, ?_⟩
    rw [Pair.acknowledge, hw]
    rfl
  | some i =>
    obtain ⟨hup, -, hfree⟩ := Chip.wants_eq_some hw
    rw [h.inputs_eq] at hup
    by_cases hi : i = 2
    · subst hi
      have hslave : (t.chips.slave.wants fun _ => false).isSome = true := by
        simpa [h.cascade] using hup
      obtain ⟨j, hj⟩ := Option.isSome_iff_exists.mp hslave
      obtain ⟨hreq, -, hidle⟩ := Chip.wants_eq_some hj
      refine .inr (.inr ⟨j, by simpa using hreq, hidle, hfree, ?_⟩)
      rw [Pair.acknowledge, hw, Option.bind_some, hcascade, if_pos (by decide), h.slave.cascade_eq,
        if_pos (by decide), hj, Option.bind_some, h.slave.vector]
      rfl
    · refine .inr (.inl ⟨i, hi, by simpa [hi] using hup, hfree, ?_⟩)
      rw [Pair.acknowledge, hw, Option.bind_some, hcascade, if_neg (by simpa using hi), h.master.vector]
      rfl

lemma raise (h : PicInv s p t) {line : Line} (hstep : Pic.step t (.raise line) = some t') :
    PicInv s p t' := by
  obtain ⟨chips, hchips, rfl⟩ := Option.map_eq_some_iff.mp hstep
  cases line with
  | master i =>
    obtain ⟨hi, hchips⟩ := Option.ite_none_left_eq_some.mp hchips
    obtain rfl := Option.some.inj hchips
    have hne : 2 ≠ i := by
      rintro rfl
      rw [h.master.cascade_eq, bit_cascade] at hi
      exact hi rfl
    exact { h with
      master := h.master.request _
      cascade := (Function.update_of_ne hne _ _).trans h.cascade }
  | slave j =>
    obtain rfl := Option.some.inj hchips
    exact { h with slave := h.slave.request _ }

/-- A line of the master is served. -/
lemma accept_master (h : PicInv s p t) {i : Fin 8} (hi : i ≠ 2)
    (hfree : t.chips.master.inService i = false) :
    PicInv s p ⟨{ t.chips with master := t.chips.master.accept i },
      t.served ++ [(.master i, picmOffset ||| UInt8.ofNat i)], (picmOffset ||| UInt8.ofNat i) :: t.running⟩ := by
  have hvec : picmOffset ||| UInt8.ofNat i < picsOffset := by
    rw [UInt8.lt_iff_toNat_lt, toNat_vector (.inl rfl)]
    exact Nat.add_lt_add_left i.isLt 32
  refine ⟨h.master.accept i, h.slave, ?_, ?_, ?_, ?_, fun hs => ?_, fun hs => ?_, fun hs => ?_⟩
  · exact (Function.update_of_ne (Ne.symm hi) _ _).trans h.cascade
  · intro r hr
    rcases List.mem_append.mp hr with hr | hr
    · exact h.vectors r hr
    · obtain rfl := List.mem_singleton.mp hr
      exact toNat_vector (.inl rfl) i
  · exact fun hs => List.forall_mem_cons.mpr ⟨hvec, h.low hs⟩
  · exact (Chip.serving_accept h.master.automatic hfree).trans (congrArg (· + 1) h.busy)
  · rw [List.filter_cons_of_neg (by simpa using hvec)]
    exact h.ended hs
  · rw [slaveLines_master]
    exact h.kept hs
  · rw [slaveLines_master]
    exact h.falling hs

/-- A line of the slave is served. -/
lemma accept_slave (hs : s = picmOffset ∨ s = picsOffset) (h : PicInv s p t) {j : Fin 8}
    (hidle : ∀ k ≤ j, t.chips.slave.inService k = false) (hfree : t.chips.master.inService 2 = false) :
    PicInv s p ⟨⟨t.chips.master.accept 2, t.chips.slave.accept j⟩,
      t.served ++ [(.slave j, s ||| UInt8.ofNat j)], (s ||| UInt8.ofNat j) :: t.running⟩ := by
  have hcascade : Function.update t.chips.master.requested 2 false 2 = false := by simp
  refine ⟨h.master.accept 2, h.slave.accept j, hcascade, ?_, fun hs => ?_, ?_, fun hs => ?_,
    fun hs k => ?_, fun hs => ?_⟩
  · intro r hr
    rcases List.mem_append.mp hr with hr | hr
    · exact h.vectors r hr
    · obtain rfl := List.mem_singleton.mp hr
      exact toNat_vector hs j
  · refine List.forall_mem_cons.mpr ⟨?_, h.low hs⟩
    rw [UInt8.lt_iff_toNat_lt, toNat_vector (.inl hs), hs]
    exact Nat.add_lt_add_left j.isLt 32
  · exact (Chip.serving_accept h.master.automatic hfree).trans (congrArg (· + 1) h.busy)
  · have hvec : picsOffset ≤ s ||| UInt8.ofNat j := by
      rw [UInt8.le_iff_toNat_le, toNat_vector (.inr hs), hs]
      exact Nat.le_add_right _ _
    rw [List.filter_cons_of_pos (by simpa using hvec)]
    exact (Chip.serving_accept h.slave.automatic (hidle j le_rfl)).trans (congrArg (· + 1) (h.ended hs))
  · rw [slaveLines_slave, List.mem_append, List.mem_singleton, ← h.kept hs]
    change Function.update t.chips.slave.inService j (!bit t.chips.slave.mode 1) k = true ↔ _
    rw [h.slave.automatic]
    by_cases hk : k = j
    · simp [hk]
    · simp [hk]
  · -- the lines in service at the slave are all those that it has served
    rw [slaveLines_slave, List.pairwise_append]
    refine ⟨h.falling hs, List.pairwise_singleton _ _, fun i hi k hk => ?_⟩
    obtain rfl := List.mem_singleton.mp hk
    by_contra hle
    have hserved := (h.kept hs i).mpr hi
    rw [hidle i (not_lt.mp hle)] at hserved
    cases hserved

/-- An interrupt serves one request. -/
lemma interrupt (hs : s = picmOffset ∨ s = picsOffset) (h : PicInv s p t) :
    (t.chips.master.wants t.chips.inputs = none ∧ Pic.step t .interrupt = none) ∨
      ∃ t' vec, Pic.step t .interrupt = some t' ∧ PicInv s p t' ∧ t'.running = vec :: t.running ∧
        t'.chips.pending + 1 = t.chips.pending := by
  rcases h.acknowledge_cases with ⟨hnone, hack⟩ | ⟨i, hi, hreq, hfree, hack⟩ | ⟨j, hreq, hidle, hfree, hack⟩
  · refine .inl ⟨hnone, ?_⟩
    rw [Pic.step, hack]
    rfl
  · refine .inr ⟨_, _, ?_, h.accept_master hi (hfree i le_rfl), rfl, ?_⟩
    · rw [Pic.step, hack, Option.bind_some]
      exact if_pos (irqVector_vector (.inl rfl) i)
    · have hcount := Chip.pending_accept hreq
      change (t.chips.master.accept i).pending + t.chips.slave.pending + 1 = _
      rw [Nat.add_right_comm, hcount]
      rfl
  · refine .inr ⟨_, _, ?_, h.accept_slave hs hidle (hfree 2 le_rfl), rfl, ?_⟩
    · rw [Pic.step, hack, Option.bind_some]
      exact if_pos (irqVector_vector hs j)
    · have hcount := Chip.pending_accept hreq
      have hself : (t.chips.master.accept 2).pending = t.chips.master.pending := by
        rw [Chip.pending, Chip.accept, ← h.cascade, Function.update_eq_self]
        rfl
      change (t.chips.master.accept 2).pending + (t.chips.slave.accept j).pending + 1 = _
      rw [Nat.add_assoc, hcount, hself]
      rfl

/-- A handler comes to `pic_eoi`. -/
lemma eoi (hs : s = picmOffset ∨ s = picsOffset) (h : PicInv s p t) {vec : UInt8} (hvec : vec ∈ t.running) :
    ∃ t', Pic.step t (.eoi vec) = some t' ∧ PicInv s p t' ∧ t'.running = t.running.erase vec ∧
      t'.chips.pending = t.chips.pending := by
  have hpos : 0 < t.running.length := List.length_pos_of_mem hvec
  have hmaster : t.chips.master.endOfInterrupt.serving = (t.running.erase vec).length := by
    rw [Chip.serving_endOfInterrupt, h.busy, List.length_erase_of_mem hvec]
  have hlow : s = picmOffset → ∀ v ∈ t.running.erase vec, v < picsOffset := fun hs v hv =>
    h.low hs v (List.mem_of_mem_erase hv)
  have hcascade : t.chips.master.endOfInterrupt.requested 2 = false := by
    rw [Chip.requested_endOfInterrupt, h.cascade]
  -- the slave's handlers among the others
  have hfilter : (t.running.filter (picsOffset ≤ ·)).length =
      ((vec :: t.running.erase vec).filter (picsOffset ≤ ·)).length :=
    ((List.perm_cons_erase hvec).filter _).length_eq
  have hfirst (hlt : vec < picsOffset) : ∃ t', Pic.step t (.eoi vec) = some t' ∧ PicInv s p t' ∧
      t'.running = t.running.erase vec ∧ t'.chips.pending = t.chips.pending := by
    refine ⟨⟨{ t.chips with master := t.chips.master.endOfInterrupt }, t.served, t.running.erase vec⟩, ?_,
      ⟨h.master.endOfInterrupt, h.slave, hcascade, h.vectors, hlow, hmaster, fun hs => ?_, h.kept,
        h.falling⟩, rfl, ?_⟩
    · rw [Pic.step, if_pos hvec, picEoi_first hlt]
      rfl
    · rw [List.filter_cons_of_neg (by simpa using hlt)] at hfilter
      exact (h.ended hs).trans hfilter
    · rw [Pair.pending, Chip.pending, Chip.requested_endOfInterrupt]
      rfl
  rcases hs with rfl | rfl
  · exact hfirst (h.low rfl vec hvec)
  · rcases UInt8.lt_or_le vec picsOffset with hlt | hle
    · exact hfirst hlt
    · refine ⟨⟨⟨t.chips.master.endOfInterrupt, t.chips.slave.endOfInterrupt⟩, t.served,
        t.running.erase vec⟩, ?_, ⟨h.master.endOfInterrupt, h.slave.endOfInterrupt, hcascade, h.vectors,
          hlow, hmaster, fun hs => ?_, fun hs => absurd hs (by decide), fun hs => absurd hs (by decide)⟩,
        rfl, ?_⟩
      · rw [Pic.step, if_pos hvec, picEoi_second hle]
        rfl
      · rw [List.filter_cons_of_pos (by simpa using hle), List.length_cons] at hfilter
        have hended := h.ended hs
        change t.chips.slave.endOfInterrupt.serving = ((t.running.erase vec).filter (picsOffset ≤ ·)).length
        rw [Chip.serving_endOfInterrupt]
        omega
      · rw [Pair.pending, Chip.pending, Chip.pending, Chip.requested_endOfInterrupt,
          Chip.requested_endOfInterrupt]
        rfl

lemma step (hs : s = picmOffset ∨ s = picsOffset) (h : PicInv s p t) {e : PicEvent}
    (hstep : Pic.step t e = some t') : PicInv s p t' := by
  cases e with
  | raise line => exact h.raise hstep
  | interrupt =>
    rcases h.interrupt hs with ⟨-, hnone⟩ | ⟨t1, -, hsome, h1, -⟩
    · rw [hnone] at hstep
      cases hstep
    · obtain rfl : t1 = t' := Option.some.inj (hsome.symm.trans hstep)
      exact h1
  | eoi vec =>
    by_cases hvec : vec ∈ t.running
    · obtain ⟨t1, hsome, h1, -⟩ := h.eoi hs hvec
      obtain rfl : t1 = t' := Option.some.inj (hsome.symm.trans hstep)
      exact h1
    · rw [Pic.step, if_neg hvec] at hstep
      cases hstep

lemma serves (h : PicInv s p t) : Served s p t := by
  refine ⟨⟨h.master.mask_eq, h.slave.mask_eq⟩, h.vectors, h.busy, h.ended, fun hzero => ?_, h.kept,
    h.falling⟩
  rcases h.acknowledge_cases with ⟨-, hack⟩ | ⟨i, -, -, hfree, -⟩ | ⟨j, -, -, hfree, -⟩
  · rw [Pic.step, hack]
    rfl
  · rw [hfree 0 (Fin.zero_le i)] at hzero
    cases hzero
  · rw [hfree 0 (Fin.zero_le 2)] at hzero
    cases hzero

/-- Without handlers that run nothing is in service at the master, and nothing at a slave that is told. -/
lemma drained (h : PicInv s p t) (hrunning : t.running = [])
    (hnone : t.chips.master.wants t.chips.inputs = none) : Drained s t := by
  have hidle : ∀ i, t.chips.master.inService i = false :=
    Chip.serving_eq_zero.mp (by rw [h.busy, hrunning]; rfl)
  have hquiet (i : Fin 8) (hmask : bit t.chips.master.mask i = false)
      (hup : t.chips.master.requested i = true ∨ t.chips.inputs i = true) : False := by
    have hsome := Chip.wants_isSome h.master.next_eq hup hmask fun j _ => hidle j
    rw [hnone] at hsome
    cases hsome
  refine ⟨fun i hmask => ?_, fun hlast hopen j hmask => ?_⟩
  · by_contra hreq
    exact hquiet i hmask (.inl (Bool.eq_true_of_not_eq_false hreq))
  · by_contra hreq
    have hended : ∀ i, t.chips.slave.inService i = false :=
      Chip.serving_eq_zero.mp (by rw [h.ended hlast, hrunning]; rfl)
    have hslave : (t.chips.slave.wants fun _ => false).isSome = true :=
      Chip.wants_isSome h.slave.next_eq (.inl (Bool.eq_true_of_not_eq_false hreq)) hmask
        fun i _ => hended i
    refine hquiet 2 hopen (.inr ?_)
    rw [h.inputs_eq, hslave]
    rfl

/-- The handlers that run come to their ends. -/
lemma ends (hs : s = picmOffset ∨ s = picsOffset) (h : PicInv s p t) {vecs : List UInt8}
    (hvecs : t.running = vecs) :
    ∃ t', Machine.run Pic.step t (vecs.map .eoi) = some t' ∧ PicInv s p t' ∧ t'.running = [] ∧
      t'.chips.pending = t.chips.pending := by
  induction vecs generalizing t with
  | nil => exact ⟨t, rfl, h, hvecs, rfl⟩
  | cons vec vecs ih =>
    obtain ⟨t1, hsome, h1, hrest, hcount⟩ := h.eoi hs (hvecs ▸ List.mem_cons_self)
    rw [hvecs, List.erase_cons_head] at hrest
    obtain ⟨t', hrun, h', hnil, hcount'⟩ := ih h1 hrest
    refine ⟨t', ?_, h', hnil, hcount'.trans hcount⟩
    rw [List.map_cons, Machine.run_cons, hsome]
    exact hrun

/-- The processor takes interrupts until none is asked for. -/
lemma drains (hs : s = picmOffset ∨ s = picsOffset) {n : ℕ} (h : PicInv s p t)
    (hrunning : t.running = []) (hn : t.chips.pending = n) :
    ∃ vecs : List UInt8, vecs.length ≤ n ∧ ∃ t', Machine.run Pic.step t
      (vecs.flatMap fun vec => [.interrupt, .eoi vec]) = some t' ∧ Drained s t' := by
  induction n generalizing t with
  | zero =>
    rcases h.interrupt hs with ⟨hnone, -⟩ | ⟨t1, vec, -, -, -, hcount⟩
    · exact ⟨[], le_rfl, t, rfl, h.drained hrunning hnone⟩
    · omega
  | succ n ih =>
    rcases h.interrupt hs with ⟨hnone, -⟩ | ⟨t1, vec, hsome, h1, hrunning1, hcount⟩
    · exact ⟨[], Nat.zero_le _, t, rfl, h.drained hrunning hnone⟩
    · obtain ⟨t2, hsome2, h2, hrunning2, hcount2⟩ := h1.eoi hs (hrunning1 ▸ List.mem_cons_self)
      rw [hrunning1, List.erase_cons_head, hrunning] at hrunning2
      obtain ⟨vecs, hlen, t', hrun, hdone⟩ := ih h2 hrunning2 (by omega)
      refine ⟨vec :: vecs, Nat.succ_le_succ hlen, t', ?_, hdone⟩
      rw [List.flatMap_cons, List.cons_append, Machine.run_cons, hsome, Option.bind_some,
        List.cons_append, Machine.run_cons, hsome2]
      exact hrun

end PicInv

/-- After `pic_remap` with the slave at 32, as `init` has it, or at `PICS_OFFSET`, of controllers that have
nothing in service, the masks are as they were, and in every run of requests, interrupts and ends of
handlers in any order as many interrupts are in service at the master as there are handlers without their
`pic_eoi`; once these have come to it, all that the master lets through is served. The slave is only told of
the end of its interrupts at `PICS_OFFSET`. At 32 the lines of the slave are served in falling order: each of
them once at most, and none behind one that has been. -/
theorem picRemap_serves (s : UInt8) (hs : s = picmOffset ∨ s = picsOffset) (p : Pair)
    (hmaster : p.master.inService = fun _ => false) (hslave : p.slave.inService = fun _ => false) :
    ∃ chips, picRemap picmOffset s p = some chips ∧
      ∀ events t, Machine.run Pic.step ⟨chips, [], []⟩ events = some t → Served s p t ∧
        ∃ vecs : List UInt8, vecs.length ≤ t.chips.pending ∧ ∃ t',
          Machine.run Pic.step t (settling t.running vecs) = some t' ∧ Drained s t' := by
  refine ⟨_, picRemap_eq picmOffset s p, fun events t hrun => ?_⟩
  have hbase : s &&& 0xf8 = s := by
    rcases hs with rfl | rfl <;> rfl
  have hstart : PicInv s p ⟨⟨remapped (picmOffset &&& 0xf8) 4 p.master.mask (fun _ => false)
      p.master.inService, remapped (s &&& 0xf8) 2 p.slave.mask (fun _ => false) p.slave.inService⟩, [],
        []⟩ := by
    have hidle (base cascade mask : UInt8) (requested : Fin 8 → Bool) :
        (remapped base cascade mask requested fun _ => false).serving = 0 :=
      Chip.serving_eq_zero.mpr fun _ => rfl
    rw [hmaster, hslave, hbase]
    exact ⟨⟨rfl, rfl, rfl, rfl, rfl⟩, ⟨rfl, rfl, rfl, rfl, rfl⟩, rfl, nofun, fun _ => nofun, hidle _ _ _ _,
      fun _ => hidle _ _ _ _, fun _ j => ⟨nofun, nofun⟩, fun _ => List.Pairwise.nil⟩
  have ht : PicInv s p t :=
    Machine.run_invariant (I := PicInv s p) (fun _ _ _ h hstep => h.step hs hstep) hstart hrun
  obtain ⟨t1, hrun1, h1, hrunning, hcount⟩ := ht.ends hs rfl
  obtain ⟨vecs, hlen, t', hrun', hdone⟩ := h1.drains hs hrunning hcount
  refine ⟨ht.serves, vecs, hlen, t', ?_, hdone⟩
  rw [settling, Machine.run_append, hrun1]
  exact hrun'

end Runs

/-- A controller as firmware may leave it. -/
def firmwareChip : Chip := ⟨0x11, 8, 4, 1, .ocw1, 0xfb, fun _ => false, fun _ => false⟩

theorem picRemap_serves_init : ∃ chips, picRemap 32 32 ⟨firmwareChip, firmwareChip⟩ = some chips ∧
    ∀ events t, Machine.run Pic.step ⟨chips, [], []⟩ events = some t →
      Served 32 ⟨firmwareChip, firmwareChip⟩ t ∧ ∃ vecs : List UInt8, vecs.length ≤ t.chips.pending ∧
        ∃ t', Machine.run Pic.step t (settling t.running vecs) = some t' ∧ Drained 32 t' :=
  picRemap_serves picmOffset (.inl rfl) ⟨firmwareChip, firmwareChip⟩ rfl rfl

/-- The timer's handler has been left before its `pic_eoi`: the keyboard is not served. -/
example : ((picRemap 32 32 ⟨{ firmwareChip with mask := 0 }, firmwareChip⟩).bind fun chips =>
    Machine.run Pic.step ⟨chips, [], []⟩
      [.raise (.master 0), .interrupt, .raise (.master 1), .interrupt]).isNone = true := by decide

end EpochKernel.Interrupt
