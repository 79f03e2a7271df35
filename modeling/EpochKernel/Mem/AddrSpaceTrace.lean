import EpochKernel.Mem.PhysZones

/-! What a failed `addr_space::alloc` leaves behind. The physical zones that are taken and returned
during the call are recorded in a log beside the memory. -/
namespace EpochKernel.Mem
open EpochKernel.Util

inductive PhysEvent
  | taken (addr : UInt64)
  | returned (addr : UInt64)
  deriving DecidableEq

def PhysEvent.takenAddr : PhysEvent → Option UInt64
  | taken addr => some addr
  | returned _ => none

def PhysEvent.returnedAddr : PhysEvent → Option UInt64
  | taken _ => none
  | returned addr => some addr

/-- The memory `m` with a log of the zones that an address space takes and returns. -/
def Memory.logged {π : Type*} (m : Memory π) : Memory (π × List PhysEvent) where
  pages := m.pages
  layout := m.layout
  getFreeSpace w := m.getFreeSpace w.1
  alloc n w :=
    ((m.alloc n w.1).1, (m.alloc n w.1).2, w.2 ++ ((m.alloc n w.1).1.map .taken).toList)
  free addr w := (m.free addr w.1, w.2 ++ [.returned addr])
  room k w := ((m.room k w.1).1, (m.room k w.1).2, w.2)
  mapInternal physAddr virtAddr n flags w :=
    ((m.mapInternal physAddr virtAddr n flags w.1).1,
      (m.mapInternal physAddr virtAddr n flags w.1).2, w.2)
  unmapInternal virtAddr n w := (m.unmapInternal virtAddr n w.1, w.2)

namespace AddrSpace
variable {σ π : Type*} {L : ListOps σ UInt64} {m : Memory π} {K : Links UInt64}

section Log
variable {n s : UInt64} {l : List PhysAllocation} {w : π × List PhysEvent} {fuel : ℕ}

/-- The loop of `collect_phys_zones` takes the zones that it is granted and returns none. -/
lemma collectLoop_log {r : UInt64 × List PhysAllocation × π × List PhysEvent}
    (h : collectLoop m.logged fuel s n l w = some r) :
    r.2.2.2 = w.2 ++ (grants m.logged fuel s n l w).map fun g => .taken g.zone.addr := by
  induction fuel generalizing s n l w with
  | zero => cases h
  | succ fuel ih =>
    rw [collectLoop_succ] at h
    rw [grants]
    split_ifs at h ⊢ with hend
    · cases h
      exact (List.append_nil _).symm
    · split at h
      · next w' hm =>
        have hw : w'.2 = w.2 := by
          have h2 := congrArg (fun r => r.2.2) hm
          have h1 := congrArg (fun r => r.1) hm
          simp only [Memory.logged] at h1 h2
          rw [← h2, h1]
          exact List.append_nil _
        rw [ih h, hw]
      · next addr w' hm =>
        have hw : w'.2 = w.2 ++ [.taken addr] := by
          have h2 := congrArg (fun r => r.2.2) hm
          have h1 := congrArg (fun r => r.1) hm
          simp only [Memory.logged] at h1 h2
          rw [← h2, h1]
          rfl
        have hpush : (push m.logged l ⟨addr, s⟩ w').2.2 = w'.2 := rfl
        rw [ih h, hpush, hw, List.map_cons, List.append_assoc]
        rfl

lemma foldl_free_log (back : List PhysAllocation) (w : π × List PhysEvent) :
    (back.foldl (fun w a => m.logged.free a.addr w) w).2 =
      w.2 ++ back.map fun a => .returned a.addr := by
  induction back generalizing w with
  | nil => exact (List.append_nil _).symm
  | cons a back ih =>
    rw [List.foldl_cons, ih, List.map_cons]
    exact List.append_assoc _ _ _

/-- Mapping takes and returns no zones. -/
lemma mapZones_log (flags virtAddr : UInt64) {k : ℕ} :
    (mapZones m.logged flags k l virtAddr w).2.2 = w.2 := by
  induction l generalizing k virtAddr w with
  | nil => rfl
  | cons a l ih =>
    rw [mapZones]
    split
    · next w' hm => exact (congrArg (fun r => r.2.2) hm).symm
    · next w' hm => exact (ih _).trans (congrArg (fun r => r.2.2) hm).symm

lemma mapAllocData_log {t t' : AddrSpace σ (π × List PhysEvent)} {z out : UInt64}
    (h : t.mapAllocData L m.logged z = some (out, t')) : t'.world.2 = t.world.2 := by
  rw [mapAllocData] at h
  split at h
  · cases h
  · next virtAddr t₁ hfind =>
    rw [← findAddress_world hfind]
    split_ifs at h
    · cases h
      rfl
    · dsimp only at h
      have hlog := mapZones_log (m := m) (t₁.zone z).flags virtAddr (k := 0)
        (l := (t₁.zone z).allocations) (w := t₁.world)
      split at h
      · next w hw =>
        rw [hw] at hlog
        cases h
        exact hlog
      · next w hw =>
        rw [hw] at hlog
        cases h
        exact hlog
      · next i w hw =>
        rw [hw] at hlog
        cases h
        exact hlog

end Log

/-- The list is as before, and every physical zone that was taken has been returned. -/
structure NoTrace (s s' : AddrSpace (LinkedList UInt64 × Links UInt64) (π × List PhysEvent)) :
    Prop where
  len : s'.virtAllocs.1.len = s.virtAllocs.1.len
  zones : s'.virtAllocs.1.nodes s'.virtAllocs.2 = s.virtAllocs.1.nodes s.virtAllocs.2
  returned : (s'.world.2.filterMap PhysEvent.returnedAddr).Perm
    (s'.world.2.filterMap PhysEvent.takenAddr)

section Alloc
variable {s s' : AddrSpace (LinkedList UInt64 × Links UInt64) (π × List PhysEvent)}
  {z : Option UInt64} {n flags : UInt64} {w w' : π × List PhysEvent} {l : List PhysAllocation}

lemma takenAddr_map (gs : List Grant) (back : List PhysAllocation) :
    (gs.map (fun g => PhysEvent.taken g.zone.addr) ++
      back.map fun a => PhysEvent.returned a.addr).filterMap PhysEvent.takenAddr =
        gs.map fun g => g.zone.addr := by
  rw [List.filterMap_append, List.filterMap_map, List.filterMap_map]
  have h1 : PhysEvent.takenAddr ∘ (fun g : Grant => .taken g.zone.addr) =
      some ∘ fun g : Grant => g.zone.addr := rfl
  have h2 : PhysEvent.takenAddr ∘ (fun a : PhysAllocation => .returned a.addr) =
      fun _ => none := rfl
  rw [h1, h2, List.filterMap_eq_map, List.filterMap_none, List.append_nil]

lemma returnedAddr_map (gs : List Grant) (back : List PhysAllocation) :
    (gs.map (fun g => PhysEvent.taken g.zone.addr) ++
      back.map fun a => PhysEvent.returned a.addr).filterMap PhysEvent.returnedAddr =
        back.map fun a => a.addr := by
  rw [List.filterMap_append, List.filterMap_map, List.filterMap_map]
  have h1 : PhysEvent.returnedAddr ∘ (fun g : Grant => .taken g.zone.addr) =
      fun _ => none := rfl
  have h2 : PhysEvent.returnedAddr ∘ (fun a : PhysAllocation => .returned a.addr) =
      some ∘ fun a : PhysAllocation => a.addr := rfl
  rw [h1, h2, List.filterMap_eq_map, List.filterMap_none, List.nil_append]

/-- What `collect_phys_zones` takes and returns. -/
lemma collectPhysZones_log {b : Bool} (hn : n ≠ 0) (hw : w.2 = [])
    (h : collectPhysZones m.logged n w = some (b, l, w')) :
    (b = true → requested m.logged [] n w ≠ [] ∧
      w'.2 = (requested m.logged [] n w).map (fun g => .taken g.zone.addr) ++
        ([] : List PhysAllocation).map fun a => .returned a.addr) ∧
    (b = false → w'.2 = (requested m.logged [] n w).map (fun g => .taken g.zone.addr) ++
      (((requested m.logged [] n w).filter Grant.stored).map Grant.zone).reverse.map
        fun a => .returned a.addr) := by
  rw [collectPhysZones_eq, collectInto, if_neg hn] at h
  obtain ⟨r, hr, hend⟩ := Option.map_eq_some_iff.mp h
  obtain ⟨hl, hsum⟩ := collectLoop_spec hr
  have hlog := collectLoop_log hr
  rw [hw, List.nil_append] at hlog
  have hworld : w'.2 = r.2.2.2 ++ (givenBack 0 r).map fun a => .returned a.addr := by
    rw [← foldl_free_log]
    exact (congrArg (fun r => r.2.2.2) hend).symm
  have hb : decide (r.1 = 0) = b := congrArg Prod.fst hend
  constructor
  · rintro rfl
    have hr0 := of_decide_eq_true hb
    refine ⟨fun hnil => hn ?_, ?_⟩
    · -- without a grant nothing would have been subtracted
      change grants m.logged (m.logged.pages + 64) (firstSize m.logged.layout n) n [] w = [] at hnil
      rw [hnil, hr0] at hsum
      exact UInt64.toNat_inj.mp (hsum fun g hg => absurd hg List.not_mem_nil).symm
    · rw [hworld, hlog, givenBack, if_pos hr0]
      rfl
  · rintro rfl
    rw [hworld, hlog, givenBack, if_neg (of_decide_eq_false hb), hl]
    rfl

/-- The calls that fail before anything is taken, or in `collect_phys_zones` with every zone that it
has taken in its list. -/
def FailsEarly (m : Memory (π × List PhysEvent)) (n : UInt64) (w : π × List PhysEvent) : Prop :=
  n = 0 ∨ m.getFreeSpace w < n ∨
    ((collectPhysZones m (alignUp n pageSize) w).map (·.1) = some false ∧
      ∀ g ∈ requested m [] (alignUp n pageSize) w, g.stored = true)

/-- A failed `alloc` leaves no trace exactly if it fails before it has collected its memory: later
on nothing is returned. -/
theorem alloc_noTrace_iff (m : Memory π) (hlog : s.world.2 = [])
    (hspace : (m.getFreeSpace s.world.1).toNat + 4096 ≤ 2 ^ 64)
    (h : s.alloc (.linked K) m.logged z n flags = some (0, s')) :
    NoTrace s s' ↔ FailsEarly m.logged n s.world := by
  have hnone : NoTrace s s := ⟨rfl, rfl, by rw [hlog]; exact List.Perm.refl _⟩
  unfold AddrSpace.alloc at h
  split_ifs at h with hearly
  · cases h
    exact iff_of_true hnone (hearly.imp_right .inl)
  cases z with
  | none => cases h
  | some z =>
    dsimp only at h
    rw [not_or] at hearly
    have hle : n.toNat ≤ (m.getFreeSpace s.world.1).toNat := by
      have := UInt64.le_iff_toNat_le.mp (UInt64.not_lt.mp hearly.2)
      exact this
    have hpos : 0 < n.toNat := Nat.pos_of_ne_zero fun h0 => hearly.1 (UInt64.toNat_inj.mp h0)
    have hn : alignUp n pageSize ≠ 0 := by
      intro h0
      have hup := alignUp_toNat (x := n) (a := pageSize) (k := 12) rfl (by omega)
      rw [h0, UInt64.toNat_zero] at hup
      omega
    have hEarly : FailsEarly m.logged n s.world ↔
        ((collectPhysZones m.logged (alignUp n pageSize) s.world).map (·.1) = some false ∧
          ∀ g ∈ requested m.logged [] (alignUp n pageSize) s.world, g.stored = true) := by
      simp [FailsEarly, hearly.1, hearly.2]
    rw [hEarly]
    split at h
    · cases h
    · next l w hc =>
      -- every zone of the list is given back
      replace hc : collectPhysZones m.logged (alignUp n pageSize) s.world = some (false, l, w) := hc
      cases h
      have hw := (collectPhysZones_log hn hlog hc).2 rfl
      rw [hc]
      constructor
      · rintro ⟨-, -, hperm⟩
        change (w.2.filterMap _).Perm (w.2.filterMap _) at hperm
        rw [hw, takenAddr_map, returnedAddr_map] at hperm
        have hlen := hperm.length_eq
        simp only [List.length_map, List.length_reverse, List.length_filter_eq_length_iff] at hlen
        exact ⟨rfl, hlen⟩
      · rintro ⟨-, hall⟩
        refine ⟨rfl, rfl, ?_⟩
        change (w.2.filterMap _).Perm (w.2.filterMap _)
        rw [hw, takenAddr_map, returnedAddr_map, List.filter_eq_self.mpr hall, List.map_reverse,
          List.map_map]
        exact List.reverse_perm _
    · next l w hc =>
      replace hc : collectPhysZones m.logged (alignUp n pageSize) s.world = some (true, l, w) := hc
      obtain ⟨hne, hw⟩ := (collectPhysZones_log hn hlog hc).1 rfl
      rw [hc]
      refine iff_of_false ?_ fun hfalse => by cases hfalse.1
      rintro ⟨-, -, hperm⟩
      split at h
      · cases h
      · next out t hm =>
        have htlog := mapAllocData_log hm
        split_ifs at h with hout
        · cases h
          change (t.world.2.filterMap _).Perm (t.world.2.filterMap _) at hperm
          rw [htlog] at hperm
          change (w.2.filterMap _).Perm (w.2.filterMap _) at hperm
          rw [hw, takenAddr_map, returnedAddr_map] at hperm
          exact hne (by simpa using hperm.nil_eq)
        · obtain ⟨t', -, ht'⟩ := Option.map_eq_some_iff.mp h
          exact hout (congrArg Prod.fst ht')

end Alloc

theorem alloc_noTrace_sample :
    ∃ s s' : AddrSpace (LinkedList UInt64 × Links UInt64) (_ × List PhysEvent),
      init (.linked fun _ => ⟨none, none⟩) 0x100 (fun _ => kernelZone) ((0, fun _ => none), []) =
        some s ∧
      s.alloc (.linked fun _ => ⟨none, none⟩) Memory.scarce.logged (some 0x200) 0x500000 6 =
        some (0, s') ∧
      (NoTrace s s' ↔ FailsEarly Memory.scarce.logged 0x500000 s.world) :=
  ⟨_, _, rfl, rfl, alloc_noTrace_iff (K := fun _ => ⟨none, none⟩) (z := some 0x200) .scarce rfl (by decide)
    (show AddrSpace.alloc _ _ _ _ 6 _ = some (0, _) from rfl)⟩

/-- The page was collected, but there was no page table to map it. -/
theorem not_noTrace_alloc_page :
    ∃ s s' : AddrSpace (LinkedList UInt64 × Links UInt64) (_ × List PhysEvent),
      init (.linked fun _ => ⟨none, none⟩) 0x100 (fun _ => kernelZone) ((0, fun _ => none), []) =
        some s ∧
      s.alloc (.linked fun _ => ⟨none, none⟩) Memory.scarce.logged (some 0x200) 0x1000 6 =
        some (0, s') ∧ ¬ NoTrace s s' := by
  refine ⟨_, _, rfl, rfl, fun htrace => ?_⟩
  have hlen := htrace.returned.length_eq
  revert hlen
  decide

end AddrSpace
end EpochKernel.Mem
