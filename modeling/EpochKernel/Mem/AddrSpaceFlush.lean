import EpochKernel.Mem.AddrSpaceHistory

/-! The pages that may still be in the TLB after they have been unmapped. -/
namespace EpochKernel.Mem
open EpochKernel.Util EpochKernel.Library

namespace AddrSpace
variable {σ π : Type*} {m : Memory π}

section Release
variable {s : AddrSpace σ π} {virtAddr offset n p : UInt64} {as : List PhysAllocation}

lemma not_inPages_zero : ¬ InPages virtAddr 0 p := fun h => absurd h.1 (Nat.not_lt_zero _)

lemma inPages_start (hn : n ≠ 0) : InPages virtAddr n virtAddr := by
  have hpos : 0 < n.toNat := Nat.pos_of_ne_zero fun h0 => hn (UInt64.toNat_inj.mp h0)
  rw [InPages, sub_self]
  exact ⟨hpos, rfl⟩

lemma unmapInternal_stale_zero : (s.unmapInternal m virtAddr 0).stale = s.stale := by
  funext q
  change (s.stale q || decide (InPages virtAddr 0 q)) = s.stale q
  rw [decide_eq_false not_inPages_zero, Bool.or_false]

lemma unmapInternal_stale_start {v : UInt64} (hn : n ≠ 0) :
    (s.unmapInternal m v n).stale v = true := by
  change (s.stale v || decide (InPages v n v)) = true
  rw [decide_eq_true (inPages_start hn), Bool.or_true]

lemma release_stale_mono (h : s.stale p = true) :
    (release m virtAddr as offset s).stale p = true := by
  induction as generalizing offset s with
  | nil => exact h
  | cons b as ih =>
    refine ih ?_
    change (s.stale p || _) = true
    rw [h, Bool.true_or]

lemma release_stale_zero (h : ∀ b ∈ as, b.len = 0) :
    (release m virtAddr as offset s).stale = s.stale := by
  induction as generalizing offset s with
  | nil => rfl
  | cons b as ih =>
    obtain ⟨hb, has⟩ := List.forall_mem_cons.mp h
    rw [release, ih has, hb]
    exact unmapInternal_stale_zero (m := m) (s := s)

/-- The first page that is unmapped is the one at the offset. -/
lemma release_stale_start {v o : UInt64} (h : ∃ b ∈ as, b.len ≠ 0) :
    (release m v as o s).stale (v + o) = true := by
  induction as generalizing o s with
  | nil => simp at h
  | cons b as ih =>
    by_cases hb : b.len = 0
    · have hrest : ∃ b ∈ as, b.len ≠ 0 := by
        obtain ⟨c, hc, hne⟩ := h
        exact ⟨c, (List.mem_cons.mp hc).resolve_left fun he => hne (he ▸ hb), hne⟩
      rw [release, hb, add_zero]
      exact ih hrest
    · rw [release]
      exact release_stale_mono (unmapInternal_stale_start (m := m) (s := s) hb)

end Release

/-- The call takes pages out of the page tables: those of the zone that it finds. -/
def Unmaps (s : AddrSpace (LinkedList UInt64 × Links UInt64) π) : Call π → Prop
  | .free mem =>
    (s.seq.virtAllocs.find? (s.isZone (alignDown mem pageSize) .valloc)).any fun z =>
      (s.zone z).allocations.any fun b => b.len ≠ 0
  | .unmap virtAddr =>
    (s.seq.virtAllocs.find? (s.isZone (alignDown virtAddr pageSize) .map)).any fun z =>
      (s.zone z).len ≠ 0
  | _ => False

/-- The call flushes every page that it unmaps, after it has unmapped it. -/
def Flushes (links : Links UInt64) (m : Memory π)
    (s : AddrSpace (LinkedList UInt64 × Links UInt64) π) (c : Call π) : Prop :=
  ∃ s', { s with stale := fun _ => false }.call (.linked links) m c = some s' ∧
    ∀ p, s'.stale p = false

variable {links : Links UInt64} {s : AddrSpace (LinkedList UInt64 × Links UInt64) π}
  {t : AddrSpace (List UInt64) π} {c : Call π} {virtAddr mem : UInt64}

lemma Sound.withStale (h : Sound s t) (stale : UInt64 → Bool) :
    Sound { s with stale := stale } t :=
  ⟨{ h.shows with }, h.ready, h.inv, h.solid⟩

lemma Shows.find (h : Shows s t) (a : UInt64) (type : AllocType) :
    s.seq.virtAllocs.find? (s.isZone a type) = t.virtAllocs.find? (t.isZone a type) := by
  rw [h.seq_eq, h.isZone]

/-- `free` looks for the zone to flush when it is not in the list any more. -/
lemma Sound.flushes_free (h : Sound s t) (hc : Careful m s (.free mem)) :
    Flushes links m s (.free mem) ↔ ¬ Unmaps s (.free mem) := by
  have hclean := h.withStale fun _ => false
  obtain ⟨s', t', hs', -, -, -, -, hfound, hnone⟩ := free_sound (K := links) hclean.shows
    hclean.ready hclean.inv hclean.solid (m := m) hc
  have hflush : Flushes links m s (.free mem) ↔ ∀ p, s'.stale p = false := by
    constructor
    · rintro ⟨s1, hs1, hp⟩
      obtain rfl := Option.some.inj (hs'.symm.trans hs1)
      exact hp
    · exact fun hp => ⟨s', hs', hp⟩
  rw [hflush, Unmaps, h.shows.find, h.shows.zone]
  cases hf : t.virtAllocs.find? (t.isZone (alignDown mem pageSize) .valloc) with
  | none =>
    have hno (y : UInt64) (hy : y ∈ t.virtAllocs) : t.isZone (alignDown mem pageSize) .valloc y = false :=
      Bool.eq_false_iff.mpr (List.find?_eq_none.mp hf y hy)
    have hp (p : UInt64) : s'.stale p = false := Bool.eq_false_iff.mpr fun hp =>
      Bool.false_ne_true (hnone hno p hp)
    simp [hp]
  | some z =>
    obtain ⟨hz, hmem⟩ := And.intro (List.find?_some hf) (List.mem_of_find?_eq_some hf)
    rw [hfound z hmem hz, Option.any_some, List.any_eq_true]
    simp only [decide_eq_true_eq]
    constructor
    · rintro hp hpages
      have := release_stale_start (m := m) (v := alignDown mem pageSize) (o := 0)
        (s := { s with stale := fun _ => false }) hpages
      rw [hp] at this
      cases this
    · intro hpages p
      rw [release_stale_zero fun b hb => by_contra fun hne => hpages ⟨b, hb, hne⟩]

/-- `unmap` returns before it flushes what it has found. -/
lemma Sound.flushes_unmap (h : Sound s t) (hc : Careful m s (.unmap virtAddr)) :
    Flushes links m s (.unmap virtAddr) ↔ ¬ Unmaps s (.unmap virtAddr) := by
  have hclean := h.withStale fun _ => false
  rw [Unmaps, h.shows.find, h.shows.zone]
  rcases unmap_sound (K := links) virtAddr hclean.shows hclean.ready hclean.inv (m := m)
    hc with
    ⟨hnone, s', hs', -, -, hle⟩ | ⟨as, z, bs, s', hlist, hz, hfirst, hs', -, -, -, hstale⟩
  · have hf : t.virtAllocs.find? (t.isZone (alignDown virtAddr pageSize) .map) = none :=
      List.find?_eq_none.mpr fun y hy => by rw [hnone y hy]; exact Bool.false_ne_true
    rw [hf]
    refine iff_of_true ⟨s', ?_, fun p => ?_⟩ (by simp)
    · change (AddrSpace.unmap _ _ _ _).map _ = _
      rw [hs']
      rfl
    · exact Bool.eq_false_iff.mpr fun hp => Bool.false_ne_true (hle p hp)
  · have hf : t.virtAllocs.find? (t.isZone (alignDown virtAddr pageSize) .map) = some z :=
      List.find?_eq_some_iff_append.mpr ⟨hz, as, bs, hlist, fun y hy => by rw [hfirst y hy]; rfl⟩
    have hcall : { s with stale := fun _ => false }.call (.linked links) m (.unmap virtAddr) = some s' := by
      change (AddrSpace.unmap _ _ _ _).map _ = _
      rw [hs']
      rfl
    rw [hf, Option.any_some, decide_eq_true_eq]
    constructor
    · rintro ⟨s1, hs1, hp⟩ hlen
      obtain rfl := Option.some.inj (hcall.symm.trans hs1)
      have := unmapInternal_stale_start (m := m) (s := { s with stale := fun _ => false })
        (v := (t.zone z).virtAddr) hlen
      rw [← hstale, hp] at this
      cases this
    · intro hlen
      refine ⟨s', hcall, fun p => ?_⟩
      rw [hstale, not_not.mp hlen, unmapInternal_stale_zero]

end AddrSpace

/-- The call is `free` or `unmap`. -/
def Call.removes {π : Type*} : Call π → Bool
  | .free _ | .unmap _ => true
  | _ => false

namespace Client
variable {π : Type*} {links : Links UInt64} {m : Memory π} {k : Client π} {c : Call π}

/-- In every state of such a run, `free` and `unmap` flush what they unmap exactly if that is
nothing. -/
theorem flushes_iff {s : AddrSpace (LinkedList UInt64 × Links UInt64) π} {kernelZ : UInt64}
    {zone : UInt64 → VirtZone} {w : π} {calls : List (Call π)}
    (h : AddrSpace.init (.linked links) kernelZ zone w = some s)
    (hc : Machine.Along (step links m) (fun k c => AddrSpace.Careful m k.space c) ⟨s, []⟩ calls) :
    Machine.Along (step links m) (fun k c => k.space.isCurrent = true → c.removes = true →
      (AddrSpace.Flushes links m k.space c ↔ ¬ AddrSpace.Unmaps k.space c)) ⟨s, []⟩ calls := by
  refine Machine.along_of_along (fun _ _ _ hk hc hs => hk.of_step hc hs) ?_ (knows_init h) hc
  rintro k c ⟨t, hsound, -⟩ hc - hremoves
  cases c with
  | free mem => exact hsound.flushes_free hc
  | unmap virtAddr => exact hsound.flushes_unmap hc
  | _ => cases hremoves

theorem flushes_iff_calls : ∃ s : AddrSpace (LinkedList UInt64 × Links UInt64) UInt64,
    AddrSpace.init (.linked fun _ => ⟨none, none⟩) 0x100 (fun _ => AddrSpace.kernelZone) kernelVma =
      some s ∧
    Machine.Along (step (fun _ => ⟨none, none⟩) .plenty)
      (fun k c => k.space.isCurrent = true → c.removes = true →
        (AddrSpace.Flushes (fun _ => ⟨none, none⟩) .plenty k.space c ↔
          ¬ AddrSpace.Unmaps k.space c))
      ⟨s, []⟩ [.elapse kernelVma true, .alloc (some 0x200) 0x1000 6, .free 0x1000,
        .map (some 0x200) kernelVma 0x1000 6, .unmap 0x1000, .unmap 0x1000] :=
  ⟨_, rfl, flushes_iff rfl (by decide +kernel)⟩

/-- A page that was mapped and unmapped again is still cached. -/
theorem not_flushes_unmap : ¬ ∀ s : AddrSpace (LinkedList UInt64 × Links UInt64) UInt64,
    AddrSpace.init (.linked fun _ => ⟨none, none⟩) 0x100 (fun _ => AddrSpace.kernelZone) kernelVma =
      some s →
    Machine.Along (step (fun _ => ⟨none, none⟩) .plenty)
      (fun k c => k.space.isCurrent = true → c.removes = true →
        AddrSpace.Flushes (fun _ => ⟨none, none⟩) .plenty k.space c)
      ⟨s, []⟩ [.elapse kernelVma true, .map (some 0x200) kernelVma 0x1000 6, .unmap 0x1000] := by
  intro h
  have hrun : (Machine.run (step (fun _ => ⟨none, none⟩) .plenty)
      ⟨⟨LinkedList.append 0x100 {} fun _ => ⟨none, none⟩,
        Function.update (fun _ => AddrSpace.kernelZone) 0x100 AddrSpace.kernelZone, kernelVma, false,
        [0x100], [], fun _ => false⟩, []⟩
      [.elapse kernelVma true, .map (some 0x200) kernelVma 0x1000 6]).any (fun k =>
        k.space.isCurrent = true ∧
          (AddrSpace.call (.linked fun _ => ⟨none, none⟩) .plenty
            { k.space with stale := fun _ => false } (.unmap 0x1000)).all fun s' =>
              s'.stale 0x1000 = true) = true := by
    decide +kernel
  obtain ⟨k, hk, hstale⟩ := (Option.any_eq_true _ _).mp hrun
  obtain ⟨hcur, hstale⟩ := of_decide_eq_true hstale
  obtain ⟨s', hs', hflushed⟩ := (h _ rfl).of_run [_, _] hk hcur rfl
  rw [hs', Option.all_some, decide_eq_true_eq, hflushed] at hstale
  cases hstale

end Client
end EpochKernel.Mem
