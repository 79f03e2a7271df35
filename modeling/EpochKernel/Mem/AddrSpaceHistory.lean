import EpochKernel.Mem.AddrSpaceFree

/-! Histories of calls over `linked_list` as it is, with the pointers that `alloc` has returned and
that were not freed since. -/
namespace EpochKernel.Mem
open EpochKernel.Util EpochKernel.Library

namespace AddrSpace
variable {π : Type*} {m : Memory π} {K : Links UInt64}
  {s s' : AddrSpace (LinkedList UInt64 × Links UInt64) π} {t t' : AddrSpace (List UInt64) π}
  {virtAddr a n out flags physAddr : UInt64} {zo : Option UInt64} {c : Call π}

section Calls

lemma Careful.roomy (hc : Careful m s c) (h : Shows s t) : Roomy m t c := by
  have := hc.2.1
  rw [h.seq_eq] at this
  cases c <;> exact this

lemma Careful.short (hc : Careful m s c) (h : Shows s t) : t.virtAllocs.length < 2 ^ 31 := by
  have := hc.1
  rwa [h.seq_eq] at this

/-- What `alloc` returns is allocated. -/
lemma Sound.alloc (h : Sound s t) (hzo : zo.all fun z => z ∉ s.objs)
    (hc : Careful m s (.alloc zo n flags))
    (hs : s.alloc (.linked K) m zo n flags = some (out, s')) :
    ∃ t', Sound s' t' ∧ ∀ a, Allocated t' a ↔ (out ≠ 0 ∧ a = out) ∨ Allocated t a := by
  rw [h.shows.objs] at hzo
  obtain ⟨t', hshow, hready, hres, hne⟩ := alloc_shows h.shows h.inv h.ready (hc.short h.shows) hzo
    (hc.roomy h.shows) hs
  refine ⟨t', ⟨hshow, hready, hres.inv, hres.solid h.solid fun _ => hne⟩, fun a => ?_⟩
  rw [hres.allocated]
  simp

lemma Result.allocated_of_ne {type : AllocType} (h : Result t t' out type n)
    (htype : type ≠ .valloc) : Allocated t' a ↔ Allocated t a := by
  rw [h.allocated]
  exact or_iff_right fun hn => htype hn.2.1

lemma Sound.map (h : Sound s t) (hzo : zo.all fun z => z ∉ s.objs)
    (hc : Careful m s (.map zo physAddr n flags))
    (hs : s.map (.linked K) m zo physAddr n flags = some (out, s')) :
    ∃ t', Sound s' t' ∧ ∀ a, Allocated t' a ↔ Allocated t a := by
  rw [h.shows.objs] at hzo
  obtain ⟨t', hshow, hready, hres⟩ := map_shows h.shows h.inv h.ready (hc.short h.shows) hzo
    (hc.roomy h.shows) hs
  exact ⟨t', ⟨hshow, hready, hres.inv, hres.solid h.solid nofun⟩, fun _ => hres.allocated_of_ne nofun⟩

lemma Sound.reserve (h : Sound s t) (hzo : zo.all fun z => z ∉ s.objs)
    (hc : Careful m s (.reserve zo n))
    (hs : s.reserve (.linked K) zo n = some (out, s')) :
    ∃ t', Sound s' t' ∧ ∀ a, Allocated t' a ↔ Allocated t a := by
  rw [h.shows.objs] at hzo
  obtain ⟨t', hshow, hready, hres⟩ := reserve_shows h.shows h.inv h.ready (hc.short h.shows) hzo
    (hc.roomy h.shows) hs
  exact ⟨t', ⟨hshow, hready, hres.inv, hres.solid h.solid nofun⟩, fun _ => hres.allocated_of_ne nofun⟩

/-- `free` takes its address out of the allocated ones. -/
lemma Sound.free {mem : UInt64} (h : Sound s t) (hc : Careful m s (.free mem)) :
    ∃ s' t', s.free (.linked K) m mem = some s' ∧ Sound s' t' ∧
      Frees t t' (alignDown mem pageSize) ∧
      ∀ a, Allocated t' a ↔ a ≠ alignDown mem pageSize ∧ Allocated t a := by
  obtain ⟨s', t', hs', hshow, hready, hinv, hfrees, -, -⟩ :=
    free_sound (K := K) h.shows h.ready h.inv h.solid hc
  exact ⟨s', t', hs', ⟨hshow, hready, hinv, hfrees.solid h.solid⟩, hfrees,
    fun _ => hfrees.allocated h.inv h.solid⟩

lemma Sound.unmap (h : Sound s t) (hc : Careful m s (.unmap virtAddr)) :
    ∃ r s' t', s.unmap (.linked K) m virtAddr = some (r, s') ∧ Sound s' t' ∧
      ∀ a, Allocated t' a ↔ Allocated t a := by
  rcases unmap_sound (K := K) virtAddr h.shows h.ready h.inv hc with
    ⟨-, s', hs', hshow, hready, -⟩ | ⟨as, z, bs, s', hlist, hz, -, hs', hshow, hready, hinv, -⟩
  · exact ⟨none, s', t, hs', ⟨hshow, hready, h.inv, h.solid⟩, fun _ => Iff.rfl⟩
  · have hk : (t.zone z).type ≠ .valloc := by
      rw [(isZone_iff.mp hz).2]
      nofun
    have hsolid : Solid (t.unmapInternal m (t.zone z).virtAddr (t.zone z).len) := h.solid
    exact ⟨_, s', _, hs', ⟨hshow, hready, hinv, hsolid.without hlist⟩,
      fun _ => allocated_without (t := t.unmapInternal m _ _) hlist hk⟩

lemma Sound.unreserve (h : Sound s t) (hc : Careful m s (.unreserve virtAddr)) :
    ∃ s' t', s.unreserve (.linked K) virtAddr = some s' ∧ Sound s' t' ∧
      ∀ a, Allocated t' a ↔ Allocated t a := by
  obtain ⟨s', hs', ⟨hshow, hready⟩ | ⟨as, z, bs, hlist, hz, hshow, hready, hinv⟩⟩ :=
    unreserve_sound (K := K) h.shows h.ready h.inv hc
  · exact ⟨s', t, hs', ⟨hshow, hready, h.inv, h.solid⟩, fun _ => Iff.rfl⟩
  · have hk : (t.zone z).type ≠ .valloc := by
      rw [(isZone_iff.mp hz).2]
      nofun
    exact ⟨s', _, hs', ⟨hshow, hready, hinv, h.solid.without hlist⟩,
      fun _ => allocated_without hlist hk⟩

lemma Sound.elapse (h : Sound s t) (w : π) (isCurrent : Bool) :
    Sound { s with world := w, isCurrent := isCurrent }
      { t with world := w, isCurrent := isCurrent } :=
  ⟨{ h.shows with world := rfl, isCurrent := rfl }, h.ready, h.inv.of_same ⟨rfl, rfl, rfl⟩, h.solid⟩

/-- The constructor makes an address space without allocations. -/
lemma init_sound {kernelZ : UInt64} {zone : UInt64 → VirtZone} {w : π}
    (h : init (.linked K) kernelZ zone w = some s) :
    ∃ t, Sound s t ∧ ∀ a, ¬ Allocated t a := by
  have hrep := LinkedList.append_represents (LinkedList.represents_empty K)
    (List.not_mem_nil (a := kernelZ))
  have hfits : kernelZone.virtAddr + kernelZone.len ≤ maxMem := by decide
  have hinit : init (.linked K) kernelZ zone w =
      some ⟨LinkedList.append kernelZ {} K, Function.update zone kernelZ kernelZone, w, false,
        [kernelZ], [], fun _ => false⟩ := by
    simp only [init, insertVirtZone, insertLoop, insertEnd, AddrSpace.len, AddrSpace.append,
      ListOps.linked, lt_irrefl, if_false, Option.map_some, Option.all_none, Function.update_self,
      hfits, and_self, if_true]
  obtain rfl := Option.some.inj (hinit.symm.trans h)
  have hkind (c : UInt64) (hc : c ∈ [kernelZ]) :
      (Function.update zone kernelZ kernelZone c).type ≠ .valloc := by
    rw [List.mem_singleton.mp hc, Function.update_self]
    decide
  refine ⟨_, ⟨⟨hrep, rfl, rfl, rfl, rfl, rfl⟩, .inl ?_, init_inv init_eq,
    fun z hz htype => absurd htype (hkind z hz)⟩, ?_⟩
  · have hempty : LinkedList.Coherent ({} : LinkedList UInt64) [] := .inl rfl
    exact hempty.append
  · rintro a ⟨z, hz, hza⟩
    exact hkind z hz (isZone_iff.mp hza).2

end Calls
end AddrSpace

/-- A user of an address space, with the pointers that `alloc` has returned to it and that it has
not freed since. -/
structure Client (π : Type*) where
  space : AddrSpace (LinkedList UInt64 × Links UInt64) π
  live : List UInt64

namespace Client
variable {π : Type*} (links : Links UInt64) (m : Memory π)

/-- A call of the user, in which `new` returns no object that is in use. -/
def step (k : Client π) (c : Call π) : Option (Client π) :=
  if c.object.all fun z => z ∉ k.space.objs then
    match c with
    | .alloc z n flags => (k.space.alloc (.linked links) m z n flags).map fun r =>
        ⟨r.2, if r.1 = 0 then k.live else r.1 :: k.live⟩
    | .free mem => (k.space.free (.linked links) m mem).map fun s =>
        ⟨s, k.live.filter fun a => a ≠ alignDown mem pageSize⟩
    | c => (k.space.call (.linked links) m c).map fun s => ⟨s, k.live⟩
  else none

variable {links m} {k k' : Client π} {c : Call π}

/-- The pointers that are live are those of the allocations of the address space. -/
def Knows (k : Client π) : Prop :=
  ∃ t, AddrSpace.Sound k.space t ∧ ∀ a, a ∈ k.live ↔ AddrSpace.Allocated t a

/-- A careful call keeps the list in order, and its user informed. -/
lemma Knows.of_step (h : Knows k) (hc : AddrSpace.Careful m k.space c)
    (hs : step links m k c = some k') : Knows k' := by
  obtain ⟨t, hsound, hlive⟩ := h
  unfold Client.step at hs
  split_ifs at hs with hz
  cases c with
  | alloc z n flags =>
    obtain ⟨⟨out, s'⟩, hr, rfl⟩ := Option.map_eq_some_iff.mp hs
    obtain ⟨t', hsound', hall⟩ := hsound.alloc hz hc hr
    refine ⟨t', hsound', fun a => ?_⟩
    rw [hall a, ← hlive a]
    dsimp only
    split_ifs with hout
    · exact ⟨.inr, fun ha => ha.resolve_left fun hn => hn.1 hout⟩
    · rw [List.mem_cons, and_iff_right hout]
  | free mem =>
    obtain ⟨s', hr, rfl⟩ := Option.map_eq_some_iff.mp hs
    obtain ⟨s1, t', hr', hsound', -, hall⟩ := hsound.free (K := links) hc
    obtain rfl := Option.some.inj (hr'.symm.trans hr)
    refine ⟨t', hsound', fun a => ?_⟩
    rw [hall a, ← hlive a, List.mem_filter, decide_eq_true_eq]
    exact And.comm
  | map z physAddr n flags =>
    obtain ⟨s', hs', rfl⟩ := Option.map_eq_some_iff.mp hs
    obtain ⟨⟨out, s'⟩, hr, rfl⟩ := Option.map_eq_some_iff.mp hs'
    obtain ⟨t', hsound', hall⟩ := hsound.map hz hc hr
    exact ⟨t', hsound', fun a => (hlive a).trans (hall a).symm⟩
  | mapAt z physAddr virtAddr n flags => exact absurd (hc.roomy hsound.shows) id
  | unmap virtAddr =>
    obtain ⟨s', hs', rfl⟩ := Option.map_eq_some_iff.mp hs
    obtain ⟨⟨out, s'⟩, hr, rfl⟩ := Option.map_eq_some_iff.mp hs'
    obtain ⟨r, s1, t', hr', hsound', hall⟩ := hsound.unmap (K := links) hc
    obtain ⟨rfl, rfl⟩ := Prod.mk.inj (Option.some.inj (hr'.symm.trans hr))
    exact ⟨t', hsound', fun a => (hlive a).trans (hall a).symm⟩
  | reserve z n =>
    obtain ⟨s', hs', rfl⟩ := Option.map_eq_some_iff.mp hs
    obtain ⟨⟨out, s'⟩, hr, rfl⟩ := Option.map_eq_some_iff.mp hs'
    obtain ⟨t', hsound', hall⟩ := hsound.reserve hz hc hr
    exact ⟨t', hsound', fun a => (hlive a).trans (hall a).symm⟩
  | reserveAt z virtAddr n => exact absurd (hc.roomy hsound.shows) id
  | unreserve virtAddr =>
    obtain ⟨s', hr, rfl⟩ := Option.map_eq_some_iff.mp hs
    obtain ⟨s1, t', hr', hsound', hall⟩ := hsound.unreserve (K := links) hc
    obtain rfl := Option.some.inj (hr'.symm.trans hr)
    exact ⟨t', hsound', fun a => (hlive a).trans (hall a).symm⟩
  | elapse w isCurrent =>
    obtain ⟨s', hr, rfl⟩ := Option.map_eq_some_iff.mp hs
    obtain rfl := Option.some.inj hr
    exact ⟨_, hsound.elapse w isCurrent, hlive⟩

/-- A user of a new address space. -/
lemma knows_init {s : AddrSpace (LinkedList UInt64 × Links UInt64) π} {kernelZ : UInt64}
    {zone : UInt64 → VirtZone} {w : π}
    (h : AddrSpace.init (.linked links) kernelZ zone w = some s) : Knows ⟨s, []⟩ := by
  obtain ⟨t, hsound, hnone⟩ := AddrSpace.init_sound h
  exact ⟨t, hsound, fun a => iff_of_false List.not_mem_nil (hnone a)⟩

/-- `free` of a live pointer takes the zone that starts there out of the list and hands each of its
physical zones to `mem::free`; at any other address it changes nothing. -/
def Exact (links : Links UInt64) (m : Memory π) (k : Client π) : Call π → Prop
  | .free mem => ∃ s', k.space.free (.linked links) m mem = some s' ∧
      s'.zone = k.space.zone ∧ if alignDown mem pageSize ∈ k.live then
        ∃ z ∈ k.space.seq.virtAllocs, k.space.isZone (alignDown mem pageSize) .valloc z = true ∧
          s'.seq.virtAllocs = k.space.seq.virtAllocs.erase z ∧
          s'.freed = k.space.freed ++ (k.space.zone z).allocations.map (·.addr)
      else s'.seq.virtAllocs = k.space.seq.virtAllocs ∧ s'.freed = k.space.freed ∧
        s'.objs = k.space.objs ∧ s'.world = k.space.world
  | _ => True

lemma Knows.exact (h : Knows k) (hc : AddrSpace.Careful m k.space c) : Exact links m k c := by
  cases c with
  | free mem =>
    obtain ⟨t, hsound, hlive⟩ := h
    obtain ⟨s', t', hs', hsound', hfrees, -⟩ := hsound.free (K := links) hc
    have hseq : k.space.seq.virtAllocs = t.virtAllocs := by rw [hsound.shows.seq_eq]
    have hseq' : s'.seq.virtAllocs = t'.virtAllocs := by rw [hsound'.shows.seq_eq]
    refine ⟨s', hs', ?_, ?_⟩
    · rw [hsound'.shows.zone, hsound.shows.zone]
      rcases hfrees with ⟨as, z, bs, -, -, -, hzone, -⟩ | ⟨-, rfl⟩
      · exact hzone
      · rfl
    rw [hseq, hseq', hsound'.shows.freed, hsound.shows.freed, hsound'.shows.objs,
      hsound.shows.objs, hsound'.shows.world, hsound.shows.world, hsound.shows.zone,
      hsound.shows.isZone]
    rcases hfrees with ⟨as, z, bs, hlist, hz, hlist', -, -, hfreed⟩ | ⟨hnone, rfl⟩
    · have hmem : z ∈ t.virtAllocs := by simp [hlist]
      have hnd := hsound.inv.nodup
      rw [hlist] at hnd
      have hzas : z ∉ as := fun hin => List.disjoint_of_nodup_append hnd hin (by simp)
      rw [if_pos ((hlive _).mpr ⟨z, hmem, hz⟩)]
      refine ⟨z, hmem, hz, ?_, hfreed⟩
      rw [hlist', hlist, List.erase_append_right _ hzas, List.erase_cons_head]
    · have hno : ¬ AddrSpace.Allocated t' (alignDown mem pageSize) := by
        rintro ⟨z, hz, hza⟩
        rw [hnone z hz] at hza
        cases hza
      rw [if_neg (mt (hlive _).mp hno)]
      exact ⟨rfl, rfl, rfl, rfl⟩
  | _ => trivial

/-- In a history of careful calls, `free` takes away what was allocated and nothing else. -/
theorem free_exact {s : AddrSpace (LinkedList UInt64 × Links UInt64) π} {kernelZ : UInt64}
    {zone : UInt64 → VirtZone} {w : π} {calls : List (Call π)}
    (h : AddrSpace.init (.linked links) kernelZ zone w = some s)
    (hc : Machine.Along (step links m) (fun k c => AddrSpace.Careful m k.space c) ⟨s, []⟩ calls) :
    Machine.Along (step links m) (Exact links m) ⟨s, []⟩ calls :=
  Machine.along_of_along (fun _ _ _ hk hc hs => hk.of_step hc hs) (fun _ _ hk hc => hk.exact hc)
    (knows_init h) hc

theorem free_exact_calls : ∃ s : AddrSpace (LinkedList UInt64 × Links UInt64) UInt64,
    AddrSpace.init (.linked fun _ => ⟨none, none⟩) 0x100 (fun _ => AddrSpace.kernelZone) kernelVma =
      some s ∧
    Machine.Along (step (fun _ => ⟨none, none⟩) .plenty) (Exact (fun _ => ⟨none, none⟩) .plenty)
      ⟨s, []⟩ [.elapse kernelVma true, .reserve (some 0x200) 0x1000, .alloc (some 0x300) 0x2000 6,
        .free 0x2000, .alloc (some 0x300) 0x1000 6, .map (some 0x400) kernelVma 0x1000 6,
        .unmap 0x3000, .free 0x2000] :=
  ⟨_, rfl, free_exact rfl (by decide +kernel)⟩

/-- The reservation leaves the cursor behind the allocation, so that `free` does not meet it. -/
theorem not_exact_reserve : ¬ ∀ s : AddrSpace (LinkedList UInt64 × Links UInt64) UInt64,
    AddrSpace.init (.linked fun _ => ⟨none, none⟩) 0x100 (fun _ => AddrSpace.kernelZone) kernelVma =
      some s →
    Machine.Along (step (fun _ => ⟨none, none⟩) .plenty) (Exact (fun _ => ⟨none, none⟩) .plenty)
      ⟨s, []⟩ [.elapse kernelVma true, .alloc (some 0x200) 0x1000 6, .reserve (some 0x300) 0x1000,
        .free 0x1000] := by
  intro h
  have hrun : (Machine.run (step (fun _ => ⟨none, none⟩) .plenty)
      ⟨⟨LinkedList.append 0x100 {} fun _ => ⟨none, none⟩,
        Function.update (fun _ => AddrSpace.kernelZone) 0x100 AddrSpace.kernelZone, kernelVma, false,
        [0x100], [], fun _ => false⟩, []⟩
      [.elapse kernelVma true, .alloc (some 0x200) 0x1000 6, .reserve (some 0x300) 0x1000]).any
        (fun k => alignDown 0x1000 pageSize ∈ k.live ∧
          (k.space.free (.linked fun _ => ⟨none, none⟩) .plenty 0x1000).all fun s' =>
            s'.seq.virtAllocs = k.space.seq.virtAllocs) = true := by
    decide +kernel
  obtain ⟨k, hk, hfree⟩ := (Option.any_eq_true _ _).mp hrun
  obtain ⟨hlive, hsame⟩ := of_decide_eq_true hfree
  obtain ⟨s', hs', -, hexact⟩ := (h _ rfl).of_run [_, _, _] hk
  rw [if_pos hlive] at hexact
  obtain ⟨z, hz, -, herase, -⟩ := hexact
  rw [hs', Option.all_some, decide_eq_true_eq] at hsame
  have hlt := List.length_erase_add_one hz
  rw [← herase, hsame] at hlt
  omega

end Client
end EpochKernel.Mem
