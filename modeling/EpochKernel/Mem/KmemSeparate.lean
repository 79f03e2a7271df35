import EpochKernel.Mem.KmemLinked

/-! Runs of the kernel heap that do not make it grow: the blocks in use and the free chunks stay
apart, although the headers of the chunks are in the free memory. -/
namespace EpochKernel.Mem
open EpochKernel.Util EpochKernel.Library

/-- The chunk that is used for a block of `size` bytes. -/
def Chunk.rounded (b : Chunk) : Chunk := ⟨b.addr, alignUp b.size memChunkSize⟩

/-- A block has an aligned address and is not empty. -/
lemma Chunk.Proper.of_rounded {b : Chunk} (h : b.rounded.Proper) :
    alignDown b.addr memChunkSize = b.addr ∧ b.size ≠ 0 := by
  constructor
  · have := alignDown_toNat (x := b.addr) (a := memChunkSize) (k := 4) rfl
    have hdvd : 16 ∣ b.addr.toNat := h.dvd_addr
    exact UInt64.toNat_inj.mp (by omega)
  · intro h0
    have hpos := h.pos
    rw [Chunk.rounded, h0] at hpos
    exact absurd hpos (show ¬ 0 < (alignUp 0 memChunkSize).toNat by decide)

/-- The heap, and the blocks that are in use, with the sizes that were asked for. -/
structure HeapUsers (π : Type*) where
  heap : Heap π
  live : List Chunk

/-- The calls on the heap, and the writes of its users to words of memory. -/
inductive HeapCall
  | kalloc (n : UInt64)
  | kfree (b : Chunk)
  | store (a v : UInt64)

namespace HeapUsers
variable {π : Type*} (e : HeapEnv π)

def step (u : HeapUsers π) : HeapCall → Option (HeapUsers π)
  | .kalloc n => (Heap.kalloc e n u.heap).map fun r =>
      ⟨r.2, if r.1 = 0 then u.live else ⟨r.1, n⟩ :: u.live⟩
  | .kfree b => (Heap.kfree e b.addr b.size u.heap).map fun h => ⟨h, u.live.erase b⟩
  | .store a v => some ⟨{ u.heap with words := Function.update u.heap.words a v }, u.live⟩

/-- The chunks on the free list. -/
def free (u : HeapUsers π) : List Chunk := u.heap.words.chunksFrom (2 ^ 60 + 1) e.memStart

/-- The calls that find a chunk and do not use up the only one, that free a block in use, and the
writes to blocks in use. -/
def Allowed (u : HeapUsers π) : HeapCall → Prop
  | .kalloc n => 0 < n.toNat ∧ n.toNat ≤ 2 ^ 48 ∧
      (∃ c ∈ u.free e, alignUp n memChunkSize ≤ c.size) ∧
      (u.free e).map (·.size) ≠ [alignUp n memChunkSize]
  | .kfree b => b ∈ u.live
  | .store a _ => 8 ∣ a.toNat ∧ ∃ b ∈ u.live, a.toNat ∈ b.rounded.bytes

instance (c : Chunk) (x : ℕ) : Decidable (x ∈ c.bytes) :=
  decidable_of_iff _ Chunk.mem_bytes.symm

instance (u : HeapUsers π) : (c : HeapCall) → Decidable (Allowed e u c)
  | .kalloc _ => inferInstanceAs (Decidable (_ ∧ _ ∧ _ ∧ _))
  | .kfree _ => inferInstanceAs (Decidable (_ ∈ _))
  | .store .. => inferInstanceAs (Decidable (_ ∧ _))

/-- The free list and the blocks in use are where they should be. -/
structure Sound (u : HeapUsers π) (cs : List Chunk) : Prop where
  linked : u.heap.words.Linked e.memStart cs
  size_eq : u.heap.words.size e.memStart = 0
  ascending : Ascending cs
  nonempty : cs ≠ []
  start : ∀ a, a = e.memStart ∨ a = e.memStart + 8 →
    a.toNat ∉ chunkBytes cs ∧ ∀ b ∈ u.live, a.toNat ∉ b.rounded.bytes
  proper : ∀ b ∈ u.live, b.rounded.Proper
  pairwise : u.live.Pairwise fun b d => Disjoint b.rounded.bytes d.rounded.bytes
  disjoint : ∀ b ∈ u.live, Disjoint b.rounded.bytes (chunkBytes cs)

/-- A heap with a free list in order and blocks in use apart from it. -/
def WellFormed (u : HeapUsers π) : Prop := ∃ cs, Sound e u cs

/-- What the heap is meant to be. -/
structure Separate (u : HeapUsers π) : Prop where
  live : u.live.Pairwise fun b d => Disjoint b.rounded.bytes d.rounded.bytes
  free : ∀ b ∈ u.live, ∀ c ∈ u.free e, Disjoint b.rounded.bytes c.bytes
  ascending : (u.free e).Pairwise fun c d => c.addr < d.addr
  acyclic : u.heap.words.Linked e.memStart (u.free e)

/-- The block `b` has the same contents in both memories. -/
def Kept (w w' : Words) (b : Chunk) : Prop := ∀ a : UInt64, a.toNat ∈ b.rounded.bytes → w' a = w a

/-- What a call is meant to do: `kalloc` returns aligned and zeroed memory that was free, and both
calls leave the contents of the blocks in use alone. -/
def Answers (u : HeapUsers π) : HeapCall → Prop
  | .kalloc n => ∃ out h, Heap.kalloc e n u.heap = some (out, h) ∧ out ≠ 0 ∧ 16 ∣ out.toNat ∧
      n ≤ (⟨out, n⟩ : Chunk).rounded.size ∧
      (∃ c ∈ u.free e, (⟨out, n⟩ : Chunk).rounded.bytes ⊆ c.bytes) ∧
      (∀ a : UInt64, a.toNat ∈ (⟨out, n⟩ : Chunk).rounded.bytes → h.words a = 0) ∧
      ∀ b ∈ u.live, Kept u.heap.words h.words b
  | .kfree b => ∃ h, Heap.kfree e b.addr b.size u.heap = some h ∧
      ∀ d ∈ u.live.erase b, Kept u.heap.words h.words d
  | .store .. => True

variable {e} {u u' : HeapUsers π} {cs : List Chunk} {b : Chunk} {n a v : UInt64}

lemma Sound.free_eq (h : Sound e u cs) : u.free e = cs := by
  have := h.ascending.length_le
  exact h.linked.chunksFrom_eq (by omega)

lemma Sound.separate (h : Sound e u cs) : Separate e u := by
  refine ⟨h.pairwise, ?_, ?_, ?_⟩
  · rw [h.free_eq]
    intro b hb c hc
    exact Set.disjoint_left.mpr fun x hx hxc => Set.disjoint_left.mp (h.disjoint b hb) hx ⟨c, hc, hxc⟩
  · rw [h.free_eq]
    refine h.ascending.pairwise.imp_of_mem fun {c d} hc _ hcd => ?_
    have := (h.ascending.proper c hc).pos
    rw [Chunk.Before] at hcd
    exact UInt64.lt_iff_toNat_lt.mpr (by omega)
  · rw [h.free_eq]
    exact h.linked

lemma takeFirst_isSome (h : ∃ c ∈ cs, n ≤ c.size) : ∃ r, takeFirst n cs = some r := by
  induction cs with
  | nil => simp at h
  | cons c cs ih =>
    rw [takeFirst]
    split_ifs with hle
    · exact ⟨_, rfl⟩
    · obtain ⟨d, hd, hfit⟩ := h
      obtain ⟨r, hr⟩ := ih ⟨d, (List.mem_cons.mp hd).resolve_left fun he => hle (he ▸ hfit), hfit⟩
      exact ⟨_, by rw [hr, Option.map_some]⟩

/-- Only an exact fit takes the last chunk away. -/
lemma takeFirst_ne_nil {r : UInt64 × List Chunk} (h : takeFirst n cs = some r)
    (hmore : cs.map (·.size) ≠ [n]) : r.2 ≠ [] := by
  cases cs with
  | nil => cases h
  | cons c cs =>
    rw [takeFirst] at h
    split_ifs at h with hle
    · obtain rfl := Option.some.inj h
      intro hnil
      obtain ⟨hcut, rfl⟩ := List.append_eq_nil_iff.mp hnil
      rw [Chunk.cut] at hcut
      split_ifs at hcut with he
      exact hmore (by rw [List.map_cons, he, List.map_nil])
    · obtain ⟨s, -, rfl⟩ := Option.map_eq_some_iff.mp h
      exact List.cons_ne_nil _ _

lemma alignUp_chunk (h0 : 0 < n.toNat) (hle : n.toNat ≤ 2 ^ 48) :
    16 ∣ (alignUp n memChunkSize).toNat ∧ n.toNat ≤ (alignUp n memChunkSize).toNat := by
  have hround := alignUp_toNat (x := n) (a := memChunkSize) (k := 4) rfl (by omega)
  exact ⟨dvd_alignUp (k := 4) rfl, by omega⟩

lemma Sound.fuel (h : Sound e u cs) : cs.length ≤ 2 ^ 60 := by
  have := h.ascending.length_le
  omega

/-- `kalloc` takes its block from the first chunk that fits, as long as another chunk is left. -/
lemma Sound.kalloc_taken (h : Sound e u cs) {cs' : List Chunk} {out : UInt64}
    (hpos : 0 < (alignUp n memChunkSize).toNat) (hn : n ≠ 0)
    (ht : takeFirst (alignUp n memChunkSize) cs = some (out, cs'))
    (hmore : cs.map (·.size) ≠ [alignUp n memChunkSize]) :
    ∃ w', Heap.kalloc e n u.heap = some (out, { u.heap with words := w' }) ∧
      Sound e ⟨{ u.heap with words := w' }, ⟨out, n⟩ :: u.live⟩ cs' ∧
      Taken (alignUp n memChunkSize) cs out cs' ∧
      (∀ a : UInt64, a.toNat ∈ (⟨out, n⟩ : Chunk).rounded.bytes → w' a = 0) ∧
      ∀ b ∈ u.live, Kept u.heap.words w' b := by
  have hdvd : 16 ∣ (alignUp n memChunkSize).toNat := dvd_alignUp (k := 4) rfl
  obtain ⟨htaken, -⟩ := takeFirst_taken h.ascending hdvd hpos ht
  have hne := takeFirst_ne_nil ht hmore
  have hsub : ∀ x ∈ (⟨out, n⟩ : Chunk).rounded.bytes, x ∈ chunkBytes cs := fun x hx => by
    obtain ⟨c, hc, hin⟩ := htaken.inside
    exact ⟨c, hc, hin hx⟩
  obtain ⟨w', hr, hlinked, hzero, hframe⟩ : ∃ w',
      Heap.kalloc e n u.heap = some (out, { u.heap with words := w' }) ∧
        w'.Linked e.memStart cs' ∧
        (∀ a, a.toNat ∈ (⟨out, alignUp n memChunkSize⟩ : Chunk).bytes → w' a = 0) ∧
        ∀ a, a ≠ e.memStart → a.toNat ∉ chunkBytes cs → w' a = u.heap.words a := by
    obtain ⟨c, cs0, rfl⟩ := List.exists_cons_of_ne_nil h.nonempty
    have hstart := (h.start _ (.inl rfl)).1
    have hfuel := h.fuel
    rw [Heap.kalloc, if_neg hn, h.linked.1]
    refine kallocLoop_spec hdvd hpos h.linked h.ascending hstart hstart ht ?_ hfuel
    rintro ⟨-, rfl, hsize⟩
    exact hmore (by rw [List.map_cons, hsize, List.map_nil])
  have hkept (b : Chunk) (hb : b ∈ u.live) : Kept u.heap.words w' b := fun a ha =>
    hframe a (fun he => (h.start a (.inl he)).2 b hb ha) (Set.disjoint_left.mp (h.disjoint b hb) ha)
  refine ⟨w', hr, ?_, htaken, hzero, hkept⟩
  refine ⟨hlinked, ?_, htaken.ascending, hne, fun a ha => ⟨fun hx => ?_, ?_⟩, ?_, ?_, ?_⟩
  · have hstart := (h.start _ (.inr rfl)).1
    have h8 : e.memStart + 8 ≠ e.memStart := by simp
    exact (hframe _ h8 hstart).trans h.size_eq
  · exact (h.start a ha).1 ((htaken.bytes _).mp hx).1
  · exact List.forall_mem_cons.mpr
      ⟨fun hx => (h.start a ha).1 (hsub _ hx), (h.start a ha).2⟩
  · exact List.forall_mem_cons.mpr ⟨htaken.proper, h.proper⟩
  · refine List.pairwise_cons.mpr ⟨fun b hb => ?_, h.pairwise⟩
    exact Set.disjoint_left.mpr fun x hx hxb =>
      Set.disjoint_left.mp (h.disjoint b hb) hxb (hsub x hx)
  · refine List.forall_mem_cons.mpr ⟨?_, fun b hb => ?_⟩
    · exact Set.disjoint_left.mpr fun x hx hxc => ((htaken.bytes x).mp hxc).2 hx
    · exact (h.disjoint b hb).mono_right fun x hx => ((htaken.bytes x).mp hx).1

/-- `kalloc` on a heap in order. -/
lemma Sound.kalloc (h : Sound e u cs) (hc : Allowed e u (.kalloc n)) :
    Answers e u (.kalloc n) ∧ ∃ u' cs', step e u (.kalloc n) = some u' ∧ Sound e u' cs' := by
  obtain ⟨hpos, hle, hfits, hmore⟩ := hc
  rw [h.free_eq] at hfits hmore
  obtain ⟨-, hround⟩ := alignUp_chunk hpos hle
  have hn : n ≠ 0 := fun h0 => by
    rw [h0] at hpos
    exact absurd hpos (lt_irrefl _)
  obtain ⟨⟨out, cs'⟩, ht⟩ := takeFirst_isSome hfits
  obtain ⟨w', hr, hsound, htaken, hzero, hkept⟩ := h.kalloc_taken (by omega) hn ht hmore
  refine ⟨⟨out, _, hr, htaken.proper.addr_ne, htaken.proper.dvd_addr,
    UInt64.le_iff_toNat_le.mpr hround, ?_, hzero, hkept⟩, _, cs', ?_, hsound⟩
  · rw [h.free_eq]
    exact htaken.inside
  · rw [step, hr, Option.map_some, if_neg htaken.proper.addr_ne]

/-- The list that `kfree` leaves behind. -/
lemma Sound.giveBack_eq (h : Sound e u cs) {c d : Chunk} {cs0 ds : List Chunk} (hb : b.Proper)
    (hcs : cs = c :: cs0) (hdisj : ∀ d ∈ cs, Disjoint b.bytes d.bytes)
    (hds : giveBack b ⟨e.memStart, 0⟩ cs = d :: ds) :
    d = ⟨e.memStart, 0⟩ ∧ Ascending ds ∧ ds ≠ [] ∧
      ∀ x ∈ chunkBytes ds, x ∈ chunkBytes cs ∨ x ∈ b.bytes := by
  have hasc := h.ascending
  subst hcs
  rw [giveBack] at hds
  split_ifs at hds with hlt htaken
  · obtain ⟨rfl, rfl⟩ := List.cons.inj hds
    exact ⟨rfl, hasc, h.nonempty, fun x hx => .inl hx⟩
  · -- the test of `kfree` holds in front of the first chunk
    rw [not_or] at htaken
    exact absurd (show b.addr < c.addr + 0 by rwa [add_zero]) htaken.1
  · obtain ⟨rfl, rfl⟩ := List.cons.inj hds
    have hbefore : c.Before b := hb.before_of_disjoint (hdisj c List.mem_cons_self).symm
      (Nat.not_lt.mp fun hn => hlt (UInt64.lt_iff_toNat_lt.mpr hn))
    obtain ⟨hasc', ⟨f, fs, hfs, -⟩, hbytes⟩ := giveBack_given hasc hb hbefore
      fun d hd => hdisj d (List.mem_cons_of_mem _ hd)
    exact ⟨rfl, hasc', by rw [hfs]; exact List.cons_ne_nil f fs, hbytes⟩

/-- `kfree` stores the list that `giveBack` describes. -/
lemma Sound.kfree_stored (h : Sound e u cs) (hb : b ∈ u.live) :
    ∃ w' ds, Heap.kfree e b.addr b.size u.heap = some { u.heap with words := w' } ∧
      giveBack b.rounded ⟨e.memStart, 0⟩ cs = ⟨e.memStart, 0⟩ :: ds ∧
      w'.size e.memStart = 0 ∧ w'.Linked e.memStart ds ∧ Ascending ds ∧ ds ≠ [] ∧
      (∀ x ∈ chunkBytes ds, x ∈ chunkBytes cs ∨ x ∈ b.rounded.bytes) ∧
      ∀ a, a ≠ e.memStart → a ≠ e.memStart + 8 → a.toNat ∉ chunkBytes (b.rounded :: cs) →
        w' a = u.heap.words a := by
  have hproper := h.proper b hb
  obtain ⟨haddr, hsize⟩ := hproper.of_rounded
  have hdisj (d : Chunk) (hd : d ∈ cs) : Disjoint b.rounded.bytes d.bytes :=
    Set.disjoint_left.mpr fun x hx hxd => Set.disjoint_left.mp (h.disjoint b hb) hx ⟨d, hd, hxd⟩
  obtain ⟨c, cs0, hcs⟩ := List.exists_cons_of_ne_nil h.nonempty
  obtain ⟨w', d, ds, hr, hds, -, hdsize, hlinked, hframe⟩ : GaveBack b.rounded ⟨e.memStart, 0⟩ cs
      u.heap.words (u.heap.words.kfreeLoop b.rounded.addr b.rounded.size (2 ^ 60) e.memStart c.addr) := by
    have hlinked := h.linked
    have hstart := h.start
    have hasc := h.ascending
    have hfuel := h.fuel
    rw [hcs] at hlinked hstart hasc hdisj hfuel ⊢
    refine kfreeLoop_spec hproper h.size_eq (by simp) hlinked hasc hdisj (fun a ha => ?_) hfuel
    rw [mem_chunkBytes_cons, not_or]
    exact ⟨(hstart a ha).2 b hb, (hstart a ha).1⟩
  obtain ⟨rfl, hasc, hne, hbytes⟩ := h.giveBack_eq hproper hcs hdisj hds
  refine ⟨w', ds, ?_, hds, hdsize, hlinked, hasc, hne, hbytes, hframe⟩
  have hnext : u.heap.words.next e.memStart = c.addr := (hcs ▸ h.linked).1
  rw [Heap.kfree, if_neg hsize, haddr, hnext]
  change Option.map _ (u.heap.words.kfreeLoop b.rounded.addr b.rounded.size _ _ _) = _
  rw [hr]
  rfl

/-- `kfree` on a heap in order. -/
lemma Sound.kfree (h : Sound e u cs) (hb : b ∈ u.live) :
    Answers e u (.kfree b) ∧ ∃ u' cs', step e u (.kfree b) = some u' ∧ Sound e u' cs' ∧
      giveBack b.rounded ⟨e.memStart, 0⟩ cs = ⟨e.memStart, 0⟩ :: cs' := by
  obtain ⟨w', ds, hkfree, hgive, hdsize, hlinked, hasc, hne, hbytes, hframe⟩ := h.kfree_stored hb
  have hothers : ∀ d ∈ u.live.erase b, Disjoint b.rounded.bytes d.rounded.bytes := by
    have hperm := List.perm_cons_erase hb
    have := (hperm.pairwise_iff fun {x y} hxy => Disjoint.symm hxy).mp h.pairwise
    exact (List.pairwise_cons.mp this).1
  have hlive {d : Chunk} (hd : d ∈ u.live.erase b) : d ∈ u.live := List.mem_of_mem_erase hd
  refine ⟨⟨_, hkfree, fun d hd a ha => ?_⟩,
    ⟨{ u.heap with words := w' }, u.live.erase b⟩, ds, ?_, ?_, hgive⟩
  · refine hframe a (fun he => (h.start a (.inl he)).2 d (hlive hd) ha)
      (fun he => (h.start a (.inr he)).2 d (hlive hd) ha) ?_
    rw [mem_chunkBytes_cons, not_or]
    exact ⟨fun hx => Set.disjoint_left.mp (hothers d hd) hx ha,
      Set.disjoint_left.mp (h.disjoint d (hlive hd)) ha⟩
  · rw [step, hkfree, Option.map_some]
  · refine ⟨hlinked, hdsize, hasc, hne, fun a ha => ⟨fun hx => ?_, fun d hd => ?_⟩,
      fun d hd => h.proper d (hlive hd), h.pairwise.sublist List.erase_sublist, fun d hd => ?_⟩
    · exact (hbytes _ hx).elim (h.start a ha).1 ((h.start a ha).2 b hb)
    · exact (h.start a ha).2 d (hlive hd)
    · refine Set.disjoint_left.mpr fun x hx hxd => ?_
      exact (hbytes x hxd).elim (Set.disjoint_left.mp (h.disjoint d (hlive hd)) hx)
        fun hxb => Set.disjoint_left.mp (hothers d hd) hxb hx

/-- A write to a block in use. -/
lemma Sound.store (h : Sound e u cs) (hc : Allowed e u (.store a v)) :
    Sound e ⟨{ u.heap with words := Function.update u.heap.words a v }, u.live⟩ cs := by
  obtain ⟨-, b, hb, ha⟩ := hc
  have hframe (x : UInt64) (hx : x.toNat ∉ b.rounded.bytes) :
      Function.update u.heap.words a v x = u.heap.words x :=
    Function.update_of_ne (fun he : x = a => hx (he ▸ ha)) _ _
  refine { h with linked := ?_, size_eq := ?_ }
  · refine h.linked.congr h.ascending.proper (hframe _ ((h.start _ (.inl rfl)).2 b hb)) fun x hx => ?_
    exact hframe x fun hxb => Set.disjoint_left.mp (h.disjoint b hb) hxb hx
  · exact (hframe _ ((h.start _ (.inr rfl)).2 b hb)).trans h.size_eq

lemma WellFormed.of_step {c : HeapCall} (h : WellFormed e u) (hc : Allowed e u c)
    (hs : step e u c = some u') : WellFormed e u' := by
  obtain ⟨cs, h⟩ := h
  cases c with
  | kalloc n =>
    obtain ⟨-, u1, cs', hs', h'⟩ := h.kalloc hc
    obtain rfl := Option.some.inj (hs'.symm.trans hs)
    exact ⟨cs', h'⟩
  | kfree b =>
    obtain ⟨-, u1, cs', hs', h', -⟩ := h.kfree hc
    obtain rfl := Option.some.inj (hs'.symm.trans hs)
    exact ⟨cs', h'⟩
  | store a v =>
    obtain rfl := Option.some.inj hs
    exact ⟨cs, h.store hc⟩

lemma WellFormed.answers {c : HeapCall} (h : WellFormed e u) (hc : Allowed e u c) : Answers e u c := by
  obtain ⟨cs, h⟩ := h
  cases c with
  | kalloc n => exact (h.kalloc hc).1
  | kfree b => exact (h.kfree hc).1
  | store a v => trivial

/-- In a run without growth, blocks and chunks stay separate and every call does what it should. -/
theorem heap_separate {calls : List HeapCall} (h : WellFormed e u)
    (hc : Machine.Along (step e) (Allowed e) u calls) :
    Machine.Throughout (step e) (Separate e) u calls ∧ Machine.Along (step e) (Answers e) u calls := by
  have hstep (u : HeapUsers π) (c : HeapCall) (u' : HeapUsers π) (h : WellFormed e u)
      (hc : Allowed e u c) (hs : step e u c = some u') : WellFormed e u' := h.of_step hc hs
  refine ⟨fun as bs u' heq hr => ?_, Machine.along_of_along hstep (fun _ _ h hc => h.answers hc) h hc⟩
  obtain ⟨cs, hsound⟩ := Machine.throughout_of_along hstep h hc as bs u' heq hr
  exact hsound.separate

/-- Two free chunks and one block behind them. -/
def small : HeapUsers Unit where
  heap := {
    words a :=
      if a = 0x1000 then 0x2000 else if a = 0x2000 then 0x3000 else if a = 0x2008 then 0x100
      else if a = 0x3008 then 0x8000 else 0
    world := () }
  live := [⟨0x10000, 40⟩]

/-- The two chunks with any block apart from them. -/
lemma sound_small (alloc : UInt64 → Unit → Option UInt64 × Unit) {b : Chunk} (hb : b.rounded.Proper)
    (hout : ∀ x ∈ b.rounded.bytes, (0x1010 ≤ x ∧ x < 0x2000) ∨ 0xb000 ≤ x) :
    Sound ⟨0x1000, alloc⟩ { small with live := [b] } [⟨0x2000, 0x100⟩, ⟨0x3000, 0x8000⟩] := by
  have hbytes (x : ℕ) : x ∈ chunkBytes [⟨0x2000, 0x100⟩, ⟨0x3000, 0x8000⟩] ↔
      (0x2000 ≤ x ∧ x < 0x2100) ∨ (0x3000 ≤ x ∧ x < 0xb000) := by
    rw [mem_chunkBytes_cons, mem_chunkBytes_cons, chunkBytes_nil]
    simp only [Set.mem_empty_iff_false, or_false]
    exact Iff.rfl
  have hlow (a : UInt64) (ha : a = 0x1000 ∨ a = 0x1008) : a.toNat < 0x1010 := by
    rcases ha with rfl | rfl <;> decide
  refine ⟨⟨rfl, by decide, rfl, rfl, by decide, rfl, rfl⟩, rfl,
    ⟨fun c hc => ?_, by decide⟩, nofun, fun a ha => ⟨?_, fun d hd => ?_⟩, fun d hd => ?_,
    List.pairwise_singleton _ _, fun d hd => ?_⟩
  · rcases List.mem_pair.mp hc with rfl | rfl <;> constructor <;> decide
  · have := hlow a ha
    rw [hbytes]
    omega
  · have := hlow a ha
    obtain rfl := List.mem_singleton.mp hd
    intro hx
    have := hout _ hx
    omega
  · obtain rfl := List.mem_singleton.mp hd
    exact hb
  · obtain rfl := List.mem_singleton.mp hd
    refine Set.disjoint_left.mpr fun x hx hxc => ?_
    have := hout x hx
    rw [hbytes] at hxc
    omega

lemma wellFormed_small (alloc : UInt64 → Unit → Option UInt64 × Unit) :
    WellFormed ⟨0x1000, alloc⟩ small := by
  refine ⟨_, sound_small alloc (b := ⟨0x10000, 40⟩) (by constructor <;> decide) fun x hx => .inr ?_⟩
  have hx : 0x10000 ≤ x ∧ x < 0x10030 := hx
  omega

theorem heap_separate_calls :
    Machine.Throughout (step ⟨0x1000, fun _ _ => (none, ())⟩)
      (Separate ⟨0x1000, fun _ _ => (none, ())⟩) small
      [.kalloc 24, .kalloc 0xe0, .store 0x2008 7, .kalloc 100, .kfree ⟨0x2000, 24⟩,
        .kfree ⟨0x10000, 40⟩, .kalloc 8] ∧
    Machine.Along (step ⟨0x1000, fun _ _ => (none, ())⟩)
      (Answers ⟨0x1000, fun _ _ => (none, ())⟩) small
      [.kalloc 24, .kalloc 0xe0, .store 0x2008 7, .kalloc 100, .kfree ⟨0x2000, 24⟩,
        .kfree ⟨0x10000, 40⟩, .kalloc 8] :=
  heap_separate (wellFormed_small _) (by decide +kernel)

end HeapUsers
end EpochKernel.Mem
