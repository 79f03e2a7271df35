import EpochKernel.Mem.KmemReturn

/-! `kfree` in the window of the kernel, where the sum of an address and a size does not wrap: a block below
a free chunk is refused, and any other one becomes the last chunk of the list. -/
namespace EpochKernel.Mem
open EpochKernel.Util EpochKernel.Library

/-- Memory that the physical allocators hand out. -/
structure Chunk.InWindow (c : Chunk) : Prop where
  base_le : kernelVma ≤ c.addr
  end_le : c.addr.toNat + c.size.toNat ≤ 2 ^ 64 - 2 ^ 31
  size_le : c.size.toNat ≤ 2 ^ 31

/-- A chunk of the list lies above the block. -/
def Below (b : Chunk) (cs : List Chunk) : Prop := ∃ c ∈ cs, b.addr < c.addr

instance (b : Chunk) (cs : List Chunk) : Decidable (Below b cs) := inferInstanceAs (Decidable (∃ c ∈ cs, _))

/-- A block that `kfree` does nothing with: it is on the list already, or below a chunk of it. -/
def Settled (b : Chunk) (cs : List Chunk) : Prop := b ∈ cs ∨ Below b cs

section Lists
variable {b c q : Chunk} {cs : List Chunk} {w : Words} {fuel : ℕ}

lemma guarded_of_lt (hc : c.Proper) (hw : c.InWindow) (hq : q.size.toNat ≤ 2 ^ 31) (hlt : b.addr < c.addr) :
    Guarded b q c := by
  have hend := hw.end_le
  have hpos := hc.pos
  have hlt := UInt64.lt_iff_toNat_lt.mp hlt
  refine .inl (UInt64.lt_iff_toNat_lt.mpr ?_)
  rw [UInt64.toNat_add]
  omega

lemma refuses_of_settled (hasc : Ascending cs) (hwin : ∀ c ∈ cs, c.InWindow) (hq : q.size.toNat ≤ 2 ^ 31)
    (h : Settled b cs ∨ (q = b ∧ ∀ c ∈ cs, b.addr < c.addr)) : Refuses b q cs := by
  induction cs generalizing q with
  | nil =>
    rcases h with (h | ⟨c, hc, -⟩) | ⟨rfl, -⟩
    · cases h
    · cases hc
    · rfl
  | cons c cs ih =>
    have hc := hwin c List.mem_cons_self
    rw [Refuses]
    split_ifs with hlt
    · exact guarded_of_lt hasc.head hc hq hlt
    · refine ih hasc.tail (fun d hd => hwin d (List.mem_cons_of_mem _ hd)) hc.size_le ?_
      rcases h with (h | ⟨d, hd, hbd⟩) | ⟨-, h⟩
      · rcases List.mem_cons.mp h with rfl | h
        · refine .inr ⟨rfl, fun d hd => UInt64.lt_iff_toNat_lt.mpr ?_⟩
          have hbefore := hasc.before hd
          have hpos := hasc.head.pos
          rw [Chunk.Before] at hbefore
          omega
        · exact .inl (.inl h)
      · rcases List.mem_cons.mp hd with rfl | hd
        · exact absurd hbd hlt
        · exact .inl (.inr ⟨d, hd, hbd⟩)
      · exact absurd (h c List.mem_cons_self) hlt

lemma Below.cons (h : Below b cs) : Below b (c :: cs) :=
  h.imp fun _ hd => ⟨List.mem_cons_of_mem c hd.1, hd.2⟩

lemma giveBack_of_not_below (h : ¬ Below b cs) : giveBack b q cs = q :: (cs ++ [b]) := by
  induction cs generalizing q with
  | nil => rfl
  | cons c cs ih =>
    rw [giveBack, if_neg fun hlt => h ⟨c, List.mem_cons_self, hlt⟩, ih fun hb => h hb.cons]
    rfl

lemma Below.append {ds : List Chunk} (h : Below b cs) : Below b (cs ++ ds) :=
  h.imp fun _ hc => ⟨List.mem_append_left ds hc.1, hc.2⟩

lemma Settled.append {ds : List Chunk} (h : Settled b cs) : Settled b (cs ++ ds) :=
  h.imp (List.mem_append_left ds) Below.append

/-- At the end of the list the header of the last chunk and that of the block are written. -/
lemma kfreeLoop_of_not_below {prev : UInt64} (h : w.Linked prev (c :: cs)) (hb : ¬ Below b (c :: cs))
    (hfuel : cs.length < fuel) :
    ∃ d ∈ c :: cs, w.kfreeLoop b.addr b.size fuel prev c.addr =
      some (((w.setNext d.addr b.addr).setNext b.addr 0).setSize b.addr b.size) := by
  induction cs generalizing prev c fuel with
  | nil =>
    obtain ⟨fuel, rfl⟩ := Nat.exists_eq_succ_of_ne_zero (Nat.ne_of_gt hfuel)
    obtain ⟨-, hne, -, hend⟩ := h
    rw [Words.kfreeLoop, if_neg fun hlt => hb ⟨c, List.mem_cons_self, hlt⟩, if_neg hne]
    exact ⟨c, List.mem_cons_self, if_pos hend⟩
  | cons d cs ih =>
    obtain ⟨fuel, rfl⟩ := Nat.exists_eq_succ_of_ne_zero (Nat.ne_of_gt (Nat.zero_lt_of_lt hfuel))
    obtain ⟨-, hne, -, hrest⟩ := h
    have hnext : w.next c.addr = d.addr := hrest.1
    rw [Words.kfreeLoop, if_neg fun hlt => hb ⟨c, List.mem_cons_self, hlt⟩, if_neg hne]
    dsimp only
    rw [hnext, if_neg hrest.2.1]
    obtain ⟨f, hf, hloop⟩ := ih hrest (fun hd => hb hd.cons) (Nat.lt_of_succ_lt_succ hfuel)
    exact ⟨f, List.mem_cons_of_mem _ hf, hloop⟩

end Lists

namespace HeapUsers
variable {π : Type*} {e : HeapEnv π} {h h' : Heap π} {cs : List Chunk} {b d : Chunk} {bs live : List Chunk}

lemma Sound.of_subperm {u : HeapUsers π} (hs : Sound e u cs) (hl : live.Subperm u.live) :
    Sound e ⟨u.heap, live⟩ cs :=
  { hs with
    start := fun a ha => ⟨(hs.start a ha).1, fun b hb => (hs.start a ha).2 b (hl.subset hb)⟩
    proper := fun b hb => hs.proper b (hl.subset hb)
    pairwise := by
      obtain ⟨l, hperm, hsub⟩ := hl
      exact (hperm.pairwise_iff fun {_ _} hxy => Disjoint.symm hxy).mp (hs.pairwise.sublist hsub)
    disjoint := fun b hb => hs.disjoint b (hl.subset hb) }

/-- `kfree` of a block that is settled leaves the heap as it is. -/
lemma Sound.kfree_settled {u : HeapUsers π} (hs : Sound e u cs) (hwin : ∀ c ∈ cs, c.InWindow)
    (hb : b.rounded.Proper) (hset : Settled b.rounded cs) :
    Heap.kfree e b.addr b.size u.heap = some u.heap := by
  obtain ⟨haddr, hsize⟩ := hb.of_rounded
  have hrounded : (⟨alignDown b.addr memChunkSize, alignUp b.size memChunkSize⟩ : Chunk) = b.rounded := by
    rw [haddr, Chunk.rounded]
  rw [hs.kfree_unchanged_iff hsize (hrounded ▸ hb), hrounded, hs.free_eq]
  exact refuses_of_settled hs.ascending hwin (Nat.zero_le _) (.inl hset)

/-- `kfree` of a block in use above all chunks: it becomes the last chunk. -/
structure Topped (e : HeapEnv π) (h h' : Heap π) (b : Chunk) (live cs : List Chunk) : Prop where
  sound : Sound e ⟨h', live⟩ (cs ++ [b.rounded])
  next_eq : h'.words b.addr = 0
  size_eq : h'.words (b.addr + 8) = b.rounded.size
  words_eq : ∀ a, a.toNat ∉ chunkBytes cs → a ≠ b.addr → a ≠ b.addr + 8 → h'.words a = h.words a

lemma Sound.kfree_topped (hs : Sound e ⟨h, b :: live⟩ cs) (hb : ¬ Below b.rounded cs) :
    ∃ h', Heap.kfree e b.addr b.size h = some h' ∧ Topped e h h' b live cs := by
  obtain ⟨-, u', cs', hstep, hs', hgive⟩ := hs.kfree (List.mem_cons_self (a := b))
  rw [giveBack_of_not_below hb, List.cons.injEq] at hgive
  obtain ⟨h', hkfree, rfl⟩ := Option.map_eq_some_iff.mp hstep
  rw [List.erase_cons_head, ← hgive.2] at hs'
  have hproper := hs.proper b List.mem_cons_self
  have hlinked := hs.linked
  have hfuel := hs.fuel
  have hasc := hs.ascending
  obtain ⟨haddr, hsize⟩ := hproper.of_rounded
  obtain ⟨c, cs0, hcs⟩ := List.exists_cons_of_ne_nil hs.nonempty
  rw [hcs] at hlinked hfuel hb
  have hnext : h.words.next e.memStart = c.addr := hlinked.1
  obtain ⟨d, hd, hloop⟩ := kfreeLoop_of_not_below hlinked hb (Nat.lt_of_succ_le hfuel)
  rw [← hcs] at hd
  have hwords : h'.words =
      ((h.words.setNext d.addr b.addr).setNext b.addr 0).setSize b.addr b.rounded.size := by
    have hrun := hkfree
    rw [Heap.kfree, if_neg hsize, haddr, hnext] at hrun
    change Option.map _ (h.words.kfreeLoop b.rounded.addr b.rounded.size _ _ _) = _ at hrun
    rw [hloop, Option.map_some, Option.some_inj] at hrun
    rw [← hrun]
    rfl
  have hne : b.addr ≠ b.addr + 8 := hproper.size_ne.symm
  refine ⟨h', hkfree, ⟨hs', ?_, ?_, fun a ha h1 h2 => ?_⟩⟩
  · rw [hwords, Words.setSize_apply, if_neg hne, Words.setNext_apply, if_pos rfl]
  · rw [hwords, Words.setSize_apply, if_pos rfl]
  · have hda : a ≠ d.addr := fun hda => ha ⟨d, hd, hda ▸ (hasc.proper d hd).addr_mem⟩
    rw [hwords, Words.setSize_apply, if_neg h2, Words.setNext_apply, if_neg h1, Words.setNext_apply,
      if_neg hda]

/-- The blocks `bs` are freed one after the other. -/
def frees (e : HeapEnv π) (bs : List Chunk) (h : Heap π) : Option (Heap π) :=
  bs.foldlM (fun h b => Heap.kfree e b.addr b.size h) h

/-- What is left when the blocks `bs` have been freed. -/
structure Freed (e : HeapEnv π) (h h' : Heap π) (bs live cs cs' : List Chunk) : Prop where
  sound : Sound e ⟨h', live⟩ cs'
  grows : ∃ ds, cs' = cs ++ ds ∧ ∀ d ∈ ds, ∃ b ∈ bs, d = b.rounded
  settled : ∀ b ∈ bs, Settled b.rounded cs'
  same : (∀ b ∈ bs, Below b.rounded cs) → h' = h
  freed : (∃ b ∈ bs, ¬ Below b.rounded cs) → ∃ b ∈ bs, b.rounded ∈ cs'
  kept : ∀ d ∈ live, Kept h.words h'.words d

lemma Freed.inWindow {cs' : List Chunk} (hf : Freed e h h' bs live cs cs') (hwin : ∀ c ∈ cs, c.InWindow)
    (hbs : ∀ b ∈ bs, b.rounded.InWindow) : ∀ c ∈ cs', c.InWindow := by
  obtain ⟨ds, rfl, hds⟩ := hf.grows
  intro c hc
  rcases List.mem_append.mp hc with hc | hc
  · exact hwin c hc
  · obtain ⟨b, hb, rfl⟩ := hds c hc
    exact hbs b hb

/-- First some blocks and then some more. -/
lemma Freed.trans {as : List Chunk} {h1 : Heap π} {cs1 cs' : List Chunk}
    (h1f : Freed e h h1 as (bs ++ live) cs cs1) (h2f : Freed e h1 h' bs live cs1 cs') :
    Freed e h h' (as ++ bs) live cs cs' := by
  obtain ⟨ds1, rfl, hds1⟩ := h1f.grows
  obtain ⟨ds, rfl, hds⟩ := h2f.grows
  refine ⟨h2f.sound, ⟨ds1 ++ ds, List.append_assoc .., fun d hd => ?_⟩, fun b hb => ?_, fun hall => ?_, ?_,
    fun d hd a ha => ?_⟩
  · rcases List.mem_append.mp hd with hd | hd
    · obtain ⟨b, hb, rfl⟩ := hds1 d hd
      exact ⟨b, List.mem_append_left bs hb, rfl⟩
    · obtain ⟨b, hb, rfl⟩ := hds d hd
      exact ⟨b, List.mem_append_right as hb, rfl⟩
  · exact (List.mem_append.mp hb).elim (fun hb => (h1f.settled b hb).append) (h2f.settled b)
  · have hsame := h1f.same fun b hb => hall b (List.mem_append_left bs hb)
    exact (h2f.same fun b hb => (hall b (List.mem_append_right as hb)).append).trans hsame
  · rintro ⟨d, hd, hnot⟩
    rcases List.eq_nil_or_concat ds1 with hnil | ⟨ds0, c, hconcat⟩
    · -- the first blocks were refused
      rw [hnil, List.append_nil] at h1f h2f
      rw [hnil, List.append_nil]
      rcases List.mem_append.mp hd with hd | hd
      · obtain ⟨b, hb, hmem⟩ := h1f.freed ⟨d, hd, hnot⟩
        exact ⟨b, List.mem_append_left bs hb, List.mem_append_left ds hmem⟩
      · obtain ⟨b, hb, hmem⟩ := h2f.freed ⟨d, hd, hnot⟩
        exact ⟨b, List.mem_append_right as hb, hmem⟩
    · have hc : c ∈ ds1 := by
        rw [hconcat]
        simp
      obtain ⟨b, hb, rfl⟩ := hds1 c hc
      exact ⟨b, List.mem_append_left bs hb, List.mem_append_left ds (List.mem_append_right cs hc)⟩
  · exact (h2f.kept d hd a ha).trans (h1f.kept d (List.mem_append_right bs hd) a ha)

/-- One block. -/
lemma Sound.free_one (hs : Sound e ⟨h, b :: live⟩ cs) (hwin : ∀ c ∈ cs, c.InWindow) :
    ∃ h' cs', Heap.kfree e b.addr b.size h = some h' ∧ Freed e h h' [b] live cs cs' := by
  have hproper := hs.proper b List.mem_cons_self
  by_cases hb : Below b.rounded cs
  · have hsame := hs.kfree_settled hwin hproper (.inr hb)
    exact ⟨h, cs, hsame, hs.of_subperm (List.sublist_cons_self b live).subperm,
      ⟨[], (List.append_nil cs).symm, nofun⟩, List.forall_mem_singleton.mpr (.inr hb), fun _ => rfl,
      fun ⟨d, hd, hnot⟩ => absurd hb (List.mem_singleton.mp hd ▸ hnot), fun _ _ _ _ => rfl⟩
  · obtain ⟨h', hkfree, htop⟩ := hs.kfree_topped hb
    have hmem : b.rounded ∈ cs ++ [b.rounded] := List.mem_append_right cs List.mem_cons_self
    obtain ⟨h1, hkfree', hkept⟩ := (hs.kfree (List.mem_cons_self (a := b))).1
    obtain rfl : h1 = h' := Option.some.inj (hkfree'.symm.trans hkfree)
    rw [List.erase_cons_head] at hkept
    exact ⟨h1, _, hkfree, htop.sound, ⟨[b.rounded], rfl, fun d hd => ⟨b, List.mem_cons_self,
      List.mem_singleton.mp hd⟩⟩, List.forall_mem_singleton.mpr (.inl hmem),
      fun hall => absurd (hall b List.mem_cons_self) hb, fun _ => ⟨b, List.mem_cons_self, hmem⟩, hkept⟩

lemma Sound.frees (hs : Sound e ⟨h, bs ++ live⟩ cs) (hwin : ∀ c ∈ cs, c.InWindow)
    (hbs : ∀ b ∈ bs, b.rounded.InWindow) :
    ∃ h' cs', frees e bs h = some h' ∧ Freed e h h' bs live cs cs' := by
  induction bs generalizing h cs with
  | nil =>
    exact ⟨h, cs, rfl, hs, ⟨[], (List.append_nil cs).symm, nofun⟩, nofun, fun _ => rfl,
      fun ⟨d, hd, _⟩ => absurd hd List.not_mem_nil, fun _ _ _ _ => rfl⟩
  | cons b bs ih =>
    obtain ⟨h1, cs1, hkfree, hone⟩ := Sound.free_one hs hwin
    have hwin1 := hone.inWindow hwin (List.forall_mem_singleton.mpr (hbs b List.mem_cons_self))
    obtain ⟨h', cs', hrun, hrest⟩ := ih hone.sound hwin1 fun d hd => hbs d (List.mem_cons_of_mem _ hd)
    refine ⟨h', cs', ?_, hone.trans hrest⟩
    rw [HeapUsers.frees, List.foldlM_cons, hkfree]
    exact hrun

end HeapUsers
end EpochKernel.Mem
