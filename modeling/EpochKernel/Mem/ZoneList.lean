import EpochKernel.Mem.KmemWindow

/-! The destructor of `array_list<phys_allocation>` in the kernel heap. It frees the objects and then the
buffer; what `kfree` does with them depends on the free chunks, as it refuses a block that lies below one. -/
namespace EpochKernel.Mem
open EpochKernel.Util EpochKernel.Library

/-- An `array_list<phys_allocation>` as an object: a copy of it is a copy of these fields. -/
structure ListHeader where
  list : UInt64
  len : ℕ
  capacity : ℕ
  freeMembers : Bool

/-- `delete` of a `phys_allocation`, an object of 16 bytes without a destructor of its own. -/
def Heap.deletePhys {ω : Type*} (e : HeapEnv ω) (p : UInt64) (h : Heap ω) : Option (Heap ω) :=
  if p = 0 then some h else h.kfree e p 16

namespace ListHeader
variable (l : ListHeader) {ω : Type*} (e : HeapEnv ω)

/-- `&list[j]`. -/
def cell (j : ℕ) : UInt64 := l.list + 8 * UInt64.ofNat j

/-- `~array_list`. -/
def destroy (h : Heap ω) : Option (Heap ω) :=
  let members :=
    if l.freeMembers then
      (List.range l.len).foldlM (fun h j => h.deletePhys e (h.words (l.cell j))) h
    else some h
  members.bind (Heap.kfree e l.list (UInt64.ofNat l.capacity * 8))

/-- The block of the buffer. -/
def buffer : Chunk := ⟨l.list, UInt64.ofNat l.capacity * 8⟩

/-- The block of the object that the entry `j` points to. -/
def member (w : Words) (j : ℕ) : Chunk := ⟨w (l.cell j), 16⟩

def members (w : Words) : List Chunk := (List.range l.len).map (l.member w)

/-- The memory that the list has from the kernel heap. -/
def blocks (w : Words) : List Chunk := l.members w ++ [l.buffer]

/-- The blocks that the destructor frees. -/
def freed (w : Words) : List Chunk := (if l.freeMembers then l.members w else []) ++ [l.buffer]

/-- The list is stored in the heap `h`, which has the free chunks `cs`, next to the blocks `live`; all of
them are memory that the physical allocators hand out. -/
structure Stored (h : Heap ω) (live cs : List Chunk) : Prop where
  sound : HeapUsers.Sound e ⟨h, l.blocks h.words ++ live⟩ cs
  len_le : l.len ≤ l.capacity
  capacity_le : 8 * l.capacity ≤ 2 ^ 31
  chunks : ∀ c ∈ cs, c.InWindow
  window : ∀ b ∈ l.blocks h.words, b.rounded.InWindow

section Destroy
variable {l e} {h h' h1 : Heap ω} {w : Words} {live cs cs1 : List Chunk} {j : ℕ} {js : List ℕ}

lemma mem_blocks {b : Chunk} (hb : b ∈ l.freed w) : b ∈ l.blocks w := by
  rw [freed] at hb
  split_ifs at hb
  · exact hb
  · exact List.mem_append_right _ hb

lemma blocks_congr {w' : Words} (hw : ∀ j < l.len, w' (l.cell j) = w (l.cell j)) :
    l.blocks w' = l.blocks w := by
  refine congrArg (· ++ [l.buffer]) (List.map_congr_left fun j hj => ?_)
  rw [member, member, hw j (List.mem_range.mp hj)]

lemma foldlM_fixed {α β : Type*} {f : α → β → Option α} {a : α} {bs : List β}
    (hf : ∀ b ∈ bs, f a b = some a) : bs.foldlM f a = some a := by
  induction bs with
  | nil => rfl
  | cons b bs ih =>
    rw [List.foldlM_cons, hf b List.mem_cons_self]
    exact ih fun c hc => hf c (List.mem_cons_of_mem _ hc)

namespace Stored

lemma buffer_proper (hst : l.Stored e h live cs) : l.buffer.rounded.Proper :=
  hst.sound.proper _ (List.mem_append_left _ (List.mem_append_right _ List.mem_cons_self))

lemma buffer_window (hst : l.Stored e h live cs) : l.buffer.rounded.InWindow :=
  hst.window _ (List.mem_append_right _ List.mem_cons_self)

lemma cell_toNat (hst : l.Stored e h live cs) (hj : j < l.len) :
    (l.cell j).toNat = l.list.toNat + 8 * j ∧ 8 * j + 8 ≤ l.buffer.rounded.size.toNat := by
  have hcap := hst.capacity_le
  have hlen := hst.len_le
  have hend := hst.buffer_window.end_le
  have hmul : (UInt64.ofNat l.capacity * 8).toNat = 8 * l.capacity := by
    rw [UInt64.toNat_mul, UInt64.toNat_ofNat']
    change (_ % _ * 8) % _ = _
    omega
  have hsize : (UInt64.ofNat l.capacity * 8).toNat ≤ l.buffer.rounded.size.toNat :=
    (HeapUsers.alignUp_chunk (n := UInt64.ofNat l.capacity * 8) (by omega) (by omega)).2
  have haddr : l.buffer.rounded.addr.toNat = l.list.toNat := rfl
  have hoff : (8 * UInt64.ofNat j).toNat = 8 * j := by
    rw [UInt64.toNat_mul, UInt64.toNat_ofNat']
    change (8 * (_ % _)) % _ = _
    omega
  refine ⟨?_, by omega⟩
  rw [cell, UInt64.toNat_add, hoff]
  omega

lemma cell_mem (hst : l.Stored e h live cs) (hj : j < l.len) :
    (l.cell j).toNat ∈ l.buffer.rounded.bytes := by
  have hcell := hst.cell_toNat hj
  have haddr : l.buffer.rounded.addr.toNat = l.list.toNat := rfl
  rw [Chunk.mem_bytes]
  omega

/-- The objects are freed in the order of the list, whose buffer stays as it is meanwhile. -/
lemma delete_members (hs : HeapUsers.Sound e ⟨h, js.map (l.member w) ++ l.buffer :: live⟩ cs)
    (hmem : ∀ j ∈ js, (l.cell j).toNat ∈ l.buffer.rounded.bytes)
    (hw : ∀ j ∈ js, h.words (l.cell j) = w (l.cell j)) :
    js.foldlM (fun h j => h.deletePhys e (h.words (l.cell j))) h =
      HeapUsers.frees e (js.map (l.member w)) h := by
  induction js generalizing h cs with
  | nil => rfl
  | cons j js ih =>
    have hproper := hs.proper (l.member w j) List.mem_cons_self
    obtain ⟨⟨h1, hkfree, hkept⟩, u', cs', hstep, hs', -⟩ := hs.kfree (b := l.member w j) List.mem_cons_self
    rw [HeapUsers.step, hkfree, Option.map_some, Option.some_inj] at hstep
    rw [← hstep] at hs'
    rw [List.map_cons, List.cons_append, List.erase_cons_head] at hs' hkept
    have hbuffer := hkept l.buffer (List.mem_append_right _ List.mem_cons_self)
    have hdelete : h.deletePhys e (h.words (l.cell j)) = some h1 := by
      rw [Heap.deletePhys, hw j List.mem_cons_self,
        if_neg (show w (l.cell j) ≠ 0 from hproper.addr_ne)]
      exact hkfree
    rw [List.foldlM_cons, hdelete, List.map_cons, HeapUsers.frees, List.foldlM_cons, hkfree]
    refine ih hs' (fun k hk => hmem k (List.mem_cons_of_mem _ hk)) fun k hk => ?_
    rw [hbuffer _ (hmem k (List.mem_cons_of_mem _ hk)), hw k (List.mem_cons_of_mem _ hk)]

/-- The destructor frees the blocks of the list. -/
lemma destroy_eq (hst : l.Stored e h live cs) :
    l.destroy e h = HeapUsers.frees e (l.freed h.words) h := by
  have hs := hst.sound
  rw [blocks, members, List.append_assoc] at hs
  rw [destroy, freed, HeapUsers.frees, List.foldlM_append]
  simp only [List.foldlM_cons, List.foldlM_nil, bind_pure]
  split_ifs with hfree
  · rw [delete_members hs (fun j hj => hst.cell_mem (List.mem_range.mp hj)) fun _ _ => rfl]
    rfl
  · rfl

/-- The blocks that are freed and those that are not, with the buffer behind the former. -/
lemma sound_freed (hst : l.Stored e h live cs) : ∃ rest, HeapUsers.Sound e
    ⟨h, (if l.freeMembers then l.members h.words else []) ++ l.buffer :: rest⟩ cs := by
  have hs := hst.sound
  rw [blocks, List.append_assoc] at hs
  split_ifs
  · exact ⟨live, hs⟩
  · exact ⟨[], hs.of_subperm (List.singleton_sublist.mpr
      (List.mem_append_right _ List.mem_cons_self)).subperm⟩

/-- `kfree` refuses an address that is only as large as the buffer. -/
lemma delete_size (hst : l.Stored e h live cs) {rest : List Chunk}
    (hs : HeapUsers.Sound e ⟨h', rest⟩ (cs1 ++ [l.buffer.rounded]))
    (hwin : ∀ c ∈ cs1 ++ [l.buffer.rounded], c.InWindow) :
    h'.deletePhys e l.buffer.rounded.size = some h' := by
  have hpos := hst.buffer_proper.pos
  have hdvd := hst.buffer_proper.dvd_size
  have hsize := hst.buffer_window.size_le
  have hbase := UInt64.le_iff_toNat_le.mp hst.buffer_window.base_le
  have hvma : kernelVma.toNat = 0xffffff8000000000 := rfl
  have hne : l.buffer.rounded.size ≠ 0 := fun h0 => by
    rw [h0] at hpos
    exact absurd hpos (Nat.lt_irrefl 0)
  have hproper : (⟨l.buffer.rounded.size, 16⟩ : Chunk).rounded.Proper := by
    have h16 : alignUp 16 memChunkSize = 16 := by decide
    rw [Chunk.rounded, h16]
    refine ⟨hne, hdvd, show 16 ∣ (16 : UInt64).toNat by decide, show 0 < (16 : UInt64).toNat by decide, ?_⟩
    change l.buffer.rounded.size.toNat + 16 ≤ _
    omega
  rw [Heap.deletePhys, if_neg hne]
  refine hs.kfree_settled (b := ⟨l.buffer.rounded.size, 16⟩) hwin hproper (.inr ?_)
  refine ⟨_, List.mem_append_right _ List.mem_cons_self, UInt64.lt_iff_toNat_lt.mpr ?_⟩
  change l.buffer.rounded.size.toNat < _
  omega

/-- When the buffer has been appended to the free list, its first two entries are the header of a chunk. -/
lemma delete_topped (hst : l.Stored e h live cs) {rest : List Chunk}
    (htop : HeapUsers.Topped e h1 h' l.buffer rest cs1) (hj : j < l.len)
    (hbuffer : Disjoint l.buffer.rounded.bytes (chunkBytes cs1))
    (hwin : ∀ c ∈ cs1 ++ [l.buffer.rounded], c.InWindow)
    (hkept : h1.words (l.cell j) = h.words (l.cell j)) (hmem : (l.member h.words j).rounded.Proper)
    (hset : Settled (l.member h.words j).rounded (cs1 ++ [l.buffer.rounded])) :
    h'.deletePhys e (h'.words (l.cell j)) = some h' := by
  have hproper := hst.buffer_proper
  have hwindow := hst.buffer_window
  have hcell := (hst.cell_toNat hj).1
  have hzero : (l.cell 0) = l.list := by
    rw [cell]
    change l.list + 8 * 0 = l.list
    simp
  have hone : (l.cell 1) = l.list + 8 := rfl
  rcases Nat.lt_or_ge j 2 with hlow | hhigh
  · interval_cases j
    · rw [hzero, show h'.words l.list = 0 from htop.next_eq]
      exact if_pos rfl
    · rw [hone, show h'.words (l.list + 8) = l.buffer.rounded.size from htop.size_eq]
      exact hst.delete_size htop.sound hwin
  · have hwords : h'.words (l.cell j) = h.words (l.cell j) := by
      rw [← hkept]
      refine htop.words_eq _ (Set.disjoint_left.mp hbuffer (hst.cell_mem hj)) (fun heq => ?_) fun heq => ?_
      · have := congrArg UInt64.toNat heq
        rw [hcell] at this
        change _ = l.list.toNat at this
        omega
      · have := congrArg UInt64.toNat heq
        rw [hcell, show (l.buffer.addr + 8).toNat = _ from hproper.toNat_add_eight] at this
        change _ = l.list.toNat + 8 at this
        omega
    rw [Heap.deletePhys, hwords, if_neg (show h.words (l.cell j) ≠ 0 from hmem.addr_ne)]
    exact htop.sound.kfree_settled (b := l.member h.words j) hwin hmem hset

/-- What the destructor does: nothing if all the blocks lie below free chunks, and else one of them gets
on the free list. A second call with the same header changes nothing. -/
lemma destroy_spec (hst : l.Stored e h live cs) :
    ∃ h' cs', l.destroy e h = some h' ∧ l.destroy e h' = some h' ∧
      h'.words.chunksFrom (2 ^ 60 + 1) e.memStart = cs' ∧
      ((∀ b ∈ l.freed h.words, Below b.rounded cs) → h' = h) ∧
      ((∃ b ∈ l.freed h.words, ¬ Below b.rounded cs) → ∃ b ∈ l.freed h.words, b.rounded ∈ cs') := by
  obtain ⟨rest, hs⟩ := hst.sound_freed
  have hwin : ∀ b ∈ l.freed h.words, b.rounded.InWindow := fun b hb => hst.window b (mem_blocks hb)
  have hproper : ∀ b ∈ l.freed h.words, b.rounded.Proper := fun b hb =>
    hst.sound.proper b (List.mem_append_left _ (mem_blocks hb))
  rw [freed] at hwin
  -- the objects, and then the buffer
  obtain ⟨h1, cs1, hrun1, hmembers⟩ := HeapUsers.Sound.frees hs hst.chunks
    fun b hb => hwin b (List.mem_append_left _ hb)
  have hwin1 := hmembers.inWindow hst.chunks fun b hb => hwin b (List.mem_append_left _ hb)
  obtain ⟨h', cs', hbuffer, hfreed⟩ := HeapUsers.Sound.free_one hmembers.sound hwin1
  have hall := hmembers.trans hfreed
  have hrun : l.destroy e h = some h' := by
    rw [hst.destroy_eq, freed, HeapUsers.frees, List.foldlM_append]
    change (HeapUsers.frees e _ h).bind _ = _
    rw [hrun1]
    simpa using hbuffer
  have hwin' := hall.inWindow hst.chunks hwin
  refine ⟨h', cs', hrun, ?_, hall.sound.free_eq, hall.same, hall.freed⟩
  have hset : ∀ b ∈ l.freed h.words, Heap.kfree e b.addr b.size h' = some h' := fun b hb =>
    hall.sound.kfree_settled hwin' (hproper b hb) (hall.settled b hb)
  have hlast : Heap.kfree e l.list (UInt64.ofNat l.capacity * 8) h' = some h' :=
    hset l.buffer (List.mem_append_right _ List.mem_cons_self)
  have hmem : (if l.freeMembers then
      (List.range l.len).foldlM (fun h j => h.deletePhys e (h.words (l.cell j))) h'
      else some h') = some h' := by
    split_ifs with hfree
    · refine foldlM_fixed fun j hj => ?_
      have hj := List.mem_range.mp hj
      rw [if_pos hfree] at hmembers
      have hin : l.member h.words j ∈ l.freed h.words := by
        rw [freed, if_pos hfree]
        exact List.mem_append_left _ (List.mem_map_of_mem (List.mem_range.mpr hj))
      have hkept : h1.words (l.cell j) = h.words (l.cell j) :=
        hmembers.kept l.buffer List.mem_cons_self _ (hst.cell_mem hj)
      by_cases hbelow : Below l.buffer.rounded cs1
      · have hsame := hfreed.same (List.forall_mem_singleton.mpr hbelow)
        rw [Heap.deletePhys, hsame, hkept,
          if_neg (show h.words (l.cell j) ≠ 0 from (hproper _ hin).addr_ne), ← hsame]
        exact hset _ hin
      · obtain ⟨h2, hkfree, htop⟩ := hmembers.sound.kfree_topped hbelow
        obtain rfl : h2 = h' := Option.some.inj (hkfree.symm.trans hbuffer)
        have hcs : cs' = cs1 ++ [l.buffer.rounded] :=
          hfreed.sound.free_eq.symm.trans htop.sound.free_eq
        rw [hcs] at hwin' hall
        exact hst.delete_topped htop hj (hmembers.sound.disjoint _ List.mem_cons_self) hwin' hkept
          (hproper _ hin) (hall.settled _ hin)
    · rfl
  rw [destroy, hmem]
  exact hlast

end Stored

end Destroy

end ListHeader

end EpochKernel.Mem
