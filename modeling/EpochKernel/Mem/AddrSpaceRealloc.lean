import EpochKernel.Mem.AddrSpaceLinked
import EpochKernel.Mem.ZoneList

/-! `addr_space::realloc`, which is not finished. Its local `allocs` is a copy of the pointer array
of an allocation that shares the buffer with it, and the destructor of the copy frees them both. -/
namespace EpochKernel.Mem
open EpochKernel.Util EpochKernel.Library

/-- An address space with the lists in its zone objects, and the heap that they are stored in. -/
structure ListedSpace (σ π ω : Type*) where
  space : AddrSpace σ π
  allocations : UInt64 → ListHeader
  heap : Heap ω

/-- What `realloc` ends with: a call of `alloc` or of `free`, or a result of its own. -/
inductive Realloc (σ π ω : Type*)
  | alloc (n flags : UInt64)
  | free (mem : UInt64)
  | own (out : UInt64) (o : ListedSpace σ π ω)

namespace ListedSpace
variable {σ π ω : Type*} (e : HeapEnv ω) (L : ListOps σ UInt64)

/-- The loop of `realloc`. In the body of the `if` the copy of the list is destroyed at its end, and
before a `return` from it. -/
def reallocLoop (virtAddr n : UInt64) :
    ℕ → ℕ → ListedSpace σ π ω → Option (UInt64 × ListedSpace σ π ω)
  | 0, _, _ => none
  | fuel + 1, i, o =>
    if i < o.space.len L then
      match o.space.get L i with
      | some (some z, s) =>
        if (s.zone z).virtAddr = virtAddr ∧ (s.zone z).type = .valloc then
          let allocs := o.allocations z
          match allocs.destroy e o.heap with
          | none => none
          | some h =>
            let o := { o with space := s, heap := h }
            if (s.zone z).len = n then some (virtAddr, o) else reallocLoop virtAddr n fuel (i + 1) o
        else reallocLoop virtAddr n fuel (i + 1) { o with space := s }
      | _ => none
    else some (0, o)

/-- `realloc`. -/
def realloc (mem n flags : UInt64) (o : ListedSpace σ π ω) : Option (Realloc σ π ω) :=
  let virtAddr := alignDown mem pageSize
  if virtAddr = 0 then some (.alloc n flags)
  else if n = 0 then some (.free mem)
  else
    (reallocLoop e L virtAddr (alignUp n pageSize) (o.space.len L + 1) 0 o).map
      fun r => .own r.1 r.2

/-- The free chunks of the heap. -/
def free (o : ListedSpace σ π ω) : List Chunk := o.heap.words.chunksFrom (2 ^ 60 + 1) e.memStart

/-- The memory that the list of the zone `z` has from the heap. -/
def blocks (o : ListedSpace σ π ω) (z : UInt64) : List Chunk := (o.allocations z).blocks o.heap.words

/-- The list of the allocation `z` and its objects are allocated, and hold its physical zones. -/
structure Intact (o : ListedSpace σ π ω) (z : UInt64) : Prop where
  allocated : ∀ b ∈ o.blocks z, Disjoint b.rounded.bytes (chunkBytes (o.free e))
  zones : (List.range (o.allocations z).len).map (fun j =>
    let p := o.heap.words ((o.allocations z).cell j)
    (⟨o.heap.words p, o.heap.words (p + 8)⟩ : PhysAllocation)) = (o.space.zone z).allocations

/-- If `realloc` returns `NULL` or `mem`, the list of the allocation `z` is intact, and the memory that
holds it, the zone and its header are as they were. -/
def Keeps (o : ListedSpace σ π ω) (z mem n flags : UInt64) : Prop :=
  ∀ out o', o.realloc e L mem n flags = some (.own out o') →
    out = 0 ∨ out = alignDown mem pageSize →
      o'.Intact e z ∧ (∀ b ∈ o.blocks z, HeapUsers.Kept o.heap.words o'.heap.words b) ∧
        o'.space.zone = o.space.zone ∧ o'.allocations = o.allocations

/-- `z` is the allocation at `mem`, among the zones `xs`. -/
structure IsAt (o : ListedSpace σ π ω) (xs : List UInt64) (z mem : UInt64) : Prop where
  listed : z ∈ xs
  virtAddr : (o.space.zone z).virtAddr = alignDown mem pageSize
  type : (o.space.zone z).type = .valloc
  ne_zero : alignDown mem pageSize ≠ 0
  unique : ∀ x ∈ xs, (o.space.zone x).virtAddr = alignDown mem pageSize →
    (o.space.zone x).type = .valloc → x = z

end ListedSpace

namespace ListedSpace
variable {π ω : Type*} {e : HeapEnv ω} {K : Links UInt64}
  {o : ListedSpace (LinkedList UInt64 × Links UInt64) π ω} {xs : List UInt64}
  {x z virtAddr mem n flags : UInt64} {fuel i : ℕ}

/-- The list of the address space stores `xs`, and its cursor is that of a scan at the index `i`. -/
structure Scanning (o : ListedSpace (LinkedList UInt64 × Links UInt64) π ω) (xs : List UInt64)
    (i : ℕ) : Prop where
  represents : o.space.virtAllocs.1.Represents o.space.virtAllocs.2 xs
  reading : LinkedList.Reading i o.space.virtAllocs.1 xs

/-- One read of the scan, which may be one zone too far. -/
lemma Scanning.get (h : Scanning o xs i) (hshort : xs.length ≤ 2 ^ 31) (hi : i < xs.length) :
    ∃ x s, o.space.get (.linked K) i = some (some x, s) ∧ x ∈ xs ∧ s.zone = o.space.zone ∧
      Scanning { o with space := s } xs (i + 1) ∧
      ((xs[i]? = some x ∧ s.virtAllocs.1.Coherent xs) ∨
        (o.space.virtAllocs.1.Lagging xs ∧ (i = 0 → o.space.virtAllocs.1.currentI ≤ 2) ∧
          xs[i + 1]? = some x ∧ s.virtAllocs.1.Lagging xs)) := by
  obtain ⟨x, l', hget, hrep, -, hcurI, hx⟩ := LinkedList.get_reading h.represents h.reading hi hshort
  have hs : o.space.get (.linked K) i =
      some (some x, { o.space with virtAllocs := (l', o.space.virtAllocs.2) }) := by
    refine AddrSpace.get_eq_some ?_
    change (LinkedList.get i o.space.virtAllocs.1 o.space.virtAllocs.2).map _ = _
    rw [hget]
    rfl
  refine ⟨x, _, hs, ?_, rfl, ⟨hrep, ?_⟩, hx⟩
  · rcases hx with ⟨hx, -⟩ | ⟨-, -, hx, -⟩ <;> exact List.mem_of_getElem? hx
  · rcases hx with ⟨-, hc⟩ | ⟨-, -, hx, hlag⟩
    · exact .inl hc
    · exact .inr ⟨hlag, (List.getElem?_eq_some_iff.mp hx).1, .inr (by rw [← hcurI])⟩

lemma Scanning.len (h : Scanning o xs i) : o.space.len (.linked K) = xs.length := h.represents.len_eq

/-- A read of the list leaves the allocation where it is. -/
lemma IsAt.congr {s : AddrSpace (LinkedList UInt64 × Links UInt64) π} (h : IsAt o xs z mem)
    (hzone : s.zone = o.space.zone) : IsAt { o with space := s } xs z mem where
  listed := h.listed
  virtAddr := by rw [hzone, h.virtAddr]
  type := by rw [hzone, h.type]
  ne_zero := h.ne_zero
  unique := by
    rw [hzone]
    exact h.unique

/-- The destructor of the list of every allocation at `virtAddr` leaves the heap as it is. -/
def Spared (e : HeapEnv ω) (o : ListedSpace (LinkedList UInt64 × Links UInt64) π ω) (xs : List UInt64)
    (virtAddr : UInt64) : Prop :=
  ∀ x ∈ xs, (o.space.zone x).virtAddr = virtAddr → (o.space.zone x).type = .valloc →
    (o.allocations x).destroy e o.heap = some o.heap

/-- A scan in which no destructor has an effect comes to its end or returns, and changes nothing. -/
lemma Scanning.ends (h : Scanning o xs i) (hshort : xs.length ≤ 2 ^ 31) (hspared : Spared e o xs virtAddr)
    (hi : i ≤ xs.length) (hfuel : xs.length < i + fuel) :
    ∃ out o', reallocLoop e (.linked K) virtAddr n fuel i o = some (out, o') ∧
      (out = 0 ∨ out = virtAddr) ∧ o'.heap = o.heap ∧ o'.space.zone = o.space.zone ∧
      o'.allocations = o.allocations := by
  induction fuel generalizing i o with
  | zero => omega
  | succ fuel ih =>
    rw [reallocLoop, h.len (K := K)]
    by_cases hlt : i < xs.length
    · obtain ⟨x, s, hget, hxs, hzone, hnext, -⟩ := h.get (K := K) hshort hlt
      have hrest : Spared e { o with space := s } xs virtAddr := fun y hy hv ht =>
        hspared y hy (by rwa [← hzone]) (by rwa [← hzone])
      obtain ⟨out, o', hrun, hout, hheap, hzone', hlists⟩ := ih hnext hrest hlt (by omega)
      rw [if_pos hlt, hget]
      dsimp only
      by_cases hm : (s.zone x).virtAddr = virtAddr ∧ (s.zone x).type = .valloc
      · rw [if_pos hm, hspared x hxs (hzone ▸ hm.1) (hzone ▸ hm.2)]
        dsimp only
        split_ifs
        · exact ⟨_, _, rfl, .inr rfl, rfl, hzone, rfl⟩
        · exact ⟨out, o', hrun, hout, hheap, hzone'.trans hzone, hlists⟩
      · rw [if_neg hm]
        exact ⟨out, o', hrun, hout, hheap, hzone'.trans hzone, hlists⟩
    · rw [if_neg hlt]
      exact ⟨_, _, rfl, .inl rfl, rfl, rfl, rfl⟩

/-- The scan at the index `i` is going to read `z`. -/
def WillRead (o : ListedSpace (LinkedList UInt64 × Links UInt64) π ω) (xs : List UInt64) (i : ℕ)
    (z : UInt64) : Prop :=
  z ∈ xs.drop (i + 1) ∨ xs[i]? = some z ∧
    (o.space.virtAllocs.1.Coherent xs ∨ i = 0 ∧ 2 < o.space.virtAllocs.1.currentI)

lemma mem_drop_succ (h : z ∈ xs.drop i) : xs[i]? = some z ∨ z ∈ xs.drop (i + 1) := by
  obtain ⟨j, hj⟩ := List.mem_iff_getElem?.mp h
  rw [List.getElem?_drop] at hj
  cases j with
  | zero => exact .inl hj
  | succ j =>
    refine .inr (List.mem_iff_getElem?.mpr ⟨j, ?_⟩)
    rw [List.getElem?_drop, show i + 1 + j = i + (j + 1) by omega]
    exact hj

lemma WillRead.lt (h : WillRead o xs i z) : i < xs.length := by
  rcases h with h | ⟨h, -⟩
  · have := List.length_pos_of_mem h
    rw [List.length_drop] at this
    omega
  · exact (List.getElem?_eq_some_iff.mp h).1

/-- The step of the scan finds `z`, or it is still to come. -/
lemma WillRead.next {s : AddrSpace (LinkedList UInt64 × Links UInt64) π}
    (hw : WillRead o xs i z) (h : Scanning o xs i) (hne : x ≠ z)
    (hx : (xs[i]? = some x ∧ s.virtAllocs.1.Coherent xs) ∨
      (o.space.virtAllocs.1.Lagging xs ∧ (i = 0 → o.space.virtAllocs.1.currentI ≤ 2) ∧
        xs[i + 1]? = some x ∧ s.virtAllocs.1.Lagging xs)) :
    WillRead { o with space := s } xs (i + 1) z := by
  rcases hx with ⟨hx, hc⟩ | ⟨hlag, hzero, hx, -⟩
  · have hmem : z ∈ xs.drop (i + 1) :=
      hw.resolve_right fun hz => hne (Option.some.inj (hx.symm.trans hz.1))
    exact (mem_drop_succ hmem).elim (fun hz => .inr ⟨hz, .inl hc⟩) .inl
  · have hmem : z ∈ xs.drop (i + 1) := by
      refine hw.resolve_right ?_
      rintro ⟨-, hc | ⟨h0, hfar⟩⟩
      · exact LinkedList.Coherent.not_lagging h.represents hc hlag
      · exact absurd (hzero h0) (by omega)
    exact .inl ((mem_drop_succ hmem).resolve_left fun hz =>
      hne (Option.some.inj (hx.symm.trans hz)))

/-- A scan that reads the allocation runs the destructor of its list. -/
lemma Scanning.destroys (h : Scanning o xs i) (hshort : xs.length ≤ 2 ^ 31) (hat : IsAt o xs z mem)
    (hw : WillRead o xs i z) (hfuel : xs.length < i + fuel) {h' : Heap ω}
    (hrun : (o.allocations z).destroy e o.heap = some h') (hagain : (o.allocations z).destroy e h' = some h') :
    ∃ out o', reallocLoop e (.linked K) (alignDown mem pageSize) n fuel i o = some (out, o') ∧
      (out = 0 ∨ out = alignDown mem pageSize) ∧ o'.heap = h' ∧ o'.space.zone = o.space.zone ∧
      o'.allocations = o.allocations := by
  induction fuel generalizing i o with
  | zero => exact absurd hw.lt (by omega)
  | succ fuel ih =>
    obtain ⟨x, s, hget, hxs, hzone, hnext, hx⟩ := h.get (K := K) hshort hw.lt
    rw [reallocLoop, h.len (K := K), if_pos hw.lt, hget]
    dsimp only
    rw [hzone]
    by_cases hxz : x = z
    · subst hxz
      rw [if_pos ⟨hat.virtAddr, hat.type⟩, hrun]
      dsimp only
      split_ifs
      · exact ⟨_, _, rfl, .inr rfl, rfl, hzone, rfl⟩
      · -- the last zone can be read twice
        have hspared : Spared e { o with space := s, heap := h' } xs (alignDown mem pageSize) := by
          intro y hy hv ht
          obtain rfl := hat.unique y hy (hzone ▸ hv) (hzone ▸ ht)
          exact hagain
        obtain ⟨out, o', hloop, hout, hheap, hzone', hlists⟩ := Scanning.ends (K := K) (n := n)
          (o := { o with space := s, heap := h' }) ⟨hnext.represents, hnext.reading⟩ hshort hspared hw.lt
          (show xs.length < i + 1 + fuel by omega)
        exact ⟨out, o', hloop, hout, hheap, hzone'.trans hzone, hlists⟩
    · rw [if_neg fun hm => hxz (hat.unique x hxs hm.1 hm.2)]
      obtain ⟨out, o', hloop, hout, hheap, hzone', hlists⟩ :=
        ih hnext (hat.congr hzone) (hw.next h hxz hx) (by omega) hrun hagain
      exact ⟨out, o', hloop, hout, hheap, hzone'.trans hzone, hlists⟩

/-- A scan that misses the first zone leaves its list alone. -/
lemma Scanning.spares (h : Scanning o xs i) (hshort : xs.length ≤ 2 ^ 31)
    (hat : IsAt o xs z mem) (hz : xs[0]? = some z) (hi : i ≤ xs.length)
    (hskip : i = 0 → o.space.virtAllocs.1.Misses xs) (hfuel : xs.length < i + fuel) :
    ∃ out o', reallocLoop e (.linked K) (alignDown mem pageSize) n fuel i o = some (out, o') ∧
      o'.heap = o.heap ∧ o'.space.zone = o.space.zone ∧ o'.allocations = o.allocations := by
  induction fuel generalizing i o with
  | zero => omega
  | succ fuel ih =>
    rw [reallocLoop, h.len (K := K)]
    by_cases hlt : i < xs.length
    · obtain ⟨x, s, hget, hxs, hzone, hnext, hx⟩ := h.get (K := K) hshort hlt
      rw [if_pos hlt, hget]
      dsimp only
      rw [hzone]
      have hxz : x ≠ z := by
        rintro rfl
        have hnd := h.represents.nodup
        rcases Nat.eq_zero_or_pos i with rfl | hpos
        · have hm := hskip rfl
          have hread := LinkedList.get_lagging_zero h.represents hm.1 (by omega) hm.2
          have hfound : o.space.get (.linked K) 0 = some (xs[1]?, _) :=
            congrArg (fun r => (r.map fun q => (q.1, q.2, o.space.virtAllocs.2)).map
              fun q => (q.1, { o.space with virtAllocs := q.2 })) hread
          rw [hfound] at hget
          have h1 : xs[1]? = some x := (Prod.mk.inj (Option.some.inj hget)).1
          exact absurd ((List.getElem?_inj hlt hnd).mp (hz.trans h1.symm)) (by decide)
        · rcases hx with ⟨hx, -⟩ | ⟨-, -, hx, -⟩
          · have := (List.getElem?_inj (by omega) hnd).mp (hz.trans hx.symm)
            omega
          · have := (List.getElem?_inj (by omega) hnd).mp (hz.trans hx.symm)
            omega
      rw [if_neg fun hm => hxz (hat.unique x hxs hm.1 hm.2)]
      obtain ⟨out, o', hrun, hheap, hzone', hlists⟩ :=
        ih hnext (hat.congr hzone) hlt (fun h0 => absurd h0 (Nat.succ_ne_zero i)) (by omega)
      exact ⟨out, o', hrun, hheap, hzone'.trans hzone, hlists⟩
    · rw [if_neg hlt]
      exact ⟨_, _, rfl, rfl, rfl, rfl⟩

/-- The list of an allocation is kept if the scan does not come to it, or if each of the blocks that the
destructor frees lies below a free chunk, so that `kfree` refuses it. -/
theorem keeps_iff {live cs : List Chunk} (h : o.space.virtAllocs.1.Represents o.space.virtAllocs.2 xs)
    (hcur : o.space.virtAllocs.1.Coherent xs ∨ o.space.virtAllocs.1.Lagging xs)
    (hshort : xs.length ≤ 2 ^ 31) (hat : IsAt o xs z mem)
    (hstored : (o.allocations z).Stored e o.heap live cs) (hintact : o.Intact e z) (hn : n ≠ 0)
    (flags : UInt64) :
    Keeps e (.linked K) o z mem n flags ↔
      (o.space.virtAllocs.1.Misses xs ∧ xs[0]? = some z) ∨
        ∀ b ∈ (o.allocations z).freed o.heap.words, ∃ c ∈ o.free e, b.addr < c.addr := by
  have hscan : Scanning o xs 0 := by
    refine ⟨h, hcur.imp_right fun hlag => ⟨hlag, ?_, .inl rfl⟩⟩
    exact List.length_pos_of_mem hat.listed
  have hrealloc : o.realloc e (.linked K) mem n flags =
      (reallocLoop e (.linked K) (alignDown mem pageSize) (alignUp n pageSize) (xs.length + 1) 0 o).map
        fun r => .own r.1 r.2 := by
    unfold realloc
    rw [if_neg hat.ne_zero, if_neg hn, hscan.len]
  have hfree : o.free e = cs := hstored.sound.free_eq
  obtain ⟨h', cs', hdestroy, hagain, hcs', hsame, hfreed⟩ := hstored.destroy_spec
  have hkept {out out' : UInt64} {o' o'' : ListedSpace (LinkedList UInt64 × Links UInt64) π ω}
      (hres : o.realloc e (.linked K) mem n flags = some (.own out o'))
      (hrun : reallocLoop e (.linked K) (alignDown mem pageSize) (alignUp n pageSize) (xs.length + 1) 0 o =
        some (out', o''))
      (hheap : o''.heap = o.heap) (hzone : o''.space.zone = o.space.zone)
      (hlists : o''.allocations = o.allocations) :
      o'.Intact e z ∧ (∀ b ∈ o.blocks z, HeapUsers.Kept o.heap.words o'.heap.words b) ∧
        o'.space.zone = o.space.zone ∧ o'.allocations = o.allocations := by
    rw [hrealloc, hrun] at hres
    obtain ⟨rfl, rfl⟩ := Realloc.own.inj (Option.some.inj hres)
    refine ⟨⟨?_, ?_⟩, fun _ _ _ _ => by rw [hheap], hzone, hlists⟩
    · rw [blocks, free, hheap, hlists]
      exact hintact.allocated
    · rw [hheap, hlists, hzone]
      exact hintact.zones
  constructor
  · intro hkeeps
    by_contra hseen
    rw [not_or] at hseen
    have hwill : WillRead o xs 0 z := by
      rcases mem_drop_succ (i := 0) (show z ∈ xs.drop 0 from hat.listed) with hz | hz
      · refine .inr ⟨hz, hcur.imp_right fun hlag => ⟨rfl, ?_⟩⟩
        by_contra hfar
        exact hseen.1 ⟨⟨hlag, Nat.not_lt.mp hfar⟩, hz⟩
      · exact .inl hz
    obtain ⟨out, o', hrun, hout, hheap, -, hlists⟩ := hscan.destroys (K := K) (n := alignUp n pageSize)
      hshort hat hwill (show xs.length < 0 + (xs.length + 1) by omega) hdestroy hagain
    rw [hrun] at hrealloc
    have hsome : ∃ b ∈ (o.allocations z).freed o.heap.words, ¬ Below b.rounded cs := by
      by_contra hall
      refine hseen.2 fun b hb => ?_
      by_contra hnot
      exact hall ⟨b, hb, fun ⟨c, hc, hlt⟩ => hnot ⟨c, hfree ▸ hc, hlt⟩⟩
    obtain ⟨b, hb, hmem⟩ := hfreed hsome
    obtain ⟨hintact', hsame', -⟩ := hkeeps out o' hrealloc hout
    have hblocks : o'.blocks z = o.blocks z := by
      have hbuffer := hsame' _ (List.mem_append_right _ (List.mem_cons_self (a := (o.allocations z).buffer)))
      rw [blocks, blocks, hlists]
      exact ListHeader.blocks_congr fun j hj => hbuffer _ (hstored.cell_mem hj)
    have hproper := hstored.sound.proper b (List.mem_append_left _ (ListHeader.mem_blocks hb))
    refine Set.disjoint_left.mp (hintact'.allocated b ?_) hproper.addr_mem ⟨_, ?_, hproper.addr_mem⟩
    · rw [hblocks]
      exact ListHeader.mem_blocks hb
    · rw [free, hheap, hcs']
      exact hmem
  · rintro (⟨hmiss, hz⟩ | hbelow) out o' hres -
    · obtain ⟨out', o'', hrun, hheap, hzone, hlists⟩ := hscan.spares (e := e) (K := K)
        (n := alignUp n pageSize) hshort hat hz (Nat.zero_le _) (fun _ => hmiss)
        (show xs.length < 0 + (xs.length + 1) by omega)
      exact hkept hres hrun hheap hzone hlists
    · have hnone := hsame fun b hb => by
        obtain ⟨c, hc, hlt⟩ := hbelow b hb
        exact ⟨c, hfree ▸ hc, hlt⟩
      have hspared : Spared e o xs (alignDown mem pageSize) := by
        intro x hx hv ht
        obtain rfl := hat.unique x hx hv ht
        rw [hdestroy, hnone]
      obtain ⟨out', o'', hrun, -, hheap, hzone, hlists⟩ := hscan.ends (K := K) (n := alignUp n pageSize)
        hshort hspared (Nat.zero_le _) (show xs.length < 0 + (xs.length + 1) by omega)
      exact hkept hres hrun hheap hzone hlists

section Samples

/-- `mem_start` of the samples, and no memory for a larger heap. -/
def listedEnv : HeapEnv Unit := ⟨0x1000, fun _ _ => (none, ())⟩

/-- An allocation of one page at 0x1000 and a reserved page. The heap has one free chunk, at `chunk`; the
list of the allocation has a buffer of 64 bytes and one object in it. -/
def listedSample (chunk : UInt64) : ListedSpace (LinkedList UInt64 × Links UInt64) Unit Unit where
  space := ⟨(⟨2, some 1, some 2, none, 0⟩, fun z => ⟨some (z - 1), some (z + 1)⟩),
    fun z => if z = 1 then ⟨0x1000, 0x1000, .valloc, [⟨kernelVma + 0x70000, 0x1000⟩], 6, 0⟩
      else ⟨0x2000, 0x1000, .reserve, [], 0, 0⟩, (), false, [2, 1], [], fun _ => false⟩
  allocations := fun _ => ⟨kernelVma + 0x10000, 1, 8, true⟩
  heap := {
    words a :=
      if a = 0x1000 then chunk else if a = chunk + 8 then 0x100
      else if a = kernelVma + 0x10000 then kernelVma + 0x11000
      else if a = kernelVma + 0x11000 then kernelVma + 0x70000
      else if a = kernelVma + 0x11008 then 0x1000 else 0
    world := () }

lemma bytes_disjoint {b c : Chunk} (h : b.Before c ∨ c.Before b) : Disjoint b.bytes c.bytes :=
  h.elim Chunk.Before.disjoint fun h => h.disjoint.symm

/-- The free chunk is above the blocks. -/
lemma stored_listedSample : ((listedSample (kernelVma + 0x20000)).allocations 1).Stored listedEnv
    (listedSample (kernelVma + 0x20000)).heap [] [⟨kernelVma + 0x20000, 0x100⟩] where
  sound := by
    have hblocks : ((listedSample (kernelVma + 0x20000)).allocations 1).blocks
        (listedSample (kernelVma + 0x20000)).heap.words ++ [] =
        [⟨kernelVma + 0x11000, 16⟩, ⟨kernelVma + 0x10000, 64⟩] := by decide
    have hfree : chunkBytes [⟨kernelVma + 0x20000, 0x100⟩] =
        (⟨kernelVma + 0x20000, 0x100⟩ : Chunk).bytes := by
      ext x
      simp [mem_chunkBytes_cons]
    rw [hblocks]
    refine ⟨⟨rfl, by decide, rfl, rfl⟩, rfl, ascending_singleton (by constructor <;> decide), nofun,
      fun a ha => ?_, ?_, List.pairwise_pair.mpr (bytes_disjoint (.inr (by decide))), ?_⟩
    · rw [hfree]
      rcases ha with rfl | rfl <;> decide
    · exact List.forall_mem_cons.mpr ⟨by constructor <;> decide,
        List.forall_mem_singleton.mpr (by constructor <;> decide)⟩
    · rw [hfree]
      exact List.forall_mem_cons.mpr ⟨bytes_disjoint (.inl (by decide)),
        List.forall_mem_singleton.mpr (bytes_disjoint (.inl (by decide)))⟩
  len_le := by decide
  capacity_le := by decide
  chunks := List.forall_mem_singleton.mpr (by constructor <;> decide)
  window := by
    have hblocks : ((listedSample (kernelVma + 0x20000)).allocations 1).blocks
        (listedSample (kernelVma + 0x20000)).heap.words =
        [⟨kernelVma + 0x11000, 16⟩, ⟨kernelVma + 0x10000, 64⟩] := by decide
    rw [hblocks]
    exact List.forall_mem_cons.mpr ⟨by constructor <;> decide,
      List.forall_mem_singleton.mpr (by constructor <;> decide)⟩

/-- `kfree` refuses both blocks. -/
theorem keeps_below : Keeps listedEnv (.linked fun _ => ⟨none, none⟩)
    (listedSample (kernelVma + 0x20000)) 1 0x1000 0x1000 6 := by
  have hreps : (listedSample (kernelVma + 0x20000)).space.virtAllocs.1.Represents
      (listedSample (kernelVma + 0x20000)).space.virtAllocs.2 [1, 2] :=
    ⟨rfl, fun _ => rfl, fun _ => rfl, by simp [LinkedList.Linked, listedSample], by decide⟩
  have hat : IsAt (listedSample (kernelVma + 0x20000)) [1, 2] 1 0x1000 := by
    refine ⟨by decide, by decide, by decide, by decide, fun x hx hv _ => ?_⟩
    rcases List.mem_pair.mp hx with rfl | rfl
    · rfl
    · exact absurd hv (by decide)
  have hfree := stored_listedSample.sound.free_eq
  have hintact : (listedSample (kernelVma + 0x20000)).Intact listedEnv 1 := by
    refine ⟨fun b hb => ?_, by decide⟩
    rw [show (listedSample (kernelVma + 0x20000)).free listedEnv = _ from hfree]
    exact stored_listedSample.sound.disjoint b (List.mem_append_left _ hb)
  refine (keeps_iff hreps (.inl (.inl rfl)) (by decide) hat stored_listedSample hintact (by decide) 6).mpr
    (.inr ?_)
  rw [show (listedSample (kernelVma + 0x20000)).free listedEnv = _ from hfree]
  decide

/-- `realloc` to the same size returns `mem`, and the object in the list of the allocation is freed, as the
only free chunk lies below it. -/
theorem not_keeps_same : ¬ Keeps listedEnv (.linked fun _ => ⟨none, none⟩)
    (listedSample (kernelVma + 0x2000)) 1 0x1000 0x1000 6 := by
  intro h
  have hrun : ((listedSample (kernelVma + 0x2000)).realloc listedEnv (.linked fun _ => ⟨none, none⟩)
      0x1000 0x1000 6).any (fun r => match r with
        | .own out o' => decide (out = 0x1000 ∧ (o'.blocks 1).any fun b =>
            b.rounded ∈ o'.free listedEnv ∧ 0 < b.rounded.size.toNat)
        | _ => false) = true := by decide +kernel
  obtain ⟨r, hr, hq⟩ := (Option.any_eq_true _ _).mp hrun
  cases r with
  | own out o' =>
    obtain ⟨hout, hany⟩ := of_decide_eq_true hq
    obtain ⟨b, hb, hfreed⟩ := List.any_eq_true.mp hany
    obtain ⟨hmem, hpos⟩ := of_decide_eq_true hfreed
    have hallocated := (h out o' hr (.inr (hout.trans (by decide)))).1.allocated b hb
    have hin : b.rounded.addr.toNat ∈ b.rounded.bytes := ⟨le_rfl, Nat.lt_add_of_pos_right hpos⟩
    exact Set.disjoint_left.mp hallocated hin ⟨_, hmem, hin⟩
  | alloc n flags => cases hq
  | free mem => cases hq

end Samples

end ListedSpace
end EpochKernel.Mem
