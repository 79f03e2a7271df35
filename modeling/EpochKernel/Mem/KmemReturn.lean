import EpochKernel.Mem.KmemSeparate

/-! When `kfree` returns a block to the free list, and when it refuses one. Its guard adds the size of
the chunk before the block to the address of the chunk behind it (`prev->next` is that chunk). -/
namespace EpochKernel.Mem
open EpochKernel.Util EpochKernel.Library

/-- The guard of `kfree` between the chunks `q` and `c`. -/
def Guarded (b q c : Chunk) : Prop := b.addr < c.addr + q.size ∨ c.addr < b.addr + b.size

instance (b q c : Chunk) : Decidable (Guarded b q c) := inferInstanceAs (Decidable (_ ∨ _))

/-- The place of the block `b` in the chunks `cs` behind `q` is one where `kfree` returns it: behind
all chunks and apart from the last one, or before a chunk with a guard that lets it pass. -/
def Opens (b : Chunk) : Chunk → List Chunk → Prop
  | q, [] => q.addr + q.size ≠ b.addr
  | q, c :: cs => if b.addr < c.addr then ¬ Guarded b q c else Opens b c cs

/-- `kfree` changes nothing: the guard holds at the place of `b`, or `b` is the last chunk. -/
def Refuses (b : Chunk) : Chunk → List Chunk → Prop
  | q, [] => q = b
  | q, c :: cs => if b.addr < c.addr then Guarded b q c else Refuses b c cs

/-- The free list `cs'` is the free list `cs` with the block `b`, joined with its neighbours. -/
structure Returned (b : Chunk) (cs cs' : List Chunk) : Prop where
  ascending : Ascending cs'
  bytes : ∀ x, x ∈ chunkBytes cs' ↔ x ∈ chunkBytes cs ∨ x ∈ b.bytes
  joined : ∀ c ∈ cs', c.addr.toNat + c.size.toNat ≠ b.addr.toNat ∧
    c.addr.toNat ≠ b.addr.toNat + b.size.toNat

section Lists
variable {b c q : Chunk} {cs cs' : List Chunk} {x : ℕ}

lemma joinNext_bytes (hb : b.Before c) (hc : c.Proper) (hp : b.Proper)
    (hx : x ∈ chunkBytes (b :: c :: cs)) : x ∈ chunkBytes (joinNext b c cs) := by
  rw [joinNext]
  split_ifs with he
  · have hnext : b.addr.toNat + b.size.toNat = c.addr.toNat := by rw [← hb.toNat_add, he]
    have hsize := (hp.join hc hnext).2
    rw [mem_chunkBytes_cons, mem_chunkBytes_cons, Chunk.mem_bytes, Chunk.mem_bytes] at hx
    rw [mem_chunkBytes_cons, Chunk.mem_bytes]
    dsimp only
    rw [UInt64.add_comm, hsize]
    rcases hx with hx | hx | hx
    · exact .inl (by omega)
    · exact .inl (by omega)
    · exact .inr hx
  · exact hx

lemma joinPrev_bytes (hq : q.Before c) (hc : c.Proper) (hp : q.Proper)
    (hx : x ∈ chunkBytes (q :: c :: cs)) : x ∈ chunkBytes (joinPrev q (c :: cs)) := by
  rw [joinPrev]
  split_ifs with he
  · have hnext : q.addr.toNat + q.size.toNat = c.addr.toNat := by rw [← hq.toNat_add, he]
    have hsize := (hp.join hc hnext).2
    rw [mem_chunkBytes_cons, mem_chunkBytes_cons, Chunk.mem_bytes, Chunk.mem_bytes] at hx
    rw [mem_chunkBytes_cons, Chunk.mem_bytes]
    dsimp only
    rw [hsize]
    rcases hx with hx | hx | hx
    · exact .inl (by omega)
    · exact .inl (by omega)
    · exact .inr hx
  · exact hx

/-- After both joins no chunk ends or begins at an end of the block. -/
lemma joined_apart (h : Ascending (c :: cs)) (hb : b.Proper) (hq : q.Proper) (hqb : q.Before b)
    (hbc : b.Before c) {d : Chunk} (hd : d ∈ joinPrev q (joinNext b c cs)) :
    d.addr.toNat + d.size.toNat ≠ b.addr.toNat ∧ d.addr.toNat ≠ b.addr.toNat + b.size.toNat := by
  have hbpos := hb.pos
  have hcpos := h.head.pos
  have hqpos := hq.pos
  have hqb' := hqb
  have hbc' := hbc
  rw [Chunk.Before] at hqb' hbc'
  have hlater (d : Chunk) (hd : d ∈ cs) : b.addr.toNat + b.size.toNat < d.addr.toNat := by
    have := h.before hd
    rw [Chunk.Before] at this
    omega
  -- the chunk made of `b` and the one behind it
  have hfirst : ∃ f fs, joinNext b c cs = f :: fs ∧ f.addr = b.addr ∧ f.Proper ∧
      b.size.toNat ≤ f.size.toNat ∧ ∀ d ∈ fs, b.addr.toNat + b.size.toNat < d.addr.toNat := by
    rw [joinNext]
    split_ifs with he
    · have hnext : b.addr.toNat + b.size.toNat = c.addr.toNat := by rw [← hbc.toNat_add, he]
      obtain ⟨hproper, hsize⟩ := hb.join h.head hnext
      rw [UInt64.add_comm c.size]
      exact ⟨_, _, rfl, rfl, hproper, by dsimp only; omega, hlater⟩
    · refine ⟨_, _, rfl, rfl, hb, le_rfl, fun d hd => ?_⟩
      rcases List.mem_cons.mp hd with rfl | hd
      · have hne : b.addr.toNat + b.size.toNat ≠ d.addr.toNat := fun hn =>
          he (UInt64.toNat_inj.mp (by rw [hbc.toNat_add, hn]))
        omega
      · exact hlater d hd
  obtain ⟨f, fs, hf, haddr, hproper, hsize, hrest⟩ := hfirst
  rw [hf, joinPrev] at hd
  have hrest' (d : Chunk) (hd : d ∈ fs) : d.addr.toNat + d.size.toNat ≠ b.addr.toNat ∧
      d.addr.toNat ≠ b.addr.toNat + b.size.toNat := by
    have := hrest d hd
    omega
  split_ifs at hd with he
  · rcases List.mem_cons.mp hd with rfl | hd
    · have hnext : q.addr.toNat + q.size.toNat = f.addr.toNat := by
        rw [← he, hqb.toNat_add]
      have hsum := (hq.join hproper hnext).2
      dsimp only
      rw [haddr] at hnext
      omega
    · exact hrest' d hd
  · rcases List.mem_cons.mp hd with rfl | hd
    · have hne : d.addr.toNat + d.size.toNat ≠ b.addr.toNat := fun hn => he (by
        rw [haddr]
        exact UInt64.toNat_inj.mp (by rw [hqb.toNat_add, hn]))
      omega
    · rcases List.mem_cons.mp hd with rfl | hd
      · rw [haddr]
        omega
      · exact hrest' d hd

/-- The chunks before the place of the block have no part in it. -/
lemma returned_cons (h : Ascending (q :: cs)) (hq : ∃ c ∈ cs, c.Before b)
    (hqb : Disjoint q.bytes b.bytes) (hasc : Ascending (q :: cs')) :
    Returned b (q :: cs) (q :: cs') ↔ Returned b cs cs' := by
  obtain ⟨c, hc, hcb⟩ := hq
  have hqc := h.before hc
  have hcpos := (h.tail.proper c hc).pos
  rw [Chunk.Before] at hqc hcb
  have hdisj := h.disjoint
  have hdisj' := hasc.disjoint
  constructor
  · rintro ⟨-, hbytes, hjoin⟩
    refine ⟨hasc.tail, fun x => ?_, fun d hd => hjoin d (List.mem_cons_of_mem _ hd)⟩
    have hx := hbytes x
    rw [mem_chunkBytes_cons, mem_chunkBytes_cons] at hx
    have h1 : x ∈ q.bytes → x ∉ chunkBytes cs := fun hxq => Set.disjoint_left.mp hdisj hxq
    have h2 : x ∈ q.bytes → x ∉ chunkBytes cs' := fun hxq => Set.disjoint_left.mp hdisj' hxq
    have h3 : x ∈ q.bytes → x ∉ b.bytes := fun hxq => Set.disjoint_left.mp hqb hxq
    tauto
  · rintro ⟨-, hbytes, hjoin⟩
    refine ⟨hasc, fun x => ?_, fun d hd => ?_⟩
    · have hx := hbytes x
      rw [mem_chunkBytes_cons, mem_chunkBytes_cons]
      tauto
    · rcases List.mem_cons.mp hd with rfl | hd
      · omega
      · exact hjoin d hd

/-- `kfree` returns a block that lies behind the chunk `q` exactly at the places that are open. -/
theorem giveBack_returned_iff (h : Ascending (q :: cs)) (hb : b.Proper) (hq : q.Before b)
    (hcs : ∀ c ∈ cs, Disjoint b.bytes c.bytes) :
    Returned b (q :: cs) (giveBack b q cs) ↔ Opens b q cs := by
  have hgiven := giveBack_given h hb hq hcs
  have hqb' := hq
  rw [Chunk.Before] at hqb'
  have hbpos := hb.pos
  induction cs generalizing q with
  | nil =>
    rw [giveBack, Opens]
    constructor
    · rintro ⟨-, -, hjoin⟩ he
      have := (hjoin q List.mem_cons_self).1
      rw [← he, hq.toNat_add] at this
      exact this rfl
    · intro hne
      refine ⟨(ascending_singleton hb).cons h.head hq, fun x => ?_, fun d hd => ?_⟩
      · simp [mem_chunkBytes_cons]
      · rcases List.mem_pair.mp hd with rfl | rfl
        · have hne' : d.addr.toNat + d.size.toNat ≠ b.addr.toNat := fun hn =>
            hne (UInt64.toNat_inj.mp (by rw [hq.toNat_add, hn]))
          omega
        · omega
  | cons c cs ih =>
    have hbc := hcs c List.mem_cons_self
    rw [giveBack] at hgiven ⊢
    rw [Opens]
    split_ifs at hgiven ⊢ with hlt hguard
    · -- nothing is freed
      refine iff_of_false (fun hr => ?_) (not_not_intro hguard)
      have hin := (hr.bytes b.addr.toNat).mpr (.inr hb.addr_mem)
      obtain ⟨d, hd, hmem⟩ := hin
      rcases List.mem_cons.mp hd with rfl | hd
      · exact absurd hmem.2 (Nat.not_lt.mpr hqb')
      · exact Set.disjoint_left.mp (hcs d hd) hb.addr_mem hmem
    · have hbefore : b.Before c := h.tail.head.before_of_disjoint hbc
        (Nat.le_of_lt (UInt64.lt_iff_toNat_lt.mp hlt))
      refine iff_of_true ⟨hgiven.ascending, fun x => ⟨hgiven.bytes x, fun hx => ?_⟩,
        fun d hd => joined_apart h.tail hb h.head hq hbefore hd⟩ hguard
      have hnext := given_joinNext h.tail hb hbefore
      obtain ⟨f, fs, hf, haddr⟩ := hnext.head
      have hqf : q.Before f := by
        rw [Chunk.Before, haddr]
        exact hqb'
      rw [hf] at hnext ⊢
      refine joinPrev_bytes hqf hnext.ascending.head h.head ?_
      rw [mem_chunkBytes_cons, ← hf]
      rw [mem_chunkBytes_cons] at hx
      have hin (hx : x ∈ chunkBytes (b :: c :: cs)) := joinNext_bytes hbefore h.tail.head hb hx
      rw [mem_chunkBytes_cons] at hin
      tauto
    · have hbefore : c.Before b := hb.before_of_disjoint hbc.symm
        (Nat.not_lt.mp fun hn => hlt (UInt64.lt_iff_toNat_lt.mpr hn))
      have hcs' : ∀ d ∈ cs, Disjoint b.bytes d.bytes := fun d hd => hcs d (List.mem_cons_of_mem _ hd)
      have hrest := giveBack_given h.tail hb hbefore hcs'
      rw [returned_cons h ⟨c, List.mem_cons_self, hbefore⟩ hq.disjoint hgiven.ascending]
      exact ih h.tail hbefore hcs' hrest hbefore

end Lists

section Loop
variable {w w' : Words} {b c q : Chunk} {cs : List Chunk} {fuel : ℕ}

lemma add_eight_ne {a d : UInt64} (ha : 16 ∣ a.toNat) (hd : 16 ∣ d.toNat) : a + 8 ≠ d := by
  rintro rfl
  rw [UInt64.toNat_add] at hd
  have h8 : (8 : UInt64).toNat = 8 := rfl
  have hlt := a.toNat_lt
  omega

/-- A block that passes the guard of `kfree` changes the header of the chunk before it. -/
lemma kfreeLoop_changes (hb : b.Proper) (hc : c.Proper) (hq : q.Proper)
    (hnext : w.next q.addr = c.addr) (hqsize : w.size q.addr = q.size) (hcsize : w.size c.addr = c.size)
    (hlt : b.addr < c.addr) (hopen : ¬ Guarded b q c) :
    w.kfreeLoop b.addr b.size (fuel + 1) q.addr c.addr ≠ some w := by
  intro hsame
  have hopen : ¬ (b.addr < c.addr + q.size ∨ c.addr < b.addr + b.size) := hopen
  rw [Words.kfreeLoop, if_pos hlt, hnext, hqsize, if_neg hopen] at hsame
  dsimp only at hsame
  generalize hw1 : (if b.addr + b.size = c.addr then
      (w.setNext b.addr (w.next c.addr)).setSize b.addr
        ((w.setNext b.addr (w.next c.addr)).size c.addr + b.size)
    else (w.setNext b.addr c.addr).setSize b.addr b.size) = w1 at hsame
  have hbq8 := add_eight_ne hb.dvd_addr hq.dvd_addr
  have hqb8 := add_eight_ne hq.dvd_addr hb.dvd_addr
  have hcb8 := add_eight_ne hc.dvd_addr hb.dvd_addr
  have hbpos := hb.pos
  -- the size written to the header of the block is not 0
  have hne : w1.size b.addr ≠ 0 := by
    rw [← hw1]
    split_ifs with he
    · rw [Words.size, Words.setSize_apply, if_pos rfl, Words.size, Words.setNext_apply, if_neg hcb8]
      change w.size c.addr + b.size ≠ 0
      rw [hcsize]
      intro h0
      have hsum := congrArg UInt64.toNat h0
      have hadd := congrArg UInt64.toNat he
      have hbne : b.addr.toNat ≠ 0 := fun h0 => hb.addr_ne (UInt64.toNat_inj.mp h0)
      have hcne : c.addr.toNat ≠ 0 := fun h0 => hc.addr_ne (UInt64.toNat_inj.mp h0)
      have hbend := hb.end_le
      have hcend := hc.end_le
      have hz : (0 : UInt64).toNat = 0 := rfl
      rw [UInt64.toNat_add] at hsum hadd
      omega
    · rw [Words.size, Words.setSize_apply, if_pos rfl]
      intro h0
      rw [h0] at hbpos
      exact absurd hbpos (lt_irrefl _)
  split_ifs at hsame with hprev
  · -- the block follows the chunk before it, whose size grows
    have hsame := congrFun (Option.some.inj hsame) (q.addr + 8)
    rw [Words.setSize_apply, if_pos rfl, Words.size, Words.setNext_apply,
      if_neg (add_eight_ne hq.dvd_addr hq.dvd_addr), Words.size, Words.setNext_apply, if_neg hbq8]
      at hsame
    change w1.size q.addr + w1.size b.addr = w.size q.addr at hsame
    by_cases heq : q.addr = b.addr
    · rw [heq] at hprev
      exact hne (by simpa using hprev)
    · have hkeep : w1.size q.addr = w.size q.addr := by
        have h8 : q.addr + 8 ≠ b.addr + 8 := fun h => heq (add_right_cancel h)
        rw [← hw1]
        split_ifs
        · rw [Words.size, Words.setSize_apply, if_neg h8, Words.setNext_apply, if_neg hqb8]
          rfl
        · rw [Words.size, Words.setSize_apply, if_neg h8, Words.setNext_apply, if_neg hqb8]
          rfl
      rw [hkeep] at hsame
      exact hne (by simpa using hsame)
  · have hsame := congrFun (Option.some.inj hsame) q.addr
    rw [Words.setNext_apply, if_pos rfl] at hsame
    change b.addr = w.next q.addr at hsame
    rw [hnext] at hsame
    rw [hsame] at hlt
    exact absurd hlt (UInt64.lt_irrefl _)

/-- At the first chunk above the block only the guard keeps the loop from changing the list. -/
lemma kfreeLoop_above (hb : b.Proper) (hc : c.Proper) (hq : q.size = 0 ∨ q.Proper)
    (hnext : w.next q.addr = c.addr) (hqsize : w.size q.addr = q.size)
    (hcsize : w.size c.addr = c.size) (hlt : b.addr < c.addr) :
    w.kfreeLoop b.addr b.size (fuel + 1) q.addr c.addr = some w ↔ Guarded b q c := by
  by_cases hguard : Guarded b q c
  · refine iff_of_true ?_ hguard
    have hguard : b.addr < c.addr + q.size ∨ c.addr < b.addr + b.size := hguard
    rw [Words.kfreeLoop, if_pos hlt, hnext, hqsize, if_pos hguard]
  · refine iff_of_false (kfreeLoop_changes hb hc (hq.resolve_left fun h0 => ?_) hnext hqsize hcsize
      hlt hguard) hguard
    exact hguard (.inl (by rwa [h0, add_zero]))

/-- The end of the list: the block is appended, unless it is the last chunk. -/
lemma kfreeLoop_end (hb : b.Proper) (hc : c.Proper) (hnext : w.next c.addr = 0)
    (hsize : w.size c.addr = c.size) (hlt : ¬ b.addr < c.addr) {prev : UInt64} :
    w.kfreeLoop b.addr b.size (fuel + 1) prev c.addr = some w ↔ c = b := by
  rw [Words.kfreeLoop, if_neg hlt, if_neg hc.addr_ne]
  dsimp only
  rw [if_pos hnext, Option.some_inj]
  constructor
  · intro hsame
    have hcb8 := (add_eight_ne hb.dvd_addr hc.dvd_addr).symm
    have haddr : c.addr = b.addr := by
      by_contra hne
      have h1 := congrFun hsame c.addr
      rw [Words.setSize_apply, if_neg hcb8, Words.setNext_apply, if_neg hne, Words.setNext_apply,
        if_pos rfl] at h1
      exact hb.addr_ne (h1.trans hnext)
    have h2 := congrFun hsame (b.addr + 8)
    rw [Words.setSize_apply, if_pos rfl, ← haddr] at h2
    obtain ⟨a, n⟩ := c
    obtain ⟨a', n'⟩ := b
    exact (Chunk.mk.injEq ..).mpr ⟨haddr, (h2.trans hsize).symm⟩
  · rintro rfl
    funext a
    rw [Words.setSize_apply, Words.setNext_apply, Words.setNext_apply]
    split_ifs with h1 h2
    · rw [h1]
      exact hsize.symm
    · rw [h2]
      exact hnext.symm
    · rfl

/-- The loop of `kfree` changes nothing exactly where it refuses the block. -/
lemma kfreeLoop_unchanged_iff (hb : b.Proper) (hq : q.size = 0 ∨ q.Proper)
    (h : w.Linked q.addr (c :: cs)) (hqsize : w.size q.addr = q.size) (hasc : Ascending (c :: cs))
    (hfuel : cs.length < fuel) :
    w.kfreeLoop b.addr b.size fuel q.addr c.addr = some w ↔ Refuses b q (c :: cs) := by
  induction cs generalizing q c fuel with
  | nil =>
    obtain ⟨fuel, rfl⟩ := Nat.exists_eq_succ_of_ne_zero (Nat.ne_of_gt hfuel)
    obtain ⟨hnext, -, hsize, hend⟩ := h
    rw [Refuses]
    split_ifs with hlt
    · exact kfreeLoop_above hb hasc.head hq hnext hqsize hsize hlt
    · rw [Refuses]
      exact kfreeLoop_end hb hasc.head hend hsize hlt
  | cons d cs ih =>
    obtain ⟨fuel, rfl⟩ := Nat.exists_eq_succ_of_ne_zero (Nat.ne_of_gt (Nat.zero_lt_of_lt hfuel))
    obtain ⟨hnext, hne, hsize, hrest⟩ := h
    rw [Refuses]
    split_ifs with hlt
    · exact kfreeLoop_above hb hasc.head hq hnext hqsize hsize hlt
    · have hdnext : w.next c.addr = d.addr := hrest.1
      rw [Words.kfreeLoop, if_neg hlt, if_neg hne]
      dsimp only
      rw [hdnext, if_neg hrest.2.1]
      exact ih (.inr hasc.head) hrest hsize hasc.tail (Nat.lt_of_succ_lt_succ hfuel)

end Loop

namespace HeapUsers
variable {π : Type*} {e : HeapEnv π} {u : HeapUsers π} {cs : List Chunk} {b : Chunk}

/-- A live block is returned exactly where the list is open. -/
lemma Sound.kfree_returned_iff (h : Sound e u cs) (hb : b ∈ u.live) :
    ∃ u', step e u (.kfree b) = some u' ∧
      (Returned b.rounded (u.free e) (u'.free e) ↔
        Opens b.rounded ⟨e.memStart, 0⟩ (u.free e)) := by
  obtain ⟨-, u', cs', hs, h', hgive⟩ := h.kfree hb
  refine ⟨u', hs, ?_⟩
  rw [h.free_eq, h'.free_eq]
  have hproper := h.proper b hb
  have hdisj : ∀ d ∈ cs, Disjoint b.rounded.bytes d.bytes := fun d hd =>
    Set.disjoint_left.mpr fun x hx hxd => Set.disjoint_left.mp (h.disjoint b hb) hx ⟨d, hd, hxd⟩
  obtain ⟨c, cs0, rfl⟩ := List.exists_cons_of_ne_nil h.nonempty
  rw [giveBack] at hgive
  rw [Opens]
  split_ifs at hgive ⊢ with hlt hguard
  · obtain rfl := (List.cons.inj hgive).2
    refine iff_of_false (fun hr => ?_) (not_not_intro hguard)
    exact Set.disjoint_left.mp (h.disjoint b hb) hproper.addr_mem
      ((hr.bytes _).mpr (.inr hproper.addr_mem))
  · rw [not_or] at hguard
    exact absurd (show b.rounded.addr < c.addr + 0 by rwa [add_zero]) hguard.1
  · obtain rfl := (List.cons.inj hgive).2
    have hbefore : c.Before b.rounded := hproper.before_of_disjoint
      (hdisj c List.mem_cons_self).symm
      (Nat.not_lt.mp fun hn => hlt (UInt64.lt_iff_toNat_lt.mpr hn))
    exact giveBack_returned_iff h.ascending hproper hbefore
      fun d hd => hdisj d (List.mem_cons_of_mem _ hd)

/-- `kfree` on any block of memory leaves the heap as it is exactly where it refuses the block. -/
lemma Sound.kfree_unchanged_iff (h : Sound e u cs) {addr n : UInt64} (hn : n ≠ 0)
    (hproper : Chunk.Proper ⟨alignDown addr memChunkSize, alignUp n memChunkSize⟩) :
    Heap.kfree e addr n u.heap = some u.heap ↔
      Refuses ⟨alignDown addr memChunkSize, alignUp n memChunkSize⟩ ⟨e.memStart, 0⟩ (u.free e) := by
  rw [h.free_eq]
  have hfuel := h.fuel
  have hlinked := h.linked
  have hasc := h.ascending
  obtain ⟨c, cs0, rfl⟩ := List.exists_cons_of_ne_nil h.nonempty
  have hnext : u.heap.words.next e.memStart = c.addr := hlinked.1
  have hloop := kfreeLoop_unchanged_iff (q := ⟨e.memStart, 0⟩) hproper (.inl rfl) hlinked h.size_eq
    hasc hfuel
  rw [Heap.kfree, if_neg hn, hnext, ← hloop, Option.map_eq_some_iff]
  constructor
  · rintro ⟨w, hw, hheap⟩
    rw [hw, ← hheap]
  · exact fun hw => ⟨_, hw, rfl⟩

/-- `kfree` returns a block in use, joined with its neighbours, exactly where the list is open, and
leaves the heap as it is for a block that meets a free chunk exactly where it refuses it. -/
theorem kfree_returns_iff (h : WellFormed e u) :
    (∀ b ∈ u.live, ∃ u', step e u (.kfree b) = some u' ∧
      (Returned b.rounded (u.free e) (u'.free e) ↔ Opens b.rounded ⟨e.memStart, 0⟩ (u.free e))) ∧
    ∀ addr n : UInt64, n ≠ 0 →
      Chunk.Proper ⟨alignDown addr memChunkSize, alignUp n memChunkSize⟩ →
      (∃ c ∈ u.free e, ¬ Disjoint c.bytes
        (⟨alignDown addr memChunkSize, alignUp n memChunkSize⟩ : Chunk).bytes) →
      (Heap.kfree e addr n u.heap = some u.heap ↔
        Refuses ⟨alignDown addr memChunkSize, alignUp n memChunkSize⟩ ⟨e.memStart, 0⟩
          (u.free e)) := by
  obtain ⟨cs, h⟩ := h
  exact ⟨fun b hb => h.kfree_returned_iff hb, fun addr n hn hproper _ => h.kfree_unchanged_iff hn hproper⟩

theorem kfree_returns_small :
    (∃ u', step ⟨0x1000, fun _ _ => (none, ())⟩ small (.kfree ⟨0x10000, 40⟩) = some u' ∧
      (Returned (⟨0x10000, 40⟩ : Chunk).rounded (small.free ⟨0x1000, fun _ _ => (none, ())⟩)
          (u'.free ⟨0x1000, fun _ _ => (none, ())⟩) ↔
        Opens (⟨0x10000, 40⟩ : Chunk).rounded ⟨0x1000, 0⟩
          (small.free ⟨0x1000, fun _ _ => (none, ())⟩))) ∧
    (Heap.kfree ⟨0x1000, fun _ _ => (none, ())⟩ 0x2010 16 small.heap = some small.heap ↔
      Refuses ⟨0x2010, 16⟩ ⟨0x1000, 0⟩ (small.free ⟨0x1000, fun _ _ => (none, ())⟩)) := by
  have hsound := sound_small (fun _ _ => (none, ())) (b := ⟨0x10000, 40⟩) (by constructor <;> decide)
    fun x hx => .inr (by
      have hx : 0x10000 ≤ x ∧ x < 0x10030 := hx
      omega)
  obtain ⟨h1, h2⟩ := kfree_returns_iff ⟨_, hsound⟩
  refine ⟨h1 _ List.mem_cons_self, h2 0x2010 16 (by decide) (by constructor <;> decide)
    ⟨⟨0x2000, 0x100⟩, ?_, Set.not_disjoint_iff.mpr ⟨0x2010, by decide, by decide⟩⟩⟩
  rw [hsound.free_eq]
  exact List.mem_cons_self

/-- The two chunks, and a block below them. -/
def below : HeapUsers Unit := { small with live := [⟨0x1800, 40⟩] }

/-- A block below the free chunks is not returned, as the guard holds. -/
theorem not_returned_below :
    WellFormed ⟨0x1000, fun _ _ => (none, ())⟩ below ∧
    ∃ u', step ⟨0x1000, fun _ _ => (none, ())⟩ below (.kfree ⟨0x1800, 40⟩) = some u' ∧
      ¬ Returned (⟨0x1800, 40⟩ : Chunk).rounded (below.free ⟨0x1000, fun _ _ => (none, ())⟩)
        (u'.free ⟨0x1000, fun _ _ => (none, ())⟩) := by
  have hsound := sound_small (fun _ _ => (none, ())) (b := ⟨0x1800, 40⟩) (by constructor <;> decide)
    fun x hx => .inl (by
      have hx : 0x1800 ≤ x ∧ x < 0x1830 := hx
      omega)
  obtain ⟨u', hs, hiff⟩ := hsound.kfree_returned_iff List.mem_cons_self
  refine ⟨⟨_, hsound⟩, u', hs, fun hr => ?_⟩
  have hopen := hiff.mp hr
  rw [hsound.free_eq, Opens, if_pos (by decide)] at hopen
  exact hopen (by decide)

end HeapUsers
end EpochKernel.Mem
