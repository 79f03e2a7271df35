import EpochKernel.Mem.KmemReturn

/-! `krealloc`. A smaller block gives its end to `kfree`; a larger one is moved, also after the chunk
behind it has been cut, since nothing returns from the loop there. -/
namespace EpochKernel.Mem
open EpochKernel.Util EpochKernel.Library

namespace Words
variable (w : Words)

/-- `memcpy (dest, src, n)` for blocks that do not overlap. -/
def memcpy (dest src n : UInt64) : Words := fun a => if a - dest < n then w (src + (a - dest)) else w a

/-- The in-place branch of `krealloc`: `diff` bytes are cut off the front of the chunk `i`. -/
def cutFront (prev i diff : UInt64) : Words :=
  let w := w.setSize i (w.size i - diff)
  let newAddr := i + diff
  (w.copyChunk newAddr i).setNext prev newAddr

/-- The loop of `krealloc`, up to the call of `kmem_resize_move` that always ends it. -/
def kreallocLoop (addrPtr orig diff : UInt64) : ℕ → UInt64 → UInt64 → Words → Option Words
  | 0, _, _, _ => none
  | fuel + 1, prev, i, w =>
    if addrPtr < i ∧ ¬ (diff ≤ w.size i ∧ i = addrPtr + orig) then some w
    else if i = 0 then none
    else
      let w := if addrPtr < i then w.cutFront prev i diff else w
      let next := w.next i
      if next = 0 then some w else kreallocLoop addrPtr orig diff fuel i next w

end Words

namespace Heap
variable {π : Type*} (e : HeapEnv π)

/-- `kmem_resize_move`. -/
def kmemResizeMove (addr orig n : UInt64) (h : Heap π) : Option (UInt64 × Heap π) :=
  (kalloc e n h).bind fun r =>
    if r.1 = 0 then some (0, r.2)
    else
      (kfree e addr orig { r.2 with words := r.2.words.memcpy r.1 addr orig }).map fun h => (r.1, h)

/-- `krealloc`. -/
def krealloc (addr orig n : UInt64) (h : Heap π) : Option (UInt64 × Heap π) :=
  let orig := max (alignUp orig memChunkSize) memChunkSize
  let n := max (alignUp n memChunkSize) memChunkSize
  if orig = n then some (addr, h)
  else if n < orig then
    (kfree e (addr + n) (orig - n) h).map fun h => (if n = 0 then 0 else addr, h)
  else
    (h.words.kreallocLoop (alignDown addr memChunkSize) orig (n - orig) (2 ^ 60) e.memStart
      (h.words.next e.memStart)).bind fun w => kmemResizeMove e addr orig n { h with words := w }

end Heap

/-- The bytes on a free list. -/
def freeTotal (cs : List Chunk) : ℕ := (cs.map fun c => c.size.toNat).sum

/-- The guard of `kfree` lets the block `b` pass at its place behind `q`. -/
def Placed (b : Chunk) : Chunk → List Chunk → Prop
  | _, [] => True
  | q, c :: cs => if b.addr < c.addr then ¬ Guarded b q c else Placed b c cs

section Totals
variable {b c q : Chunk} {cs cs' : List Chunk} {n out : UInt64}

@[simp] lemma freeTotal_cons (c : Chunk) (cs : List Chunk) :
    freeTotal (c :: cs) = c.size.toNat + freeTotal cs := rfl

lemma freeTotal_append (cs cs' : List Chunk) :
    freeTotal (cs ++ cs') = freeTotal cs + freeTotal cs' := by
  simp [freeTotal]

lemma freeTotal_cut (hle : n ≤ c.size) : freeTotal (c.cut n) + n.toNat = c.size.toNat := by
  have hle' := UInt64.le_iff_toNat_le.mp hle
  rw [Chunk.cut]
  split_ifs with he
  · rw [he]
    exact Nat.zero_add _
  · rw [freeTotal_cons, UInt64.toNat_sub_of_le _ _ hle]
    change c.size.toNat - n.toNat + 0 + n.toNat = _
    omega

lemma freeTotal_takeFirst (h : takeFirst n cs = some (out, cs')) :
    freeTotal cs' + n.toNat = freeTotal cs := by
  induction cs generalizing cs' with
  | nil => cases h
  | cons c cs ih =>
    rw [takeFirst] at h
    split_ifs at h with hle
    · obtain ⟨rfl, rfl⟩ := Prod.mk.inj (Option.some.inj h)
      have := freeTotal_cut hle
      rw [freeTotal_append, freeTotal_cons]
      omega
    · obtain ⟨⟨out', rest⟩, hrest, he⟩ := Option.map_eq_some_iff.mp h
      obtain ⟨rfl, rfl⟩ := Prod.mk.inj he
      have := ih hrest
      rw [freeTotal_cons, freeTotal_cons]
      dsimp only
      omega

lemma freeTotal_joinNext (hb : b.Proper) (hc : c.Proper) (hbc : b.Before c) :
    freeTotal (joinNext b c cs) = freeTotal (b :: c :: cs) := by
  rw [joinNext]
  split_ifs with he
  · have hnext : b.addr.toNat + b.size.toNat = c.addr.toNat := by rw [← hbc.toNat_add, he]
    have hsize := (hb.join hc hnext).2
    rw [freeTotal_cons, freeTotal_cons, freeTotal_cons]
    dsimp only
    rw [UInt64.add_comm, hsize]
    omega
  · rfl

lemma freeTotal_joinPrev (hq : q.Proper) (hc : c.Proper) (hqc : q.Before c) :
    freeTotal (joinPrev q (c :: cs)) = freeTotal (q :: c :: cs) := by
  rw [joinPrev]
  split_ifs with he
  · have hnext : q.addr.toNat + q.size.toNat = c.addr.toNat := by rw [← hqc.toNat_add, he]
    have hsize := (hq.join hc hnext).2
    rw [freeTotal_cons, freeTotal_cons, freeTotal_cons]
    dsimp only
    rw [hsize]
    omega
  · rfl

/-- `kfree` gives the bytes of the block to the list, or leaves the list as it is. -/
lemma giveBack_total_of_before (h : Ascending (q :: cs)) (hb : b.Proper) (hq : q.Before b)
    (hcs : ∀ c ∈ cs, Disjoint b.bytes c.bytes) :
    (Placed b q cs → freeTotal (giveBack b q cs) = freeTotal (q :: cs) + b.size.toNat) ∧
      (¬ Placed b q cs → giveBack b q cs = q :: cs) := by
  induction cs generalizing q with
  | nil =>
    refine ⟨fun _ => ?_, fun hn => absurd trivial hn⟩
    rw [giveBack, freeTotal_cons, freeTotal_cons, freeTotal_cons, Nat.add_assoc]
    congr 1
    exact Nat.add_comm _ _
  | cons c cs ih =>
    have hbc := hcs c List.mem_cons_self
    rw [giveBack, Placed]
    split_ifs with hlt hguard
    · exact ⟨fun hp => absurd hguard hp, fun _ => rfl⟩
    · refine ⟨fun _ => ?_, fun hn => absurd hguard hn⟩
      have hbefore : b.Before c := h.tail.head.before_of_disjoint hbc
        (Nat.le_of_lt (UInt64.lt_iff_toNat_lt.mp hlt))
      have hnext := given_joinNext h.tail hb hbefore
      have htotal : freeTotal (joinNext b c cs) = freeTotal (b :: c :: cs) :=
        freeTotal_joinNext hb h.tail.head hbefore
      obtain ⟨f, fs, hf, haddr⟩ := hnext.head
      have hqf : q.Before f := by
        rw [Chunk.Before, haddr]
        exact hq
      rw [hf] at hnext htotal ⊢
      simp only [freeTotal_cons] at htotal
      rw [freeTotal_joinPrev h.head hnext.ascending.head hqf]
      simp only [freeTotal_cons]
      omega
    · have hbefore : c.Before b := hb.before_of_disjoint hbc.symm
        (Nat.not_lt.mp fun hn => hlt (UInt64.lt_iff_toNat_lt.mpr hn))
      obtain ⟨h1, h2⟩ := ih h.tail hbefore fun d hd => hcs d (List.mem_cons_of_mem _ hd)
      refine ⟨fun hp => ?_, fun hn => by rw [h2 hn]⟩
      have hrest := h1 hp
      simp only [freeTotal_cons] at hrest ⊢
      omega

end Totals

/-- The list after the in-place branch: `n` bytes are cut off the chunk at `a`, if it has them. -/
def cutAt (a n : UInt64) : List Chunk → List Chunk
  | [] => []
  | c :: cs => if c.addr = a ∧ n ≤ c.size then c.cut n ++ cs else c :: cutAt a n cs

section Cuts
variable {w : Words} {b c q : Chunk} {cs : List Chunk} {p n : UInt64} {fuel : ℕ}

lemma cutAt_of_forall {a : UInt64} (h : ∀ c ∈ cs, ¬ (c.addr = a ∧ n ≤ c.size)) :
    cutAt a n cs = cs := by
  induction cs with
  | nil => rfl
  | cons c cs ih =>
    rw [cutAt, if_neg (h c List.mem_cons_self), ih fun d hd => h d (List.mem_cons_of_mem _ hd)]

/-- The in-place branch cuts the chunk as `kalloc` does, but leaves its bytes as they are. -/
lemma cutFront_linked (hn : 16 ∣ n.toNat) (hpos : 0 < n.toNat) (hw : w.Linked p (c :: cs))
    (hasc : Ascending (c :: cs)) (hp : p.toNat ∉ chunkBytes (c :: cs)) (hlt : n < c.size) :
    (w.cutFront p c.addr n).Linked p (c.cut n ++ cs) ∧
      (w.cutFront p c.addr n).next c.addr = w.next c.addr ∧
      ∀ a, a ≠ p → a.toNat ∉ c.bytes → w.cutFront p c.addr n a = w a := by
  have hlt' := UInt64.lt_iff_toNat_lt.mp hlt
  have hle : n ≤ c.size := UInt64.le_iff_toNat_le.mpr (Nat.le_of_lt hlt')
  have hne : c.size ≠ n := fun he => absurd (he ▸ hlt) (UInt64.lt_irrefl _)
  have hc := hasc.head
  have hend := hc.end_le
  have hfit : c.addr.toNat + n.toNat ≤ 2 ^ 64 := by omega
  have hsize : w.size c.addr = c.size := hw.2.2.1
  obtain ⟨hlinked, hframe⟩ := cut_linked hn hpos hw hasc hp hle
  have h1size : (w.setSize c.addr (c.size - n)).size c.addr = c.size - n := by
    rw [Words.size, Words.setSize_apply, if_pos rfl]
  obtain ⟨hr, haddr, hrsize⟩ := hc.cut hn hpos hle hne
  have hzero : c.size - n ≠ 0 := fun h0 => by
    have := hr.pos
    rw [h0] at this
    exact absurd this (lt_irrefl _)
  rw [h1size, if_neg hzero] at hlinked hframe
  have heq : w.cutFront p c.addr n =
      ((w.setSize c.addr (c.size - n)).copyChunk (c.addr + n) c.addr).setNext p (c.addr + n) := by
    rw [Words.cutFront, hsize]
  rw [heq]
  -- the bytes that `kalloc` clears belong to no chunk that is left
  have hfront (x : UInt64) (hx : x.toNat ∈ chunkBytes (c.cut n ++ cs)) :
      x.toNat ∉ (⟨c.addr, n⟩ : Chunk).bytes := by
    obtain ⟨d, hd, hxd⟩ := hx
    rcases List.mem_append.mp hd with hd | hd
    · exact ((hc.bytes_cut hn hpos hle).mp ⟨d, hd, hxd⟩).2
    · intro hmem
      refine Set.disjoint_left.mp hasc.disjoint ?_ ⟨d, hd, hxd⟩
      rw [Chunk.mem_bytes] at hmem ⊢
      dsimp only at hmem
      omega
  have hpfront : p.toNat ∉ (⟨c.addr, n⟩ : Chunk).bytes := fun hmem => by
    refine hp (mem_chunkBytes_cons.mpr (.inl ?_))
    rw [Chunk.mem_bytes] at hmem ⊢
    dsimp only at hmem
    omega
  have hasc' : ∀ d ∈ c.cut n ++ cs, d.Proper := fun d hd => by
    rcases List.mem_append.mp hd with hd | hd
    · rw [Chunk.cut, if_neg hne] at hd
      obtain rfl := List.mem_singleton.mp hd
      exact hr
    · exact hasc.tail.proper d hd
  refine ⟨hlinked.congr hasc' (Words.memset_of_notMem hfit hpfront).symm fun x hx =>
    (Words.memset_of_notMem hfit (hfront x hx)).symm, ?_, fun x hxp hxc => ?_⟩
  · have hpc : c.addr ≠ p := fun he => hp (mem_chunkBytes_cons.mpr (.inl (he ▸ hc.addr_mem)))
    have hself : c.addr ≠ c.addr + n := fun he => by
      have := congrArg UInt64.toNat he
      omega
    have hself8 : c.addr ≠ c.addr + n + 8 := fun he => by
      have := congrArg UInt64.toNat he
      rw [hr.toNat_add_eight, haddr] at this
      omega
    rw [Words.next, Words.setNext_apply, if_neg hpc, Words.copyChunk, Words.setSize_apply,
      if_neg hself8, Words.setNext_apply, if_neg hself, Words.setSize_apply, if_neg hc.size_ne.symm]
    rfl
  · have hx : x.toNat ∉ (⟨c.addr, n⟩ : Chunk).bytes := fun hmem => hxc (by
      rw [Chunk.mem_bytes] at hmem ⊢
      dsimp only at hmem
      omega)
    rw [← hframe x hxp hxc, Words.memset_of_notMem hfit hx]

/-- The loop of `krealloc` changes nothing unless it finds room right behind the block. -/
lemma kreallocLoop_of_forall {addr orig diff : UInt64} (hw : w.Linked p (c :: cs))
    (hno : ∀ d ∈ c :: cs, ¬ (d.addr = addr + orig ∧ diff ≤ d.size)) (hfuel : cs.length < fuel) :
    w.kreallocLoop addr orig diff fuel p c.addr = some w := by
  induction cs generalizing p c fuel with
  | nil =>
    obtain ⟨fuel, rfl⟩ := Nat.exists_eq_succ_of_ne_zero (Nat.ne_of_gt hfuel)
    obtain ⟨-, hne, hsize, hend⟩ := hw
    have hc := hno c List.mem_cons_self
    rw [Words.kreallocLoop, hsize]
    by_cases hlt : addr < c.addr
    · rw [if_pos ⟨hlt, fun h => hc h.symm⟩]
    · rw [if_neg fun h => hlt h.1, if_neg hne, if_neg hlt]
      exact if_pos hend
  | cons d cs ih =>
    obtain ⟨fuel, rfl⟩ := Nat.exists_eq_succ_of_ne_zero (Nat.ne_of_gt (Nat.zero_lt_of_lt hfuel))
    obtain ⟨-, hne, hsize, hrest⟩ := hw
    have hc := hno c List.mem_cons_self
    have hdnext : w.next c.addr = d.addr := hrest.1
    rw [Words.kreallocLoop, hsize]
    by_cases hlt : addr < c.addr
    · rw [if_pos ⟨hlt, fun h => hc h.symm⟩]
    · rw [if_neg fun h => hlt h.1, if_neg hne, if_neg hlt]
      dsimp only
      rw [hdnext, if_neg hrest.2.1]
      exact ih hrest (fun e he => hno e (List.mem_cons_of_mem _ he)) (Nat.lt_of_succ_lt_succ hfuel)

/-- The loop of `krealloc` takes `diff` bytes off the chunk right behind the block, and goes on. -/
lemma kreallocLoop_cuts {orig diff : UInt64} {d : Chunk} (hb : b.Proper)
    (horig : b.size = orig) (hn : 16 ∣ diff.toNat) (hpos : 0 < diff.toNat)
    (hw : w.Linked p (c :: cs)) (hasc : Ascending (c :: cs)) (hp : p.toNat ∉ chunkBytes (c :: cs))
    (hdisj : ∀ d ∈ c :: cs, Disjoint b.bytes d.bytes) (hd : d ∈ c :: cs)
    (hat : d.addr = b.addr + orig) (hlt : diff < d.size) (hfuel : cs.length < fuel) :
    ∃ w', w.kreallocLoop b.addr orig diff fuel p c.addr = some w' ∧
      w'.Linked p (cutAt (b.addr + orig) diff (c :: cs)) ∧
      ∀ a, a ≠ p → a.toNat ∉ chunkBytes (c :: cs) → w' a = w a := by
  subst horig
  have hdproper := hasc.proper d hd
  have htarget : d.addr.toNat = b.addr.toNat + b.size.toNat := by
    have hne : d.addr.toNat ≠ 0 := fun h0 => hdproper.addr_ne (UInt64.toNat_inj.mp h0)
    have h := congrArg UInt64.toNat hat
    have := hb.end_le
    rw [UInt64.toNat_add] at h
    omega
  have hbpos := hb.pos
  have hle : diff ≤ d.size := UInt64.le_iff_toNat_le.mpr (Nat.le_of_lt (UInt64.lt_iff_toNat_lt.mp hlt))
  induction cs generalizing p c w fuel with
  | nil =>
    obtain ⟨fuel, rfl⟩ := Nat.exists_eq_succ_of_ne_zero (Nat.ne_of_gt hfuel)
    obtain rfl := List.mem_singleton.mp hd
    obtain ⟨hlinked, hnext, hframe⟩ := cutFront_linked hn hpos hw hasc hp hlt
    obtain ⟨-, hne, hsize, hend⟩ := hw
    have hbelow : b.addr < d.addr := UInt64.lt_iff_toNat_lt.mpr (by omega)
    refine ⟨_, ?_, ?_, fun a h1 h2 => hframe a h1 fun hx => h2 (mem_chunkBytes_cons.mpr (.inl hx))⟩
    · rw [Words.kreallocLoop, hsize, if_neg fun h => h.2 ⟨hle, hat⟩, if_neg hne, if_pos hbelow]
      dsimp only
      rw [hnext]
      exact if_pos hend
    · rw [cutAt, if_pos ⟨hat, hle⟩]
      exact hlinked
  | cons c' cs ih =>
    obtain ⟨fuel, rfl⟩ := Nat.exists_eq_succ_of_ne_zero (Nat.ne_of_gt (Nat.zero_lt_of_lt hfuel))
    by_cases hcat : c.addr = b.addr + b.size
    · -- the chunk behind the block
      obtain rfl : d = c := by
        refine (List.mem_cons.mp hd).resolve_right fun hmem => ?_
        have := hasc.before hmem
        have hcpos := hasc.head.pos
        rw [Chunk.Before, hcat, ← hat] at this
        omega
      obtain ⟨hlinked, hnext, hframe⟩ := cutFront_linked hn hpos hw hasc hp hlt
      obtain ⟨-, hne, hsize, hrest⟩ := hw
      have hbelow : b.addr < d.addr := UInt64.lt_iff_toNat_lt.mpr (by omega)
      have hdnext : w.next d.addr = c'.addr := hrest.1
      have hafter := hasc.before (List.mem_cons_self (a := c'))
      rw [Chunk.Before] at hafter
      have hbelow' : b.addr < c'.addr := UInt64.lt_iff_toNat_lt.mpr (by omega)
      have hc'ne : c'.addr ≠ b.addr + b.size := fun he => by
        have hdpos := hdproper.pos
        rw [← hat] at he
        rw [he] at hafter
        omega
      obtain ⟨fuel, rfl⟩ := Nat.exists_eq_succ_of_ne_zero
        (Nat.ne_of_gt (Nat.zero_lt_of_lt (Nat.lt_of_succ_lt_succ hfuel)))
      refine ⟨_, ?_, ?_, fun a h1 h2 => hframe a h1 fun hx => h2 (mem_chunkBytes_cons.mpr (.inl hx))⟩
      · rw [Words.kreallocLoop, hsize, if_neg fun h => h.2 ⟨hle, hat⟩, if_neg hne, if_pos hbelow]
        dsimp only
        rw [hnext, hdnext, if_neg hrest.2.1, Words.kreallocLoop,
          if_pos ⟨hbelow', fun h => hc'ne h.2⟩]
      · rw [cutAt, if_pos ⟨hat, hle⟩]
        exact hlinked
    · have hmem : d ∈ c' :: cs := (List.mem_cons.mp hd).resolve_left fun he => hcat (he ▸ hat)
      have hafter := hasc.before hmem
      have hc := hasc.head
      have hcpos := hc.pos
      rw [Chunk.Before] at hafter
      -- a chunk between the block and its end would share bytes with it
      have hbelow : ¬ b.addr < c.addr := fun hlt' => by
        have hlt' := UInt64.lt_iff_toNat_lt.mp hlt'
        refine Set.disjoint_left.mp (hdisj c List.mem_cons_self) ?_ hc.addr_mem
        rw [Chunk.mem_bytes]
        omega
      obtain ⟨hnext, hne, hsize, hrest⟩ := hw
      have hcd : ∀ x ∈ c.bytes, x ∉ chunkBytes (c' :: cs) := fun x hx =>
        Set.disjoint_left.mp hasc.disjoint hx
      rw [mem_chunkBytes_cons, not_or] at hp
      obtain ⟨w', hr, hlinked, hframe⟩ := ih hrest hasc.tail (hcd _ hc.addr_mem)
        (fun e he => hdisj e (List.mem_cons_of_mem _ he)) hmem (Nat.lt_of_succ_lt_succ hfuel)
      have hcnext : w.next c.addr = c'.addr := hrest.1
      refine ⟨w', ?_, ?_, fun a h1 h2 => ?_⟩
      · rw [Words.kreallocLoop, if_neg fun h => hbelow h.1, if_neg hne, if_neg hbelow]
        dsimp only
        rw [hcnext, if_neg hrest.2.1]
        exact hr
      · rw [cutAt, if_neg fun h => hcat h.1]
        refine ⟨(hframe p (fun he => hp.1 (he ▸ hc.addr_mem)) hp.2).trans hnext, hne,
          (hframe _ hc.size_ne (hcd _ hc.size_mem)).trans hsize, hlinked⟩
      · rw [mem_chunkBytes_cons, not_or] at h2
        exact hframe a (fun he => h2.1 (he ▸ hc.addr_mem)) h2.2

/-- What is left after the cut, with the bytes it has lost. -/
lemma cutAt_spec {a : UInt64} (hn : 16 ∣ n.toNat) (hpos : 0 < n.toNat) (h : Ascending cs)
    (hc : c ∈ cs) (hat : c.addr = a) (hlt : n < c.size) :
    Ascending (cutAt a n cs) ∧ cutAt a n cs ≠ [] ∧
      (∀ x ∈ chunkBytes (cutAt a n cs), x ∈ chunkBytes cs) ∧
      (∀ q : Chunk, (∀ d ∈ cs, q.Before d) → ∀ d ∈ cutAt a n cs, q.Before d) ∧
      freeTotal (cutAt a n cs) + n.toNat = freeTotal cs := by
  have hle : n ≤ c.size := UInt64.le_iff_toNat_le.mpr (Nat.le_of_lt (UInt64.lt_iff_toNat_lt.mp hlt))
  have hne : c.size ≠ n := fun he => absurd (he ▸ hlt) (UInt64.lt_irrefl _)
  induction cs with
  | nil => cases hc
  | cons d cs ih =>
    rw [cutAt]
    split_ifs with hcut
    · -- `takeFirst` on a list that begins with this chunk cuts it the same way
      have ht : takeFirst n (d :: cs) = some (d.addr, d.cut n ++ cs) := by
        rw [takeFirst, if_pos hcut.2]
      obtain ⟨htaken, hbefore⟩ := takeFirst_taken h hn hpos ht
      refine ⟨htaken.ascending, ?_, fun x hx => ((htaken.bytes x).mp hx).1, hbefore,
        freeTotal_takeFirst ht⟩
      have hdc : d = c := by
        refine ((List.mem_cons.mp hc).resolve_right fun hmem => ?_).symm
        have := h.before hmem
        have hdpos := h.head.pos
        rw [Chunk.Before, hcut.1, ← hat] at this
        omega
      rw [hdc, Chunk.cut, if_neg hne]
      exact List.cons_ne_nil _ _
    · have hmem : c ∈ cs := (List.mem_cons.mp hc).resolve_left fun he => hcut ⟨he ▸ hat, he ▸ hle⟩
      obtain ⟨hasc, -, hbytes, hbefore, htotal⟩ := ih h.tail hmem
      refine ⟨ascending_cons h.head hasc (hbefore d fun f hf => h.before hf),
        List.cons_ne_nil _ _, fun x hx => ?_,
        fun q hq f hf => ?_, ?_⟩
      · rw [mem_chunkBytes_cons] at hx ⊢
        exact hx.imp_right (hbytes x)
      · rcases List.mem_cons.mp hf with rfl | hf
        · exact hq f List.mem_cons_self
        · exact hbefore q (fun g hg => hq g (List.mem_cons_of_mem _ hg)) f hf
      · rw [freeTotal_cons, freeTotal_cons]
        omega

end Cuts

end EpochKernel.Mem
