import EpochKernel.Mem.Kmem

/-! The free list as a list of chunks, and how it is stored in the memory it describes. -/
namespace EpochKernel.Mem
open EpochKernel.Util EpochKernel.Library

/-- `size` bytes from `addr` on. -/
structure Chunk where
  addr : UInt64
  size : UInt64
  deriving DecidableEq, Repr

namespace Chunk

def bytes (c : Chunk) : Set ℕ := Set.Ico c.addr.toNat (c.addr.toNat + c.size.toNat)

/-- The first chunk ends before the second one starts. -/
def Before (c d : Chunk) : Prop := c.addr.toNat + c.size.toNat ≤ d.addr.toNat

instance (c d : Chunk) : Decidable (c.Before d) := inferInstanceAs (Decidable (_ ≤ _))

/-- A chunk that can be on the free list. -/
structure Proper (c : Chunk) : Prop where
  addr_ne : c.addr ≠ 0
  dvd_addr : 16 ∣ c.addr.toNat
  dvd_size : 16 ∣ c.size.toNat
  pos : 0 < c.size.toNat
  end_le : c.addr.toNat + c.size.toNat ≤ 2 ^ 64

variable {c d : Chunk} {x : ℕ}

lemma mem_bytes : x ∈ c.bytes ↔ c.addr.toNat ≤ x ∧ x < c.addr.toNat + c.size.toNat := Iff.rfl

lemma Before.disjoint (h : c.Before d) : Disjoint c.bytes d.bytes := by
  rw [Set.disjoint_left]
  intro y hc hd
  rw [mem_bytes] at hc hd
  rw [Before] at h
  omega

lemma Proper.sixteen_le (h : c.Proper) : 16 ≤ c.size.toNat := Nat.le_of_dvd h.pos h.dvd_size

lemma Proper.toNat_add_eight (h : c.Proper) : (c.addr + 8).toNat = c.addr.toNat + 8 := by
  have := h.sixteen_le
  have := h.end_le
  rw [UInt64.toNat_add]
  change (_ + 8) % _ = _
  omega

lemma Proper.addr_mem (h : c.Proper) : c.addr.toNat ∈ c.bytes :=
  ⟨le_rfl, Nat.lt_add_of_pos_right h.pos⟩

lemma Proper.size_mem (h : c.Proper) : (c.addr + 8).toNat ∈ c.bytes := by
  have := h.sixteen_le
  rw [h.toNat_add_eight, mem_bytes]
  omega

lemma Proper.size_ne (h : c.Proper) : c.addr + 8 ≠ c.addr := by
  intro he
  have := h.toNat_add_eight
  rw [he] at this
  omega

/-- Disjoint chunks are ordered by their addresses. -/
lemma Proper.before_of_disjoint (hd : d.Proper) (h : Disjoint c.bytes d.bytes)
    (hlt : c.addr.toNat ≤ d.addr.toNat) : c.Before d := by
  by_contra hn
  rw [Before] at hn
  exact Set.disjoint_left.mp h ⟨hlt, by omega⟩ hd.addr_mem

end Chunk

/-- The chunks of a free list: in ascending order, and disjoint. -/
structure Ascending (cs : List Chunk) : Prop where
  proper : ∀ c ∈ cs, c.Proper
  pairwise : cs.Pairwise Chunk.Before

/-- The bytes of a list of chunks. -/
def chunkBytes (cs : List Chunk) : Set ℕ := {x | ∃ c ∈ cs, x ∈ c.bytes}

section Lists
variable {c : Chunk} {cs : List Chunk} {x : ℕ}

@[simp] lemma chunkBytes_nil : chunkBytes [] = ∅ := by
  ext x
  simp [chunkBytes]

lemma mem_chunkBytes_cons : x ∈ chunkBytes (c :: cs) ↔ x ∈ c.bytes ∨ x ∈ chunkBytes cs := by
  simp [chunkBytes]

lemma Ascending.tail (h : Ascending (c :: cs)) : Ascending cs :=
  ⟨fun d hd => h.proper d (List.mem_cons_of_mem _ hd), h.pairwise.tail⟩

lemma Ascending.head (h : Ascending (c :: cs)) : c.Proper := h.proper c List.mem_cons_self

lemma Ascending.before (h : Ascending (c :: cs)) {d : Chunk} (hd : d ∈ cs) : c.Before d :=
  (List.pairwise_cons.mp h.pairwise).1 d hd

lemma Ascending.disjoint (h : Ascending (c :: cs)) : Disjoint c.bytes (chunkBytes cs) := by
  rw [Set.disjoint_left]
  rintro y hc ⟨d, hd, hy⟩
  exact Set.disjoint_left.mp (h.before hd).disjoint hc hy

/-- There are at most 2^60 chunks. -/
lemma Ascending.length_le (h : Ascending cs) : cs.length * 16 ≤ 2 ^ 64 := by
  have hspace (p : ℕ) (hp : ∀ c ∈ cs, p ≤ c.addr.toNat) : p + cs.length * 16 ≤ 2 ^ 64 ∨ cs = [] := by
    induction cs generalizing p with
    | nil => exact .inr rfl
    | cons c cs ih =>
      have hc := hp c List.mem_cons_self
      have h16 := h.head.sixteen_le
      have hend := h.head.end_le
      rw [List.length_cons]
      rcases ih h.tail (p + 16) fun d hd => by
          have := h.before hd
          rw [Chunk.Before] at this
          omega with hle | rfl
      · exact .inl (by omega)
      · exact .inl (by rw [List.length_nil]; omega)
  rcases hspace 0 fun _ _ => Nat.zero_le _ with hle | rfl
  · omega
  · simp

end Lists

/-- What is left of a chunk when `n` bytes are cut off at its front. -/
def Chunk.cut (c : Chunk) (n : UInt64) : List Chunk :=
  if c.size = n then [] else [⟨c.addr + n, c.size - n⟩]

/-- First fit: the address of `n` bytes, and the chunks that are left. -/
def takeFirst (n : UInt64) : List Chunk → Option (UInt64 × List Chunk)
  | [] => none
  | c :: cs =>
    if n ≤ c.size then some (c.addr, c.cut n ++ cs)
    else (takeFirst n cs).map fun r => (r.1, c :: r.2)

/-- The chunk that `kfree` makes of `b` and, if it follows at once, of the chunk `c` behind it. -/
def joinNext (b c : Chunk) (cs : List Chunk) : List Chunk :=
  if b.addr + b.size = c.addr then ⟨b.addr, c.size + b.size⟩ :: cs else b :: c :: cs

/-- What `kfree` makes of the chunk `q` and of the chunks behind it. -/
def joinPrev (q : Chunk) : List Chunk → List Chunk
  | [] => [q]
  | c :: cs => if q.addr + q.size = c.addr then ⟨q.addr, q.size + c.size⟩ :: cs else q :: c :: cs

/-- What `kfree` makes of the chunk `q`, which lies below `b`, and of the chunks behind `q`. -/
def giveBack (b : Chunk) : Chunk → List Chunk → List Chunk
  | q, [] => [q, b]
  | q, c :: cs =>
    if b.addr < c.addr then
      if b.addr < c.addr + q.size ∨ c.addr < b.addr + b.size then q :: c :: cs
      else joinPrev q (joinNext b c cs)
    else q :: giveBack b c cs

section Operations
variable {b c q : Chunk} {cs cs' : List Chunk} {n out : UInt64}

lemma Chunk.Proper.cut (hc : c.Proper) (hn : 16 ∣ n.toNat) (hpos : 0 < n.toNat)
    (hle : n ≤ c.size) (hne : c.size ≠ n) :
    Chunk.Proper ⟨c.addr + n, c.size - n⟩ ∧ (c.addr + n).toNat = c.addr.toNat + n.toNat ∧
      (c.size - n).toNat = c.size.toNat - n.toNat := by
  have hle' := UInt64.le_iff_toNat_le.mp hle
  have hlt : n.toNat < c.size.toNat := lt_of_le_of_ne hle' fun he => hne (UInt64.toNat_inj.mp he.symm)
  have hend := hc.end_le
  have haddr : (c.addr + n).toNat = c.addr.toNat + n.toNat := by
    rw [UInt64.toNat_add]
    omega
  have hsize : (c.size - n).toNat = c.size.toNat - n.toNat := UInt64.toNat_sub_of_le _ _ hle
  have ha := hc.dvd_addr
  have hs := hc.dvd_size
  refine ⟨⟨fun h0 => ?_, ?_, ?_, ?_, ?_⟩, haddr, hsize⟩
  · have := congrArg UInt64.toNat h0
    rw [haddr] at this
    change _ = 0 at this
    omega
  · rw [haddr]
    omega
  · rw [hsize]
    omega
  · rw [hsize]
    omega
  · rw [haddr, hsize]
    omega

/-- Cutting the front off a chunk splits its bytes. -/
lemma Chunk.Proper.bytes_cut (hc : c.Proper) (hn : 16 ∣ n.toNat) (hpos : 0 < n.toNat)
    (hle : n ≤ c.size) {x : ℕ} :
    x ∈ chunkBytes (c.cut n) ↔ x ∈ c.bytes ∧ x ∉ (⟨c.addr, n⟩ : Chunk).bytes := by
  rw [Chunk.cut]
  split_ifs with he
  · subst he
    simp
  · obtain ⟨-, haddr, hsize⟩ := hc.cut hn hpos hle he
    have := UInt64.le_iff_toNat_le.mp hle
    rw [mem_chunkBytes_cons, chunkBytes_nil, mem_bytes, mem_bytes, mem_bytes, haddr, hsize]
    simp
    omega

lemma ascending_append (h : Ascending cs) (h' : Ascending cs')
    (hlt : ∀ c ∈ cs, ∀ d ∈ cs', c.Before d) : Ascending (cs ++ cs') :=
  ⟨fun c hc => (List.mem_append.mp hc).elim (h.proper c) (h'.proper c),
    List.pairwise_append.mpr ⟨h.pairwise, h'.pairwise, hlt⟩⟩

lemma ascending_singleton (hc : c.Proper) : Ascending [c] :=
  ⟨fun _ hd => List.mem_singleton.mp hd ▸ hc, List.pairwise_singleton _ _⟩

lemma ascending_cons (hc : c.Proper) (h : Ascending cs) (hlt : ∀ d ∈ cs, c.Before d) :
    Ascending (c :: cs) :=
  ascending_append (ascending_singleton hc) h fun _ he d hd => List.mem_singleton.mp he ▸ hlt d hd

/-- What `takeFirst` hands out comes from one chunk, and is not free any more. -/
structure Taken (n : UInt64) (cs : List Chunk) (out : UInt64) (cs' : List Chunk) : Prop where
  ascending : Ascending cs'
  proper : Chunk.Proper ⟨out, n⟩
  inside : ∃ c ∈ cs, (⟨out, n⟩ : Chunk).bytes ⊆ c.bytes
  bytes : ∀ x, x ∈ chunkBytes cs' ↔ x ∈ chunkBytes cs ∧ x ∉ (⟨out, n⟩ : Chunk).bytes

/-- First fit takes from one chunk, and what lies below all chunks stays below them. -/
lemma takeFirst_taken (h : Ascending cs) (hn : 16 ∣ n.toNat) (hpos : 0 < n.toNat)
    (ht : takeFirst n cs = some (out, cs')) :
    Taken n cs out cs' ∧ ∀ d : Chunk, (∀ c ∈ cs, d.Before c) → ∀ c ∈ cs', d.Before c := by
  induction cs generalizing cs' with
  | nil => cases ht
  | cons c cs ih =>
    have hc := h.head
    have hdisj := h.disjoint
    rw [takeFirst] at ht
    split_ifs at ht with hle
    · obtain ⟨rfl, rfl⟩ := Prod.mk.inj (Option.some.inj ht)
      have hle' := UInt64.le_iff_toNat_le.mp hle
      have hend := hc.end_le
      have hsub : (⟨c.addr, n⟩ : Chunk).bytes ⊆ c.bytes := fun x hx => by
        rw [Chunk.mem_bytes] at hx ⊢
        dsimp only at hx
        omega
      have hcut (d : Chunk) (hd : d ∈ c.cut n) : d.Proper ∧ c.addr.toNat ≤ d.addr.toNat ∧
          d.addr.toNat + d.size.toNat ≤ c.addr.toNat + c.size.toNat := by
        rw [Chunk.cut] at hd
        split_ifs at hd with he
        · cases hd
        · obtain rfl := List.mem_singleton.mp hd
          obtain ⟨hproper, haddr, hsize⟩ := hc.cut hn hpos hle he
          refine ⟨hproper, ?_, ?_⟩
          · rw [haddr]
            omega
          · rw [haddr, hsize]
            omega
      have hfirst : Ascending (c.cut n) := by
        refine ⟨fun d hd => (hcut d hd).1, ?_⟩
        rw [Chunk.cut]
        split_ifs
        · exact .nil
        · exact List.pairwise_singleton _ _
      refine ⟨⟨ascending_append hfirst h.tail fun d hd e he => ?_, ⟨hc.addr_ne, hc.dvd_addr, hn, hpos, ?_⟩,
        ⟨c, List.mem_cons_self, hsub⟩, fun x => ?_⟩, fun d hd e he => ?_⟩
      · have := (hcut d hd).2.2
        have := h.before he
        rw [Chunk.Before] at this ⊢
        omega
      · dsimp only
        omega
      · have hx := hc.bytes_cut hn hpos hle (x := x)
        rw [mem_chunkBytes_cons]
        constructor
        · rintro ⟨e, he, hxe⟩
          rcases List.mem_append.mp he with he | he
          · have := hx.mp ⟨e, he, hxe⟩
            exact ⟨.inl this.1, this.2⟩
          · refine ⟨.inr ⟨e, he, hxe⟩, fun hout => ?_⟩
            exact Set.disjoint_left.mp hdisj (hsub hout) ⟨e, he, hxe⟩
        · rintro ⟨hin | ⟨e, he, hxe⟩, hout⟩
          · obtain ⟨e, he, hxe⟩ := hx.mpr ⟨hin, hout⟩
            exact ⟨e, List.mem_append_left _ he, hxe⟩
          · exact ⟨e, List.mem_append_right _ he, hxe⟩
      · rcases List.mem_append.mp he with he | he
        · have := (hcut e he).2.1
          have := hd c List.mem_cons_self
          rw [Chunk.Before] at this ⊢
          omega
        · exact hd e (List.mem_cons_of_mem _ he)
    · obtain ⟨⟨out', rest⟩, hrest, he⟩ := Option.map_eq_some_iff.mp ht
      obtain ⟨rfl, rfl⟩ := Prod.mk.inj he
      obtain ⟨htaken, hlt⟩ := ih h.tail hrest
      obtain ⟨d, hd, hsub⟩ := htaken.inside
      refine ⟨⟨ascending_cons hc htaken.ascending (hlt c fun _ he => h.before he), htaken.proper,
        ⟨d, List.mem_cons_of_mem _ hd, hsub⟩, fun x => ?_⟩, fun e he f hf => ?_⟩
      · rw [mem_chunkBytes_cons, mem_chunkBytes_cons, htaken.bytes]
        have hout : x ∈ c.bytes → x ∉ (⟨out', n⟩ : Chunk).bytes := fun hx hx' =>
          Set.disjoint_left.mp hdisj hx ⟨d, hd, hsub hx'⟩
        tauto
      · rcases List.mem_cons.mp hf with rfl | hf
        · exact he f List.mem_cons_self
        · exact hlt e (fun g hg => he g (List.mem_cons_of_mem _ hg)) f hf

/-- Two chunks side by side make one. -/
lemma Chunk.Proper.join (hb : b.Proper) (hc : c.Proper)
    (hnext : b.addr.toNat + b.size.toNat = c.addr.toNat) :
    Chunk.Proper ⟨b.addr, b.size + c.size⟩ ∧
      (b.size + c.size).toNat = b.size.toNat + c.size.toNat := by
  have hend := hc.end_le
  have hpos := hb.pos
  have hsize : (b.size + c.size).toNat = b.size.toNat + c.size.toNat := by
    have hne : b.addr.toNat ≠ 0 := fun h0 => hb.addr_ne (UInt64.toNat_inj.mp h0)
    rw [UInt64.toNat_add]
    omega
  have h1 := hb.dvd_size
  have h2 := hc.dvd_size
  refine ⟨⟨hb.addr_ne, hb.dvd_addr, ?_, ?_, ?_⟩, hsize⟩
  · rw [hsize]
    omega
  · rw [hsize]
    omega
  · dsimp only
    rw [hsize]
    omega

lemma Chunk.Before.toNat_add (h : b.Before c) :
    (b.addr + b.size).toNat = b.addr.toNat + b.size.toNat := by
  have := c.addr.toNat_lt
  rw [Before] at h
  rw [UInt64.toNat_add]
  omega

/-- The chunks `cs'` are in order, start at `q` and hold no bytes but those of `cs` and `b`. -/
structure Given (b q : Chunk) (cs cs' : List Chunk) : Prop where
  ascending : Ascending cs'
  head : ∃ d ds, cs' = d :: ds ∧ d.addr = q.addr
  bytes : ∀ x ∈ chunkBytes cs', x ∈ chunkBytes cs ∨ x ∈ b.bytes

lemma Ascending.cons (h : Ascending (c :: cs)) (hq : q.Proper) (hlt : q.Before c) :
    Ascending (q :: c :: cs) := by
  refine ascending_cons hq h fun d hd => ?_
  rcases List.mem_cons.mp hd with rfl | hd
  · exact hlt
  · have := h.before hd
    rw [Chunk.Before] at *
    omega

/-- Two neighbours side by side can be joined. -/
lemma Ascending.join (h : Ascending (b :: c :: cs))
    (hnext : b.addr.toNat + b.size.toNat = c.addr.toNat) :
    Ascending (⟨b.addr, b.size + c.size⟩ :: cs) ∧
      ∀ x ∈ chunkBytes (⟨b.addr, b.size + c.size⟩ :: cs), x ∈ chunkBytes (b :: c :: cs) := by
  obtain ⟨hproper, hsize⟩ := h.head.join h.tail.head hnext
  refine ⟨ascending_cons hproper h.tail.tail fun d hd => ?_, fun x hx => ?_⟩
  · have := h.tail.before hd
    rw [Chunk.Before] at this ⊢
    dsimp only
    omega
  · rw [mem_chunkBytes_cons, Chunk.mem_bytes] at hx
    rw [mem_chunkBytes_cons, mem_chunkBytes_cons, Chunk.mem_bytes, Chunk.mem_bytes]
    rcases hx with hx | hx
    · dsimp only at hx
      omega
    · exact .inr (.inr hx)

lemma given_joinNext (h : Ascending (c :: cs)) (hb : b.Proper) (hlt : b.Before c) :
    Given b b (c :: cs) (joinNext b c cs) := by
  have hcons := h.cons hb hlt
  have hbytes (x : ℕ) (hx : x ∈ chunkBytes (b :: c :: cs)) : x ∈ chunkBytes (c :: cs) ∨ x ∈ b.bytes :=
    (mem_chunkBytes_cons.mp hx).symm
  rw [joinNext]
  split_ifs with he
  · obtain ⟨hjoin, hsub⟩ := hcons.join (by rw [← hlt.toNat_add, he])
    rw [UInt64.add_comm]
    exact ⟨hjoin, ⟨_, _, rfl, rfl⟩, fun x hx => hbytes x (hsub x hx)⟩
  · exact ⟨hcons, ⟨_, _, rfl, rfl⟩, hbytes⟩

lemma given_joinPrev (h : Given b b cs cs') (hq : q.Proper) (hlt : q.Before b) :
    Given b q (q :: cs) (joinPrev q cs') := by
  obtain ⟨d, ds, rfl, hd⟩ := h.head
  have hcons := h.ascending.cons hq (by rw [Chunk.Before, hd]; exact hlt)
  have hbytes (x : ℕ) (hx : x ∈ chunkBytes (q :: d :: ds)) :
      x ∈ chunkBytes (q :: cs) ∨ x ∈ b.bytes := by
    have := h.bytes x
    rw [mem_chunkBytes_cons] at hx ⊢
    tauto
  rw [joinPrev]
  split_ifs with he
  · obtain ⟨hjoin, hsub⟩ := hcons.join (by rw [← hlt.toNat_add, he])
    exact ⟨hjoin, ⟨_, _, rfl, rfl⟩, fun x hx => hbytes x (hsub x hx)⟩
  · exact ⟨hcons, ⟨_, _, rfl, rfl⟩, hbytes⟩

/-- `kfree` keeps the chunks in order, and frees no bytes but those of its block. -/
lemma giveBack_given (h : Ascending (q :: cs)) (hb : b.Proper) (hq : q.Before b)
    (hcs : ∀ c ∈ cs, Disjoint b.bytes c.bytes) : Given b q (q :: cs) (giveBack b q cs) := by
  induction cs generalizing q with
  | nil =>
    refine ⟨(ascending_singleton hb).cons h.head hq, ⟨_, _, rfl, rfl⟩, fun x hx => ?_⟩
    rw [giveBack, mem_chunkBytes_cons, mem_chunkBytes_cons] at hx
    rw [mem_chunkBytes_cons]
    simp at hx ⊢
    exact hx
  | cons c cs ih =>
    have hbc := hcs c List.mem_cons_self
    rw [giveBack]
    split_ifs with hlt htaken
    · exact ⟨h, ⟨_, _, rfl, rfl⟩, fun x hx => .inl hx⟩
    · have hbefore : b.Before c := h.tail.head.before_of_disjoint hbc
        (Nat.le_of_lt (UInt64.lt_iff_toNat_lt.mp hlt))
      exact given_joinPrev (given_joinNext h.tail hb hbefore) h.head hq
    · have hbefore : c.Before b := hb.before_of_disjoint hbc.symm
        (Nat.not_lt.mp fun hn => hlt (UInt64.lt_iff_toNat_lt.mpr hn))
      obtain ⟨hasc, ⟨d, ds, hds, hd⟩, hbytes⟩ :=
        ih h.tail hbefore fun d hd => hcs d (List.mem_cons_of_mem _ hd)
      have hqc := h.before (List.mem_cons_self (a := c))
      rw [hds] at hasc hbytes ⊢
      refine ⟨hasc.cons h.head (by rw [Chunk.Before, hd]; exact hqc), ⟨_, _, rfl, rfl⟩,
        fun x hx => ?_⟩
      have := hbytes x
      rw [mem_chunkBytes_cons] at hx ⊢
      tauto

end Operations

/-- The list whose first header is the successor of the one at `p`. -/
def Words.Linked (w : Words) : UInt64 → List Chunk → Prop
  | p, [] => w.next p = 0
  | p, c :: cs => w.next p = c.addr ∧ c.addr ≠ 0 ∧ w.size c.addr = c.size ∧ w.Linked c.addr cs

/-- The chunks met by following `next` from the header at `p`, at most `fuel` of them. -/
def Words.chunksFrom (w : Words) : ℕ → UInt64 → List Chunk
  | 0, _ => []
  | fuel + 1, p =>
    if w.next p = 0 then []
    else ⟨w.next p, w.size (w.next p)⟩ :: w.chunksFrom fuel (w.next p)

section Linked
variable {w w' : Words} {p q : UInt64} {c : Chunk} {cs : List Chunk} {fuel : ℕ}

/-- A list is stored in the header before it and in its own bytes. -/
lemma Words.Linked.congr (h : w.Linked p cs) (hcs : ∀ c ∈ cs, c.Proper) (hp : w' q = w p)
    (hw : ∀ a : UInt64, a.toNat ∈ chunkBytes cs → w' a = w a) : w'.Linked q cs := by
  induction cs generalizing p q with
  | nil => exact hp.trans h
  | cons c cs ih =>
    obtain ⟨hnext, hne, hsize, hrest⟩ := h
    have hc := hcs c List.mem_cons_self
    have hin {a : UInt64} (ha : a.toNat ∈ c.bytes) : w' a = w a :=
      hw a (mem_chunkBytes_cons.mpr (.inl ha))
    exact ⟨hp.trans hnext, hne, (hin hc.size_mem).trans hsize,
      ih hrest (fun d hd => hcs d (List.mem_cons_of_mem _ hd)) (hin hc.addr_mem)
        fun a ha => hw a (mem_chunkBytes_cons.mpr (.inr ha))⟩

lemma Words.Linked.chunksFrom_eq (h : w.Linked p cs) (hfuel : cs.length < fuel) :
    w.chunksFrom fuel p = cs := by
  induction cs generalizing p fuel with
  | nil =>
    obtain ⟨fuel, rfl⟩ := Nat.exists_eq_succ_of_ne_zero (Nat.ne_of_gt hfuel)
    rw [chunksFrom, if_pos (show w.next p = 0 from h)]
  | cons c cs ih =>
    obtain ⟨fuel, rfl⟩ := Nat.exists_eq_succ_of_ne_zero (Nat.ne_of_gt (Nat.zero_lt_of_lt hfuel))
    obtain ⟨hnext, hne, hsize, hrest⟩ := h
    rw [chunksFrom, hnext, if_neg hne, hsize, ih hrest (Nat.lt_of_succ_lt_succ hfuel)]

end Linked
end EpochKernel.Mem
