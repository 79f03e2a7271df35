import Mathlib

/-! Memory as bytes at 64-bit addresses: loops that fill and copy a stretch, and little-endian
numbers. Addresses wrap around. -/
namespace EpochKernel.Library.Bytes

abbrev Memory := UInt64 → UInt8

/-- The address is one of the `n` from `base` on. -/
def Within (base : UInt64) (n : ℕ) (a : UInt64) : Prop := (a - base).toNat < n

instance (base : UInt64) (n : ℕ) (a : UInt64) : Decidable (Within base n a) :=
  inferInstanceAs (Decidable (_ < _))

/-- Stretches without a common address. -/
def Apart (a : UInt64) (m : ℕ) (b : UInt64) (n : ℕ) : Prop := ∀ x, Within a m x → ¬ Within b n x

/-- Writing the byte `c` to `n` addresses from `s` on. -/
def fill (m : Memory) (s : UInt64) (c : UInt8) : ℕ → Memory
  | 0 => m
  | n + 1 => Function.update (fill m s c n) (s + UInt64.ofNat n) c

/-- Copying `n` bytes, one after the other, from `s` to `d`. -/
def copy (m : Memory) (d s : UInt64) : ℕ → Memory
  | 0 => m
  | n + 1 =>
    let m' := copy m d s n
    Function.update m' (d + UInt64.ofNat n) (m' (s + UInt64.ofNat n))

/-- The number in `k` bytes from `a` on. -/
def load (m : Memory) (a : UInt64) : ℕ → ℕ
  | 0 => 0
  | k + 1 => (m a).toNat + 256 * load m (a + 1) k

/-- Writing the low `k` bytes of `v`. -/
def store (m : Memory) (a : UInt64) : ℕ → ℕ → Memory
  | 0, _ => m
  | k + 1, v => store (Function.update m a (UInt8.ofNat v)) (a + 1) k (v / 256)

variable {m m' : Memory} {a b d s base : UInt64} {c : UInt8} {n k : ℕ}

lemma Apart.symm (h : Apart a n b k) : Apart b k a n := fun x hb ha => h x ha hb

lemma Apart.mono {n' k' : ℕ} (h : Apart a n b k) (hn : n' ≤ n) (hk : k' ≤ k) : Apart a n' b k' :=
  fun x ha hb => h x (ha.trans_le hn) (hb.trans_le hk)

lemma not_within_zero : ¬ Within base 0 a := Nat.not_lt_zero _

lemma within_add {x : UInt64} : Within base n (base + x) ↔ x.toNat < n := by
  unfold Within
  rw [UInt64.add_comm, UInt64.add_sub_cancel]

lemma sub_eq_add_sub (a base x : UInt64) : a - base = x + (a - (base + x)) := by grind

/-- A stretch inside of another. -/
lemma within_of_within_add {x : UInt64} {size : ℕ} (hle : x.toNat + n ≤ size)
    (hsize : size ≤ 2 ^ 64) (h : Within (base + x) n a) :
    Within base size a ∧ (a - base).toNat = x.toNat + (a - (base + x)).toNat := by
  unfold Within at h ⊢
  have hval : (a - base).toNat = x.toNat + (a - (base + x)).toNat := by
    rw [sub_eq_add_sub a base x, UInt64.toNat_add]
    omega
  exact ⟨by omega, hval⟩

/-- The next address is the one that the stretch did not have yet. -/
lemma within_succ (hn : n < 2 ^ 64) :
    Within base (n + 1) a ↔ Within base n a ∨ a = base + UInt64.ofNat n := by
  have hval : (UInt64.ofNat n).toNat = n := by
    rw [UInt64.toNat_ofNat']
    exact Nat.mod_eq_of_lt hn
  have heq : a = base + UInt64.ofNat n ↔ (a - base).toNat = n := by
    constructor
    · intro h
      rw [h, UInt64.add_comm, UInt64.add_sub_cancel, hval]
    · intro h
      rw [← h, UInt64.ofNat_toNat, UInt64.add_comm, UInt64.sub_add_cancel]
  unfold Within
  rw [heq]
  omega

lemma fill_apply (hn : n ≤ 2 ^ 64) : fill m s c n a = if Within s n a then c else m a := by
  induction n with
  | zero => rw [fill, if_neg not_within_zero]
  | succ n ih =>
    rw [fill, Function.update_apply, ih (by omega)]
    have hw : Within s (n + 1) a ↔ Within s n a ∨ a = s + UInt64.ofNat n := within_succ (by omega)
    by_cases ha : a = s + UInt64.ofNat n
    · rw [if_pos ha, if_pos (hw.mpr (Or.inr ha))]
    · rw [if_neg ha]
      have : Within s (n + 1) a ↔ Within s n a := hw.trans (or_iff_left ha)
      simp only [this]

/-- A copy onto a stretch apart from its source. -/
lemma copy_apply (hn : n ≤ 2 ^ 64) (h : Apart s n d n) :
    copy m d s n a = if Within d n a then m (s + (a - d)) else m a := by
  induction n generalizing a with
  | zero => rw [copy, if_neg not_within_zero]
  | succ n ih =>
    have hval : (UInt64.ofNat n).toNat = n := by
      rw [UInt64.toNat_ofNat']
      exact Nat.mod_eq_of_lt (by omega)
    have hapart : Apart s n d n := h.mono (Nat.le_succ n) (Nat.le_succ n)
    have hsrc : ¬ Within d n (s + UInt64.ofNat n) := fun hw =>
      h _ (within_add.mpr (by omega)) (Nat.lt_succ_of_lt hw)
    have hw : Within d (n + 1) a ↔ Within d n a ∨ a = d + UInt64.ofNat n := within_succ (by omega)
    rw [copy, Function.update_apply, ih (by omega) hapart, ih (by omega) hapart, if_neg hsrc]
    by_cases ha : a = d + UInt64.ofNat n
    · rw [if_pos ha, if_pos (hw.mpr (Or.inr ha)), ha, UInt64.add_comm d, UInt64.add_sub_cancel]
    · rw [if_neg ha]
      have : Within d (n + 1) a ↔ Within d n a := hw.trans (or_iff_left ha)
      simp only [this]

/-! ## Numbers -/

lemma within_offset {o : ℕ} (h : o + n ≤ 2 ^ 64) :
    Within (base + UInt64.ofNat o) n a ↔ o ≤ (a - base).toNat ∧ (a - base).toNat < o + n := by
  have hsub : a - (base + UInt64.ofNat o) = a - base - UInt64.ofNat o := by grind
  have hlt := (a - base).toNat_lt
  unfold Within
  rw [hsub, UInt64.toNat_sub, UInt64.toNat_ofNat']
  omega

lemma apart_offset {o p : ℕ} (hn : o + n ≤ 2 ^ 64) (hk : p + k ≤ 2 ^ 64)
    (h : o + n ≤ p ∨ p + k ≤ o) :
    Apart (base + UInt64.ofNat o) n (base + UInt64.ofNat p) k := by
  intro x hx hx'
  rw [within_offset hn] at hx
  rw [within_offset hk] at hx'
  omega

lemma within_add_one (hk : k < 2 ^ 64) (h : Within (a + 1) k b) : Within a (k + 1) b := by
  have hle : (1 : UInt64).toNat + k ≤ k + 1 := by simp; omega
  exact (within_of_within_add hle (by omega) h).1

lemma load_congr (hk : k ≤ 2 ^ 64) (h : ∀ x, Within a k x → m x = m' x) :
    load m a k = load m' a k := by
  induction k generalizing a with
  | zero => rfl
  | succ k ih =>
    have hself : Within a (k + 1) a := by
      unfold Within
      rw [UInt64.sub_self]
      exact Nat.succ_pos k
    rw [load, load, h a hself, ih (by omega) fun x hx => h x (within_add_one (by omega) hx)]

lemma load_lt : load m a k < 256 ^ k := by
  induction k generalizing a with
  | zero => exact Nat.one_pos
  | succ k ih =>
    have hbyte := (m a).toNat_lt
    have hrest := ih (a := a + 1)
    rw [load, pow_succ]
    omega

lemma store_of_not_within {v : ℕ} (hk : k ≤ 2 ^ 64) (h : ¬ Within a k b) :
    store m a k v b = m b := by
  induction k generalizing m a v with
  | zero => rfl
  | succ k ih =>
    have hne : b ≠ a := by
      rintro rfl
      refine h ?_
      unfold Within
      rw [UInt64.sub_self]
      exact Nat.succ_pos k
    rw [store, ih (by omega) fun hx => h (within_add_one (by omega) hx),
      Function.update_of_ne hne]

/-- What was written is read back, as far as it has room. -/
lemma load_store {v : ℕ} (hk : k ≤ 2 ^ 64) : load (store m a k v) a k = v % 256 ^ k := by
  induction k generalizing m a v with
  | zero => rw [load, pow_zero, Nat.mod_one]
  | succ k ih =>
    have hout : ¬ Within (a + 1) k a := by
      have hsub : a - (a + 1) = -1 := by grind
      have hval : (-1 : UInt64).toNat = 2 ^ 64 - 1 := by decide
      unfold Within
      rw [hsub, hval]
      omega
    rw [store, load, store_of_not_within (by omega) hout, Function.update_self, ih (by omega),
      pow_succ', Nat.mod_mul]
    congr 1

/-! ## Structures in memory -/

/-- A structure, given by the offsets and widths of its fields: they lie in `size` bytes and do not
overlap. -/
def Spread (size : ℕ) (layout : List (ℕ × ℕ)) : Prop :=
  (∀ f ∈ layout, f.1 + f.2 ≤ size) ∧
    layout.Pairwise fun f g => f.1 + f.2 ≤ g.1 ∨ g.1 + g.2 ≤ f.1

instance (size : ℕ) (layout : List (ℕ × ℕ)) : Decidable (Spread size layout) :=
  inferInstanceAs (Decidable (_ ∧ _))

/-- Writing fields, given by offset, width and value, of the structure at `base`. -/
def stores (m : Memory) (base : UInt64) : List ((ℕ × ℕ) × ℕ) → Memory
  | [] => m
  | f :: l => stores (store m (base + UInt64.ofNat f.1.1) f.1.2 f.2) base l

variable {size o : ℕ} {l : List ((ℕ × ℕ) × ℕ)}

lemma stores_append (l l' : List ((ℕ × ℕ) × ℕ)) :
    stores m base (l ++ l') = stores (stores m base l) base l' := by
  induction l generalizing m with
  | nil => rfl
  | cons f l ih => exact ih

/-- The frame rule: only the structure is written. -/
lemma stores_of_not_within (hsize : size ≤ 2 ^ 64) (hl : ∀ f ∈ l, f.1.1 + f.1.2 ≤ size)
    (ha : ¬ Within base size a) : stores m base l a = m a := by
  induction l generalizing m with
  | nil => rfl
  | cons f l ih =>
    have hf := hl f List.mem_cons_self
    have hout : ¬ Within (base + UInt64.ofNat f.1.1) f.1.2 a := by
      rw [within_offset (by omega)]
      intro hx
      have hlt : (a - base).toNat < size := by omega
      exact ha hlt
    rw [stores, ih fun g hg => hl g (List.mem_cons_of_mem f hg),
      store_of_not_within (by omega) hout]

lemma load_stores_of_apart (hsize : size ≤ 2 ^ 64) (hl : ∀ f ∈ l, f.1.1 + f.1.2 ≤ size)
    (hk : k ≤ 2 ^ 64) (ha : Apart a k base size) : load (stores m base l) a k = load m a k :=
  load_congr hk fun x hx => stores_of_not_within hsize hl (ha x hx)

/-- A field beside the ones written. -/
lemma load_stores_of_beside (hsize : size ≤ 2 ^ 64) (hl : ∀ f ∈ l, f.1.1 + f.1.2 ≤ size)
    (ho : o + k ≤ size) (hb : ∀ f ∈ l, o + k ≤ f.1.1 ∨ f.1.1 + f.1.2 ≤ o) :
    load (stores m base l) (base + UInt64.ofNat o) k = load m (base + UInt64.ofNat o) k := by
  induction l generalizing m with
  | nil => rfl
  | cons f l ih =>
    have hf := hl f List.mem_cons_self
    rw [stores, ih (fun g hg => hl g (List.mem_cons_of_mem f hg))
      fun g hg => hb g (List.mem_cons_of_mem f hg)]
    refine load_congr (by omega) fun x hx => store_of_not_within (by omega) ?_
    exact apart_offset (by omega) (by omega) (hb f List.mem_cons_self) x hx

/-- Every field holds what was written to it. -/
lemma load_stores {v : ℕ} (hsize : size ≤ 2 ^ 64) (hs : Spread size (l.map Prod.fst))
    (hf : ((o, k), v) ∈ l) :
    load (stores m base l) (base + UInt64.ofNat o) k = v % 256 ^ k := by
  have hfit : ∀ f ∈ l, f.1.1 + f.1.2 ≤ size := fun f hf => hs.1 f.1 (List.mem_map_of_mem hf)
  induction l generalizing m with
  | nil => cases hf
  | cons g l ih =>
    rw [List.map_cons] at hs
    obtain ⟨hall, hpair⟩ := hs
    rw [List.pairwise_cons] at hpair
    rw [stores]
    rcases List.mem_cons.mp hf with rfl | hf
    · have hok := hfit _ hf
      rw [load_stores_of_beside hsize (fun f hf => hfit f (List.mem_cons_of_mem _ hf)) hok
        fun f hf => hpair.1 f.1 (List.mem_map_of_mem hf), load_store (by omega)]
    · exact ih ⟨fun f hf => hall f (List.mem_cons_of_mem _ hf), hpair.2⟩ hf
        fun f hf => hfit f (List.mem_cons_of_mem _ hf)

end EpochKernel.Library.Bytes
