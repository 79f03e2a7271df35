import EpochKernel.Mem.PallocatorReallocated

/-! What `get_space` measures. Its walk goes on by the order in the metadata of each free unit, which is
the order of the last block that began there, whatever the zones are now. Such a block is aligned, so
the walk is right exactly if no unit before the first block in use names one that reaches over it. -/
namespace EpochKernel.Mem
open EpochKernel.Util EpochKernel.Library EpochKernel.Library.Block

namespace Pallocator
variable {p p' : Pallocator} {live : List Allocation} {a addr : UInt64}

/-- The order recorded for the unit of an address. -/
def recordedOrder (p : Pallocator) (a : UInt64) : ℕ := (p.metadata (p.getMeta a)).order.toNat

/-- The first block in use at or behind `a` begins here, or the range ends. -/
def firstLive (p : Pallocator) (live : List Allocation) (a : UInt64) : ℕ :=
  ((live.map fun b => b.1.toNat).filter (a.toNat ≤ ·)).foldr min p.hi

/-- A recorded block begins at a multiple of its size. -/
def Strided (p : Pallocator) : Prop :=
  ∀ a : UInt64, 2 ^ p.fo ∣ a.toNat → p.lo ≤ a.toNat → a.toNat < p.hi →
    2 ^ (p.fo + p.recordedOrder a) ∣ a.toNat

/-- No unit from `a` on records a block that reaches over `last`. -/
def Clear (p : Pallocator) (a : UInt64) (last : ℕ) : Prop :=
  ∀ x : UInt64, 2 ^ p.fo ∣ x.toNat → a ≤ x → x.toNat < last →
    x.toNat + 2 ^ (p.fo + p.recordedOrder x) ≤ last

lemma firstLive_le : p.firstLive live a ≤ p.hi := by
  unfold firstLive
  induction (live.map fun b => b.1.toNat).filter (a.toNat ≤ ·) with
  | nil => exact le_rfl
  | cons x xs ih => exact (min_le_right ..).trans ih

lemma firstLive_le_of_mem {b : Allocation} (hb : b ∈ live) (hab : a ≤ b.1) :
    p.firstLive live a ≤ b.1.toNat := by
  have hmem : b.1.toNat ∈ (live.map fun b => b.1.toNat).filter (a.toNat ≤ ·) :=
    List.mem_filter.mpr ⟨List.mem_map_of_mem hb, decide_eq_true (UInt64.le_iff_toNat_le.mp hab)⟩
  unfold firstLive
  generalize (live.map fun b => b.1.toNat).filter (a.toNat ≤ ·) = ends at hmem ⊢
  induction ends with
  | nil => cases hmem
  | cons x xs ih =>
    rcases List.mem_cons.mp hmem with rfl | hmem
    · exact min_le_left ..
    · exact (min_le_right ..).trans (ih hmem)

lemma firstLive_spec : p.firstLive live a = p.hi ∨
    ∃ b ∈ live, a ≤ b.1 ∧ b.1.toNat = p.firstLive live a := by
  have hxs : ∀ x ∈ (live.map fun b => b.1.toNat).filter (a.toNat ≤ ·),
      ∃ b ∈ live, a ≤ b.1 ∧ b.1.toNat = x := by
    intro x hx
    obtain ⟨hx, hax⟩ := List.mem_filter.mp hx
    obtain ⟨b, hb, rfl⟩ := List.mem_map.mp hx
    exact ⟨b, hb, UInt64.le_iff_toNat_le.mpr (of_decide_eq_true hax), rfl⟩
  unfold firstLive
  generalize (live.map fun b => b.1.toNat).filter (a.toNat ≤ ·) = ends at hxs ⊢
  induction ends with
  | nil => exact Or.inl rfl
  | cons x xs ih =>
    rw [List.foldr_cons]
    rcases min_choice x (xs.foldr min p.hi) with h | h
    · rw [h]
      exact Or.inr (hxs x List.mem_cons_self)
    · rw [h]
      exact ih fun y hy => hxs y (List.mem_cons_of_mem x hy)

/-- The metadata of one unit is overwritten. -/
lemma Strided.of_update (h : p.Strided) (hv : p.toLayout.Valid) (hl : p'.toLayout = p.toLayout)
    {b : Allocation} {m : Metadata} (hm : p'.metadata = Function.update p.metadata (p.getMeta b.1) m)
    (hb : p.lo ≤ b.1.toNat ∧ b.1.toNat < p.hi) (hdvd : 2 ^ (p.fo + b.2.toNat) ∣ b.1.toNat)
    (ho : m.order.toNat ≤ b.2.toNat) : p'.Strided := by
  have hlo : p'.lo = p.lo := congrArg (·.startAddr.toNat) hl
  have hhi : p'.hi = p.hi := congrArg (·.endAddr.toNat) hl
  have hfo : p'.fo = p.fo := congrArg (·.foBits.toNat) hl
  intro x hx h1 h2
  rw [hfo] at hx ⊢
  rw [hlo] at h1
  rw [hhi] at h2
  unfold recordedOrder
  rw [hm, hl]
  by_cases hsame : p.getMeta x = p.getMeta b.1
  · rw [hsame, Function.update_self]
    have hunit := (hv.getMeta_inj h1 h2 hb.1 hb.2).mp hsame
    have hbase : 2 ^ p.fo ∣ b.1.toNat := (pow_dvd_pow 2 (Nat.le_add_right _ _)).trans hdvd
    have hxb : x.toNat = b.1.toNat := by
      rw [← Nat.mul_div_cancel' hx, ← Nat.mul_div_cancel' hbase]
      exact congrArg (2 ^ p.fo * ·) hunit
    rw [hxb]
    exact (pow_dvd_pow 2 (Nat.add_le_add_left ho _)).trans hdvd
  · rw [Function.update_of_ne hsame]
    exact h x hx h1 h2

/-- A recorded block that does not reach over the end leaves the units inside it clear. -/
lemma Strided.clear_iff (h : p.Strided) {last : ℕ} (ha : 2 ^ p.fo ∣ addr.toNat)
    (h1 : p.lo ≤ addr.toNat) (hlast : last ≤ p.hi) {next : UInt64}
    (hnext : next.toNat = addr.toNat + 2 ^ (p.fo + p.recordedOrder addr)) (hle : next.toNat ≤ last) :
    p.Clear addr last ↔ p.Clear next last := by
  have hpos := Nat.two_pow_pos (p.fo + p.recordedOrder addr)
  have hdvd := h addr ha h1 (by omega)
  have hdvd' : 2 ^ (p.fo + p.recordedOrder addr) ∣ next.toNat := by
    rw [hnext]
    exact Nat.dvd_add hdvd (dvd_refl _)
  constructor
  · intro hc x hx hnx hxl
    refine hc x hx (UInt64.le_iff_toNat_le.mpr ?_) hxl
    have := UInt64.le_iff_toNat_le.mp hnx
    omega
  · intro hc x hx hax hxl
    have hax := UInt64.le_iff_toNat_le.mp hax
    rcases Nat.lt_or_ge x.toNat next.toNat with hxn | hxn
    · rcases hax.eq_or_lt with hax | hax
      · obtain rfl := UInt64.toNat_inj.mp hax
        omega
      · -- the block of a unit inside ends inside
        have hx' := h x hx (by omega) (by omega)
        have hlt : p.recordedOrder x < p.recordedOrder addr := by
          by_contra hge
          have hbig := (pow_dvd_pow 2 (Nat.add_le_add_left (Nat.not_lt.mp hge) p.fo)).trans hx'
          have := add_le_of_dvd_of_lt hdvd hbig hax
          omega
        have hend := (pow_dvd_pow 2 (Nat.add_le_add_left hlt.le p.fo)).trans hdvd'
        exact (add_le_of_dvd_of_lt hx' hend hxn).trans hle
    · exact hc x hx (UInt64.le_iff_toNat_le.mpr hxn) hxl

/-- The walk from `addr` ends at some `last'`, and if it has not passed `last` before, then there
exactly if the way is clear. -/
lemma Kept.walk (hk : p.Kept live) (h : p.Strided) (fuel : ℕ) {last : ℕ}
    (hlast : last = p.hi ∨ ∃ b ∈ live, b.1.toNat = last)
    (hfirst : ∀ b ∈ live, a ≤ b.1 → last ≤ b.1.toNat) (hle : last ≤ p.hi) (haddr : a ≤ addr)
    (hunit : 2 ^ p.fo ∣ addr.toNat) (h1 : p.lo ≤ addr.toNat) (h2 : addr.toNat < p.hi)
    (hfuel : p.hi ≤ addr.toNat + fuel * 2 ^ 12) :
    ∃ e : UInt64, p.getSpaceLoop fuel addr (addr - a) = some (e - a) ∧ addr ≤ e ∧
      (addr.toNat ≤ last → (e.toNat = last ↔ p.Clear addr last)) := by
  induction fuel generalizing addr with
  | zero => omega
  | succ fuel ih =>
    obtain ⟨q, hq, -⟩ := hk.inv
    rw [Pallocator.getSpaceLoop]
    dsimp only
    by_cases hal : (p.metadata (p.getMeta addr)).alloced = true
    · obtain ⟨b, hb, hba⟩ := (hq.alloced addr hunit h1 h2).mp hal
      have hge : last ≤ addr.toNat := hba ▸ hfirst b hb (hba ▸ haddr)
      refine ⟨addr, if_pos hal, UInt64.le_refl addr, fun hle' => ?_⟩
      refine iff_of_true (hle'.antisymm hge) fun x _ hx hxl => ?_
      have := UInt64.le_iff_toNat_le.mp hx
      omega
    rw [if_neg hal]
    have hne : addr.toNat ≠ last := by
      rintro rfl
      rcases hlast with hhi | ⟨b, hb, hbl⟩
      · omega
      · exact hal ((hq.alloced addr hunit h1 h2).mpr ⟨b, hb, UInt64.toNat_inj.mp hbl⟩)
    have hrec := hk.recorded addr h1 h2
    have hsize := p.getOrderSize_toNat hrec
    have hend : p.hi + 2 ^ 31 ≤ 2 ^ 64 := hq.layout.end_le
    have hpage : 2 ^ 12 ≤ (p.getOrderSize (p.metadata (p.getMeta addr)).order).toNat := by
      rw [hsize]
      exact Nat.pow_le_pow_right (by norm_num) (hk.page.trans (Nat.le_add_right _ _))
    have hbig : (p.getOrderSize (p.metadata (p.getMeta addr)).order).toNat ≤ 2 ^ 30 := by
      rw [hsize]
      exact Nat.pow_le_pow_right (by norm_num) hrec
    have hnext : (addr + p.getOrderSize (p.metadata (p.getMeta addr)).order).toNat =
        addr.toNat + 2 ^ (p.fo + p.recordedOrder addr) := by
      have hrecorded : p.foBits.toNat + (p.metadata (p.getMeta addr)).order.toNat =
          p.fo + p.recordedOrder addr := rfl
      rw [← hrecorded, ← hsize, UInt64.toNat_add]
      omega
    have hsum : addr - a + p.getOrderSize (p.metadata (p.getMeta addr)).order =
        addr + p.getOrderSize (p.metadata (p.getMeta addr)).order - a := by
      rw [UInt64.sub_eq_add_neg, UInt64.sub_eq_add_neg, UInt64.add_assoc, UInt64.add_assoc,
        UInt64.add_comm (-a)]
    have hgrow : 2 ^ 12 ≤ 2 ^ (p.fo + p.recordedOrder addr) :=
      Nat.pow_le_pow_right (by norm_num) (hk.page.trans (Nat.le_add_right _ _))
    rw [hsum]
    generalize addr + p.getOrderSize (p.metadata (p.getMeta addr)).order = next at hnext ⊢
    have hpast (e : UInt64) (hne' : next ≤ e) (hlt : last < next.toNat) (hle' : addr.toNat ≤ last) :
        e.toNat = last ↔ p.Clear addr last := by
      have := UInt64.le_iff_toNat_le.mp hne'
      refine iff_of_false (by omega) fun hc => ?_
      have := hc addr hunit (UInt64.le_refl addr) (by omega)
      omega
    have hup : addr ≤ next := UInt64.le_iff_toNat_le.mpr (by omega)
    by_cases hge : next ≥ p.endAddr
    · refine ⟨next, if_pos hge, hup, fun hle' => ?_⟩
      have hhi : p.hi ≤ next.toNat := UInt64.le_iff_toNat_le.mp hge
      rcases Nat.lt_or_ge last next.toNat with hlt | hge'
      · exact hpast next (UInt64.le_refl next) hlt hle'
      · rw [h.clear_iff hunit h1 hle hnext hge']
        refine iff_of_true (by omega) fun x _ hx hxl => ?_
        have := UInt64.le_iff_toNat_le.mp hx
        omega
    · rw [if_neg hge]
      rw [ge_iff_le, UInt64.le_iff_toNat_le, Nat.not_le] at hge
      have hdvd : 2 ^ p.fo ∣ next.toNat := by
        rw [hnext]
        exact Nat.dvd_add hunit (pow_dvd_pow 2 (Nat.le_add_right _ _))
      obtain ⟨e, he, hne', hiff⟩ := ih (UInt64.le_trans haddr hup) hdvd (by omega) hge (by omega)
      refine ⟨e, he, UInt64.le_trans hup hne', fun hle' => ?_⟩
      rcases Nat.lt_or_ge last next.toNat with hlt | hge'
      · exact hpast e hne' hlt hle'
      · rw [h.clear_iff hunit h1 hle hnext hge']
        exact hiff hge'

/-- `get_space` is exact for an address if its way is clear, and only then. -/
lemma Kept.getSpace_iff (hk : p.Kept live) (h : p.Strided) (hunit : 2 ^ p.fo ∣ a.toNat)
    (h1 : p.lo ≤ a.toNat) (h2 : a.toNat < p.hi) :
    p.getSpace a = some (UInt64.ofNat (p.firstLive live a - a.toNat)) ↔
      p.Clear a (p.firstLive live a) := by
  have hhi : p.hi < 2 ^ 64 := p.endAddr.toNat_lt
  have hge : a.toNat ≤ p.firstLive live a := by
    rcases @firstLive_spec p live a with heq | ⟨b, -, hab, heq⟩
    · omega
    · rw [← heq]
      exact UInt64.le_iff_toNat_le.mp hab
  have hin : ¬ (a < p.startAddr ∨ a ≥ p.endAddr) := by
    rw [not_or, UInt64.lt_iff_toNat_lt, ge_iff_le, UInt64.le_iff_toNat_le, Nat.not_lt, Nat.not_le]
    exact ⟨h1, h2⟩
  obtain ⟨e, he, hae, hiff⟩ := hk.walk h (2 ^ 52)
    (firstLive_spec.imp_right fun ⟨b, hb, _, heq⟩ => ⟨b, hb, heq⟩)
    (fun b hb hab => firstLive_le_of_mem hb hab) firstLive_le (UInt64.le_refl a) hunit h1 h2 (by omega)
  have hae := UInt64.le_iff_toNat_le.mp hae
  rw [UInt64.sub_self] at he
  rw [← hiff hge, Pallocator.getSpace, if_neg hin, he, Option.some_inj, ← UInt64.toNat_inj,
    UInt64.toNat_sub_of_le _ _ (UInt64.le_iff_toNat_le.mpr hae), UInt64.toNat_ofNat']
  have hle := @firstLive_le p live a
  omega

end Pallocator

namespace Session
open Pallocator
variable {s s' : Session}

lemma strided_receive {p : Pallocator} {live : List Allocation} (hk : p.Kept live) (h : p.Strided)
    (order : UInt8) : ((Session.mk p live).receive order (p.oalloc order)).p.Strided := by
  obtain ⟨q, hq, hB⟩ := hk.inv
  rcases hq.oalloc hB order with ⟨p', q', out, heq, h', -, hl, -, hm, -⟩ | ⟨heq, -⟩
  · rw [heq]
    have hlo : p'.lo = p.lo := congrArg (·.startAddr.toNat) hl
    have hhi : p'.hi = p.hi := congrArg (·.endAddr.toNat) hl
    have hfo : p'.fo = p.fo := congrArg (·.foBits.toNat) hl
    have hin := h'.live_bounds List.mem_cons_self
    have hdvd := h'.allocation _ List.mem_cons_self
    have hpos := Nat.two_pow_pos (p'.fo + order.toNat)
    rw [hlo, hhi] at hin
    rw [hfo] at hdvd
    dsimp only at hin
    refine h.of_update (b := (out, order)) hq.layout hl hm ⟨hin.1, by dsimp only; omega⟩ hdvd ?_
    rw [UInt8.toNat_and]
    exact Nat.and_le_left
  · rw [heq]
    exact h

/-- The calls of clients keep what is recorded in order. -/
lemma strided_step {op : Op} (hk : s.p.Kept s.live) (h : s.p.Strided) (hs : s.step op = some s') :
    s'.p.Strided := by
  cases op with
  | alloc n =>
    obtain rfl := Option.some.inj hs
    unfold Pallocator.alloc
    split_ifs with hn
    · exact h
    · exact strided_receive hk h _
  | oalloc order =>
    obtain rfl := Option.some.inj hs
    exact strided_receive hk h order
  | free mem =>
    obtain rfl := Option.some.inj hs
    by_cases hm : ∃ b ∈ s.live, s.p.InFirstUnit b mem
    · obtain ⟨b, hb, hm⟩ := hm
      obtain ⟨-, hl, -, hmeta⟩ := hk.free hb hm
      obtain ⟨q, hq, -⟩ := hk.inv
      have hin := hk.bounds hb
      have hpos := Nat.two_pow_pos (s.p.fo + b.2.toNat)
      exact h.of_update hq.layout hl hmeta ⟨hin.1, by omega⟩ (hq.allocation b hb) le_rfl
    · have hn : ∀ b ∈ s.live, ¬ s.p.InFirstUnit b mem := fun b hb hbm => hm ⟨b, hb, hbm⟩
      obtain ⟨q, hq, -⟩ := hk.inv
      dsimp only
      rw [hq.free_none hn]
      exact h
  | write a node v =>
    rw [Session.step, Option.ite_none_right_eq_some] at hs
    obtain ⟨-, hs⟩ := hs
    obtain rfl := Option.some.inj hs
    exact h

section Runs
variable {startAddr endAddr firstOrderSize : UInt64} {links : Links UInt64} {n : UInt64 → UInt64}
  {metadata : UInt64 → Metadata} {k : ℕ} {p : Pallocator} {ops : List Op}

/-- In every state of a run `get_space` counts the bytes up to the first block in use, or to the end,
exactly if no unit before records a block that reaches further. -/
theorem getSpace_iff_clear
    (hinit : Pallocator.init startAddr endAddr firstOrderSize links n metadata = some p)
    (hf : firstOrderSize.toNat = 2 ^ k) (hend : endAddr.toNat + 2 ^ 31 ≤ 2 ^ 64)
    (hsize : ∀ k, ∀ z ∈ p.zones k, (p.n z).toNat ≤ 2 ^ 30)
    (hrun : Machine.run Session.step ⟨p, []⟩ ops = some s) {a : UInt64} (hunit : 2 ^ s.p.fo ∣ a.toNat)
    (h1 : s.p.startAddr ≤ a) (h2 : a < s.p.endAddr) :
    s.p.getSpace a = some (UInt64.ofNat (s.p.firstLive s.live a - a.toNat)) ↔
      s.p.Clear a (s.p.firstLive s.live a) := by
  obtain ⟨hkept, horder⟩ := kept_of_init hinit hf hend hsize
  have hstrided : p.Strided := by
    intro x hx hlo hhi
    unfold recordedOrder
    rw [horder x hlo hhi]
    exact hx
  have hinv : s.p.Kept s.live ∧ s.p.Strided :=
    Machine.run_invariant (I := fun s : Session => s.p.Kept s.live ∧ s.p.Strided)
      (fun _ _ _ h hs => ⟨(h.1.step hs).1, strided_step h.1 h.2 hs⟩) ⟨hkept, hstrided⟩ hrun
  exact hinv.1.getSpace_iff hinv.2 hunit (UInt64.le_iff_toNat_le.mp h1) (UInt64.lt_iff_toNat_lt.mp h2)

/-- The pages of a fresh allocator are counted to the end. -/
theorem getSpace_iff_clear_pages : ∃ p,
    Pallocator.init 4096 65536 4096 (fun _ => ⟨none, none⟩) (fun _ => 0) (fun _ => ⟨false, 0⟩) =
      some p ∧
    (p.getSpace 8192 = some (UInt64.ofNat (p.firstLive [] 8192 - 8192)) ↔
      p.Clear 8192 (p.firstLive [] 8192)) := by
  have hinit : ((Pallocator.init 4096 65536 4096 (fun _ => ⟨none, none⟩) (fun _ => 0)
      (fun _ => ⟨false, 0⟩)).map fun p => (p.fo, p.startAddr, p.endAddr)) =
        some (12, 4096, 61440) := by decide +kernel
  obtain ⟨p, hp, hfields⟩ := Option.map_eq_some_iff.mp hinit
  obtain ⟨hfo, hstart, hend⟩ := by simpa only [Prod.mk.injEq] using hfields
  have hf : (4096 : UInt64).toNat = 2 ^ 12 := rfl
  refine ⟨p, hp, getSpace_iff_clear (s := ⟨p, []⟩) hp hf (by decide) (size_le_of_init hp hf (by decide))
    Machine.run_nil ?_ ?_ ?_⟩
  · change 2 ^ p.fo ∣ _
    rw [hfo]
    decide
  · change p.startAddr ≤ _
    rw [hstart]
    decide
  · change _ < p.endAddr
    rw [hend]
    decide

/-- Two pages are taken and given back. When the second one is in use again, the metadata of the first
one still counts both. -/
theorem not_getSpace_stale : ∃ p s,
    Pallocator.init 4096 65536 4096 (fun _ => ⟨none, none⟩) (fun _ => 0) (fun _ => ⟨false, 0⟩) =
      some p ∧
    Machine.run Session.step ⟨p, []⟩ [.oalloc 1, .free 49152, .oalloc 0, .oalloc 0, .oalloc 0] =
      some s ∧
    49152 ∈ s.p.zones 0 ∧ (53248, 0) ∈ s.live ∧
    s.p.getSpace 49152 ≠ some (UInt64.ofNat (s.p.firstLive s.live 49152 - 49152)) := by
  have h : (((Pallocator.init 4096 65536 4096 (fun _ => ⟨none, none⟩) (fun _ => 0)
      (fun _ => ⟨false, 0⟩)).bind fun p => (Machine.run Session.step ⟨p, []⟩
        [.oalloc 1, .free 49152, .oalloc 0, .oalloc 0, .oalloc 0]).map fun s => (p, s)).any fun r =>
      49152 ∈ r.2.p.zones 0 ∧ (53248, 0) ∈ r.2.live ∧
      r.2.p.getSpace 49152 ≠ some (UInt64.ofNat (r.2.p.firstLive r.2.live 49152 - 49152))) =
        true := by decide +kernel
  obtain ⟨r, hr, hval⟩ := (Option.any_eq_true _ _).mp h
  obtain ⟨p, hp, hr⟩ := Option.bind_eq_some_iff.mp hr
  obtain ⟨s, hs, rfl⟩ := Option.map_eq_some_iff.mp hr
  obtain ⟨hzone, hlive, hspace⟩ := of_decide_eq_true hval
  exact ⟨p, s, hp, hs, hzone, hlive, hspace⟩

end Runs

end Session
end EpochKernel.Mem
