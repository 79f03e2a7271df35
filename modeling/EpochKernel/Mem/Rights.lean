import EpochKernel.Mem.PageTablesFail
import EpochKernel.Mem.PageTablesLifetime

/-! What the processor lets a program do with a page: the rights are those that all entries on the walk
agree on. `map_internal` gives all rights in the entries for tables, so that the entry of the page
decides, and the constructor of an address space gives no rights to user programs in the kernel's
entry. -/
namespace EpochKernel.Mem
open EpochKernel.Util EpochKernel.Library

def vWrite : UInt64 := 2
def vUser : UInt64 := 4
def vXd : UInt64 := 0x8000000000000000

/-- What an entry allows: writes, accesses of user programs, and execution. -/
structure Rights where
  write : Bool
  user : Bool
  execute : Bool
  deriving DecidableEq, Repr

namespace Rights

def ofEntry (e : UInt64) : Rights := ⟨e &&& vWrite ≠ 0, e &&& vUser ≠ 0, e &&& vXd = 0⟩

def all : Rights := ⟨true, true, true⟩

/-- What two entries on a walk allow together. -/
def both (r s : Rights) : Rights := ⟨r.write && s.write, r.user && s.user, r.execute && s.execute⟩

@[simp] lemma all_both (r : Rights) : both all r = r := by
  simp [both, all]

lemma both_user {r s : Rights} (h : r.user = false) : (both r s).user = false := by
  simp [both, h]

lemma ofEntry_congr {e e' : UInt64} (h : e' &&& pageFlagsPos = e &&& pageFlagsPos) :
    ofEntry e' = ofEntry e := by
  have hflags (mask : UInt64) (hm : pageFlagsPos &&& mask = mask) : e' &&& mask = e &&& mask := by
    rw [← hm, ← UInt64.and_assoc, h, UInt64.and_assoc]
  unfold ofEntry
  rw [hflags vWrite (by decide), hflags vUser (by decide), hflags vXd (by decide)]

lemma ofEntry_flags (e : UInt64) : ofEntry (e &&& pageFlagsPos) = ofEntry e := by
  apply ofEntry_congr
  rw [UInt64.and_assoc, UInt64.and_self]

lemma ofEntry_congr_data {e e' : UInt64} (h : e' &&& pageDataPos = e &&& pageDataPos) :
    ofEntry e' = ofEntry e := by
  apply ofEntry_congr
  rw [@and_data pageFlagsPos (by decide), h, ← @and_data pageFlagsPos (by decide)]

/-- The rights in an entry that `page_set` has written are those of its flags. -/
lemma ofEntry_of_data {e n flags : UInt64} (h : e &&& pageDataPos = pageEntry n flags) :
    ofEntry e = ofEntry flags := by
  apply ofEntry_congr
  rw [@and_data pageFlagsPos (by decide), h, pageEntry_flags]

end Rights

namespace PageTables

/-- The address of the page of `v` and the rights for it, of 4 KiB or in a large page. -/
def access (m : PageTables) (pml4Table v : UInt64) : Option (UInt64 × Rights) :=
  (m.read pml4Table (getBits v 39 47).toNat).bind fun e₄ =>
    let r₄ := Rights.ofEntry e₄
    (m.read ((e₄ &&& pageAddrPos) + kernelVma) (getBits v 30 38).toNat).bind fun e₃ =>
      let r₃ := r₄.both (Rights.ofEntry e₃)
      if large e₃ then some ((e₃ &&& 0x0000ffffc0000000) ||| (v &&& 0x3ffff000), r₃)
      else (m.read ((e₃ &&& pageAddrPos) + kernelVma) (getBits v 21 29).toNat).bind fun e₂ =>
        let r₂ := r₃.both (Rights.ofEntry e₂)
        if large e₂ then some ((e₂ &&& 0x0000ffffffe00000) ||| (v &&& 0x1ff000), r₂)
        else (m.read ((e₂ &&& pageAddrPos) + kernelVma) (getBits v 12 20).toNat).map fun e₁ =>
          (e₁ &&& pageAddrPos, r₂.both (Rights.ofEntry e₁))

variable {m m' : PageTables} {pml4Table t u v : UInt64} {user kernel : ℕ → Set UInt64} {d i : ℕ}

/-- It is the page that the walk finds. -/
theorem access_page (m : PageTables) (pml4Table v : UInt64) :
    (m.access pml4Table v).map Prod.fst = (m.walk pml4Table v).map Prod.fst := by
  unfold access walk
  cases m.read pml4Table (getBits v 39 47).toNat with
  | none => rfl
  | some e₄ =>
    dsimp only [Option.bind_some]
    cases m.read ((e₄ &&& pageAddrPos) + kernelVma) (getBits v 30 38).toNat with
    | none => rfl
    | some e₃ =>
      dsimp only [Option.bind_some]
      by_cases h₃ : large e₃
      · simp [h₃]
      · simp only [if_neg h₃]
        cases m.read ((e₃ &&& pageAddrPos) + kernelVma) (getBits v 21 29).toNat with
        | none => rfl
        | some e₂ =>
          dsimp only [Option.bind_some]
          by_cases h₂ : large e₂
          · simp [h₂]
          · simp [h₂, Function.comp_def]

/-- The entries for tables allow everything. -/
def Permissive (m : PageTables) (pml4Table : UInt64) : Prop :=
  ∀ d < 3, ∀ x t i, Radix.node 512 (m.child pml4Table) pml4Table d x = some t →
    m.child pml4Table t i ≠ none → Rights.ofEntry (m.entry t i) = Rights.all

/-- An entry for a table of the tree is read as it is. -/
lemma WellFormed.read_child (h : WellFormed m pml4Table user kernel) (hd : d < 3) (ht : t ∈ user d)
    (hi : i < 512) (hne : ¬ (t = pml4Table ∧ i = 511)) :
    (m.child pml4Table t i = none ∧ m.read t i = none) ∨
      (m.child pml4Table t i = some (m.next t i) ∧ m.read t i = some (m.entry t i) ∧
        ¬ large (m.entry t i)) := by
  by_cases hp : m.present t i
  · have hc : m.child pml4Table t i = some (m.next t i) := child_eq_some.mpr ⟨hp, hi, hne, rfl⟩
    exact Or.inr ⟨hc, if_pos hp, h.small d hd t ht i (by rw [hc]; exact Option.some_ne_none _)⟩
  · exact Or.inl ⟨if_neg fun hx => hp hx.1, if_neg hp⟩

/-- In the user's part the entry of the page has the last word. -/
theorem WellFormed.access_user (h : WellFormed m pml4Table user kernel) (hp : m.Permissive pml4Table)
    (hx : pageNumber v < 511 * 512 ^ 3) : m.access pml4Table v =
      (m.leaf pml4Table (pageNumber v)).map fun r => (r.1, Rights.ofEntry r.2) := by
  obtain ⟨h3, h2, h1, h0⟩ := index_digits v
  have hzero : pageNumber v / 512 / 512 / 512 / 512 = 0 := Nat.div_eq_of_lt (by omega)
  have hmod : pageNumber v / 512 / 512 / 512 % 512 = pageNumber v / 512 / 512 / 512 :=
    Nat.mod_eq_of_lt (by omega)
  have hlt : pageNumber v / 512 / 512 / 512 < 511 := by omega
  have hne : ∀ d, 1 ≤ d → d ≤ 3 → ∀ t ∈ user d, ∀ i, ¬ (t = pml4Table ∧ i = 511) := by
    intro d hd hd3 t ht i hi
    have := h.forest.apart d hd3 0 (by omega) t ht (hi.1 ▸ h.forest.mem_root)
    omega
  have hroot : Radix.node 512 (m.child pml4Table) pml4Table 0 0 = some pml4Table := Radix.node_zero
  unfold access leaf
  rw [h0, h1, h2, h3, Radix.node, Radix.node, Radix.node, Radix.node, if_pos hzero, Option.bind_some,
    hmod]
  have hr₄ := h.read_child (by omega) h.forest.mem_root
    (by omega : pageNumber v / 512 / 512 / 512 < 512) (by omega)
  cases hr₄ with
  | inl hn => simp [hn.1, hn.2]
  | inr hs =>
    obtain ⟨hc₄, hr₄, -⟩ := hs
    have ht₁ := h.forest.child_mem 0 (by omega) _ h.forest.mem_root _ _ hc₄
    have hn₁ := (Radix.node_step (by omega : pageNumber v / 512 / 512 / 512 < 512) hroot).trans hc₄
    have ha₄ := hp 0 (by omega) 0 _ (pageNumber v / 512 / 512 / 512) hroot
      (by rw [hc₄]; exact Option.some_ne_none _)
    rw [hr₄, hc₄, Option.bind_some, Option.bind_some, ha₄]
    simp only [Rights.all_both]
    change (m.read (m.next pml4Table (pageNumber v / 512 / 512 / 512)) _).bind _ = _
    generalize m.next pml4Table (pageNumber v / 512 / 512 / 512) = t₁ at ht₁ hn₁ ⊢
    have hr₃ := h.read_child (by omega) ht₁ (by omega : pageNumber v / 512 / 512 % 512 < 512)
      (hne 1 le_rfl (by omega) t₁ ht₁ _)
    cases hr₃ with
    | inl hn => simp [hn.1, hn.2]
    | inr hs =>
      obtain ⟨hc₃, hr₃, hl₃⟩ := hs
      have ht₂ := h.forest.child_mem 1 (by omega) _ ht₁ _ _ hc₃
      have hn₂ := (Radix.node_step (by omega : pageNumber v / 512 / 512 % 512 < 512) hn₁).trans hc₃
      have ha₃ := hp 1 (by omega) _ t₁ (pageNumber v / 512 / 512 % 512) hn₁
        (by rw [hc₃]; exact Option.some_ne_none _)
      rw [hr₃, hc₃, Option.bind_some, Option.bind_some, if_neg hl₃, ha₃]
      change (m.read (m.next t₁ (pageNumber v / 512 / 512 % 512)) _).bind _ = _
      generalize m.next t₁ (pageNumber v / 512 / 512 % 512) = t₂ at ht₂ hn₂ ⊢
      have hr₂ := h.read_child (by omega) ht₂ (by omega : pageNumber v / 512 % 512 < 512)
        (hne 2 (by omega) (by omega) t₂ ht₂ _)
      cases hr₂ with
      | inl hn => simp [hn.1, hn.2]
      | inr hs =>
        obtain ⟨hc₂, hr₂, hl₂⟩ := hs
        have ha₂ := hp 2 (by omega) _ t₂ (pageNumber v / 512 % 512) hn₂
          (by rw [hc₂]; exact Option.some_ne_none _)
        rw [hr₂, hc₂, Option.bind_some, Option.bind_some, if_neg hl₂, ha₂]
        change (m.read (m.next t₂ (pageNumber v / 512 % 512)) _).map _ = _
        unfold page
        rw [Option.map_map]
        apply congrArg (fun f => Option.map f _)
        funext e
        simp [Rights.all_both, Rights.ofEntry_flags]

/-- In the kernel's part there is nothing for user programs. -/
theorem access_kernel {kernelPdpTable : UInt64} {r : UInt64 × Rights}
    (hroot : m.entry pml4Table 511 &&& pageDataPos = pageEntry kernelPdpTable 2)
    (hx : 511 * 512 ^ 3 ≤ pageNumber v) (ha : m.access pml4Table v = some r) : r.2.user = false := by
  have h3 : (getBits v 39 47).toNat = 511 := by
    have hlt : pageNumber v < 2 ^ 36 := Nat.mod_lt _ (by norm_num)
    rw [(index_digits v).1]
    omega
  have hr₄ : m.read pml4Table 511 = some (m.entry pml4Table 511) := if_pos (present_of_data hroot)
  have huser : (Rights.ofEntry (m.entry pml4Table 511)).user = false := by
    rw [Rights.ofEntry_of_data hroot]
    rfl
  unfold access at ha
  rw [h3, hr₄, Option.bind_some, Option.bind_eq_some_iff] at ha
  obtain ⟨e₃, -, ha⟩ := ha
  dsimp only at ha
  split_ifs at ha with h₃
  · cases ha
    exact Rights.both_user huser
  · rw [Option.bind_eq_some_iff] at ha
    obtain ⟨e₂, -, ha⟩ := ha
    split_ifs at ha with h₂
    · cases ha
      exact Rights.both_user (Rights.both_user huser)
    · rw [Option.map_eq_some_iff] at ha
      obtain ⟨e₁, -, rfl⟩ := ha
      exact Rights.both_user (Rights.both_user (Rights.both_user huser))

end PageTables

namespace Pass.Job
variable {J : Job} {m : PageTables} {kernel : ℕ → Set UInt64}

/-- The entries for new tables allow everything. -/
lemma permissive_keeps : J.Keeps m kernel fun w => w.Permissive J.pml4Table where
  shift _ _ h := h
  page w x i t hinv h ht hi _ _ := by
    obtain ⟨user, hwell, -⟩ := hinv.tree
    have hmem : t ∈ user 3 := hwell.forest.node_mem le_rfl ht
    have hwrites := @PageTables.writes_mapPage w.toPageTables t i
      (J.physAddr + pageSize * UInt64.ofNat (J.n - w.pageN) - kernelVma) J.flags hi
    intro d hd y u j hu hc
    have hnode : Radix.node 512 (w.child J.pml4Table) J.pml4Table d y = some u :=
      (table_mapPage hinv ht hi hd.le y).symm.trans hu
    have humem : u ∈ user d := hwell.forest.node_mem hd.le hnode
    have hchild := hwell.child_writePage hwrites hmem hd humem
    have hut : u ≠ t := by
      intro hut
      have := hwell.forest.apart d hd.le 3 le_rfl u humem (hut ▸ hmem)
      omega
    rw [mapPage_entry_other _ _ _ hut]
    exact h d hd y u j hnode (hchild ▸ hc)
  opens w w' level x i t p _ _ h _ _ _ _ ho := by
    obtain ⟨user, hwell, -, hnew⟩ := ho.new
    intro d hd y u j hu hc
    cases hnew.grows.node_or hwell.forest hd.le hu with
    | inl hold =>
      have humem : u ∈ user d := hwell.forest.node_mem hd.le hold
      by_cases hslot : u = t ∧ j = i
      · rw [hslot.1, hslot.2, Rights.ofEntry_of_data hnew.data]
        rfl
      · have hdata := hnew.data_of_mem hd.le humem hslot
        rw [Rights.ofEntry_congr_data hdata]
        exact h d hd y u j hold (PageTables.child_congr hdata ▸ hc)
    | inr hp =>
      subst hp
      exact absurd (if_neg fun hx => hnew.not_present j hx.1) hc

/-- The pages that are still to be allocated are not written. -/
lemma supply_keeps : J.Keeps m kernel fun w =>
    ∀ p ∈ w.supply, p ≠ 0 → p ∈ m.supply ∧ w.entry p = m.entry p where
  shift _ _ h := h
  page w x i t hinv h ht hi _ _ := by
    obtain ⟨user, hwell, hfresh⟩ := hinv.tree
    have hmem : t ∈ user 3 := hwell.forest.node_mem le_rfl ht
    have hwrites := @PageTables.writes_mapPage w.toPageTables t i
      (J.physAddr + pageSize * UInt64.ofNat (J.n - w.pageN) - kernelVma) J.flags hi
    intro p hp hp0
    have hp' : p ∈ w.supply := hwrites.supply ▸ hp
    have hpt : p ≠ t := fun hpt => hfresh.user p hp' hp0 3 le_rfl (hpt ▸ hmem)
    rw [mapPage_entry_other _ _ _ hpt]
    exact h p hp' hp0
  opens w w' level x i t p _ _ h _ _ _ _ ho := by
    obtain ⟨user, hwell, hfresh, hnew⟩ := ho.new
    intro q hq hq0
    have hq' : q ∈ w.supply := ho.supply ▸ List.mem_cons_of_mem p hq
    have hqp : q ≠ p := by
      have hpq := List.rel_of_pairwise_cons (ho.supply ▸ hfresh.distinct) hq
      exact (hpq.resolve_left ho.ne_zero).symm
    have hqt : q ≠ t := fun hqt => hfresh.user q hq' hq0 _ hnew.depth.le (hqt ▸ hnew.mem)
    rw [hnew.other q hqt hqp]
    exact h q hq' hq0

end Pass.Job
end EpochKernel.Mem
