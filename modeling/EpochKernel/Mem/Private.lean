import EpochKernel.Mem.Isolation

/-! The memory of a program as if it were alone: the pages that are mapped in its space and the words in
its pages of data. Whatever happens in other address spaces, a program reads from memory what it and
the kernel on its behalf have made of it. -/
namespace EpochKernel.Mem
open EpochKernel.Util EpochKernel.Library

/-- `mapped` has the address and the flags of a page by its number, `words` what is in a page. -/
structure Private where
  mapped : ℕ → Option (UInt64 × UInt64)
  words : UInt64 → ℕ → UInt64

namespace Private

def access (v : Private) (a : UInt64) : Option (UInt64 × Rights) :=
  if PageTables.canonical a then
    ((v.mapped (PageTables.pageNumber a)).map fun r => (r.1, Rights.ofEntry r.2)).filter fun r => r.2.user
  else none

def load (v : Private) (a : UInt64) : Option UInt64 :=
  (v.access a).map fun r => v.words (r.1 + kernelVma) (wordIndex a)

def set (v : Private) (page : UInt64) (i : ℕ) (e : UInt64) : Private :=
  { v with words := Function.update v.words page (Function.update (v.words page) i e) }

@[simp] lemma set_words_self (v : Private) (page : UInt64) (i : ℕ) (e : UInt64) :
    (v.set page i e).words page = Function.update (v.words page) i e := by
  simp only [set, Function.update_self]

@[simp] lemma set_words_of_ne {v : Private} {page u : UInt64} (h : u ≠ page) (i : ℕ) (e : UInt64) :
    (v.set page i e).words u = v.words u := by
  simp only [set, Function.update_of_ne h]

/-- What an event of the program's own address space makes of it. -/
def after (v : Private) : SpaceEvent → Private
  | .create | .alloc _ => v
  | .fill _ page i e => v.set page i e
  | .map _ physAddr virtAddr n flags =>
    { v with mapped := fun x =>
        if PageTables.pageNumber virtAddr ≤ x ∧ x < PageTables.pageNumber virtAddr + (n.toNat + 4095) / 4096 then
          some (physAddr - kernelVma + 4096 * UInt64.ofNat (x - PageTables.pageNumber virtAddr),
            flags &&& pageFlagsPos)
        else v.mapped x }
  | .unmap _ virtAddr _ =>
    { v with mapped := Function.update v.mapped (PageTables.pageNumber virtAddr) none }
  | .store _ a e =>
    match (v.access a).filter fun r => r.2.write with
    | none => v
    | some r => v.set (r.1 + kernelVma) (wordIndex a) e

/-- Nothing is mapped, and the words are those that are in memory. -/
def boot (m : PageTables) : Private := ⟨fun _ => none, m.entry⟩

end Private

namespace PageTables

/-- No page of the kernel's part is below a user entry. -/
lemma leaf_kernel {m : PageTables} {pml4Table : UInt64} {x : ℕ} (hx : 511 * 512 ^ 3 ≤ x) :
    m.leaf pml4Table x = none := by
  have hnode : Radix.node 512 (m.child pml4Table) pml4Table 1 (x / 512 / 512 ^ 2) = none := by
    rw [Radix.node]
    by_cases hz : x / 512 / 512 ^ 2 / 512 = 0
    · have h511 : x / 512 / 512 ^ 2 % 512 = 511 := by omega
      rw [hz, Radix.node_zero, Option.bind_some, h511]
      exact if_neg fun hc => hc.2.2 ⟨rfl, rfl⟩
    · rw [Radix.node, if_neg hz]
      rfl
  rw [leaf, Radix.node_eq_none (by norm_num) hnode]
  rfl

end PageTables

namespace Spaces
variable {kernelPdpTable : UInt64} {kernel : ℕ → Set UInt64} {m₀ m' : PageTables} {s s' : Spaces}
  {user : UInt64 → ℕ → Set UInt64} {r q p a : UInt64} {v : Private} {e : SpaceEvent}

/-- The program of the space `r` sees `v` of the memory. -/
structure Sees (m₀ : PageTables) (r : UInt64) (s : Spaces) (v : Private) : Prop where
  mapped : r ∈ s.roots → v.mapped = s.memory.leaf r
  unmapped : r ∉ s.roots → v.mapped = fun _ => none
  words : ∀ p, s.owner p = some r → v.words p = s.memory.entry p
  rest : ∀ p, s.owner p ≠ some r → v.words p = m₀.entry p

lemma Sees.access (h : Inv kernelPdpTable kernel m₀ user s) (hv : Sees m₀ r s v) (hr : r ∈ s.roots)
    (a : UInt64) : v.access a = s.access r a := by
  unfold Private.access Spaces.access
  split_ifs with hc
  · rw [hv.mapped hr]
    by_cases hlow : PageTables.pageNumber a < 511 * 512 ^ 3
    · rw [(h.well r hr).access_user (h.permissive r hr) hlow]
    · rw [PageTables.leaf_kernel (not_lt.mp hlow), eq_comm]
      apply Option.filter_eq_none_iff.mpr
      intro b hb
      rw [PageTables.access_kernel (h.top r hr) (not_lt.mp hlow) hb]
      exact Bool.false_ne_true
  · rfl

/-- What a program reads is what it sees. -/
lemma Sees.load (h : Inv kernelPdpTable kernel m₀ user s) (hv : Sees m₀ r s v) (hr : r ∈ s.roots)
    (a : UInt64) : v.load a = s.load r a := by
  unfold Private.load Spaces.load
  rw [hv.access h hr]
  cases ha : s.access r a with
  | none => rfl
  | some b =>
    rw [Option.map_some, Option.map_some, hv.words _ (h.access_owned hr ha).1]

/-- The view stays if the tables of the space and its pages of data stay as they are. -/
lemma Sees.same (hv : Sees m₀ r s v) (hleaf : r ∈ s.roots → m'.leaf r = s.memory.leaf r)
    (hentry : ∀ p, s.owner p = some r → m'.entry p = s.memory.entry p) :
    Sees m₀ r { s with memory := m' } v where
  mapped hr := (hv.mapped hr).trans (hleaf hr).symm
  unmapped := hv.unmapped
  words p hp := (hv.words p hp).trans (hentry p hp).symm
  rest := hv.rest

section Steps
variable (h : Inv kernelPdpTable kernel m₀ user s) (hv : Sees m₀ r s v)
include h hv

/-- Pages of data of another space are written. -/
lemma Sees.set_other (hp : s.owner p = some q) (hqr : q ≠ r) (i : ℕ) (e : UInt64) :
    Sees m₀ r { s with memory := s.memory.set p i e } v := by
  have hother : ∀ t, s.owner t ≠ some q → (s.memory.set p i e).entry t = s.memory.entry t := by
    intro t ht
    refine PageTables.set_entry_other (fun htp => ?_) e
    exact ht (htp ▸ hp)
  refine hv.same (fun hr => ?_) fun t ht => hother t ?_
  · funext x
    refine PageTables.WellFormed.leaf_same (h.well r hr) (fun d hd t ht => hother t fun ho => ?_) x
    exact h.ownedTable t (by rw [ho]; exact Option.some_ne_none q) r hr d hd ht
  · rw [ht]
    exact fun hrq => hqr (Option.some.inj hrq).symm

/-- A word is written in one of its own pages of data. -/
lemma Sees.set (hp : s.owner p = some r) (i : ℕ) (e : UInt64) :
    Sees m₀ r { s with memory := s.memory.set p i e } (v.set p i e) where
  mapped hr := by
    have hother : ∀ t, s.owner t = none → (s.memory.set p i e).entry t = s.memory.entry t := by
      intro t ht
      refine PageTables.set_entry_other (fun htp => ?_) e
      rw [htp, hp] at ht
      cases ht
    rw [Private.set, hv.mapped hr]
    funext x
    refine (PageTables.WellFormed.leaf_same (h.well r hr) (fun d hd t ht => hother t ?_) x).symm
    by_contra ho
    exact h.ownedTable t ho r hr d hd ht
  unmapped := hv.unmapped
  words t ht := by
    by_cases htp : t = p
    · subst htp
      simp only [Private.set_words_self, PageTables.set, Function.update_self, hv.words t hp]
    · rw [Private.set_words_of_ne htp, PageTables.set_entry_other htp]
      exact hv.words t ht
  rest t ht := by
    have htp : t ≠ p := fun htp => ht (htp ▸ hp)
    rw [Private.set_words_of_ne htp]
    exact hv.rest t ht

omit hv in
lemma leaf_take (hr : r ∈ s.roots) (hsame : m'.entry = s.memory.entry) :
    m'.leaf r = s.memory.leaf r := by
  funext x
  exact PageTables.WellFormed.leaf_same (h.well r hr) (fun _ _ t _ => congrFun hsame t) x

/-- Pages are taken from those that are still to be allocated. -/
lemma Sees.take (hsame : m'.entry = s.memory.entry) : Sees m₀ r { s with memory := m' } v :=
  hv.same (fun hr => leaf_take h hr hsame) fun t _ => congrFun hsame t

/-- A page of data is allocated, for this space or another one. -/
lemma Sees.alloc (hs : s.memory.supply = p :: m'.supply) (hp0 : p ≠ 0)
    (hsame : m'.entry = s.memory.entry) :
    Sees m₀ r { s with memory := m', owner := Function.update s.owner p (some q) } v := by
  have hp : p ∈ s.memory.supply := by simp [hs]
  have hnone : s.owner p = none := by
    by_contra ho
    exact h.not_others hp hp0 p (Or.inl ho)
  have hwords : v.words p = s.memory.entry p := by
    rw [hv.rest p (by rw [hnone]; exact (Option.some_ne_none r).symm), h.unused p hp hp0]
  refine ⟨fun hr => ?_, hv.unmapped, fun t ht => ?_, fun t ht => ?_⟩
  · rw [hv.mapped hr]
    exact (leaf_take h hr hsame).symm
  · refine Eq.trans ?_ (congrFun hsame t).symm
    by_cases htp : t = p
    · rw [htp, hwords]
    · dsimp only at ht
      rw [Function.update_of_ne htp] at ht
      exact hv.words t ht
  · by_cases htp : t = p
    · rw [htp, hwords, h.unused p hp hp0]
    · dsimp only at ht
      rw [Function.update_of_ne htp] at ht
      exact hv.rest t ht

/-- A new address space sees nothing, and the others see what they saw. -/
lemma Sees.create {ps : List UInt64} (hs : s.memory.supply = p :: ps) (hp0 : p ≠ 0) :
    Sees m₀ r { s with
      memory := (PageTables.construct kernelPdpTable s.memory).2, roots := p :: s.roots } v := by
  have hp : p ∈ s.memory.supply := by simp [hs]
  obtain ⟨-, hother, -⟩ := @PageTables.construct_memory _ _ kernelPdpTable _ hs hp0
  have hnot : p ∉ s.roots := fun hm => h.ne_root hp hp0 hm rfl
  refine ⟨fun hr => ?_, fun hr => hv.unmapped fun hm => hr (List.mem_cons_of_mem p hm),
    fun t ht => ?_, hv.rest⟩
  · funext x
    by_cases hrp : r = p
    · subst hrp
      rw [hv.unmapped hnot]
      exact ((h.create hs hp0).2 x).symm
    · have hr := (List.mem_cons.mp hr).resolve_left hrp
      rw [hv.mapped hr]
      refine (PageTables.WellFormed.leaf_same (h.well r hr) (fun d hd t ht => hother t ?_) x).symm
      exact fun htp => h.unusedTable r hr p hp hp0 d hd (htp ▸ ht)
  · refine (hv.words t ht).trans (hother t fun htp => ?_).symm
    exact (h.owned t r ht).2.1 (htp ▸ hp)

/-- Pages are mapped in another space. -/
lemma Sees.map_other {physAddr virtAddr flags : UInt64} {k : ℕ} (hqr : q ≠ r)
    (hm : Mapped kernel user s m' q physAddr virtAddr flags k) :
    Sees m₀ r { s with memory := m' } v := by
  have hsame : ∀ t ∈ others user s q, m'.entry t = s.memory.entry t :=
    fun t ht => hm.same 3 (by norm_num) le_rfl t (others_subset ht)
  refine hv.same (fun hr => ?_) fun t ht => hsame t (Or.inl ?_)
  · funext x
    exact PageTables.WellFormed.leaf_same (h.well r hr)
      (fun d hd t ht => hsame t (Or.inr ⟨r, hr, hqr.symm, d, hd, ht⟩)) x
  · rw [ht]
    exact Option.some_ne_none r

end Steps

/-- A store of the program does to memory what it does to its view. -/
lemma Sees.store (h : Inv kernelPdpTable kernel m₀ user s) (hv : Sees m₀ r s v) (hr : r ∈ s.roots)
    (a e : UInt64) : Sees m₀ r (s.store r a e) (v.after (.store r a e)) := by
  rw [Private.after, hv.access h hr]
  cases store_cases h hr (v := a) (e := e) with
  | inl hsame =>
    rw [hsame.1, hsame.2]
    exact hv
  | inr hset =>
    obtain ⟨b, hb, ho, hs⟩ := hset
    rw [hb, hs]
    exact hv.set h ho _ e

/-- A store of another program does nothing to it. -/
lemma Sees.store_other (h : Inv kernelPdpTable kernel m₀ user s) (hv : Sees m₀ r s v) (hq : q ∈ s.roots)
    (hqr : q ≠ r) (a e : UInt64) : Sees m₀ r (s.store q a e) v := by
  cases store_cases h hq (v := a) (e := e) with
  | inl hsame => exact hsame.2.symm ▸ hv
  | inr hset =>
    obtain ⟨b, -, ho, hs⟩ := hset
    exact hs.symm ▸ hv.set_other h ho hqr _ e

/-- What a program sees follows from the events of its own space. -/
theorem sees_views (kernelPdpTable : UInt64) (kernel : ℕ → Set UInt64) (m₀ : PageTables) (r : UInt64) :
    Machine.Views (Spaces.step kernelPdpTable) (fun s => ∃ user, Inv kernelPdpTable kernel m₀ user s)
      Sparing (fun e => e.root = some r) Private.after (Sees m₀ r) where
  keep s e s' h hspare hs := by
    obtain ⟨user, h⟩ := h
    exact h.step hspare hs
  mine s e s' v h hspare hs hv hroot := by
    obtain ⟨user, h⟩ := h
    cases e with
    | create => cases hroot
    | alloc q =>
      obtain ⟨hq, m', hsub, hsame, hs'⟩ := step_alloc hs
      cases hs' with
      | inl hs' => exact hs'.symm ▸ hv.take h hsame
      | inr hs' =>
        obtain ⟨p, hsupply, hp, rfl⟩ := hs'
        exact hv.alloc h hsupply hp hsame
    | fill q p i e =>
      obtain rfl := Option.some.inj hroot
      obtain ⟨hp, rfl⟩ := step_fill hs
      exact hv.set h hp i e
    | map q physAddr virtAddr n flags =>
      obtain rfl := Option.some.inj hroot
      obtain ⟨hq, hreq, howner, m', hrun, rfl⟩ := step_map hs
      obtain ⟨hm, -⟩ := h.map hq hreq howner hrun
      refine ⟨fun _ => ?_, fun hn => absurd hq hn, fun t ht => ?_, hv.rest⟩
      · funext x
        dsimp only [Private.after]
        split_ifs with hx
        · have hin := hm.inside (x - PageTables.pageNumber virtAddr) (by omega)
          have hadd : PageTables.pageNumber virtAddr + (x - PageTables.pageNumber virtAddr) = x := by omega
          rw [hadd] at hin
          exact hin.symm
        · rw [hv.mapped hq]
          exact (hm.outside x (by omega)).symm
      · refine (hv.words t ht).trans (hm.same 3 (by norm_num) le_rfl t (others_subset (Or.inl ?_))).symm
        rw [ht]
        exact Option.some_ne_none q
    | unmap q virtAddr n =>
      obtain rfl := Option.some.inj hroot
      obtain ⟨hq, hn, hle, hlow, rfl⟩ := step_unmap hs
      obtain ⟨hother, hleaf, -⟩ := h.unmap hq hn hle hlow hspare
      refine ⟨fun _ => ?_, fun hn => absurd hq hn, fun t ht => ?_, hv.rest⟩
      · dsimp only [Private.after]
        rw [hleaf, hv.mapped hq]
      · refine (hv.words t ht).trans (hother t fun d hd hm => ?_).symm
        exact h.ownedTable t (by rw [ht]; exact Option.some_ne_none q) q hq d hd hm
    | store q a e =>
      obtain rfl := Option.some.inj hroot
      obtain ⟨hq, rfl⟩ := step_store hs
      exact hv.store h hq a e
  others s e s' v h hspare hs hv hroot := by
    obtain ⟨user, h⟩ := h
    have hne : ∀ {q}, e.root = some q → q ≠ r := fun hq hqr => hroot (hqr ▸ hq)
    cases e with
    | create =>
      obtain ⟨p, ps, hsupply, hp, rfl⟩ := step_create hs
      exact hv.create h hsupply hp
    | alloc q =>
      obtain ⟨hq, m', hsub, hsame, hs'⟩ := step_alloc hs
      cases hs' with
      | inl hs' => exact hs'.symm ▸ hv.take h hsame
      | inr hs' =>
        obtain ⟨p, hsupply, hp, rfl⟩ := hs'
        exact hv.alloc h hsupply hp hsame
    | fill q p i e =>
      obtain ⟨hp, rfl⟩ := step_fill hs
      exact hv.set_other h hp (hne rfl) i e
    | map q physAddr virtAddr n flags =>
      obtain ⟨hq, hreq, howner, m', hrun, rfl⟩ := step_map hs
      exact hv.map_other h (hne rfl) (h.map hq hreq howner hrun).1
    | unmap q virtAddr n =>
      obtain ⟨hq, hn, hle, hlow, rfl⟩ := step_unmap hs
      obtain ⟨hother, -, -⟩ := h.unmap hq hn hle hlow hspare
      refine hv.same (fun hr => ?_) fun t ht => hother t fun d hd hm => ?_
      · funext x
        refine PageTables.WellFormed.leaf_same (h.well r hr) (fun d hd t ht => hother t ?_) x
        exact fun e he hm => h.apart r hr q hq (hne rfl) d hd e he t ht hm
      · exact h.ownedTable t (by rw [ht]; exact Option.some_ne_none r) q hq d hd hm
    | store q a e =>
      obtain ⟨hq, rfl⟩ := step_store hs
      exact hv.store_other h hq (hne rfl) a e

/-- At the start it sees what is in memory. -/
lemma Sees.boot (m₀ : PageTables) (r : UInt64) : Sees m₀ r (boot m₀) (Private.boot m₀) where
  mapped hr := absurd hr List.not_mem_nil
  unmapped _ := rfl
  words _ _ := rfl
  rest _ _ := rfl

/-- What a program reads from memory is what the events of its own address space have made of it,
whatever happened in the others between them. -/
theorem load_private {es : List SpaceEvent} (hk : PageTables.KernelTables m₀ kernelPdpTable kernel)
    (hspare : Machine.Along (Spaces.step kernelPdpTable) Sparing (Spaces.boot m₀) es)
    (hrun : Machine.run (Spaces.step kernelPdpTable) (Spaces.boot m₀) es = some s) (hr : r ∈ s.roots)
    (a : UInt64) : s.load r a =
      ((es.filter fun e => e.root = some r).foldl Private.after (Private.boot m₀)).load a := by
  obtain ⟨user, hinv⟩ := run_inv hk hspare hrun
  have hv := (sees_views kernelPdpTable kernel m₀ r).run ⟨fun _ _ => ∅, Inv.boot hk⟩ hspare
    (Sees.boot m₀ r) hrun
  exact (hv.load hinv hr a).symm

/-- The program of the sample reads what it has written. -/
theorem load_private_sample : ∃ s, Machine.run (Spaces.step 0x200000)
    (Spaces.boot PageTables.sampleMemory) sampleEvents = some s ∧
      s.load 0xffffff8000001000 0x400008 = some 0x55 := by
  obtain ⟨s, hs, hr, -⟩ := sampleEvents_run
  have hload := load_private PageTables.sampleMemory_kernel sampleEvents_sparing hs hr 0x400008
  have hval : ((sampleEvents.filter fun e => e.root = some 0xffffff8000001000).foldl Private.after
      (Private.boot PageTables.sampleMemory)).load 0x400008 = some 0x55 := by decide +kernel
  exact ⟨s, hs, hload.trans hval⟩

end Spaces
end EpochKernel.Mem
