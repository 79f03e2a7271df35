import EpochKernel.Util.LinkedList

/-! Several intrusive lists over one memory of link fields. A node is a member of at most one of
them, so an operation on one list leaves the sequences stored by the others unchanged. -/
namespace EpochKernel.Util.LinkedList
variable {α ι : Type*}

structure Family (H : Links α) (L : ι → LinkedList α) (q : ι → List α) : Prop where
  represents : ∀ i, Represents H (L i) (q i)
  disjoint : ∀ i j x, x ∈ q i → x ∈ q j → i = j

variable {H : Links α} {L : ι → LinkedList α} {q : ι → List α} {i : ι} {x : α}

lemma Family.nodup (h : Family H L q) (i : ι) : (q i).Nodup := (h.represents i).nodup

lemma Family.len_eq (h : Family H L q) (i : ι) : (L i).len = (q i).length :=
  (h.represents i).len_eq

theorem family_empty (H : Links α) : Family H (fun _ : ι => {}) (fun _ => []) :=
  ⟨fun _ => represents_empty H, by simp⟩

variable [DecidableEq ι]

/-- Replacing one list by one that stores a subset of its old nodes and at most one new node. -/
lemma Family.update {H' : Links α} {l' : LinkedList α} {xs : List α} (h : Family H L q)
    (hr : Represents H' l' xs) (hxs : ∀ x ∈ xs, x ∈ q i ∨ ∀ j, x ∉ q j)
    (hH : ∀ j ≠ i, ∀ x ∈ q j, H' x = H x) :
    Family H' (Function.update L i l') (Function.update q i xs) := by
  constructor
  · intro j
    by_cases hj : j = i
    · subst hj
      simpa using hr
    · simpa [hj] using (h.represents j).congr (hH j hj)
  · intro j k x hxj hxk
    have hmem : ∀ m, x ∈ Function.update q i xs m → m = i ∧ x ∈ xs ∨ m ≠ i ∧ x ∈ q m := by
      intro m hm
      by_cases hmi : m = i
      · subst hmi
        exact Or.inl ⟨rfl, by simpa using hm⟩
      · exact Or.inr ⟨hmi, by simpa [hmi] using hm⟩
    rcases hmem j hxj with ⟨rfl, hj⟩ | ⟨hj, hqj⟩ <;> rcases hmem k hxk with ⟨rfl, hk⟩ | ⟨hk, hqk⟩
    · rfl
    · rcases hxs x hj with hq | hq
      · exact h.disjoint _ _ x hq hqk
      · exact absurd hqk (hq k)
    · rcases hxs x hk with hq | hq
      · exact h.disjoint _ _ x hqj hq
      · exact absurd hqj (hq j)
    · exact h.disjoint _ _ x hqj hqk

lemma Family.setCursor (h : Family H L q) {l' : LinkedList α}
    (hl : l'.len = (L i).len) (hs : l'.start = (L i).start) (he : l'.end_ = (L i).end_) :
    Family H (Function.update L i l') q := by
  have := h.update (i := i) ((h.represents i).of_fields hl hs he) (fun x hx => Or.inl hx)
    (fun _ _ _ _ => rfl)
  simpa using this

variable [DecidableEq α]

theorem Family.append (h : Family H L q) (i : ι) (hx : ∀ j, x ∉ q j) :
    Family (append x (L i) H).2 (Function.update L i (append x (L i) H).1)
      (Function.update q i (q i ++ [x])) := by
  refine h.update (append_represents (h.represents i) (hx i)) (fun y hy => ?_)
    (fun j hj y hy => ?_)
  · rcases List.mem_append.mp hy with hy | hy
    · exact Or.inl hy
    · rw [List.mem_singleton.mp hy]
      exact Or.inr hx
  · refine append_links_of_notMem (h.represents i) (hx i) (fun hyi => ?_) (fun hyx => ?_)
    · exact hj (h.disjoint j i y hy hyi)
    · exact hx j (hyx ▸ hy)

theorem Family.popStart {xs : List α} (h : Family H L q) (hq : q i = x :: xs) :
    (popStart (L i) H).1 = some x ∧
    Family H (Function.update L i (popStart (L i) H).2) (Function.update q i xs) := by
  obtain ⟨hv, hr⟩ := popStart_cons (hq ▸ h.represents i)
  exact ⟨hv, h.update hr (fun y hy => Or.inl (by simp [hq, hy])) (fun _ _ _ _ => rfl)⟩

theorem Family.pop {xs : List α} (h : Family H L q) (hq : q i = xs ++ [x]) :
    (pop (L i) H).1 = some x ∧
    Family H (Function.update L i (pop (L i) H).2) (Function.update q i xs) := by
  obtain ⟨hv, hr⟩ := pop_concat (hq ▸ h.represents i)
  exact ⟨hv, h.update hr (fun y hy => Or.inl (by simp [hq, hy])) (fun _ _ _ _ => rfl)⟩

theorem Family.removeP (h : Family H L q) (hx : x ∈ q i) :
    Family (removeP x (L i) H).2 (Function.update L i (removeP x (L i) H).1)
      (Function.update q i ((q i).erase x)) := by
  obtain ⟨as, bs, -, hq, he⟩ := List.exists_erase_eq hx
  obtain ⟨hr, hH⟩ := removeP_represents (hq ▸ h.represents i)
  rw [he]
  refine h.update hr (fun y hy => Or.inl ?_) (fun j hj y hy => hH y fun hyi => hj ?_)
  · rw [hq]
    simp only [List.mem_append, List.mem_cons] at hy ⊢
    tauto
  · exact h.disjoint j i y hy (hq ▸ hyi)

end EpochKernel.Util.LinkedList
