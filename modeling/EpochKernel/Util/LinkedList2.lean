import EpochKernel.Util.Cursor

/-! The list of `util/linked_list2.hpp`: an intrusive list of nodes from the kernel heap, each
holding an item. An item can be listed several times. -/
namespace EpochKernel.Util
open LinkedList

structure LinkedList2 (α τ : Type*) where
  list : LinkedList α := {}
  links : Links α
  item : α → τ

namespace LinkedList2
variable {α τ : Type*} (l : LinkedList2 α τ)

/-- The items in order, read off by walking from `start`. -/
def items : List τ := (nodes l.links l.list).map l.item

def get (i : ℕ) : Option (Option τ × LinkedList2 α τ) :=
  (l.list.get i l.links).map fun r => (r.1.map l.item, { l with list := r.2 })

/-- The nodes of the list are `xs` and its cursor is coherent. -/
structure Shows (l : LinkedList2 α τ) (xs : List α) : Prop where
  represents : Represents l.links l.list xs
  coherent : l.list.Coherent xs

variable {l} {xs : List α}

lemma shows_init (links : Links α) (item : α → τ) : Shows ⟨{}, links, item⟩ [] :=
  ⟨represents_empty links, Or.inl rfl⟩

lemma Shows.items_eq (h : l.Shows xs) : l.items = xs.map l.item := by
  rw [items, h.represents.nodes_eq]

/-- Up to 2^31 entries a read finds the item and leaves the cursor on its node. -/
lemma Shows.get (h : l.Shows xs) (hshort : l.list.len ≤ 2 ^ 31) {i : ℕ} (hi : i < xs.length) :
    ∃ l', l.get i = some (some (l.item xs[i]), l') ∧ l'.Shows xs ∧ l'.item = l.item ∧
      l'.list.current = some xs[i] ∧ l'.list.currentI = i ∧ l'.list.len = l.list.len := by
  have hlen := h.represents.len_eq
  have hst := h.coherent.straight hlen (by omega) (hlen ▸ hi)
  have hget := get_coherent h.represents (by omega) h.coherent hi hst
  rw [List.getElem?_eq_getElem hi] at hget
  have heq : l.get i = some (some (l.item xs[i]),
      { l with list := { l.list with current := some xs[i], currentI := i } }) := by
    rw [LinkedList2.get, hget]
    rfl
  refine ⟨_, heq, ⟨h.represents.of_fields rfl rfl rfl, Or.inr ?_⟩, rfl, rfl, rfl, rfl⟩
  exact (List.getElem?_eq_getElem hi).symm

variable [DecidableEq α]

/-- `append`, for the node returned by `new`. -/
def append (l : LinkedList2 α τ) (x : τ) : Option α → Bool × LinkedList2 α τ
  | none => (false, l)
  | some node =>
    (true, ⟨(l.list.append node l.links).1, (l.list.append node l.links).2,
      Function.update l.item node x⟩)

def remove (l : LinkedList2 α τ) (i : ℕ) : Option (LinkedList2 α τ) :=
  (l.list.remove i l.links).map fun r => { l with list := r.2.1, links := r.2.2 }

lemma Shows.append (h : l.Shows xs) {node : α} (hn : node ∉ xs) (x : τ) :
    (l.append x (some node)).2.Shows (xs ++ [node]) ∧
    (l.append x (some node)).2.items = l.items ++ [x] := by
  have hs : (l.append x (some node)).2.Shows (xs ++ [node]) :=
    ⟨append_represents h.represents hn, h.coherent.append⟩
  refine ⟨hs, ?_⟩
  rw [hs.items_eq, h.items_eq, List.map_append]
  change xs.map (Function.update l.item node x) ++ [Function.update l.item node x node] = _
  rw [Function.update_self]
  congr 1
  refine List.map_congr_left fun y hy => Function.update_of_ne ?_ _ _
  rintro rfl
  exact hn hy

/-- Removing the node just read. -/
lemma Shows.remove {as bs : List α} {node : α} (h : l.Shows (as ++ node :: bs))
    (hc : l.list.current = some node) (hi : l.list.currentI = as.length) :
    ∃ l', l.remove as.length = some l' ∧ l'.Shows (as ++ bs) ∧ l'.item = l.item := by
  obtain ⟨l', H', hrem, hr, hco, -⟩ := remove_coherent h.represents hc hi
  have heq : l.remove as.length = some { l with list := l', links := H' } := by
    rw [LinkedList2.remove, hrem]
    rfl
  exact ⟨_, heq, ⟨hr, hco⟩, rfl⟩

end LinkedList2
end EpochKernel.Util
