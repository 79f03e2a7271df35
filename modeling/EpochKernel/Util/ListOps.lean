import EpochKernel.Util.LinkedList

/-! The operations of `linked_list` as its users call them, over the intrusive list itself and over
a mathematical sequence. A result `none` stands for a call that does not return. -/
namespace EpochKernel.Util

structure ListOps (σ α : Type*) where
  empty : σ
  len : σ → ℕ
  get : ℕ → σ → Option (Option α × σ)
  prepend : α → σ → σ
  append : α → σ → σ
  insert : ℕ → α → σ → Option σ
  remove : ℕ → σ → Option σ
  removeP : α → σ → σ

namespace ListOps
variable {α : Type*} [DecidableEq α]

/-- The list as it is, over a memory of link fields. -/
def linked (links : Links α) : ListOps (LinkedList α × Links α) α where
  empty := ({}, links)
  len s := s.1.len
  get i s := (s.1.get i s.2).map fun r => (r.1, r.2, s.2)
  prepend x s := s.1.prepend x s.2
  append x s := s.1.append x s.2
  insert i x s := (s.1.insert i x s.2).map fun r => r.2
  remove i s := (s.1.remove i s.2).map fun r => r.2
  removeP x s := s.1.removeP x s.2

/-- The list as its users understand it. -/
def sequence : ListOps (List α) α where
  empty := []
  len xs := xs.length
  get i xs := some (xs[i]?, xs)
  prepend x xs := x :: xs
  append x xs := xs ++ [x]
  insert i x xs := some (xs.insertIdx i x)
  remove i xs := some (xs.eraseIdx i)
  removeP x xs := xs.erase x

end ListOps
end EpochKernel.Util
