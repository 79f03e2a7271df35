import EpochKernel.Library.Run

/-! The handler slots of `int/int.cpp`. Slot 0 and the last slot are reserved; the search for a slot
in between looks at the last one before it tests the bound. -/
namespace EpochKernel.Interrupt
open Library

def maxHandlers : ℕ := 16

/-- `int_handler_type`. -/
inductive IntHandlerType
  | normal
  | first
  | reg
  deriving DecidableEq, Repr

/-- `int_handlers`: the slots of every vector, `none` for `NULL`. -/
abbrev Handlers (η : Type*) := UInt8 → ℕ → Option η

namespace Handlers
variable {η ρ : Type*}

/-- `int_handlers[vec][i] = handler`. -/
def store (h : Handlers η) (vec : UInt8) (i : ℕ) (handler : Option η) : Handlers η :=
  Function.update h vec (Function.update (h vec) i handler)

/-- The loop of `reg_int_handler` from the slot `i` on: the slot it stops at, or `some none` where it
returns false. -/
def searchLoop (slots : ℕ → Option η) : ℕ → ℕ → Option (Option ℕ)
  | 0, _ => none
  | fuel + 1, i =>
    if slots i = none then some (some i)
    else if maxHandlers - 1 ≤ i then some none
    else searchLoop slots fuel (i + 1)

/-- `reg_int_handler`. -/
def regIntHandler (vec : UInt8) (handler : Option η) (type : IntHandlerType) (h : Handlers η) :
    Option (Bool × Handlers η) :=
  match type with
  | .first =>
    if h vec 0 ≠ none then some (false, h)
    else some (true, h.store vec 0 handler)
  | .reg =>
    if h vec (maxHandlers - 1) ≠ none then some (false, h)
    else some (true, h.store vec (maxHandlers - 1) handler)
  | .normal =>
    match searchLoop (h vec) (maxHandlers - 1) 1 with
    | none => none
    | some none => some (false, h)
    | some (some i) => some (true, h.store vec i handler)

/-- `rem_int_handler`. -/
def remIntHandler [DecidableEq η] (vec : UInt8) (handler : Option η) (h : Handlers η) : Handlers η :=
  (List.range maxHandlers).foldl
    (fun h i => if h vec i = handler then h.store vec i none else h) h

/-- `c_int_handler` of a vector: the registers returned to the assembly code. `call` is what a
handler returns; what the handlers do besides is left out. -/
def cIntHandler (call : η → Option ρ) (h : Handlers η) (vec : UInt8) : Option ρ :=
  (List.range maxHandlers).foldl (fun out i =>
    match h vec i with
    | none => out
    | some handler => if i = maxHandlers - 1 then call handler else out) none

variable {h h' : Handlers η} {vec v : UInt8} {handler : Option η} {type : IntHandlerType} {i j : ℕ}

lemma store_apply : h.store vec i handler v j = if v = vec ∧ j = i then handler else h v j := by
  unfold store
  by_cases hv : v = vec
  · subst hv
    simp [Function.update_apply]
  · simp [hv]

/-- Only the value of the last slot is returned. -/
theorem cIntHandler_eq (call : η → Option ρ) :
    h.cIntHandler call vec = (h vec (maxHandlers - 1)).bind call := by
  have hinit (n : ℕ) (hn : n ≤ maxHandlers - 1) : (List.range n).foldl (fun out i =>
      match h vec i with
      | none => out
      | some handler => if i = maxHandlers - 1 then call handler else out) none = none := by
    induction n with
    | zero => rfl
    | succ n ih =>
      rw [List.range_succ, List.foldl_append, ih (by omega)]
      cases hs : h vec n with
      | none => simp [hs]
      | some f => simp [hs, show n ≠ maxHandlers - 1 by omega]
  have hrange : List.range maxHandlers = List.range (maxHandlers - 1) ++ [maxHandlers - 1] :=
    List.range_succ
  rw [cIntHandler, hrange, List.foldl_append, hinit _ le_rfl]
  cases hs : h vec (maxHandlers - 1) <;> simp [hs]

/-- The search stops at the first empty slot, or returns false after the last one. -/
lemma searchLoop_spec (slots : ℕ → Option η) (n : ℕ) (hi : i + n = maxHandlers - 1) :
    (∃ j, searchLoop slots (n + 1) i = some (some j) ∧ i ≤ j ∧ j ≤ maxHandlers - 1 ∧
      slots j = none ∧ ∀ k, i ≤ k → k < j → slots k ≠ none) ∨
    (searchLoop slots (n + 1) i = some none ∧
      ∀ k, i ≤ k → k ≤ maxHandlers - 1 → slots k ≠ none) := by
  induction n generalizing i with
  | zero =>
    by_cases hs : slots i = none
    · exact .inl ⟨i, by simp [searchLoop, hs], le_rfl, by omega, hs, by omega⟩
    · refine .inr ⟨by simp [searchLoop, hs, ← hi], fun k h1 h2 => ?_⟩
      rwa [show k = i by omega]
  | succ n ih =>
    by_cases hs : slots i = none
    · exact .inl ⟨i, by simp [searchLoop, hs], le_rfl, by omega, hs, by omega⟩
    have hrec : searchLoop slots (n + 1 + 1) i = searchLoop slots (n + 1) (i + 1) := by
      rw [searchLoop, if_neg hs, if_neg (by omega)]
    have hbefore (k : ℕ) (h1 : i ≤ k) (h2 : i + 1 ≤ k → slots k ≠ none) : slots k ≠ none := by
      rcases Nat.eq_or_lt_of_le h1 with rfl | hlt
      · exact hs
      · exact h2 hlt
    rw [hrec]
    rcases ih (i := i + 1) (by omega) with ⟨j, hj, hle, hmax, hnone, hfull⟩ | ⟨hj, hfull⟩
    · exact .inl ⟨j, hj, by omega, hmax, hnone, fun k h1 h2 => hbefore k h1 fun h3 => hfull k h3 h2⟩
    · exact .inr ⟨hj, fun k h1 h2 => hbefore k h1 fun h3 => hfull k h3 h2⟩

/-- The slots that a handler of a type may be stored in. -/
def Permitted : IntHandlerType → ℕ → Prop
  | .first, i => i = 0
  | .reg, i => i = maxHandlers - 1
  | .normal, i => 1 ≤ i ∧ i ≤ maxHandlers - 2

/-- `reg_int_handler` returns true exactly when it has stored the handler in a permitted slot that
was empty, and changes nothing else; it refuses a normal handler exactly when slots 1 to
`MAX_HANDLERS - 2` are full. -/
def Registers (h : Handlers η) (vec : UInt8) (handler : Option η) (type : IntHandlerType) : Prop :=
  ∃ b h', regIntHandler vec handler type h = some (b, h') ∧
    (b = true ↔ ∃ i, Permitted type i ∧ h vec i = none ∧ h' = h.store vec i handler) ∧
    (b = false → h' = h) ∧
    (type = .normal → (b = false ↔ ∀ i, 1 ≤ i → i ≤ maxHandlers - 2 → h vec i ≠ none))

/-- A normal handler finds a slot, or the last slot is full as well. -/
def Spares (h : Handlers η) (vec : UInt8) (type : IntHandlerType) : Prop :=
  type = .normal → (∀ i, 1 ≤ i → i ≤ maxHandlers - 2 → h vec i ≠ none) →
    h vec (maxHandlers - 1) ≠ none

/-- The two reserved slots. -/
lemma registers_reserved {k : ℕ} (hp : Permitted type = fun i => i = k) (htype : type ≠ .normal)
    (hreg : regIntHandler vec handler type h =
      if h vec k ≠ none then some (false, h) else some (true, h.store vec k handler)) :
    Registers h vec handler type := by
  by_cases hk : h vec k = none
  · refine ⟨true, h.store vec k handler, by simp [hreg, hk], ?_, nofun, fun ht => absurd ht htype⟩
    simp [hp, hk]
  · refine ⟨false, h, by simp [hreg, hk], ?_, fun _ => rfl, fun ht => absurd ht htype⟩
    simp [hp, hk]

/-- A call goes right exactly if it is not one of a normal handler to which the last slot alone is
left. -/
theorem registers_iff : Registers h vec handler type ↔ Spares h vec type := by
  cases type with
  | first =>
    have hp : Permitted .first = fun i => i = 0 := rfl
    exact iff_of_true (registers_reserved hp nofun rfl) nofun
  | reg =>
    have hp : Permitted .reg = fun i => i = maxHandlers - 1 := rfl
    exact iff_of_true (registers_reserved hp nofun rfl) nofun
  | normal =>
    rcases searchLoop_spec (h vec) (maxHandlers - 2) (i := 1) rfl with
      ⟨j, hj, hle, hlast, hnone, hbefore⟩ | ⟨hj, hfull⟩
    · have hreg : regIntHandler vec handler .normal h = some (true, h.store vec j handler) := by
        rw [regIntHandler, show maxHandlers - 1 = maxHandlers - 2 + 1 from rfl, hj]
      rcases Nat.eq_or_lt_of_le hlast with rfl | hlt
      · -- The loop has stopped at the last slot: the normal ones are full.
        have hnormal : ∀ i, 1 ≤ i → i ≤ maxHandlers - 2 → h vec i ≠ none :=
          fun i h1 h2 => hbefore i h1 (Nat.lt_succ_of_le h2)
        refine iff_of_false ?_ fun hs => hs rfl hnormal hnone
        rintro ⟨b, h', hr, -, -, hfalse⟩
        rw [hreg] at hr
        obtain ⟨rfl, rfl⟩ := Prod.mk.inj (Option.some.inj hr)
        cases (hfalse rfl).mpr hnormal
      · have hj2 : j ≤ maxHandlers - 2 := Nat.le_of_lt_succ hlt
        refine iff_of_true ⟨true, _, hreg, ?_, nofun, fun _ => ?_⟩ fun _ hnormal =>
          absurd hnone (hnormal j hle hj2)
        · exact iff_of_true rfl ⟨j, ⟨hle, hj2⟩, hnone, rfl⟩
        · exact iff_of_false nofun fun hnormal => hnormal j hle hj2 hnone
    · have hreg : regIntHandler vec handler .normal h = some (false, h) := by
        rw [regIntHandler, show maxHandlers - 1 = maxHandlers - 2 + 1 from rfl, hj]
      refine iff_of_true ⟨false, h, hreg, ?_, fun _ => rfl, fun _ => ?_⟩ fun _ _ =>
        hfull _ (by decide) le_rfl
      · refine iff_of_false nofun ?_
        rintro ⟨i, ⟨h1, h2⟩, hi, -⟩
        exact hfull i h1 (Nat.le_succ_of_le h2) hi
      · exact iff_of_true rfl fun i h1 h2 => hfull i h1 (Nat.le_succ_of_le h2)

/-- `rem_int_handler` only clears slots of its vector that hold the handler. -/
lemma remIntHandler_apply [DecidableEq η] :
    remIntHandler vec handler h v i =
      if v = vec ∧ i < maxHandlers ∧ h v i = handler then none else h v i := by
  have hloop (n : ℕ) : ∀ v i, (List.range n).foldl
      (fun h i => if h vec i = handler then h.store vec i none else h) h v i =
        if v = vec ∧ i < n ∧ h v i = handler then none else h v i := by
    induction n with
    | zero => simp
    | succ n ih =>
      intro v i
      rw [List.range_succ, List.foldl_append, List.foldl_cons, List.foldl_nil]
      generalize (List.range n).foldl
        (fun h i => if h vec i = handler then h.store vec i none else h) h = g at ih ⊢
      have hn : g vec n = h vec n := by simp [ih]
      by_cases hv : v = vec
      · subst hv
        rcases Nat.lt_trichotomy i n with hlt | rfl | hgt
        · by_cases hs : h v n = handler <;>
            simp [hn, hs, store_apply, ih, hlt, hlt.ne, Nat.lt_succ_of_lt hlt]
        · by_cases hs : h v i = handler <;> simp [hn, hs, store_apply]
        · by_cases hs : h v n = handler <;>
            simp [hn, hs, store_apply, ih, Nat.not_lt.mpr hgt.le, hgt.ne', Nat.not_lt.mpr hgt]
      · by_cases hs : h vec n = handler <;> simp [hn, hs, store_apply, ih, hv]
  exact hloop maxHandlers v i

end Handlers

/-- The slots beside the type with which each slot's handler was registered, which is not part of
the program. -/
structure Slots (η : Type*) where
  handlers : Handlers η := fun _ _ => none
  owner : UInt8 → ℕ → IntHandlerType := fun _ _ => .normal

/-- The calls, with any vector and any pointer. -/
inductive Call (η : Type*)
  | regIntHandler (vec : UInt8) (handler : Option η) (type : IntHandlerType)
  | remIntHandler (vec : UInt8) (handler : Option η)

namespace Slots
variable {η : Type*} [DecidableEq η]

/-- A call; the slots that it gives another handler belong to its type from then on. -/
def step : Machine (Slots η) (Call η)
  | s, .regIntHandler vec handler type =>
    (Handlers.regIntHandler vec handler type s.handlers).map fun r =>
      ⟨r.2, fun v i => if r.2 v i = s.handlers v i then s.owner v i else type⟩
  | s, .remIntHandler vec handler =>
    some { s with handlers := Handlers.remIntHandler vec handler s.handlers }

/-- Slot 0 of every vector holds a handler registered with type `first`, and the last slot one
registered with type `reg`, if they hold one at all. -/
def Reserved (s : Slots η) : Prop :=
  ∀ vec, (s.handlers vec 0 ≠ none → s.owner vec 0 = .first) ∧
    (s.handlers vec (maxHandlers - 1) ≠ none → s.owner vec (maxHandlers - 1) = .reg)

/-- `reg_int_handler` goes right. -/
def Registers (s : Slots η) : Call η → Prop
  | .regIntHandler vec handler type => s.handlers.Registers vec handler type
  | .remIntHandler _ _ => True

/-- The last slot is not the only one left for a normal handler. -/
def Spares (s : Slots η) : Call η → Prop
  | .regIntHandler vec _ type => s.handlers.Spares vec type
  | .remIntHandler _ _ => True

variable {s s' : Slots η} {c : Call η}

lemma Reserved.step (hs : s.Reserved) (hc : s.Spares c) (h : step s c = some s') : s'.Reserved := by
  cases c with
  | remIntHandler vec handler =>
    obtain rfl := Option.some.inj h
    -- A slot that is not empty after the call was not touched by it.
    have hkept (v : UInt8) (i : ℕ)
        (hne : Handlers.remIntHandler vec handler s.handlers v i ≠ none) : s.handlers v i ≠ none := by
      rw [Handlers.remIntHandler_apply] at hne
      split_ifs at hne
      · exact absurd rfl hne
      · exact hne
    exact fun v => ⟨fun hne => (hs v).1 (hkept v 0 hne), fun hne => (hs v).2 (hkept v _ hne)⟩
  | regIntHandler vec handler type =>
    obtain ⟨b, h', hreg, htrue, hfalse, -⟩ : Handlers.Registers s.handlers vec handler type :=
      Handlers.registers_iff.mpr hc
    rw [Slots.step, hreg] at h
    obtain rfl := Option.some.inj h
    have hslot (v : UInt8) (i : ℕ) (hne : h' v i ≠ s.handlers v i) : Handlers.Permitted type i := by
      cases b with
      | false => exact absurd (congrFun (congrFun (hfalse rfl) v) i) hne
      | true =>
        obtain ⟨j, hj, -, rfl⟩ := htrue.mp rfl
        rw [Handlers.store_apply] at hne
        split_ifs at hne with hat
        · rwa [hat.2]
        · exact absurd rfl hne
    intro v
    constructor
    · intro hne
      change (if h' v 0 = s.handlers v 0 then s.owner v 0 else type) = _
      split_ifs with hsame
      · exact (hs v).1 (hsame ▸ hne)
      · have hp := hslot v 0 hsame
        cases type with
        | first => rfl
        | reg => cases hp
        | normal => exact absurd hp.1 (by decide)
    · intro hne
      change (if h' v (maxHandlers - 1) = s.handlers v (maxHandlers - 1)
        then s.owner v (maxHandlers - 1) else type) = _
      split_ifs with hsame
      · exact (hs v).2 (hsame ▸ hne)
      · have hp := hslot v (maxHandlers - 1) hsame
        cases type with
        | first => cases hp
        | reg => rfl
        | normal => exact absurd hp.2 (by decide)

/-- In a run every call goes right, and the reserved slots are kept, exactly if no normal handler is
registered for a vector of which the last slot is the only one left. -/
theorem registers_iff_spares (calls : List (Call η)) :
    (Machine.Along step Registers {} calls ∧ Machine.Throughout step Reserved {} calls) ↔
      Machine.Along step Spares {} calls := by
  have hiff (s : Slots η) (c : Call η) : s.Registers c ↔ s.Spares c := by
    cases c with
    | regIntHandler vec handler type => exact Handlers.registers_iff
    | remIntHandler vec handler => exact Iff.rfl
  have hboot : Reserved ({} : Slots η) := fun vec => ⟨fun h => absurd rfl h, fun h => absurd rfl h⟩
  constructor
  · rintro ⟨hr, -⟩
    exact Machine.along_of_along (I := fun _ => True) (fun _ _ _ _ _ _ => trivial)
      (fun s c _ h => (hiff s c).mp h) trivial hr
  · intro hs
    refine ⟨Machine.along_of_along (I := fun _ => True) (fun _ _ _ _ _ _ => trivial)
      (fun s c _ h => (hiff s c).mpr h) trivial hs, ?_⟩
    exact Machine.throughout_of_along (fun s c s' h hc hstep => h.step hc hstep) hboot hs

/-- The fifteenth normal handler of a vector is put into the last slot. -/
theorem not_reserved_fifteen : ∃ s : Slots ℕ,
    Machine.run step {} ((List.range 15).map fun i => .regIntHandler 32 (some i) .normal) = some s ∧
      ¬ s.Reserved ∧ s.handlers.cIntHandler some 32 = some 14 := by
  have hrun : (Machine.run step ({} : Slots ℕ)
      ((List.range 15).map fun i => .regIntHandler 32 (some i) .normal)).any (fun s =>
        s.handlers 32 (maxHandlers - 1) = some 14 ∧ s.owner 32 (maxHandlers - 1) = .normal ∧
          s.handlers.cIntHandler some 32 = some 14) = true := by
    decide +kernel
  obtain ⟨s, hs, hslot⟩ := (Option.any_eq_true _ _).mp hrun
  obtain ⟨hfull, howner, hout⟩ := of_decide_eq_true hslot
  refine ⟨s, hs, fun h => ?_, hout⟩
  have := (h 32).2 (by rw [hfull]; nofun)
  rw [howner] at this
  cases this

end Slots
end EpochKernel.Interrupt
