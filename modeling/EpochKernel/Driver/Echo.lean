import EpochKernel.Driver.Console
import EpochKernel.Driver.Ps2
import EpochKernel.Interrupt.Handlers

/-! The keyboard interrupt as `init` sets it up. The screen shows what is typed: every scan code is
interpreted in the interrupt that brings it, and its character is on the screen at the end of it. -/
namespace EpochKernel.Interrupt

/-- `make_irq_handler` without the message to the interrupt controller. -/
def Handlers.irqHandler {η σ : Type*} (call : η → σ → Option σ) (h : Handlers η) (vec : UInt8) (s : σ) :
    Option σ :=
  (List.range maxHandlers).foldlM (fun s i => (h vec i).elim (some s) fun handler => call handler s) s

end EpochKernel.Interrupt

namespace EpochKernel.Driver
open Library Util Interrupt

def irqKeyboard : UInt8 := 33

namespace Ps2

/-- The loop of `kbd_read` until it returns. -/
def finish : ℕ → Ps2 → Option (Ps2 × KbdRead)
  | 0, _ => none
  | fuel + 1, s =>
    match s.call with
    | some call => finish fuel (s.pass call)
    | none => s.returned.map (s, ·)

/-- `kbd_read`. No interrupt comes between, so it passes over each entry of the buffer once. -/
def kbdRead (s : Ps2) (n : UInt8) : Option (Ps2 × KbdRead) :=
  (s.step (.kbdRead n)).bind (finish (scanBufSize + 2))

end Ps2

/-- The handlers of the keyboard interrupt. -/
inductive KeyboardHandler
  | ps2IntHandler
  | kbdP

/-- The driver, the screen, what the port `PS2_DATA` gives and, for the specification, what the calls of
`kbd_read` have written. -/
structure Keyboard where
  ps2 : Ps2 := {}
  console : Console
  port : UInt8 := 0
  read : List (List UInt8) := []

namespace Keyboard

/-- `"%s"`. -/
def format : CString := ⟨[0x25, 0x73], by simp⟩

/-- `kbd_p`. -/
def kbdP (s : Keyboard) : Option Keyboard :=
  (s.ps2.kbdRead 32).bind fun r =>
    let s := { s with ps2 := r.1, read := s.read ++ [r.2.buf] }
    if r.2.c = 0 then some s
    else if r.2.c < 32 then
      let buf := r.2.buf ++ List.replicate (32 - r.2.buf.length) 0
      (s.console.kprintf ⟨format, [.str (CString.ofBuffer buf)], fun _ => 0⟩).map fun console =>
        { s with console := console }
    -- the characters fill the array, which has no NUL then
    else none

def call : KeyboardHandler → Keyboard → Option Keyboard
  | .ps2IntHandler, s => some { s with ps2 := s.ps2.ps2IntHandler s.port }
  | .kbdP, s => s.kbdP

/-- The calls of `reg_int_handler` for the keyboard: the one of `kbd_init`, and the one of `init`. -/
def handlers : Option (Handlers KeyboardHandler) :=
  (Handlers.regIntHandler irqKeyboard (some .ps2IntHandler) .first fun _ _ => none).bind fun r =>
    (Handlers.regIntHandler irqKeyboard (some .kbdP) .normal r.2).map Prod.snd

/-- An interrupt that brings a scan code. -/
def step : Machine Keyboard UInt8 := fun s code =>
  handlers.bind fun h => h.irqHandler call irqKeyboard { s with port := code }

end Keyboard

namespace KbdStatus

/-- The character of a scan code, if it has one. -/
def text (k : KbdStatus) (code : UInt8) : List UInt8 :=
  if k.scanToc code = 0 then [] else [k.scanToc code]

def after (k : KbdStatus) (code : UInt8) : KbdStatus :=
  if k.scanToc code = 0 then k.update code else k

end KbdStatus

/-- What a keyboard with the status `k` types with the scan codes. -/
def typed : KbdStatus → List UInt8 → List UInt8
  | _, [] => []
  | k, code :: codes => k.text code ++ typed (k.after code) codes

/-- What each of the scan codes types. -/
def typedEach : KbdStatus → List UInt8 → List (List UInt8)
  | _, [] => []
  | k, code :: codes => k.text code :: typedEach (k.after code) codes

section Codes
variable {k : KbdStatus} {c : UInt8}

/-- No key gives a code of the terminal. -/
lemma scanToc_plain (k : KbdStatus) (scan : UInt8) : Plain [k.scanToc scan] := by
  have hall : ∀ (shift capslock numlock : Bool) (i : Fin 256),
      let c := KbdStatus.scanToc ⟨if shift then 1 else 0, capslock, numlock⟩ (UInt8.ofNat i.val)
      c ≠ 1 ∧ c ≠ 2 := by decide +kernel
  have h := hall (k.shift ≠ 0) k.capslock k.numlock ⟨scan.toNat, scan.toNat_lt⟩
  rw [UInt8.ofNat_toNat] at h
  -- only whether a shift key is held matters
  have hshift : KbdStatus.scanToc ⟨if decide (k.shift ≠ 0) then 1 else 0, k.capslock, k.numlock⟩ scan =
      k.scanToc scan := by
    unfold KbdStatus.scanToc
    by_cases hs : k.shift = 0 <;> simp [hs]
  rw [hshift] at h
  exact h

lemma typed_append (k : KbdStatus) (a b : List UInt8) :
    typed k (a ++ b) = typed k a ++ typed (a.foldl KbdStatus.after k) b := by
  induction a generalizing k with
  | nil => rfl
  | cons code a ih =>
    rw [List.cons_append, typed, ih, typed, List.append_assoc]
    rfl

/-- The zeros of the buffer at boot type nothing. -/
lemma typed_zeros (n : ℕ) :
    typed {} (List.replicate n 0) = [] ∧ (List.replicate n 0).foldl KbdStatus.after {} = {} := by
  have htext : KbdStatus.text {} 0 = [] := by decide
  have hafter : KbdStatus.after {} 0 = {} := rfl
  induction n with
  | zero => exact ⟨rfl, rfl⟩
  | succ n ih =>
    rw [List.replicate_succ, typed, List.foldl_cons, htext, hafter]
    exact ih

end Codes

namespace Ps2
variable {s : Ps2} {call : KbdRead} {r m : ℕ}

/-- The entries of the buffer that are read from the position `r` on. -/
def entries (buf : ℕ → UInt8) : ℕ → ℕ → List UInt8
  | _, 0 => []
  | r, m + 1 => buf (r % 32) :: entries buf (r + 1) m

/-- The driver after a pass over a code that has not been consumed. -/
def taken (s : Ps2) : Ps2 :=
  let code := s.scancodeBuf s.readI.toNat
  { s with kbdStatus := s.kbdStatus.after code, interpreted := s.interpreted ++ [code] }

/-- The call after it. -/
def grown (s : Ps2) (call : KbdRead) : KbdRead :=
  let text := s.kbdStatus.text (s.scancodeBuf s.readI.toNat)
  { call with c := call.c + UInt8.ofNat text.length, buf := call.buf ++ text }

lemma interpret_new (hf : s.f = true) : s.interpret call = (s.taken, s.grown call) := by
  rw [interpret, taken, grown, KbdStatus.after, KbdStatus.text]
  by_cases ht : s.kbdStatus.scanToc (s.scancodeBuf s.readI.toNat) = 0
  · have hsame : call.c + UInt8.ofNat ([] : List UInt8).length = call.c := add_zero _
    simp only [ht, hf, and_self, if_true, hsame, List.append_nil]
  · simp only [ht, hf, false_and, if_false, if_true]
    rfl

/-- A character more is counted. -/
lemma count_grown (s : Ps2) (hroom : call.c.toNat < 32) (hcount : call.buf.length = call.c.toNat) :
    (s.grown call).buf.length = (s.grown call).c.toNat ∧
      (s.grown call).c.toNat ≤ call.c.toNat + 1 := by
  have htext : (s.kbdStatus.text (s.scancodeBuf s.readI.toNat)).length ≤ 1 := by
    rw [KbdStatus.text]
    split_ifs <;> simp
  simp only [grown, List.length_append, UInt8.toNat_add, UInt8.toNat_ofNat']
  omega

lemma wrap_eq_iff (a b : UInt8) :
    wrap (a.toNat + 1) 0 (scanBufSize - 1) = b.toNat ↔ b.toNat = (a.toNat + 1) % 32 := by
  have hw := wrap_eq (a.toNat + 1)
  rw [Nat.cast_add, Nat.cast_one] at hw
  rw [hw, Nat.cast_inj]
  exact eq_comm

lemma next_index {a : UInt8} (h : a.toNat = r % 32) :
    (if a + 1 = UInt8.ofNat scanBufSize then 0 else a + 1).toNat = (r + 1) % 32 := by
  have hnext : (a + 1).toNat = r % 32 + 1 := by
    rw [UInt8.toNat_add, h]
    change (r % 32 + 1) % 256 = _
    omega
  split_ifs with hw
  · rw [hw] at hnext
    change 32 = _ at hnext
    change 0 = _
    omega
  · have hw' : r % 32 + 1 ≠ 32 := fun hw' => hw (UInt8.toNat_inj.mp (hnext.trans hw'))
    rw [hnext]
    omega

/-- A call that has not returned, at the position `r` with `m` more behind it. -/
structure Reads (s : Ps2) (call : KbdRead) (r m : ℕ) : Prop where
  active : s.call = some call
  new : s.f = true
  read : s.readI.toNat = r % 32
  last : s.scanI.toNat = (r + m + 1) % 32
  few : m < 32
  size : call.n = 32
  room : call.c.toNat + m < 32
  count : call.buf.length = call.c.toNat

/-- What a call has left behind, for the entries `codes` that it has read. -/
structure Done (s : Ps2) (call : KbdRead) (codes : List UInt8) (s' : Ps2) (call' : KbdRead) :
    Prop where
  idle : s'.call = none
  old : s'.f = false
  read : s'.readI.toNat < 32
  last : s'.scanI.toNat = (s'.readI.toNat + 1) % 32
  scan : s'.scanI = s.scanI
  buffer : s'.scancodeBuf = s.scancodeBuf
  status : s'.kbdStatus = codes.foldl KbdStatus.after s.kbdStatus
  text : call'.buf = call.buf ++ typed s.kbdStatus codes
  count : call'.buf.length = call'.c.toNat

lemma Reads.unfinished (h : s.Reads call r m) : call.c ≠ call.n := by
  have hroom := h.room
  rw [h.size]
  intro hc
  rw [hc] at hroom
  exact absurd hroom (by simp)

/-- The pass that meets `scan_i` returns. -/
lemma Reads.pass_last (h : s.Reads call r 0) :
    s.pass call = { s.taken with f := false }.ret (s.grown call) := by
  have hmeet : wrap (s.readI.toNat + 1) 0 (scanBufSize - 1) = s.scanI.toNat := by
    have hread := h.read
    have hlast := h.last
    rw [wrap_eq_iff]
    omega
  rw [pass, if_neg h.unfinished, interpret_new h.new]
  exact if_pos hmeet

/-- Any other pass goes on with the next entry. -/
lemma Reads.pass_next (h : s.Reads call r (m + 1)) :
    (s.pass call).Reads (s.grown call) (r + 1) m ∧ (s.pass call).scancodeBuf = s.scancodeBuf ∧
      (s.pass call).scanI = s.scanI ∧ (s.pass call).kbdStatus = s.taken.kbdStatus := by
  have hroom := h.room
  have hread := h.read
  have hlast := h.last
  have hfew := h.few
  obtain ⟨hcount, hle⟩ := s.count_grown (by omega) h.count
  have hmeet : ¬ wrap (s.readI.toNat + 1) 0 (scanBufSize - 1) = s.scanI.toNat := by
    rw [wrap_eq_iff]
    omega
  have hp : s.pass call = { s.taken with
      readI := if s.readI + 1 = UInt8.ofNat scanBufSize then 0 else s.readI + 1
      f := true
      call := some (s.grown call)
      passes := s.passes + 1 } := by
    rw [pass, if_neg h.unfinished, interpret_new h.new]
    exact if_neg hmeet
  rw [hp]
  refine ⟨⟨rfl, rfl, next_index hread, ?_, by omega, h.size, by omega, hcount⟩, rfl, rfl, rfl⟩
  exact hlast.trans (by rw [Nat.add_right_comm r 1 m, Nat.add_assoc r m 1])

lemma finish_reads (h : s.Reads call r m) {fuel : ℕ} (hfuel : m + 2 ≤ fuel) :
    ∃ s' call', finish fuel s = some (s', call') ∧
      Done s call (entries s.scancodeBuf r (m + 1)) s' call' := by
  induction m generalizing s call r fuel with
  | zero =>
    obtain ⟨fuel, rfl⟩ := Nat.exists_eq_add_of_le' hfuel
    have hroom := h.room
    have hread := h.read
    have hlast := h.last
    obtain ⟨hcount, -⟩ := s.count_grown hroom h.count
    refine ⟨{ s.taken with f := false }.ret (s.grown call), s.grown call, ?_, rfl, rfl, ?_, ?_, rfl,
      rfl, ?_, ?_, hcount⟩
    · rw [finish, h.active]
      show finish (fuel + 1) (s.pass call) = _
      rw [h.pass_last]
      rfl
    · change s.readI.toNat < 32
      omega
    · change s.scanI.toNat = (s.readI.toNat + 1) % 32
      omega
    · change s.kbdStatus.after (s.scancodeBuf s.readI.toNat) = _
      rw [hread]
      rfl
    · change call.buf ++ s.kbdStatus.text (s.scancodeBuf s.readI.toNat) = _
      rw [hread, entries, entries, typed, typed, List.append_nil]
  | succ m ih =>
    obtain ⟨fuel, rfl⟩ := Nat.exists_eq_add_of_le' hfuel
    have hread := h.read
    obtain ⟨hnext, hbuf, hscan, hstatus⟩ := h.pass_next
    have hleft : m + 2 ≤ fuel + (m + 2) := Nat.le_add_left _ _
    obtain ⟨s', call', hfinish, hdone⟩ := ih hnext hleft
    rw [hbuf] at hdone
    have hs : (s.pass call).kbdStatus = s.kbdStatus.after (s.scancodeBuf (r % 32)) := by
      rw [hstatus, ← hread]
      rfl
    refine ⟨s', call', ?_, hdone.idle, hdone.old, hdone.read, hdone.last,
      hdone.scan.trans hscan, hdone.buffer.trans hbuf, ?_, ?_, hdone.count⟩
    · rw [← hfinish, ← Nat.add_assoc, finish, h.active]
      rfl
    · rw [hdone.status, hs]
      rfl
    · have hentries : entries s.scancodeBuf r (m + 1 + 1) =
          s.scancodeBuf (r % 32) :: entries s.scancodeBuf (r + 1) (m + 1) := rfl
      rw [hdone.text, hs, hentries, typed, ← List.append_assoc, ← hread]
      rfl

/-- The driver between two interrupts: as at boot, or with everything consumed. -/
def Waits (s : Ps2) (k : KbdStatus) : Prop :=
  (s = {} ∧ k = {}) ∨
    (s.call = none ∧ s.f = false ∧ s.readI.toNat < 32 ∧ s.scanI.toNat = (s.readI.toNat + 1) % 32 ∧
      s.kbdStatus = k)

lemma Done.waits {codes : List UInt8} {s' : Ps2} {call' : KbdRead} (h : Done s call codes s' call') :
    s'.Waits (codes.foldl KbdStatus.after s.kbdStatus) :=
  .inr ⟨h.idle, h.old, h.read, h.last, h.status⟩

lemma entries_zero {buf : ℕ → UInt8} {n : ℕ} (h : ∀ p, r ≤ p → p < r + m → buf (p % 32) = 0) :
    entries buf r (m + n) = List.replicate m 0 ++ entries buf (r + m) n := by
  induction m generalizing r with
  | zero => rw [Nat.zero_add]; rfl
  | succ m ih =>
    rw [Nat.add_right_comm, entries, h r le_rfl (by omega), ih fun p hp hlt => h p (by omega) (by omega),
      List.replicate_succ, Nat.add_right_comm r 1 m]
    rfl

/-- A call of `kbd_p` that has just begun. -/
def begun (s : Ps2) : Ps2 := { s with call := some { n := 32 }, passes := 0, during := 0 }

lemma kbdRead_begun (h : s.call = none) : s.kbdRead 32 = finish (scanBufSize + 2) s.begun := by
  rw [kbdRead, step, if_pos h, Option.bind_some]
  rfl

/-- A pass over a code that has been consumed goes on to the one behind it. -/
lemma pass_old (hf : s.f = false) (hn : call.c ≠ call.n) (hread : s.readI.toNat = r % 32)
    (hlast : s.scanI.toNat = (r + 2) % 32) :
    s.pass call = { s with
      readI := if s.readI + 1 = UInt8.ofNat scanBufSize then 0 else s.readI + 1
      f := true
      call := some call
      passes := s.passes + 1 } := by
  have hold : s.interpret call = (s, call) := by
    simp [interpret, hf]
  have hmeet : ¬ wrap (s.readI.toNat + 1) 0 (scanBufSize - 1) = s.scanI.toNat := by
    rw [wrap_eq_iff]
    omega
  rw [pass, if_neg hn, hold]
  exact if_neg hmeet

/-- What `kbd_p` reads in the interrupt that brings a code is this code. -/
lemma Waits.reads {k : KbdStatus} (h : s.Waits k) (code : UInt8) :
    ∃ s' call', (s.ps2IntHandler code).kbdRead 32 = some (s', call') ∧ s'.Waits (k.after code) ∧
      call'.buf = k.text code ∧ call'.buf.length = call'.c.toNat := by
  rcases h with ⟨rfl, rfl⟩ | ⟨hidle, hold, hread, hlast, rfl⟩
  · -- the first code lies behind the zeros of the buffer
    have hreads : (({} : Ps2).ps2IntHandler code).begun.Reads { n := 32 } 1 31 :=
      ⟨rfl, rfl, rfl, rfl, by decide, rfl, by decide, rfl⟩
    have hentries : entries (({} : Ps2).ps2IntHandler code).begun.scancodeBuf 1 (31 + 1) =
        List.replicate 31 0 ++ [code] := by
      rw [entries_zero]
      · rfl
      · intro p hp hlt
        have hne : p % 32 ≠ 0 := by omega
        exact Function.update_of_ne hne _ _
    have hfuel : 31 + 2 ≤ scanBufSize + 2 := by decide
    obtain ⟨s', call', hfinish, hdone⟩ := finish_reads hreads hfuel
    rw [hentries] at hdone
    obtain ⟨htyped, hstatus⟩ := typed_zeros 31
    refine ⟨s', call', ?_, ?_, ?_, hdone.count⟩
    · rw [kbdRead_begun rfl]
      exact hfinish
    · have hw := hdone.waits
      rw [List.foldl_append] at hw
      change s'.Waits (([code] : List UInt8).foldl KbdStatus.after
        ((List.replicate 31 0).foldl KbdStatus.after {})) at hw
      rw [hstatus] at hw
      exact hw
    · rw [hdone.text, typed_append]
      change [] ++ (typed {} (List.replicate 31 0) ++
        typed ((List.replicate 31 0).foldl KbdStatus.after {}) [code]) = _
      rw [htyped, hstatus, typed, typed, List.append_nil]
      rfl
  · -- the code before it has been consumed
    have hr : s.readI.toNat % 32 = s.readI.toNat := Nat.mod_eq_of_lt hread
    have hne : s.scanI ≠ s.readI := by
      rw [Ne, ← UInt8.toNat_inj, hlast]
      omega
    have hscan : (s.scanI + 1).toNat = (s.readI.toNat + 1) % 32 + 1 := by
      rw [UInt8.toNat_add, hlast]
      change ((s.readI.toNat + 1) % 32 + 1) % 256 = _
      omega
    have hs : (s.ps2IntHandler code).scanI.toNat = (s.readI.toNat + 2) % 32 ∧
        (s.ps2IntHandler code).readI.toNat = s.readI.toNat % 32 := by
      simp only [ps2IntHandler, hne, if_false, wrap_eq, Int.toNat_natCast, toNat_ofNat_mod, and_true]
      rw [hscan, Nat.mod_add_mod]
    have hn : ({ n := 32 } : KbdRead).c ≠ 32 := by simp
    have hpass := pass_old (s := (s.ps2IntHandler code).begun) hold hn hs.2 hs.1
    have hreads : ((s.ps2IntHandler code).begun.pass { n := 32 }).Reads { n := 32 }
        (s.readI.toNat + 1) 0 := by
      rw [hpass]
      exact ⟨rfl, rfl, next_index hs.2, hs.1, by decide, rfl, by decide, rfl⟩
    have hfuel : 0 + 2 ≤ scanBufSize + 1 := by decide
    obtain ⟨s', call', hfinish, hdone⟩ := finish_reads hreads hfuel
    have hcode : entries ((s.ps2IntHandler code).begun.pass { n := 32 }).scancodeBuf
        (s.readI.toNat + 1) (0 + 1) = [code] := by
      rw [hpass, entries, entries, ← hlast]
      exact congrArg (· :: []) (Function.update_self _ _ _)
    have hstatus : ((s.ps2IntHandler code).begun.pass { n := 32 }).kbdStatus = s.kbdStatus := by
      rw [hpass]
      rfl
    rw [hcode] at hdone
    refine ⟨s', call', ?_, ?_, ?_, hdone.count⟩
    · have hbegun := kbdRead_begun (s := s.ps2IntHandler code) hidle
      exact hbegun.trans hfinish
    · rw [← hstatus]
      exact hdone.waits
    · rw [hdone.text, hstatus, typed, typed, List.append_nil]
      rfl

end Ps2

namespace Keyboard
variable {T : Terminal} {s : Keyboard} {k : KbdStatus} {out : List UInt8}

/-- The handlers that are registered. -/
def registered : Handlers KeyboardHandler :=
  Handlers.store (Handlers.store (fun _ _ => none) irqKeyboard 0 (some .ps2IntHandler)) irqKeyboard 1
    (some .kbdP)

/-- They run one after the other. -/
lemma step_eq (s : Keyboard) (code : UInt8) :
    step s code = kbdP { s with ps2 := s.ps2.ps2IntHandler code, port := code } := by
  have hhandlers : handlers = some registered := rfl
  have hrange : List.range maxHandlers = 0 :: 1 :: (List.range 14).map (· + 2) := rfl
  have hrest (t : Keyboard) : ((List.range 14).map (· + 2)).foldlM (fun s i =>
      (registered irqKeyboard i).elim (some s) fun handler => call handler s) t = some t := rfl
  have hfirst : registered irqKeyboard 0 = some .ps2IntHandler := rfl
  have hsecond : registered irqKeyboard 1 = some .kbdP := rfl
  rw [step, hhandlers, Option.bind_some, Handlers.irqHandler, hrange, List.foldlM_cons, hfirst,
    Option.elim_some, call, Option.bind_eq_bind, Option.bind_some, List.foldlM_cons, hsecond,
    Option.elim_some, call, funext hrest]
  exact bind_pure _

lemma kbdP_eq {t : Keyboard} {ps2 : Ps2} {call : KbdRead} (h : t.ps2.kbdRead 32 = some (ps2, call)) :
    t.kbdP = if call.c = 0 then some { t with ps2 := ps2, read := t.read ++ [call.buf] }
      else if call.c < 32 then
        (t.console.kprintf ⟨format, [.str (CString.ofBuffer
          (call.buf ++ List.replicate (32 - call.buf.length) 0))], fun _ => 0⟩).map fun console =>
            { t with ps2 := ps2, read := t.read ++ [call.buf], console := console }
      else none := by
  rw [kbdP, h]
  rfl

/-- One interrupt reads its character and types it. -/
lemma step_typed (hwaits : s.ps2.Waits k) (h : Typed T out s.console) (code : UInt8) :
    ∃ s', step s code = some s' ∧ s'.ps2.Waits (k.after code) ∧
      Typed T (out ++ k.text code) s'.console ∧ s'.read = s.read ++ [k.text code] := by
  obtain ⟨ps2, call, hread, hnext, htext, hcount⟩ := hwaits.reads code
  rw [step_eq, kbdP_eq hread]
  by_cases hc : k.scanToc code = 0
  · have hempty : k.text code = [] := if_pos hc
    rw [hempty] at htext ⊢
    rw [htext] at hcount ⊢
    rw [if_pos (UInt8.toNat_inj.mp hcount.symm), List.append_nil]
    exact ⟨_, rfl, hnext, h, rfl⟩
  · have hone : k.text code = [k.scanToc code] := if_neg hc
    rw [hone] at htext
    rw [htext] at hcount ⊢
    have hcall : call.c = 1 := UInt8.toNat_inj.mp hcount.symm
    have hbuf : (CString.ofBuffer ([k.scanToc code] ++
        List.replicate (32 - [k.scanToc code].length) 0)).chars = [k.scanToc code] :=
      Util.puts_append (List.forall_mem_singleton.mpr hc) (List.replicate 30 0)
    generalize CString.ofBuffer ([k.scanToc code] ++
      List.replicate (32 - [k.scanToc code].length) 0) = str at hbuf ⊢
    have hprintable : Printable format.chars [.str str] := by
      have hplain : Plain str.chars := by
        rw [hbuf]
        exact scanToc_plain k code
      simp [format, Printable, percent, Supported, screenText, argText, hplain]
    have hclean : Clean format.chars := by simp [format, Clean, percent, Supported]
    have hdraw : draw format.chars [.str str] = some [k.scanToc code] := by
      simp [format, draw, percent, Supported, screenText, argText, hbuf]
    obtain ⟨console, hconsole, hshown⟩ := h.kprintf (p := ⟨format, [.str str], fun _ => 0⟩) hclean
      hprintable hdraw
    rw [if_neg (by simp [hcall]), if_pos (by simp [hcall]), hconsole, hone]
    exact ⟨_, rfl, hnext, hshown, rfl⟩

lemma run_typed (codes : List UInt8) (hwaits : s.ps2.Waits k) (h : Typed T out s.console) :
    ∃ s', Machine.run step s codes = some s' ∧ Typed T (out ++ typed k codes) s'.console ∧
      s'.read = s.read ++ typedEach k codes := by
  induction codes generalizing s k out with
  | nil =>
    rw [typed, typedEach, List.append_nil, List.append_nil]
    exact ⟨s, rfl, h, rfl⟩
  | cons code codes ih =>
    obtain ⟨s1, hs1, hnext, h1, hread1⟩ := step_typed hwaits h code
    obtain ⟨s2, hs2, h2, hread2⟩ := ih hnext h1
    rw [hread1, List.append_assoc] at hread2
    rw [typed, ← List.append_assoc, Machine.run_cons, hs1]
    exact ⟨s2, hs2, h2, hread2⟩

/-- After any text that `kprintf` has shown since `vga_clear`, and whatever scan codes the interrupts
bring: no call overruns a buffer or reads behind a string, each call of `kbd_read` gives the character of
the code that has arrived, and the screen shows the text that the codes type. -/
theorem echoes (v : Vga) (prints : List Print) (texts : List (List UInt8))
    (hclean : ∀ p ∈ prints, Clean p.format.chars) (hp : ∀ p ∈ prints, Printable p.format.chars p.list)
    (ht : List.Forall₂ (fun p text => draw p.format.chars p.list = some text) prints texts)
    (codes : List UInt8) :
    ∃ c s', Machine.run Console.kprintf (Console.cleared v) prints = some c ∧
      Machine.run step { console := c } codes = some s' ∧
      Shows ((Terminal.empty v.vgaColor).append (texts.flatten ++ typed {} codes)) s'.console.vga ∧
      s'.console.Within ∧ s'.read = typedEach {} codes := by
  obtain ⟨c, hc, hshown⟩ := (typed_cleared v).kprintfs hclean hp ht
  obtain ⟨s', hrun, h, hread⟩ := run_typed codes (s := { console := c }) (.inl ⟨rfl, rfl⟩) hshown
  exact ⟨c, s', hc, hrun, h.shows, h.within, hread⟩

/-- `kprintf ("hi ")`. -/
def hi : Print where
  format := ⟨[0x68, 0x69, 0x20], by simp⟩
  list := []
  behind _ := 0

/-- The left shift key and `a`. -/
def shiftA : List UInt8 := [0x2a, 0x1e]

theorem echoes_hi : ∃ c s', Machine.run Console.kprintf (Console.cleared Vga.initial) [hi] = some c ∧
    Machine.run step { console := c } shiftA = some s' ∧
    Shows ((Terminal.empty 0x0f).append ([0x68, 0x69, 0x20] ++ typed {} shiftA)) s'.console.vga ∧
    s'.console.Within ∧ s'.read = [[], [0x41]] := by
  have hread : typedEach {} shiftA = [[], [0x41]] := by decide
  rw [← hread]
  refine echoes Vga.initial [hi] [[0x68, 0x69, 0x20]] ?_ ?_ ?_ shiftA
  · intro p hp
    obtain rfl := List.mem_singleton.mp hp
    simp [hi, Clean, percent]
  · intro p hp
    obtain rfl := List.mem_singleton.mp hp
    simp [hi, Printable, percent, Plain, ttySetColor, ttySetPosition]
  · refine List.Forall₂.cons ?_ List.Forall₂.nil
    simp [hi, draw, percent]

end Keyboard

end EpochKernel.Driver
