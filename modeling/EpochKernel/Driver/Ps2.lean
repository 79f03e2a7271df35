import EpochKernel.Library.LossyLog
import EpochKernel.Library.Run

/-! The keyboard of `driver/ps2.cpp`: the ring of scan codes between `ps2_int_handler` and `kbd_read`,
and what the codes mean. -/
namespace EpochKernel.Driver
open Library Library.LossyLog

/-- `wrap` of `util/math.cpp`. -/
def wrap (x lower upper : ℤ) : ℤ :=
  if x < lower ∨ upper < x then x.tmod (upper - lower + 1) + lower else x

def clamp (x lower upper : ℤ) : ℤ := if x < lower then lower else if upper < x then upper else x

def scanBufSize : ℕ := 32

structure KbdStatus where
  shift : UInt8 := 0
  capslock : Bool := false
  numlock : Bool := false

/-- The characters of successive scan codes, without and with `shift` or `numlock`. -/
structure Row where
  first : UInt8
  plain : List Char
  shifted : List Char

def Row.find? (r : Row) (shift : Bool) (scan : UInt8) : Option Char :=
  if r.first ≤ scan then (if shift then r.shifted else r.plain)[(scan - r.first).toNat]? else none

/-- The cases of `scan_toc` that look at `shift`, or at nothing. -/
def shiftRows : List Row := [
  { first := 0x01
    plain := [Char.ofNat 0x1b, '1', '2', '3', '4', '5', '6', '7', '8', '9', '0', '-', '=',
      Char.ofNat 0x08, '\t']
    shifted := [Char.ofNat 0x1b, '!', '@', '#', '$', '%', '^', '&', '*', '(', ')', '_', '+',
      Char.ofNat 0x08, '\t'] },
  { first := 0x10
    plain := ['q', 'w', 'e', 'r', 't', 'y', 'u', 'i', 'o', 'p', '[', ']', '\n']
    shifted := ['Q', 'W', 'E', 'R', 'T', 'Y', 'U', 'I', 'O', 'P', Char.ofNat 0x7b, Char.ofNat 0x7d,
      '\n'] },
  { first := 0x1e
    plain := ['a', 's', 'd', 'f', 'g', 'h', 'j', 'k', 'l', ';', Char.ofNat 0x27, Char.ofNat 0x60]
    shifted := ['A', 'S', 'D', 'F', 'G', 'H', 'J', 'K', 'L', ':', Char.ofNat 0x22, '~'] },
  { first := 0x2b
    plain := [Char.ofNat 0x5c, 'z', 'x', 'c', 'v', 'b', 'n', 'm', ',', '.', '/']
    shifted := ['|', 'Z', 'X', 'C', 'V', 'B', 'N', 'M', '<', '>', '?'] },
  { first := 0x37, plain := ['*'], shifted := ['*'] },
  { first := 0x39, plain := [' '], shifted := [' '] }]

/-- The cases that look at `numlock`, among them `HOME`, `ARROW_UP`, `PAGE_UP`, `ARROW_LEFT`,
`ARROW_RIGHT`, `END`, `ARROW_DOWN`, `PAGE_DOWN` and `DELETE`. -/
def numRow : Row where
  first := 0x47
  plain := [Char.ofNat 0x15, Char.ofNat 0x13, Char.ofNat 0x17, '-', Char.ofNat 0x11, '5',
    Char.ofNat 0x12, '+', Char.ofNat 0x16, Char.ofNat 0x14, Char.ofNat 0x18, '0', Char.ofNat 0x7f]
  shifted := ['7', '8', '9', '-', '4', '5', '6', '+', '1', '2', '3', '0', '.']

namespace KbdStatus

def scanToc (k : KbdStatus) (scan : UInt8) : UInt8 :=
  let shift := shiftRows.findSome? (Row.find? · (k.shift ≠ 0) scan)
  let out := ((shift.or (numRow.find? k.numlock scan)).map Char.toUInt8).getD 0
  if k.capslock then
    if 65 ≤ out ∧ out ≤ 90 then out + 32
    else if 97 ≤ out ∧ out ≤ 122 then out - 32
    else out
  else out

/-- `update_kbd_status`; the counter of the shift keys wraps before it is clamped. -/
def update (k : KbdStatus) (c : UInt8) : KbdStatus :=
  if c = 0x3a then { k with capslock := !k.capslock }
  else if c = 0x2a ∨ c = 0x36 then
    { k with shift := UInt8.ofNat (clamp ((k.shift + 1).toNat) 0 2).toNat }
  else if c = 0xaa ∨ c = 0xb6 then
    { k with shift := UInt8.ofNat (clamp ((k.shift - 1).toNat) 0 2).toNat }
  else if c = 0x45 then { k with numlock := !k.numlock }
  else k

end KbdStatus

/-- A call of `kbd_read` that has not returned, or what it has returned: `n`, `c` and the characters
written to `buf`. -/
structure KbdRead where
  n : UInt8
  c : UInt8 := 0
  buf : List UInt8 := []

/-- The variables of the driver, with `f` of `kbd_read` and the call in progress. The rest is not part
of the program: the codes that have arrived and those that `kbd_read` has interpreted, the last call
that has returned, and the passes of the present call through its loop and the codes that have arrived
since it began. -/
structure Ps2 where
  scancodeBuf : ℕ → UInt8 := fun _ => 0
  scanI : UInt8 := 0
  readI : UInt8 := 0
  f : Bool := true
  kbdStatus : KbdStatus := {}
  call : Option KbdRead := none
  arrived : List UInt8 := []
  interpreted : List UInt8 := []
  returned : Option KbdRead := none
  passes : ℕ := 0
  during : ℕ := 0

/-- `ps2_int_handler` with the code it reads, a call of `kbd_read`, and one pass through its loop. -/
inductive Event
  | arrival (code : UInt8)
  | kbdRead (n : UInt8)
  | pass

namespace Ps2

def ps2IntHandler (s : Ps2) (code : UInt8) : Ps2 :=
  let readI := if s.scanI = s.readI then s.readI + 1 else s.readI
  { s with
    scancodeBuf := Function.update s.scancodeBuf s.scanI.toNat code
    scanI := UInt8.ofNat (wrap ((s.scanI + 1).toNat) 0 (scanBufSize - 1)).toNat
    readI := UInt8.ofNat (wrap readI.toNat 0 (scanBufSize - 1)).toNat
    arrived := s.arrived ++ [code]
    during := s.during + 1 }

/-- The code at `read_i` changes the status or becomes a character, unless it has been consumed. -/
def interpret (s : Ps2) (call : KbdRead) : Ps2 × KbdRead :=
  let code := s.scancodeBuf s.readI.toNat
  let temp := s.kbdStatus.scanToc code
  if temp = 0 ∧ s.f then
    ({ s with
      kbdStatus := s.kbdStatus.update code
      interpreted := s.interpreted ++ [code] }, call)
  else if s.f then
    ({ s with interpreted := s.interpreted ++ [code] },
      { call with c := call.c + 1, buf := call.buf ++ [temp] })
  else (s, call)

def ret (s : Ps2) (call : KbdRead) : Ps2 := { s with call := none, returned := some call }

/-- One pass through the loop of `kbd_read`. -/
def pass (s : Ps2) (call : KbdRead) : Ps2 :=
  if call.c = call.n then s.ret call
  else
    let (s, call) := s.interpret call
    if wrap (s.readI.toNat + 1) 0 (scanBufSize - 1) = s.scanI.toNat then
      { s with f := false }.ret call
    else
      let readI := s.readI + 1
      { s with
        readI := if readI = UInt8.ofNat scanBufSize then 0 else readI
        f := true
        call := some call
        passes := s.passes + 1 }

def step : Machine Ps2 Event
  | s, .arrival code => some (s.ps2IntHandler code)
  | s, .kbdRead n =>
    if s.call = none then some { s with call := some { n := n }, passes := 0, during := 0 } else none
  | s, .pass => s.call.map s.pass

/-- The codes that are still to be interpreted: those from `read_i` up to `scan_i`, less the first
when it has been consumed. -/
def uninterpreted (s : Ps2) : ℕ :=
  (s.scanI.toNat + (scanBufSize - 1) - s.readI.toNat) % scanBufSize + if s.f then 1 else 0

/-- The zeros of the buffer at boot and the codes that have arrived since. -/
def log (s : Ps2) : List UInt8 := List.replicate scanBufSize 0 ++ s.arrived

/-- What `kbd_read` has interpreted is found at increasing positions of the log. A position that is
missing there is one of the last `left`, or 31 further codes have arrived. -/
def Accounts (s : Ps2) (left : ℕ) : Prop :=
  ∃ ps : List ℕ, ps.Pairwise (· < ·) ∧ s.interpreted.map some = ps.map (s.log[·]?) ∧
    ∀ p < s.log.length, p ∈ ps ∨ s.log.length ≤ p + left ∨ p + 31 < s.log.length

/-- The interpreted codes are zeros of the buffer at boot and then a subsequence of the arrivals. -/
def Ordered (s : Ps2) : Prop :=
  ∃ z codes, s.interpreted = List.replicate z 0 ++ codes ∧ z ≤ scanBufSize ∧ codes.Sublist s.arrived

/-- A call has made fewer than 32 passes, not counting one for each code that has arrived since it
began, and without further arrivals it returns after 32 at most. -/
def Terminates (s : Ps2) : Prop :=
  ∀ call, s.call = some call → s.passes ≤ 31 + s.during ∧
    ∃ k ≤ 32, ∃ s', Machine.run step s (List.replicate k .pass) = some s' ∧ s'.call = none

/-- When the next pass returns, at most `n` characters have been written, and if they are fewer then
no code is left. -/
def Returns (s : Ps2) : Prop :=
  ∀ s', step s .pass = some s' → s'.call = none → ∃ call, s'.returned = some call ∧
    call.buf.length = call.c.toNat ∧ call.c ≤ call.n ∧ (call.c < call.n → s'.Accounts 0)

end Ps2

lemma wrap_eq (x : ℕ) : wrap x 0 (scanBufSize - 1) = (x % 32 : ℕ) := by
  unfold wrap scanBufSize
  split_ifs with hx
  · rw [Int.tmod_eq_emod_of_nonneg (Int.natCast_nonneg x)]
    simp
  · have hlt : x < 32 := by
      simp only [not_or] at hx
      omega
    rw [Nat.mod_eq_of_lt hlt]

lemma toNat_ofNat_mod (x : ℕ) : (UInt8.ofNat (x % 32)).toNat = x % 32 := by
  rw [UInt8.toNat_ofNat']
  omega

namespace Ps2
variable {s s' : Ps2} {r : ℕ} {ps : List ℕ}

/-- 1 when the code at `read_i` has been consumed. -/
def consumed (s : Ps2) : ℕ := if s.f then 0 else 1

/-- The driver against the log: `read_i` stands for the position `r`. -/
structure Inv (s : Ps2) (r : ℕ) (ps : List ℕ) : Prop where
  scan : s.scanI.toNat = s.log.length % 32
  read : s.readI.toNat = r % 32
  window : r < s.log.length ∧ s.log.length ≤ r + 32
  buf : ∀ p, s.log.length ≤ p + 32 → ∀ hp : p < s.log.length, s.scancodeBuf (p % 32) = s.log[p]
  follows : Follows 32 s.log (r + s.consumed) ps s.interpreted
  call : ∀ call, s.call = some call → call.buf.length = call.c.toNat ∧ call.c ≤ call.n ∧
    s.passes + (s.log.length - 1 - r) ≤ 31 + s.during

lemma inv_boot : Inv {} 0 [] where
  scan := rfl
  read := rfl
  window := by decide
  buf := by
    intro p _ hp
    simp [log]
  follows := follows_nil 32 _
  call := nofun

lemma Inv.uninterpreted_eq (h : s.Inv r ps) :
    s.uninterpreted + (r + s.consumed) = s.log.length := by
  have hw := h.window
  unfold uninterpreted consumed scanBufSize
  rw [h.scan, h.read]
  split_ifs <;> omega

lemma Inv.accounts (h : s.Inv r ps) : s.Accounts s.uninterpreted := by
  have hu := h.uninterpreted_eq
  refine ⟨ps, h.follows.sorted, h.follows.found, fun p hp => ?_⟩
  rcases h.follows.covered p hp with hm | hn | hc
  · exact .inl hm
  · exact .inr (.inl (by omega))
  · exact .inr (.inr (by omega))

lemma Inv.ordered (h : s.Inv r ps) : s.Ordered := by
  obtain ⟨l, codes, he, hl, hc⟩ := List.sublist_append_iff.mp h.follows.sublist
  obtain ⟨z, hz, rfl⟩ := List.sublist_replicate_iff.mp hl
  exact ⟨z, codes, he, hz, hc⟩

/-- The ring is full when the indices meet. -/
lemma Inv.full_iff (h : s.Inv r ps) : s.scanI = s.readI ↔ s.log.length = r + 32 := by
  have hw := h.window
  rw [← UInt8.toNat_inj, h.scan, h.read]
  omega

lemma ps2IntHandler_log (s : Ps2) (code : UInt8) :
    (s.ps2IntHandler code).log = s.log ++ [code] := by
  simp [ps2IntHandler, log]

/-- The slot of the new code is that of the code that arrived 32 arrivals before. -/
lemma Inv.buf_arrival (h : s.Inv r ps) (code : UInt8) {p : ℕ}
    (hle : s.log.length + 1 ≤ p + 32) (hp : p < (s.log ++ [code]).length) :
    Function.update s.scancodeBuf s.scanI.toNat code (p % 32) = (s.log ++ [code])[p] := by
  rw [List.length_append, List.length_singleton] at hp
  rw [h.scan]
  by_cases he : p = s.log.length
  · subst he
    simp
  · have hne : p % 32 ≠ s.log.length % 32 := by omega
    have hlt : p < s.log.length := by omega
    rw [Function.update_of_ne hne, h.buf p (by omega) hlt, List.getElem_append_left hlt]

/-- An arrival, which moves `read_i` if the ring is full. -/
lemma Inv.arrival (h : s.Inv r ps) (code : UInt8) : ∃ r', (s.ps2IntHandler code).Inv r' ps := by
  have hw := h.window
  have hscan : (s.ps2IntHandler code).scanI.toNat = (s.log.length + 1) % 32 := by
    have := h.scan
    simp only [ps2IntHandler]
    rw [wrap_eq, Int.toNat_natCast, toNat_ofNat_mod, UInt8.toNat_add, UInt8.toNat_one]
    omega
  have hlog := ps2IntHandler_log s code
  have hlen : (s.ps2IntHandler code).log.length = s.log.length + 1 := by
    rw [hlog, List.length_append, List.length_singleton]
  by_cases hf : s.log.length = r + 32
  · refine ⟨r + 1, ?_⟩
    constructor
    case scan => rw [hscan, hlen]
    case read =>
      have := h.read
      simp only [ps2IntHandler, h.full_iff.mpr hf, if_true]
      rw [wrap_eq, Int.toNat_natCast, toNat_ofNat_mod, UInt8.toNat_add, UInt8.toNat_one]
      omega
    case window => omega
    case buf =>
      intro p hle hp
      rw [hlen] at hle
      simp only [hlog] at hp ⊢
      exact h.buf_arrival code hle hp
    case follows =>
      have hc : s.consumed ≤ 1 := by
        unfold consumed
        split_ifs <;> omega
      rw [hlog, Nat.add_right_comm]
      apply h.follows.append.drop
      · rw [List.length_append, List.length_singleton]
        omega
      · rw [List.length_append, List.length_singleton]
        omega
    case call =>
      intro call hcall
      obtain ⟨hb, hc, hp⟩ := h.call call hcall
      refine ⟨hb, hc, ?_⟩
      rw [hlen]
      simp only [ps2IntHandler]
      omega
  · have hne : s.scanI ≠ s.readI := fun he => hf (h.full_iff.mp he)
    refine ⟨r, ?_⟩
    constructor
    case scan => rw [hscan, hlen]
    case read =>
      have := h.read
      simp only [ps2IntHandler, hne, if_false]
      rw [wrap_eq, Int.toNat_natCast, toNat_ofNat_mod]
      omega
    case window => omega
    case buf =>
      intro p hle hp
      rw [hlen] at hle
      simp only [hlog] at hp ⊢
      exact h.buf_arrival code hle hp
    case follows =>
      rw [hlog]
      exact h.follows.append
    case call =>
      intro call hcall
      obtain ⟨hb, hc, hp⟩ := h.call call hcall
      refine ⟨hb, hc, ?_⟩
      rw [hlen]
      simp only [ps2IntHandler]
      omega

/-- What a call has written and may still write. -/
def Within (call : KbdRead) : Prop := call.buf.length = call.c.toNat ∧ call.c ≤ call.n

lemma Within.write {call : KbdRead} (h : Within call) (hn : call.c ≠ call.n) (temp : UInt8) :
    Within { call with c := call.c + 1, buf := call.buf ++ [temp] } := by
  have hle := UInt8.le_iff_toNat_le.mp h.2
  have hne : call.c.toNat ≠ call.n.toNat := fun he => hn (UInt8.toNat_inj.mp he)
  have hmax := call.n.toNat_lt
  have hadd : (call.c + 1).toNat = call.c.toNat + 1 := by
    rw [UInt8.toNat_add, UInt8.toNat_one]
    omega
  refine ⟨?_, UInt8.le_iff_toNat_le.mpr ?_⟩
  · rw [List.length_append, List.length_singleton, h.1, hadd]
  · change (call.c + 1).toNat ≤ call.n.toNat
    omega

/-- What the first half of a pass does. -/
lemma interpret_eq (s : Ps2) {call : KbdRead} (hw : Within call) (hn : call.c ≠ call.n) :
    ∃ k call', s.interpret call = ({ s with
      kbdStatus := k
      interpreted := s.interpreted ++ if s.f then [s.scancodeBuf s.readI.toNat] else [] }, call') ∧
      call'.n = call.n ∧ Within call' := by
  let temp := s.kbdStatus.scanToc (s.scancodeBuf s.readI.toNat)
  unfold interpret
  by_cases hf : s.f
  · by_cases ht : temp = 0
    · refine ⟨s.kbdStatus.update (s.scancodeBuf s.readI.toNat), call, ?_, rfl, hw⟩
      simp only [temp, ht, hf, and_self, if_true]
    · refine ⟨s.kbdStatus, { call with c := call.c + 1, buf := call.buf ++ [temp] }, ?_, rfl,
        hw.write hn temp⟩
      simp only [temp] at ht ⊢
      simp only [ht, hf, false_and, if_false, if_true]
  · refine ⟨s.kbdStatus, call, ?_, rfl, hw⟩
    rw [if_neg (fun h => hf h.2), if_neg hf, if_neg hf, List.append_nil]

/-- After it the code at `read_i` is consumed. -/
lemma Inv.consume (h : s.Inv r ps) (k : KbdStatus) : ∃ ps', Inv { s with
    kbdStatus := k
    interpreted := s.interpreted ++ if s.f then [s.scancodeBuf s.readI.toNat] else []
    f := false } r ps' := by
  have hw := h.window
  have hfol := h.follows
  unfold consumed at hfol
  cases hf : s.f with
  | false =>
    refine ⟨ps, h.scan, h.read, hw, h.buf, ?_, h.call⟩
    rw [hf] at hfol
    simpa [consumed, log] using hfol
  | true =>
    refine ⟨ps ++ [r], h.scan, h.read, hw, h.buf, ?_, h.call⟩
    have hcode : s.scancodeBuf s.readI.toNat = s.log[r] := by
      rw [h.read]
      exact h.buf r hw.2 hw.1
    rw [hf, if_pos rfl] at hfol
    simpa [consumed, hcode, log] using hfol.take hw.1

/-- The test at the end of a pass. -/
lemma Inv.last_iff (h : s.Inv r ps) :
    wrap (s.readI.toNat + 1) 0 (scanBufSize - 1) = s.scanI.toNat ↔ r + 1 = s.log.length := by
  have hw := h.window
  have hwrap := wrap_eq (s.readI.toNat + 1)
  rw [Nat.cast_add, Nat.cast_one] at hwrap
  rw [hwrap, Int.natCast_inj, h.scan, h.read]
  omega

/-- Going on to the next code. -/
lemma Inv.advance (h : s.Inv r ps) (hf : s.f = false) (hlt : r + 1 < s.log.length)
    {call : KbdRead} (hcall : s.call ≠ none) (hw : Within call) : Inv { s with
      readI := if s.readI + 1 = UInt8.ofNat scanBufSize then 0 else s.readI + 1
      f := true
      call := some call
      passes := s.passes + 1 } (r + 1) ps := by
  have hwin := h.window
  constructor
  case scan => exact h.scan
  case read =>
    have hr := h.read
    have hone : (s.readI + 1).toNat = s.readI.toNat + 1 := by
      rw [UInt8.toNat_add, UInt8.toNat_one]
      omega
    change (if s.readI + 1 = UInt8.ofNat scanBufSize then 0 else s.readI + 1).toNat = (r + 1) % 32
    split_ifs with he
    · have := congrArg UInt8.toNat he
      change (s.readI + 1).toNat = 32 at this
      change 0 = _
      omega
    · have : (s.readI + 1).toNat ≠ 32 := fun hx => he (UInt8.toNat_inj.mp hx)
      omega
  case window =>
    change r + 1 < s.log.length ∧ s.log.length ≤ r + 1 + 32
    omega
  case buf => exact h.buf
  case follows =>
    have hfol := h.follows
    simpa [consumed, hf, log] using hfol
  case call =>
    intro call' hc
    obtain rfl := Option.some.inj hc
    obtain ⟨old, hold⟩ := Option.ne_none_iff_exists'.mp hcall
    obtain ⟨-, -, hp⟩ := h.call old hold
    refine ⟨hw.1, hw.2, ?_⟩
    change s.passes + 1 + (s.log.length - 1 - (r + 1)) ≤ 31 + s.during
    omega

/-- One pass returns, or gets one code further. -/
lemma Inv.pass (h : s.Inv r ps) {call : KbdRead} (hcall : s.call = some call) :
    (∃ ps' done, (s.pass call).Inv r ps' ∧ (s.pass call).call = none ∧
      (s.pass call).returned = some done ∧ Within done ∧
      (done.c < done.n → (s.pass call).uninterpreted = 0)) ∨
    ∃ ps', (s.pass call).Inv (r + 1) ps' ∧ (s.pass call).call ≠ none ∧
      (s.pass call).log = s.log := by
  obtain ⟨hb, hle, -⟩ := h.call call hcall
  by_cases hn : call.c = call.n
  · left
    have hp : s.pass call = s.ret call := by
      unfold Ps2.pass
      rw [if_pos hn]
    rw [hp]
    exact ⟨ps, call, ⟨h.scan, h.read, h.window, h.buf, h.follows, nofun⟩, rfl, rfl, ⟨hb, hle⟩,
      fun hlt => absurd hn (UInt8.ne_of_lt hlt)⟩
  · obtain ⟨k, call', hi, -, hw'⟩ := interpret_eq s ⟨hb, hle⟩ hn
    obtain ⟨ps', hinv⟩ := h.consume k
    unfold Ps2.pass
    rw [if_neg hn, hi]
    simp only
    by_cases hl : r + 1 = s.log.length
    · left
      rw [if_pos (h.last_iff.mpr hl)]
      refine ⟨ps', call', ⟨hinv.scan, hinv.read, hinv.window, hinv.buf, hinv.follows, nofun⟩, rfl,
        rfl, hw', fun _ => ?_⟩
      have hu := hinv.uninterpreted_eq
      change _ + (r + 1) = s.log.length at hu
      exact Nat.add_eq_right.mp (hu.trans hl.symm)
    · right
      have hwin := h.window
      rw [if_neg (fun hx => hl (h.last_iff.mp hx))]
      refine ⟨ps', ?_, nofun, rfl⟩
      exact hinv.advance rfl (by change r + 1 < s.log.length; omega)
        (by change s.call ≠ none; rw [hcall]; nofun) hw'

lemma Inv.step (h : s.Inv r ps) {e : Event} (hs : Ps2.step s e = some s') :
    ∃ r' ps', s'.Inv r' ps' := by
  cases e with
  | arrival code =>
    obtain rfl := Option.some.inj hs
    obtain ⟨r', h'⟩ := h.arrival code
    exact ⟨r', ps, h'⟩
  | kbdRead n =>
    rw [Ps2.step] at hs
    split_ifs at hs
    obtain rfl := Option.some.inj hs
    refine ⟨r, ps, h.scan, h.read, h.window, h.buf, h.follows, fun call hc => ?_⟩
    obtain rfl := Option.some.inj hc
    have hw := h.window
    refine ⟨rfl, UInt8.le_iff_toNat_le.mpr (Nat.zero_le _), ?_⟩
    change 0 + (s.log.length - 1 - r) ≤ 31 + 0
    omega
  | pass =>
    obtain ⟨call, hcall, rfl⟩ := Option.map_eq_some_iff.mp hs
    rcases h.pass hcall with ⟨ps', _, h', -⟩ | ⟨ps', h', -⟩
    · exact ⟨r, ps', h'⟩
    · exact ⟨r + 1, ps', h'⟩

lemma inv_run {es : List Event} (hr : Machine.run step {} es = some s) : ∃ r ps, s.Inv r ps :=
  Machine.run_invariant (I := fun s => ∃ r ps, s.Inv r ps)
    (fun _ _ _ ⟨_, _, h⟩ hs => h.step hs) ⟨0, [], inv_boot⟩ hr

/-- Without arrivals a call passes at most once over each code. -/
lemma Inv.finishes {m : ℕ} (h : s.Inv r ps) (hm : s.log.length ≤ r + 1 + m)
    (hcall : s.call ≠ none) : ∃ k ≤ m + 1, ∃ s',
      Machine.run Ps2.step s (List.replicate k .pass) = some s' ∧ s'.call = none := by
  obtain ⟨call, hc⟩ := Option.ne_none_iff_exists'.mp hcall
  have hstep : Ps2.step s .pass = some (s.pass call) := by
    rw [Ps2.step, hc]
    rfl
  induction m generalizing s r ps call with
  | zero =>
    rcases h.pass hc with ⟨_, _, -, hnone, -⟩ | ⟨ps', h', -, hlog⟩
    · refine ⟨1, le_rfl, s.pass call, ?_, hnone⟩
      rw [List.replicate_one, Machine.run_cons, hstep]
      rfl
    · have hw := h'.window
      rw [hlog] at hw
      omega
  | succ m ih =>
    rcases h.pass hc with ⟨_, _, -, hnone, -⟩ | ⟨ps', h', hsome, hlog⟩
    · refine ⟨1, by omega, s.pass call, ?_, hnone⟩
      rw [List.replicate_one, Machine.run_cons, hstep]
      rfl
    · obtain ⟨call', hc'⟩ := Option.ne_none_iff_exists'.mp hsome
      obtain ⟨k, hk, s', hrun, hnone⟩ := ih h' (by rw [hlog]; omega) hsome call' hc' (by
        rw [Ps2.step, hc']
        rfl)
      refine ⟨k + 1, by omega, s', ?_, hnone⟩
      rw [List.replicate_succ, Machine.run_cons, hstep]
      exact hrun

lemma Inv.terminates (h : s.Inv r ps) : s.Terminates := by
  intro call hcall
  have hw := h.window
  obtain ⟨-, -, hp⟩ := h.call call hcall
  refine ⟨by omega, ?_⟩
  exact h.finishes (m := 31) (by omega) (by rw [hcall]; nofun)

lemma Inv.returns (h : s.Inv r ps) : s.Returns := by
  intro s' hs hnone
  obtain ⟨call, hcall, rfl⟩ := Option.map_eq_some_iff.mp hs
  rcases h.pass hcall with ⟨ps', done, h', -, hret, hw, hz⟩ | ⟨_, -, hsome, -⟩
  · refine ⟨done, hret, hw.1, hw.2, fun hlt => ?_⟩
    rw [← hz hlt]
    exact h'.accounts
  · exact absurd hnone hsome

/-- The ring delivers the codes in their order, once each, and loses one only after 31 further codes;
this holds in every state, so also in the first one in which a code is lost. -/
theorem delivers_of_run {es : List Event} (hr : Machine.run step {} es = some s) :
    s.Accounts s.uninterpreted ∧ s.Ordered ∧ s.Terminates ∧ s.Returns := by
  obtain ⟨r, ps, h⟩ := inv_run hr
  exact ⟨h.accounts, h.ordered, h.terminates, h.returns⟩

/-- A call for one character that is interrupted by an arrival. -/
def sampleRun : List Event :=
  [.arrival 0x1e, .kbdRead 1, .pass, .arrival 0x30] ++ List.replicate 32 .pass

theorem delivers_of_run_sample : ∃ s, Machine.run step {} sampleRun = some s ∧
    s.returned.map KbdRead.buf = some [0x61] ∧
    s.Accounts s.uninterpreted ∧ s.Ordered ∧ s.Terminates ∧ s.Returns := by
  have hrun : (Machine.run step {} sampleRun).any
      (fun s => s.returned.map KbdRead.buf = some [0x61]) = true := by
    decide +kernel
  obtain ⟨s, hs, hbuf⟩ := (Option.any_eq_true _ _).mp hrun
  exact ⟨s, hs, of_decide_eq_true hbuf, delivers_of_run hs⟩

end Ps2
end EpochKernel.Driver
