import EpochKernel.Driver.Vga

/-! The screen as a window: the buffer holds the last 25 rows of a terminal with an unbounded grid. -/
namespace EpochKernel.Driver
open Library Util

/-- The terminal without a bound on its rows. A cell is `none` until a character is written to it,
with its colour. -/
structure Terminal where
  grid : ℕ × ℕ → Option (UInt8 × UInt8)
  row : ℕ
  col : ℕ
  color : UInt8

namespace Terminal

/-- The empty terminal. -/
def empty (color : UInt8) : Terminal := ⟨fun _ => none, 0, 0, color⟩

def nextRow (T : Terminal) : Terminal := { T with row := T.row + 1, col := 0 }

/-- The character in the current cell. -/
def write (T : Terminal) (c : UInt8) : Terminal :=
  { T with grid := Function.update T.grid (T.row, T.col) (some (T.color, c)) }

def advance (T : Terminal) : Terminal := if T.col = 79 then T.nextRow else { T with col := T.col + 1 }

def putc (T : Terminal) (c : UInt8) : Terminal := if c = newline then T.nextRow else (T.write c).advance

/-- Characters and colour codes; there are no position codes. -/
def append (T : Terminal) : List UInt8 → Terminal
  | [] => T
  | [c] => T.putc c
  | c :: d :: cs => if c = ttySetColor then append { T with color := d } cs else append (T.putc c) (d :: cs)

/-- The first row that is on the screen. -/
def top (T : Terminal) : ℕ := T.row - 24

end Terminal

/-- No position code occurs, and behind each colour code there is a colour. -/
def Plain : List UInt8 → Prop
  | [] => True
  | [c] => c ≠ ttySetColor ∧ c ≠ ttySetPosition
  | c :: d :: cs => if c = ttySetColor then Plain cs else c ≠ ttySetPosition ∧ Plain (d :: cs)

/-- The entry of the buffer for a cell. -/
def entryOf : Option (UInt8 × UInt8) → UInt16
  | none => 0
  | some (color, c) => vgaFormEntry color c

/-- The screen shows the last 25 rows of the terminal, and all accesses were to its entries. -/
structure Shows (T : Terminal) (s : Vga) : Prop where
  row : s.row.toInt = (min T.row 24 : ℕ)
  col : s.col.toInt = T.col
  color : s.vgaColor = T.color
  cells : ∀ r < 25, ∀ c < 80, s.vgaBuf (r * 80 + c : ℕ) = entryOf (T.grid (T.top + r, c))
  inside : s.Inside

/-- The cursor is on the grid, and nothing is written below it. -/
structure Terminal.Fits (T : Terminal) : Prop where
  col : T.col < 80
  below : ∀ r c, T.row < r → T.grid (r, c) = none

section Fits
variable {T : Terminal} {c : UInt8}

lemma Terminal.fits_empty (color : UInt8) : (Terminal.empty color).Fits :=
  ⟨by norm_num [Terminal.empty], fun _ _ _ => rfl⟩

lemma Terminal.Fits.nextRow (h : T.Fits) : T.nextRow.Fits :=
  ⟨by norm_num [Terminal.nextRow], fun r c hr => h.below r c (Nat.lt_of_succ_lt hr)⟩

lemma Terminal.Fits.write (h : T.Fits) : (T.write c).Fits where
  col := h.col
  below r c' hr := by
    have hne : (r, c') ≠ (T.row, T.col) := fun he => hr.ne' (congrArg Prod.fst he)
    exact (Function.update_of_ne hne _ _).trans (h.below r c' hr)

lemma Terminal.Fits.advance (h : T.Fits) : T.advance.Fits := by
  rw [Terminal.advance]
  split_ifs with hcol
  · exact h.nextRow
  · have := h.col
    exact ⟨by dsimp only; omega, h.below⟩

lemma Terminal.Fits.putc (h : T.Fits) (c : UInt8) : (T.putc c).Fits := by
  rw [Terminal.putc]
  split_ifs
  · exact h.nextRow
  · exact h.write.advance

end Fits

section Shows
variable {T : Terminal} {s : Vga} {c : UInt8}

lemma toInt_ofInt {z : ℤ} (h0 : 0 ≤ z) (h : z < 128) : (Int8.ofInt z).toInt = z :=
  Int8.toInt_ofInt_of_le (by omega) (by omega)

/-- Above the last row of the screen the cursor moves down. -/
lemma incRow_of_lt (hrow : 0 ≤ s.row.toInt) (hlt : s.row.toInt < 24) :
    s.incRow 1 = { s with row := Int8.ofInt (s.row.toInt + 1) } := by
  rw [Vga.incRow]
  apply if_neg
  change ¬ (25 : ℤ) ≤ (Int8.ofInt (s.row.toInt + 1)).toInt
  rw [toInt_ofInt (by omega) (by omega)]
  omega

/-- On the last row the screen scrolls by one row. -/
lemma incRow_of_last (hrow : s.row.toInt = 24) : ∃ t, Vga.Drawn { s with row := 25 }
    (Vga.blanked 1920 2000 (Vga.shifted 80 1920 s.vgaBuf)) t ∧
    s.incRow 1 = { t with row := 24 } := by
  have hnext : Int8.ofInt (s.row.toInt + (1 : UInt16).toNat) = 25 := by
    rw [hrow]
    rfl
  have hone : (1 : UInt8).toNat ≤ 25 := by decide
  have hdrawn := Vga.drawn_scrollDown hone { s with row := 25 }
  have hlast : vgaRows ≤ (25 : Int8).toInt := by decide
  have htemp : UInt8.ofInt ((25 : Int8).toInt - vgaRows + 1) = 1 := by decide
  have hback : Int8.ofInt ((25 : Int8).toInt - (1 : UInt8).toNat) = 24 := by decide
  refine ⟨_, hdrawn, ?_⟩
  rw [Vga.incRow, hnext]
  dsimp only
  rw [if_pos hlast, htemp, hdrawn.row, hback]

/-- The next row, which is scrolled into view if it is below the screen. -/
lemma Shows.incRow (hT : ∀ r c, T.row < r → T.grid (r, c) = none) (h : Shows T s) :
    Shows { T with row := T.row + 1 } (s.incRow 1) := by
  have hrow := h.row
  by_cases hlt : T.row < 24
  · rw [incRow_of_lt (by omega) (by omega)]
    refine ⟨?_, h.col, h.color, fun r hr c hc => ?_, h.inside⟩
    · dsimp only
      rw [toInt_ofInt (by omega) (by omega)]
      omega
    · have htop : Terminal.top { T with row := T.row + 1 } = T.top := by
        simp only [Terminal.top]
        omega
      rw [htop]
      exact h.cells r hr c hc
  · obtain ⟨t, ht, heq⟩ := incRow_of_last (s := s) (by omega)
    have htop : Terminal.top { T with row := T.row + 1 } = T.top + 1 := by
      simp only [Terminal.top]
      omega
    rw [heq]
    refine ⟨?_, (congrArg Int8.toInt ht.col).trans h.col, ht.color.trans h.color,
      fun r hr c hc => ?_, ht.inside h.inside⟩
    · dsimp only
      rw [min_eq_right (by omega)]
      rfl
    · dsimp only
      rw [ht.buf, htop, Vga.blanked]
      by_cases hlast : r = 24
      · rw [if_pos (by omega), hT _ c (by simp only [Terminal.top]; omega)]
        rfl
      · have hcell := h.cells (r + 1) (by omega) c hc
        have hindex : ((r + 1) * 80 + c : ℕ) = ((r * 80 + c : ℕ) + 80 : ℤ) := by
          push_cast
          ring
        rw [if_neg (by omega), Vga.shifted, if_pos (by omega), ← hindex, hcell, add_assoc,
          Nat.add_comm 1 r]

lemma Shows.newline (hT : T.Fits) (h : Shows T s) : Shows T.nextRow { s.incRow 1 with col := 0 } := by
  have hnext := h.incRow hT.below
  exact ⟨hnext.row, rfl, hnext.color, hnext.cells, hnext.inside⟩

/-- The current cell is on the last row that is shown. -/
lemma Shows.geti (h : Shows T s) : s.geti = (min T.row 24 * 80 + T.col : ℕ) := by
  rw [Vga.geti, h.row, h.col, vgaCols]
  push_cast
  ring

lemma Shows.write (hT : T.Fits) (h : Shows T s) (c : UInt8) :
    Shows (T.write c) (s.store s.geti (vgaFormEntry s.vgaColor c)) := by
  have hcol := hT.col
  have hgeti := h.geti
  refine ⟨h.row, h.col, h.color, fun r hr c' hc' => ?_, ?_⟩
  · have hcell := h.cells r hr c' hc'
    have hupdate : (s.store s.geti (vgaFormEntry s.vgaColor c)).vgaBuf =
      Function.update s.vgaBuf s.geti (vgaFormEntry s.vgaColor c) := rfl
    have hgrid : (T.write c).grid = Function.update T.grid (T.row, T.col) (some (T.color, c)) := rfl
    have htop : (T.write c).top = T.top := rfl
    rw [hupdate, hgrid, hgeti, htop]
    by_cases hhere : r = min T.row 24 ∧ c' = T.col
    · have hrow : T.top + r = T.row := by
        rw [hhere.1, Terminal.top]
        omega
      rw [hrow, hhere.1, hhere.2, Function.update_self, Function.update_self, h.color]
      rfl
    · have hindex : ((r * 80 + c' : ℕ) : ℤ) ≠ (min T.row 24 * 80 + T.col : ℕ) := by omega
      have hpair : (T.top + r, c') ≠ (T.row, T.col) := by
        intro he
        obtain ⟨hrow, hcol'⟩ := Prod.mk.inj he
        rw [Terminal.top] at hrow
        omega
      rw [Function.update_of_ne hindex, Function.update_of_ne hpair]
      exact hcell
  · have hin : 0 ≤ s.geti ∧ s.geti < 2000 := by omega
    exact ((Vga.Drawn.refl s).store hin).inside h.inside

/-- The next column, or the next row behind the last one. -/
lemma Shows.advance (hT : T.Fits) (h : Shows T s) : Shows T.advance (s.incCol 1) := by
  have hcol := h.col
  have hlt := hT.col
  have hnext : (Int8.ofInt (s.col.toInt + (1 : UInt16).toNat)).toInt = T.col + 1 := by
    rw [hcol]
    exact toInt_ofInt (by omega) (by change (T.col : ℤ) + 1 < 128; omega)
  rw [Vga.incCol, Terminal.advance]
  dsimp only
  rw [hnext, vgaCols]
  by_cases hlast : T.col = 79
  · have hone : UInt16.ofInt (((T.col : ℤ) + 1).tdiv 80) = 1 := by
      rw [hlast]
      rfl
    have hwrapped : Shows { T with col := T.col + 1 }
        { s with col := Int8.ofInt (s.col.toInt + (1 : UInt16).toNat) } :=
      ⟨h.row, hnext, h.color, h.cells, h.inside⟩
    have hrow := Shows.incRow (T := { T with col := T.col + 1 }) hT.below hwrapped
    have hwrap : (80 : ℤ) ≤ T.col + 1 := by omega
    rw [if_pos hwrap, if_pos hlast, hone]
    refine ⟨hrow.row, ?_, hrow.color, hrow.cells, hrow.inside⟩
    dsimp only
    rw [hrow.col]
    dsimp only
    rw [hlast]
    rfl
  · have hwrap : ¬ (80 : ℤ) ≤ T.col + 1 := by omega
    rw [if_neg hwrap, if_neg hlast]
    exact ⟨h.row, hnext, h.color, h.cells, h.inside⟩

/-- The screen follows the terminal character by character. -/
lemma Shows.putc (hT : T.Fits) (h : Shows T s) (c : UInt8) : Shows (T.putc c) (s.putc c) := by
  rw [Terminal.putc, Vga.putc]
  split_ifs
  · exact h.newline hT
  · exact (h.write hT c).advance hT.write

/-- The cleared screen shows the empty terminal. -/
lemma shows_clear (hin : s.Inside) : Shows (Terminal.empty s.vgaColor) s.clear := by
  have hloop := forTo_invariant (n := 2000) (s := s)
    (b := fun (i : ℕ) (s : Vga) => s.store i vgaBlack.toUInt16)
    (I := fun i t => Vga.Drawn s (Vga.blanked 0 i s.vgaBuf) t) ?_ ?_
  · have hlen : (vgaRows * vgaCols).toNat = 2000 := by decide
    rw [Vga.clear, hlen]
    generalize forTo (fun (i : ℕ) (s : Vga) => s.store i vgaBlack.toUInt16) 2000 s = t at hloop ⊢
    refine ⟨rfl, rfl, hloop.color, fun r hr c hc => ?_, hloop.inside hin⟩
    dsimp only
    rw [hloop.buf]
    exact if_pos (by omega)
  · intro i hi t ht
    have hstore := ht.store (i := i) (v := 0) (by omega)
    rw [Vga.update_blanked (by omega)] at hstore
    exact hstore
  · have hnone : Vga.blanked 0 (0 : ℕ) s.vgaBuf = s.vgaBuf := Vga.blanked_self
    rw [hnone]
    exact Vga.Drawn.refl s

/-- The screen follows the terminal through a string. -/
lemma Shows.appendLoop {input : ℕ → UInt8} {len left : ℕ} : ∀ {i cs reads before T s},
    Holds input i cs → Plain cs → i + cs.length = len → cs.length ≤ left → T.Fits → Shows T s →
    (T.append cs).Fits ∧ Shows (T.append cs) (Vga.appendLoop input len left i reads before s).vga := by
  induction left with
  | zero =>
    intro i cs reads before T s _ _ hi hleft hT h
    obtain rfl : cs = [] := List.length_eq_zero_iff.mp (Nat.le_zero.mp hleft)
    exact ⟨hT, h⟩
  | succ left ih =>
    intro i cs reads before T s hcs hplain hi hleft hT h
    cases cs with
    | nil =>
      obtain rfl : i = len := hi
      rw [Vga.appendLoop_end le_rfl]
      exact ⟨hT, h⟩
    | cons c cs =>
      obtain ⟨rfl, hcs⟩ := hcs
      rw [List.length_cons] at hi hleft
      have hlt : i < len := by omega
      cases cs with
      | nil =>
        have hend : len ≤ i + 1 := hi.ge
        rw [Vga.appendLoop_print hlt hplain.1 hplain.2, Vga.appendLoop_end hend]
        exact ⟨hT.putc _, h.putc hT _⟩
      | cons d cs =>
        rw [Plain] at hplain
        rw [Terminal.append]
        by_cases hcolor : input i = ttySetColor
        · rw [if_pos hcolor] at hplain
          rw [Vga.appendLoop_color hlt hcolor, if_pos hcolor]
          rw [List.length_cons] at hi hleft
          apply ih (T := { T with color := d }) hcs.2 hplain (by omega) (by omega) ⟨hT.col, hT.below⟩
          exact ⟨h.row, h.col, hcs.1, h.cells, h.inside⟩
        · rw [if_neg hcolor] at hplain
          rw [Vga.appendLoop_print hlt hcolor hplain.1, if_neg hcolor]
          exact ih hcs hplain.2 (by omega) (by omega) (hT.putc _) (h.putc hT _)

end Shows

/-- The screen after the strings, with what is in memory behind each. -/
def Vga.appends (s : Vga) (strings : List (CString × (ℕ → UInt8))) : Vga :=
  strings.foldl (fun s str => (s.append str.1 str.2).vga) s

def Terminal.appends (T : Terminal) (strings : List (CString × (ℕ → UInt8))) : Terminal :=
  strings.foldl (fun T str => T.append str.1.chars) T

lemma Shows.appends {T : Terminal} {s : Vga} {strings : List (CString × (ℕ → UInt8))}
    (hplain : ∀ str ∈ strings, Plain str.1.chars) (hT : T.Fits) (h : Shows T s) :
    (T.appends strings).Fits ∧ Shows (T.appends strings) (s.appends strings) := by
  induction strings generalizing T s with
  | nil => exact ⟨hT, h⟩
  | cons str strings ih =>
    obtain ⟨hstr, hplain⟩ := List.forall_mem_cons.mp hplain
    have hlen := str.1.strlen_bytes
    have hend : 0 + str.1.chars.length = strlen str.1.bytes := by rw [Nat.zero_add, hlen]
    obtain ⟨hfits, hshows⟩ := h.appendLoop (holds_chars str.1 str.2) hstr hend hlen.ge hT
    exact ih hplain hfits hshows

/-- After `vga_clear` and strings without position codes the screen shows the last rows of the
terminal, the cursor is on the screen and all accesses were to its entries. -/
theorem shows_appends (s : Vga) (strings : List (CString × (ℕ → UInt8)))
    (hplain : ∀ str ∈ strings, Plain str.1.chars) :
    let T := (Terminal.empty s.vgaColor).appends strings
    let s' := ({ s with touched := [] } : Vga).clear.appends strings
    Shows T s' ∧ s'.row.toInt ∈ Set.Icc 0 24 ∧ s'.col.toInt ∈ Set.Icc 0 79 := by
  intro T s'
  have hclear : Shows (Terminal.empty s.vgaColor) ({ s with touched := [] } : Vga).clear :=
    shows_clear (s := { s with touched := [] }) (by simp [Vga.Inside])
  obtain ⟨hfits, hshows⟩ := hclear.appends hplain (Terminal.fits_empty _)
  have hcol := hfits.col
  refine ⟨hshows, ?_, ?_⟩
  · rw [hshows.row, Set.mem_Icc]
    omega
  · rw [hshows.col, Set.mem_Icc]
    exact ⟨Int.natCast_nonneg _, by exact_mod_cast Nat.le_of_lt_succ hcol⟩

/-- The state in which the system starts. -/
def Vga.initial : Vga where
  vgaBuf _ := 0
  row := 0
  col := 0
  coli _ := 0
  vgaColor := 0x0f
  touched := []

/-- A line in two colours. -/
def colored : CString := ⟨[0x41, 0x01, 0x04, 0x42, 0x0a], by simp⟩

theorem shows_appends_colored : (∀ str ∈ [(colored, fun _ : ℕ => (0 : UInt8))], Plain str.1.chars) ∧
    Shows ((Terminal.empty 0x0f).appends [(colored, fun _ => 0)])
      (Vga.initial.clear.appends [(colored, fun _ => 0)]) := by
  have hplain : ∀ str ∈ [(colored, fun _ : ℕ => (0 : UInt8))], Plain str.1.chars := by
    intro str hstr
    obtain rfl := List.mem_singleton.mp hstr
    simp [colored, Plain, ttySetColor, ttySetPosition]
  exact ⟨hplain, (shows_appends Vga.initial [(colored, fun _ => 0)] hplain).1⟩

end EpochKernel.Driver
