import EpochKernel.Library.Run
import EpochKernel.Util.StringOrder

/-! The text screen of `driver/vga_tty.cpp`. Numbers of type `i8` are kept as such; an index into the
buffer is an `int`, and the indices that were used are recorded. -/
namespace EpochKernel.Driver
open Library Util

def vgaRows : ℤ := 25
def vgaCols : ℤ := 80

/-- `'\n'`, `TTY_SET_COLOR` and `TTY_SET_POSITION`. -/
def newline : UInt8 := 0x0a
def ttySetColor : UInt8 := 0x01
def ttySetPosition : UInt8 := 0x02

/-- `(VGAC_BLACK << 4) | VGAC_BLACK`. -/
def vgaBlack : UInt8 := 0

/-- `vga_form_entry`. -/
def vgaFormEntry (color c : UInt8) : UInt16 := (color.toUInt16 <<< 8) ||| c.toUInt16

structure Vga where
  vgaBuf : ℤ → UInt16
  row : Int8
  col : Int8
  coli : ℤ → Int8
  vgaColor : UInt8
  touched : List ℤ

namespace Vga

/-- An access to `vga_buf[i]`. -/
def touch (i : ℤ) (s : Vga) : Vga := { s with touched := s.touched ++ [i] }

def store (i : ℤ) (v : UInt16) (s : Vga) : Vga :=
  { s.touch i with vgaBuf := Function.update s.vgaBuf i v }

/-- `geti`. -/
def geti (s : Vga) : ℤ := s.row.toInt * vgaCols + s.col.toInt

/-- The inner loop of `vga_scroll_down` for row `r` that is kept. -/
def copyRow (rows : UInt8) (r : ℕ) (s : Vga) : Vga :=
  let s := forTo (fun c s =>
    let i := r * vgaCols + c
    (s.touch (rows.toNat * vgaCols + i)).store i (s.vgaBuf (rows.toNat * vgaCols + i))) 80 s
  { s with coli := Function.update s.coli r (s.coli (r + rows.toNat)) }

/-- The inner loop for a row `r` that becomes free. -/
def clearRow (r : ℕ) (s : Vga) : Vga :=
  let s := forTo (fun c s => s.store (r * vgaCols + c) vgaBlack.toUInt16) 80 s
  { s with coli := Function.update s.coli r 0 }

/-- `vga_scroll_down`. -/
def scrollDown (rows : UInt8) (s : Vga) : Vga :=
  let s := forTo (copyRow rows) (vgaRows - rows.toNat).toNat s
  let first := (UInt8.ofInt (vgaRows - rows.toNat)).toNat
  forTo (fun k => clearRow (first + k)) (vgaRows - first).toNat s

/-- `vga_inc_row`. -/
def incRow (n : UInt16) (s : Vga) : Vga :=
  let s := { s with row := Int8.ofInt (s.row.toInt + n.toNat) }
  if vgaRows ≤ s.row.toInt then
    let temp := UInt8.ofInt (s.row.toInt - vgaRows + 1)
    let s := s.scrollDown temp
    { s with row := Int8.ofInt (s.row.toInt - temp.toNat) }
  else s

/-- `vga_inc_col`. -/
def incCol (n : UInt16) (s : Vga) : Vga :=
  let s := { s with col := Int8.ofInt (s.col.toInt + n.toNat) }
  if vgaCols ≤ s.col.toInt then
    let s := s.incRow (UInt16.ofInt (s.col.toInt.tdiv vgaCols))
    { s with col := Int8.ofInt (s.col.toInt.tmod vgaCols) }
  else s

/-- `vga_clear`. -/
def clear (s : Vga) : Vga :=
  let s := forTo (fun i s => s.store i vgaBlack.toUInt16) (vgaRows * vgaCols).toNat s
  { s with row := 0, col := 0 }

/-- `vga_putc`. -/
def putc (c : UInt8) (s : Vga) : Vga :=
  if c = newline then { s.incRow 1 with col := 0 }
  else (s.store s.geti (vgaFormEntry s.vgaColor c)).incCol 1

/-- What `vga_append` returns and leaves behind, with the indices of the string that were read and, for
the specification, the cursor in front of the last position code. -/
structure Appended where
  value : Bool
  reads : List ℕ
  before : Int8 × Int8
  vga : Vga

/-- The loop of `vga_append` from character `i` on, at most `left` times. -/
def appendLoop (input : ℕ → UInt8) (len : ℕ) :
    ℕ → ℕ → List ℕ → Int8 × Int8 → Vga → Appended
  | 0, _, reads, before, s => ⟨true, reads, before, s⟩
  | left + 1, i, reads, before, s =>
    if len ≤ i then ⟨true, reads, before, s⟩
    else if input i = ttySetColor then
      appendLoop input len left (i + 2) (reads ++ [i, i + 1]) before
        { s with vgaColor := input (i + 1) }
    else if input i = ttySetPosition then
      let before := (s.row, s.col)
      if vgaCols ≤ (input (i + 1)).toNat then ⟨false, reads ++ [i, i + 1], before, s⟩
      else
        let s := { s with col := (input (i + 1)).toInt8 }
        if vgaRows ≤ (input (i + 2)).toNat then ⟨false, reads ++ [i, i + 1, i + 2], before, s⟩
        else
          appendLoop input len left (i + 3) (reads ++ [i, i + 1, i + 2]) before
            { s with row := (input (i + 2)).toInt8 }
    else appendLoop input len left (i + 1) (reads ++ [i]) before (s.putc (input i))

/-- `vga_append`; `strlen` reads the string up to its NUL. -/
def append (str : CString) (behind : ℕ → UInt8) (s : Vga) : Appended :=
  let len := strlen str.bytes
  appendLoop (str.byteAt behind) len len 0 (List.range (len + 1)) (s.row, s.col) s

section AppendLoop
variable {input : ℕ → UInt8} {len left i : ℕ} {reads : List ℕ} {before : Int8 × Int8} {s : Vga}

lemma appendLoop_end (hi : len ≤ i) :
    appendLoop input len left i reads before s = ⟨true, reads, before, s⟩ := by
  cases left with
  | zero => rfl
  | succ left =>
    rw [appendLoop]
    exact if_pos hi

lemma appendLoop_color (hi : i < len) (h : input i = ttySetColor) :
    appendLoop input len (left + 1) i reads before s = appendLoop input len left (i + 2)
      (reads ++ [i, i + 1]) before { s with vgaColor := input (i + 1) } := by
  rw [appendLoop, if_neg hi.not_ge]
  exact if_pos h

lemma appendLoop_position (hi : i < len) (h : input i = ttySetPosition) :
    appendLoop input len (left + 1) i reads before s =
      if vgaCols ≤ (input (i + 1)).toNat then ⟨false, reads ++ [i, i + 1], (s.row, s.col), s⟩
      else if vgaRows ≤ (input (i + 2)).toNat then
        ⟨false, reads ++ [i, i + 1, i + 2], (s.row, s.col), { s with col := (input (i + 1)).toInt8 }⟩
      else
        appendLoop input len left (i + 3) (reads ++ [i, i + 1, i + 2]) (s.row, s.col)
          { s with col := (input (i + 1)).toInt8, row := (input (i + 2)).toInt8 } := by
  have hcolor : input i ≠ ttySetColor := by
    rw [h]
    decide
  rw [appendLoop, if_neg hi.not_ge, if_neg hcolor]
  exact if_pos h

lemma appendLoop_print (hi : i < len) (hc : input i ≠ ttySetColor) (hp : input i ≠ ttySetPosition) :
    appendLoop input len (left + 1) i reads before s =
      appendLoop input len left (i + 1) (reads ++ [i]) before (s.putc (input i)) := by
  rw [appendLoop, if_neg hi.not_ge]
  exact (if_neg hc).trans (if_neg hp)

end AppendLoop

/-- Every access was to one of the 2000 entries of the buffer. -/
def Inside (s : Vga) : Prop := ∀ i ∈ s.touched, 0 ≤ i ∧ i < vgaRows * vgaCols

/-- From `s` on only the buffer has changed, to `f`, and by accesses to its entries. -/
structure Drawn (s : Vga) (f : ℤ → UInt16) (s' : Vga) : Prop where
  buf : s'.vgaBuf = f
  row : s'.row = s.row
  col : s'.col = s.col
  color : s'.vgaColor = s.vgaColor
  inside : s.Inside → s'.Inside

section Draw
variable {s s' : Vga} {f : ℤ → UInt16} {i m n : ℤ} {v : UInt16} {r : ℕ} {rows : UInt8}

lemma Drawn.refl (s : Vga) : Drawn s s.vgaBuf s := ⟨rfl, rfl, rfl, rfl, id⟩

lemma Drawn.touch (h : Drawn s f s') (hi : 0 ≤ i ∧ i < 2000) : Drawn s f (s'.touch i) where
  buf := h.buf
  row := h.row
  col := h.col
  color := h.color
  inside hs j hj := by
    obtain hj | hj := List.mem_append.mp hj
    · exact h.inside hs j hj
    · obtain rfl := List.mem_singleton.mp hj
      exact hi

lemma Drawn.store (h : Drawn s f s') (hi : 0 ≤ i ∧ i < 2000) :
    Drawn s (Function.update f i v) (s'.store i v) where
  buf := by
    rw [← h.buf]
    rfl
  row := h.row
  col := h.col
  color := h.color
  inside hs := (h.touch hi).inside hs

lemma Drawn.coli (h : Drawn s f s') (g : ℤ → Int8) : Drawn s f { s' with coli := g } :=
  ⟨h.buf, h.row, h.col, h.color, h.inside⟩

/-- The entries below `m` come from `n` entries behind. -/
def shifted (n m : ℤ) (f : ℤ → UInt16) (j : ℤ) : UInt16 := if 0 ≤ j ∧ j < m then f (j + n) else f j

/-- The entries from `m` to `n` are blank. -/
def blanked (m n : ℤ) (f : ℤ → UInt16) (j : ℤ) : UInt16 := if m ≤ j ∧ j < n then 0 else f j

/-- An entry is copied before anything is written to it. -/
lemma update_shifted (hm : 0 ≤ m) (hn : 0 ≤ n) :
    Function.update (shifted n m f) m (shifted n m f (n + m)) = shifted n (m + 1) f := by
  funext j
  have hsrc : shifted n m f (n + m) = f (m + n) := by
    rw [shifted, if_neg (by omega), add_comm]
  rw [hsrc]
  by_cases hj : j = m
  · rw [hj, Function.update_self, shifted, if_pos (by omega)]
  · rw [Function.update_of_ne hj, shifted, shifted]
    apply if_congr _ rfl rfl
    omega

lemma update_blanked (hmn : m ≤ n) : Function.update (blanked m n f) n 0 = blanked m (n + 1) f := by
  funext j
  by_cases hj : j = n
  · rw [hj, Function.update_self, blanked, if_pos (by omega)]
  · rw [Function.update_of_ne hj, blanked, blanked]
    apply if_congr _ rfl rfl
    omega

lemma shifted_zero : shifted n 0 f = f := by
  funext j
  exact if_neg (by omega)

lemma blanked_self : blanked m m f = f := by
  funext j
  exact if_neg (by omega)

lemma Drawn.copyRow (hr : r + rows.toNat < 25) (h : Drawn s (shifted (rows.toNat * 80) (r * 80) f) s') :
    Drawn s (shifted (rows.toNat * 80) ((r + 1 : ℕ) * 80) f) (s'.copyRow rows r) := by
  have hloop := forTo_invariant (n := 80) (s := s')
    (I := fun c t => Drawn s (shifted (rows.toNat * 80) (r * 80 + c) f) t)
    (b := fun c s =>
      let i := r * vgaCols + c
      (s.touch (rows.toNat * vgaCols + i)).store i (s.vgaBuf (rows.toNat * vgaCols + i))) ?_ ?_
  · exact Drawn.coli (by simpa [add_mul] using hloop) _
  · intro c hc t ht
    have hin := (ht.touch (i := rows.toNat * 80 + (r * 80 + c)) (by omega)).store
      (i := r * 80 + c) (v := t.vgaBuf (rows.toNat * 80 + (r * 80 + c))) (by omega)
    rw [ht.buf, update_shifted (by omega) (by omega)] at hin
    have hcast : (r * 80 + (c + 1 : ℕ) : ℤ) = r * 80 + c + 1 := by push_cast; ring
    rw [hcast]
    simpa [vgaCols, ht.buf] using hin
  · simpa using h

lemma Drawn.clearRow (hr : r < 25) (hm : m ≤ r * 80) (h : Drawn s (blanked m (r * 80) f) s') :
    Drawn s (blanked m ((r + 1 : ℕ) * 80) f) (s'.clearRow r) := by
  have hloop := forTo_invariant (n := 80) (s := s')
    (I := fun c t => Drawn s (blanked m (r * 80 + c) f) t)
    (b := fun c s => s.store (r * vgaCols + c) vgaBlack.toUInt16) ?_ ?_
  · exact Drawn.coli (by simpa [add_mul] using hloop) _
  · intro c hc t ht
    have hin := ht.store (i := r * 80 + c) (v := 0) (by omega)
    rw [update_blanked (by omega)] at hin
    have hcast : (r * 80 + (c + 1 : ℕ) : ℤ) = r * 80 + c + 1 := by push_cast; ring
    rw [hcast]
    exact hin
  · simpa using h

/-- Scrolling moves the rows up and leaves blank ones behind. -/
lemma drawn_scrollDown (hrows : rows.toNat ≤ 25) (s : Vga) :
    Drawn s (blanked (2000 - rows.toNat * 80) 2000
      (shifted (rows.toNat * 80) (2000 - rows.toNat * 80) s.vgaBuf)) (s.scrollDown rows) := by
  have hkept : (vgaRows - rows.toNat).toNat = 25 - rows.toNat := by
    rw [vgaRows]
    omega
  have hfirst : (UInt8.ofInt (vgaRows - rows.toNat)).toNat = 25 - rows.toNat := by
    have hval : (UInt8.ofInt (vgaRows - rows.toNat)).toNat =
        (((25 : ℤ) - rows.toNat) % 256).toNat % 256 := rfl
    rw [hval]
    omega
  have hcopied := forTo_invariant (n := 25 - rows.toNat) (s := s) (b := copyRow rows)
    (I := fun r t => Drawn s (shifted (rows.toNat * 80) (r * 80) s.vgaBuf) t)
    (fun r hr t ht => Drawn.copyRow (by omega) ht)
    (by simpa [shifted_zero] using Drawn.refl s)
  have hkeep : ((25 - rows.toNat : ℕ) * 80 : ℤ) = 2000 - rows.toNat * 80 := by omega
  have hcleared := forTo_invariant (n := rows.toNat) (s := forTo (copyRow rows) (25 - rows.toNat) s)
    (b := fun k => clearRow (25 - rows.toNat + k))
    (I := fun k t => Drawn s (blanked (2000 - rows.toNat * 80) ((25 - rows.toNat + k : ℕ) * 80)
      (shifted (rows.toNat * 80) (2000 - rows.toNat * 80) s.vgaBuf)) t)
    (fun k hk t ht => Drawn.clearRow (r := 25 - rows.toNat + k) (by omega) (by omega) ht)
    (by rw [Nat.add_zero, hkeep, blanked_self, ← hkeep]; exact hcopied)
  have hend : ((25 - rows.toNat + rows.toNat : ℕ) * 80 : ℤ) = 2000 := by omega
  rw [hend] at hcleared
  have hrest : (vgaRows - (25 - rows.toNat : ℕ)).toNat = rows.toNat := by
    rw [vgaRows]
    omega
  rw [scrollDown, hkept, hfirst, hrest]
  exact hcleared

end Draw

end Vga

end EpochKernel.Driver
