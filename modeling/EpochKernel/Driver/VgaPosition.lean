import EpochKernel.Driver.VgaScreen

/-! The position codes of `vga_append`. The column is stored before the row is checked, and behind a
code at the end of the string the row is read from behind the NUL. -/
namespace EpochKernel.Driver
open Library Util

/-- Nothing behind the NUL was read, and a position that was refused has left the cursor where it
was. -/
def Safe (len : ℕ) (out : Vga.Appended) : Prop :=
  (∀ k ∈ out.reads, k ≤ len) ∧ (out.value = false → (out.vga.row, out.vga.col) = out.before)

/-- The column behind a character. -/
def nextColumn (col : Int8) (c : UInt8) : Int8 :=
  if c = newline then 0
  else
    let col := Int8.ofInt (col.toInt + 1)
    if vgaCols ≤ col.toInt then Int8.ofInt (col.toInt.tmod vgaCols) else col

/-- From column `col` on, no position code is the last character, and none up to the first that is
refused has another valid column with an invalid row. -/
def Respects : Int8 → List UInt8 → Prop
  | _, [] => True
  | _, [c] => c ≠ ttySetPosition
  | col, c :: d :: cs =>
    if c = ttySetColor then Respects col cs
    else if c = ttySetPosition then
      vgaCols ≤ d.toNat ∨
        match cs with
        | [] => True
        | e :: cs => if vgaRows ≤ e.toNat then d.toInt8 = col else Respects d.toInt8 cs
    else Respects (nextColumn col c) (d :: cs)

section Respects
variable {col : Int8} {c d e : UInt8}

lemma respects_color (cs : List UInt8) :
    Respects col (ttySetColor :: d :: cs) ↔ Respects col cs := by
  cases cs <;> simp [Respects]

lemma respects_print (hcolor : c ≠ ttySetColor) (hposition : c ≠ ttySetPosition) (cs : List UInt8) :
    Respects col (c :: cs) ↔ Respects (nextColumn col c) cs := by
  cases cs with
  | nil => exact iff_of_true hposition trivial
  | cons d cs => cases cs <;> simp [Respects, hcolor, hposition]

lemma respects_position (cs : List UInt8) : Respects col (ttySetPosition :: d :: e :: cs) ↔
    vgaCols ≤ d.toNat ∨ if vgaRows ≤ e.toNat then d.toInt8 = col else Respects d.toInt8 cs := by
  have hcolor : ttySetPosition ≠ ttySetColor := by decide
  simp [Respects, hcolor]

lemma respects_position_last : Respects col [ttySetPosition, d] := by
  have hcolor : ttySetPosition ≠ ttySetColor := by decide
  simp [Respects, hcolor]

end Respects

section Column
variable {s : Vga}

/-- The loops do not move the cursor. -/
lemma forTo_col {body : ℕ → Vga → Vga} (h : ∀ i t, (body i t).col = t.col) (n : ℕ) (s : Vga) :
    (forTo body n s).col = s.col :=
  forTo_invariant (I := fun _ t => t.col = s.col) (fun i _ t ht => (h i t).trans ht) rfl

lemma copyRow_col (rows : UInt8) (r : ℕ) (s : Vga) : (s.copyRow rows r).col = s.col := by
  rw [Vga.copyRow]
  dsimp only
  apply forTo_col
  exact fun _ _ => rfl

lemma clearRow_col (r : ℕ) (s : Vga) : (s.clearRow r).col = s.col := by
  rw [Vga.clearRow]
  dsimp only
  apply forTo_col
  exact fun _ _ => rfl

lemma scrollDown_col (rows : UInt8) (s : Vga) : (s.scrollDown rows).col = s.col := by
  rw [Vga.scrollDown, forTo_col fun _ _ => clearRow_col _ _, forTo_col (copyRow_col rows)]

lemma incRow_col (n : UInt16) (s : Vga) : (s.incRow n).col = s.col := by
  rw [Vga.incRow]
  dsimp only
  split_ifs
  · exact scrollDown_col _ _
  · rfl

lemma putc_col (c : UInt8) (s : Vga) : (s.putc c).col = nextColumn s.col c := by
  rw [Vga.putc, nextColumn]
  by_cases hc : c = newline
  · rw [if_pos hc, if_pos hc]
  · rw [if_neg hc, if_neg hc, Vga.incCol]
    dsimp only
    have hcol : (s.store s.geti (vgaFormEntry s.vgaColor c)).col = s.col := rfl
    have hone : ((1 : UInt16).toNat : ℤ) = 1 := rfl
    rw [hcol, hone]
    split_ifs
    · dsimp only
      rw [incRow_col]
    · rfl

end Column

section Loop
variable {input : ℕ → UInt8} {len : ℕ} {out : Vga.Appended}

lemma safe_true {reads : List ℕ} {before : Int8 × Int8} {s : Vga} :
    Safe len ⟨true, reads, before, s⟩ ↔ ∀ k ∈ reads, k ≤ len :=
  ⟨fun h => h.1, fun h => ⟨h, nofun⟩⟩

/-- A position code as the last character leads behind the NUL. -/
lemma not_safe_last {left i : ℕ} {reads : List ℕ} {before : Int8 × Int8} {s : Vga}
    (hp : input i = ttySetPosition) (hend : input (i + 1) = 0) (hi : i + 1 = len) :
    ¬ Safe len (Vga.appendLoop input len (left + 1) i reads before s) := by
  have hread : ∃ k ∈ reads ++ [i, i + 1, i + 2], ¬ k ≤ len := ⟨i + 2, by simp, by omega⟩
  obtain ⟨k, hk, hlen⟩ := hread
  have hcol : ¬ vgaCols ≤ (input (i + 1)).toNat := by
    rw [hend]
    decide
  rw [Vga.appendLoop_position (by omega) hp, if_neg hcol]
  intro h
  split_ifs at h
  · exact hlen (h.1 k hk)
  · rw [Vga.appendLoop_end (by omega)] at h
    exact hlen (h.1 k hk)

/-- The loop is safe exactly if the rest of the string respects the column. -/
lemma safe_appendLoop_iff {left : ℕ} : ∀ {i cs reads before s}, Holds input i cs →
    i + cs.length = len → input len = 0 → cs.length ≤ left → (∀ k ∈ reads, k ≤ len) →
    (Safe len (Vga.appendLoop input len left i reads before s) ↔ Respects s.col cs) := by
  induction left with
  | zero =>
    intro i cs reads before s _ _ _ hleft hreads
    obtain rfl : cs = [] := List.length_eq_zero_iff.mp (Nat.le_zero.mp hleft)
    exact iff_of_true (safe_true.mpr hreads) trivial
  | succ left ih =>
    intro i cs reads before s hcs hi hend hleft hreads
    cases cs with
    | nil =>
      obtain rfl : i = len := hi
      rw [Vga.appendLoop_end le_rfl]
      exact iff_of_true (safe_true.mpr hreads) trivial
    | cons c cs =>
      obtain ⟨rfl, hcs⟩ := hcs
      rw [List.length_cons] at hi hleft
      have hlt : i < len := by omega
      have hone : ∀ k ∈ reads ++ [i], k ≤ len := by
        simpa [or_imp, forall_and, hlt.le] using hreads
      have htwo : ∀ k ∈ reads ++ [i, i + 1], k ≤ len := by
        simpa [or_imp, forall_and, hlt.le, Nat.succ_le_of_lt hlt] using hreads
      have hcolumn := putc_col (input i) s
      by_cases hcolor : input i = ttySetColor
      · rw [Vga.appendLoop_color hlt hcolor]
        cases cs with
        | nil =>
          rw [List.length_nil] at hi
          rw [Vga.appendLoop_end (by omega), hcolor]
          exact iff_of_true (safe_true.mpr htwo) (by simp [Respects, ttySetColor, ttySetPosition])
        | cons d cs =>
          rw [List.length_cons] at hi hleft
          rw [hcolor, respects_color]
          exact ih hcs.2 (by omega) hend (by omega) htwo
      · by_cases hposition : input i = ttySetPosition
        · cases cs with
          | nil =>
            obtain rfl : i + 1 = len := hi
            apply iff_of_false (not_safe_last hposition hend rfl)
            exact not_not_intro hposition
          | cons d cs =>
            rw [List.length_cons] at hi hleft
            obtain ⟨rfl, hcs⟩ := hcs
            have hthree : ∀ k ∈ reads ++ [i, i + 1, i + 2], k ≤ len := by
              have : i + 2 ≤ len := by omega
              simpa [or_imp, forall_and, hlt.le, Nat.succ_le_of_lt hlt, this] using hreads
            rw [Vga.appendLoop_position hlt hposition, hposition]
            cases cs with
            | nil =>
              have hzero : ¬ vgaRows ≤ (input (i + 2)).toNat := by
                obtain rfl : i + 2 = len := hi
                rw [hend]
                decide
              apply iff_of_true _ respects_position_last
              split_ifs
              · exact ⟨htwo, fun _ => rfl⟩
              · rw [Vga.appendLoop_end (by rw [List.length_nil] at hi; omega)]
                exact safe_true.mpr hthree
            | cons e cs =>
              rw [List.length_cons] at hi hleft
              obtain ⟨rfl, hcs⟩ := hcs
              rw [respects_position]
              by_cases hcol : vgaCols ≤ (input (i + 1)).toNat
              · rw [if_pos hcol]
                exact iff_of_true ⟨htwo, fun _ => rfl⟩ (Or.inl hcol)
              · rw [if_neg hcol, or_iff_right hcol]
                by_cases hrow : vgaRows ≤ (input (i + 2)).toNat
                · rw [if_pos hrow, if_pos hrow]
                  -- the column is stored although the row is refused
                  constructor
                  · intro h
                    exact (Prod.mk.inj (h.2 rfl)).2
                  · intro h
                    exact ⟨hthree, fun _ => congrArg (Prod.mk s.row) h⟩
                · rw [if_neg hrow, if_neg hrow]
                  exact ih hcs (by omega) hend (by omega) hthree
        · rw [Vga.appendLoop_print hlt hcolor hposition, respects_print hcolor hposition, ← hcolumn]
          exact ih hcs (by omega) hend (by omega) hone

end Loop

/-- `vga_append` is safe exactly on the strings that respect the column of the cursor. -/
theorem safe_append_iff (str : CString) (behind : ℕ → UInt8) (s : Vga) :
    Safe str.chars.length (s.append str behind) ↔ Respects s.col str.chars := by
  have hlen := str.strlen_bytes
  rw [Vga.append, hlen]
  apply safe_appendLoop_iff
  · exact holds_chars str behind
  · exact Nat.zero_add _
  · exact str.byteAt_length behind
  · exact le_rfl
  · intro k hk
    exact Nat.lt_succ_iff.mp (List.mem_range.mp hk)

/-- The column 5 with the row 64. -/
def halfValid : CString := ⟨[0x02, 0x05, 0x40], by simp⟩

/-- A position code without a position. -/
def truncated : CString := ⟨[0x02], by simp⟩

/-- The column of the refused position is kept, and the row of the missing one is read from behind the
NUL. -/
theorem not_safe_halfValid : ¬ Safe 3 (Vga.initial.append halfValid fun _ => 0) ∧
    ¬ Safe 1 (Vga.initial.append truncated fun _ => 0) := by
  constructor
  · intro h
    have hcol : (Vga.initial.append halfValid fun _ => 0).vga.col = 5 := by decide
    have hbefore : (Vga.initial.append halfValid fun _ => 0).before = (0, 0) := by decide
    have hcursor := (Prod.ext_iff.mp (h.2 (by decide))).2
    rw [hbefore, hcol] at hcursor
    exact absurd hcursor (by decide)
  · intro h
    exact absurd (h.1 2 (by decide)) (by decide)

end EpochKernel.Driver
