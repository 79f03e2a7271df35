import EpochKernel.Driver.VgaPosition
import EpochKernel.Driver.VgaScreen
import EpochKernel.Util.Io

/-! `kprintf` on the screen: the text that a format gives reaches the terminal that the screen shows, and
no string is read behind its NUL. -/
namespace EpochKernel.Driver
open Library Util

section Sink
variable {σ : Type*} (read : ℕ → σ → σ) (putc : UInt8 → σ → σ) (puts : List UInt8 → σ → σ)

/-- The case of the switch of `kprintf_internal` for `c`, with the functions that it is passed. -/
def convertTo (c : UInt8) : Arg → σ → Option σ
  | .u32 n, s => if c = 0x75 then some (puts (itoa n.toUInt64) s) else none
  | .u64 n, s => if c = 0x78 then some (puts (itoaHex n) (putc 0x78 (putc 0x30 s))) else none
  | .str str, s => if c = 0x73 then some (puts str.bytes s) else none
  | .int n, s =>
    if c = 0x63 then some (putc (toChar n) s)
    else if c = 0x43 then some (puts [ttySetColor, toChar n, 0] s)
    else none

/-- The loop of `kprintf_internal` with these functions; `read i` is the access to `format[i]`. -/
def kprintfTo (format : ℕ → UInt8) (len : ℕ) : ℕ → ℕ → List Arg → σ → Option σ
  | 0, _, _, s => some s
  | left + 1, i, list, s =>
    if len ≤ i then some s
    else
      let s := read i s
      if format i = percent then
        let s := read (i + 1) s
        if Supported (format (i + 1)) then
          (list.head?.bind fun a => convertTo putc puts (format (i + 1)) a s).bind fun s =>
            kprintfTo format len left (i + 2) list.tail s
        else kprintfTo format len left (i + 3) list (putc (format (i + 1)) (putc percent s))
      else kprintfTo format len left (i + 1) list (putc (format i) s)

end Sink

/-- The string in a buffer. -/
def CString.ofBuffer (buf : List UInt8) : CString where
  chars := Util.puts buf
  nonzero c hc := by simpa using List.mem_takeWhile_imp hc

/-- A call of `kprintf`, with what is in memory behind the strings. -/
structure Print where
  format : CString
  list : List Arg
  behind : ℕ → UInt8

/-- The screen, and the strings that were read with the indices. -/
structure Console where
  vga : Vga
  reads : List (CString × ℕ) := []

namespace Console

def read (str : CString) (i : ℕ) (s : Console) : Console := { s with reads := s.reads ++ [(str, i)] }

def putc (c : UInt8) (s : Console) : Console := { s with vga := s.vga.putc c }

/-- `vga_append` of a buffer, in front of the bytes `behind`. -/
def puts (behind : ℕ → UInt8) (buf : List UInt8) (s : Console) : Console :=
  let str := CString.ofBuffer buf
  let out := s.vga.append str fun i => (buf[(Util.puts buf).length + 1 + i]?).getD (behind i)
  { vga := out.vga, reads := s.reads ++ out.reads.map (str, ·) }

/-- `kprintf`; `strlen` reads the format up to its NUL. -/
def kprintf : Machine Console Print := fun s p =>
  let len := strlen p.format.bytes
  kprintfTo (read p.format) putc (puts p.behind) (p.format.byteAt p.behind) len len 0 p.list
    (forTo (read p.format) (len + 1) s)

/-- The console after `vga_clear`. -/
def cleared (s : Vga) : Console := { vga := ({ s with touched := [] } : Vga).clear }

/-- No string was read behind its NUL. -/
def Within (s : Console) : Prop := ∀ r ∈ s.reads, r.2 ≤ r.1.chars.length

end Console

/-- The characters for the directive `c` that reach the screen. They are those of `argText`, but the
colour is there also if it is zero, which ends the buffer of `%C` and is read as its NUL. -/
def screenText (c : UInt8) : Arg → Option (List UInt8)
  | .int n =>
    if c = 0x63 then some [toChar n]
    else if c = 0x43 then some [ttySetColor, toChar n]
    else none
  | a => argText c a

/-- The reference for the screen: every directive is replaced by its characters. -/
def draw : List UInt8 → List Arg → Option (List UInt8)
  | [], _ => some []
  | [c], _ => some [c]
  | c :: d :: cs, list =>
    if c = percent then
      if Supported d then
        (list.head?.bind (screenText d)).bind fun text => (draw cs list.tail).map (text ++ ·)
      else (draw cs list).map ([percent, d] ++ ·)
    else (draw (d :: cs) list).map (c :: ·)

/-- No character but those of the directive `%C` is one of the codes of the terminal. -/
def Printable : List UInt8 → List Arg → Prop
  | [], _ => True
  | [c], _ => Plain [c]
  | c :: d :: cs, list =>
    if c = percent then
      if Supported d then
        (∀ text, list.head?.bind (screenText d) = some text → Plain text) ∧ Printable cs list.tail
      else Plain [d] ∧ Printable cs list
    else Plain [c] ∧ Printable (d :: cs) list

section Draw
variable {c d : UInt8} {cs : List UInt8} {list : List Arg}

lemma draw_print (h : c ≠ percent) (cs : List UInt8) (list : List Arg) :
    draw (c :: cs) list = (draw cs list).map (c :: ·) := by
  cases cs with
  | nil => rfl
  | cons d cs => rw [draw, if_neg h]

lemma draw_directive (hd : Supported d) (cs : List UInt8) (list : List Arg) :
    draw (percent :: d :: cs) list =
      (list.head?.bind (screenText d)).bind fun text => (draw cs list.tail).map (text ++ ·) := by
  rw [draw, if_pos rfl, if_pos hd]

lemma draw_other (hd : ¬ Supported d) (cs : List UInt8) (list : List Arg) :
    draw (percent :: d :: cs) list = (draw cs list).map ([percent, d] ++ ·) := by
  rw [draw, if_pos rfl, if_neg hd]

lemma screenText_eq {a : Arg} (ha : ∀ n, a = .int n → toChar n ≠ 0) (c : UInt8) :
    screenText c a = argText c a := by
  cases a with
  | int n => rw [screenText, argText, if_neg (ha n rfl)]
  | _ => rfl

/-- Without a colour zero the screen gets the text of the format. -/
lemma draw_eq_render (h : ∀ n, Arg.int n ∈ list → toChar n ≠ 0) : draw cs list = render cs list := by
  fun_induction draw cs list with
  | case1 => rfl
  | case2 => rfl
  | case3 d cs list hd ih =>
    rw [render_directive hd, ih fun n hn => h n (List.mem_of_mem_tail hn)]
    cases list with
    | nil => rfl
    | cons a list =>
      have ha : screenText d a = argText d a :=
        screenText_eq (fun n hn => h n (hn ▸ List.mem_cons_self)) d
      rw [List.head?_cons, Option.bind_some, Option.bind_some, ha]
  | case4 d cs list hd ih => rw [render_other hd, ih h]
  | case5 c d cs list hc ih => rw [render_print hc, ih h]

end Draw

lemma Plain.append {a b : List UInt8} (ha : Plain a) (hb : Plain b) : Plain (a ++ b) := by
  induction a using Plain.induct with
  | case1 => exact hb
  | case2 c =>
    cases b with
    | nil => exact ha
    | cons d b =>
      change Plain (c :: d :: b)
      rw [Plain, if_neg ha.1]
      exact ⟨ha.2, hb⟩
  | case3 d cs ih =>
    rw [Plain, if_pos rfl] at ha
    change Plain (ttySetColor :: d :: (cs ++ b))
    rw [Plain, if_pos rfl]
    exact ih ha
  | case4 c d cs hc ih =>
    rw [Plain, if_neg hc] at ha
    change Plain (c :: d :: (cs ++ b))
    rw [Plain, if_neg hc]
    exact ⟨ha.1, ih ha.2⟩

lemma Plain.of_append {a b : List UInt8} (h : Plain (a ++ b)) (ha : Plain a) : Plain b := by
  induction a using Plain.induct with
  | case1 => exact h
  | case2 c =>
    cases b with
    | nil => trivial
    | cons d b =>
      change Plain (c :: d :: b) at h
      rw [Plain, if_neg ha.1] at h
      exact h.2
  | case3 d cs ih =>
    rw [Plain, if_pos rfl] at ha
    change Plain (ttySetColor :: d :: (cs ++ b)) at h
    rw [Plain, if_pos rfl] at h
    exact ih h ha
  | case4 c d cs hc ih =>
    rw [Plain, if_neg hc] at ha
    change Plain (c :: d :: (cs ++ b)) at h
    rw [Plain, if_neg hc] at h
    exact ih h.2 ha.2

namespace Terminal

@[simp] lemma append_nil (T : Terminal) : T.append [] = T := rfl

lemma append_cons (T : Terminal) {c : UInt8} (hc : c ≠ ttySetColor) (cs : List UInt8) :
    T.append (c :: cs) = (T.putc c).append cs := by
  cases cs with
  | nil => rfl
  | cons d cs => rw [append, if_neg hc]

/-- A text that is plain leaves no colour code open. -/
lemma append_append (T : Terminal) {a : List UInt8} (ha : Plain a) (b : List UInt8) :
    T.append (a ++ b) = (T.append a).append b := by
  induction a using Plain.induct generalizing T with
  | case1 => rfl
  | case2 c => exact T.append_cons ha.1 b
  | case3 d cs ih =>
    rw [Plain, if_pos rfl] at ha
    change T.append (ttySetColor :: d :: (cs ++ b)) = _
    rw [append, if_pos rfl, append, if_pos rfl]
    exact ih _ ha
  | case4 c d cs hc ih =>
    rw [Plain, if_neg hc] at ha
    change T.append (c :: d :: (cs ++ b)) = _
    rw [append, if_neg hc, append, if_neg hc]
    exact ih _ ha.2

end Terminal

section Follow
variable {σ : Type*} {read : ℕ → σ → σ} {putc : UInt8 → σ → σ} {puts : List UInt8 → σ → σ}
  {R : List UInt8 → σ → Prop} {format : ℕ → UInt8} {len left : ℕ}

lemma printable_print {c : UInt8} (h : c ≠ percent) {cs : List UInt8} {list : List Arg}
    (hp : Printable (c :: cs) list) : Plain [c] ∧ Printable cs list := by
  cases cs with
  | nil => exact ⟨hp, trivial⟩
  | cons d cs =>
    rw [Printable, if_neg h] at hp
    exact hp

/-- The functions that `kprintf_internal` is passed keep `R` between the characters so far and the
state. -/
structure Keeps (read : ℕ → σ → σ) (putc : UInt8 → σ → σ) (puts : List UInt8 → σ → σ) (len : ℕ)
    (R : List UInt8 → σ → Prop) : Prop where
  color : ∀ c out s, R out s → R (out ++ [ttySetColor, c]) (puts [ttySetColor, c, 0] s)
  puts : ∀ buf out s, Plain (Util.puts buf) → R out s → R (out ++ Util.puts buf) (puts buf s)
  putc : ∀ c out s, Plain [c] → R out s → R (out ++ [c]) (putc c s)
  read : ∀ i out s, i ≤ len → R out s → R out (read i s)

/-- A directive adds its characters. -/
lemma convertTo_follows (hR : Keeps read putc puts len R) {c : UInt8} {a : Arg} {text out : List UInt8}
    {s : σ} (ht : screenText c a = some text) (hplain : Plain text) (h : R out s) :
    ∃ s', convertTo putc puts c a s = some s' ∧ R (out ++ text) s' := by
  cases a with
  | u32 n =>
    change argText c (.u32 n) = some text at ht
    rw [← convert_eq, convert] at ht
    obtain ⟨hc, ht⟩ := Option.ite_none_right_eq_some.mp ht
    rw [convertTo, if_pos hc]
    generalize itoa n.toUInt64 = buf at ht ⊢
    obtain rfl := Option.some.inj ht
    exact ⟨_, rfl, hR.puts _ _ _ hplain h⟩
  | u64 n =>
    change argText c (.u64 n) = some text at ht
    rw [← convert_eq, convert] at ht
    obtain ⟨hc, ht⟩ := Option.ite_none_right_eq_some.mp ht
    rw [convertTo, if_pos hc]
    generalize itoaHex n = buf at ht ⊢
    obtain rfl := Option.some.inj ht
    have hzero : Plain [(0x30 : UInt8)] := ⟨by decide, by decide⟩
    have hx : Plain [(0x78 : UInt8)] := ⟨by decide, by decide⟩
    have hrest : Plain (Util.puts buf) := hplain.of_append (hzero.append hx)
    have h1 := hR.puts _ _ _ hrest (hR.putc _ _ _ hx (hR.putc _ _ _ hzero h))
    rw [List.append_assoc, List.append_assoc] at h1
    exact ⟨_, rfl, h1⟩
  | str str =>
    change argText c (.str str) = some text at ht
    rw [← convert_eq, convert] at ht
    obtain ⟨hc, ht⟩ := Option.ite_none_right_eq_some.mp ht
    obtain rfl := Option.some.inj ht
    rw [convertTo, if_pos hc]
    exact ⟨_, rfl, hR.puts _ _ _ hplain h⟩
  | int n =>
    rw [screenText] at ht
    rw [convertTo]
    by_cases hc : c = 0x63
    · rw [if_pos hc] at ht
      obtain rfl := Option.some.inj ht
      rw [if_pos hc]
      exact ⟨_, rfl, hR.putc _ _ _ hplain h⟩
    · rw [if_neg hc] at ht
      obtain ⟨hc', ht⟩ := Option.ite_none_right_eq_some.mp ht
      obtain rfl := Option.some.inj ht
      rw [if_neg hc, if_pos hc']
      exact ⟨_, rfl, hR.color _ _ _ h⟩

/-- Whatever follows the functions through plain texts follows the loop through a format. -/
lemma kprintfTo_follows (hR : Keeps read putc puts len R) :
    ∀ {i cs list out text s}, Holds format i cs → i + cs.length = len → cs.length ≤ left → Clean cs →
      Printable cs list → draw cs list = some text → R out s →
      ∃ s', kprintfTo read putc puts format len left i list s = some s' ∧ R (out ++ text) s' := by
  induction left with
  | zero =>
    intro i cs list out text s _ _ hleft _ _ h hs
    obtain rfl : cs = [] := List.length_eq_zero_iff.mp (Nat.le_zero.mp hleft)
    obtain rfl : [] = text := Option.some.inj h
    rw [List.append_nil]
    exact ⟨s, rfl, hs⟩
  | succ left ih =>
    intro i cs list out text s hcs hi hleft hclean hp h hs
    rw [kprintfTo]
    cases cs with
    | nil =>
      obtain rfl : [] = text := Option.some.inj h
      rw [List.append_nil]
      exact ⟨s, if_pos hi.ge, hs⟩
    | cons c cs =>
      obtain ⟨rfl, hcs⟩ := hcs
      rw [List.length_cons] at hi hleft
      have hlt : i < len := by omega
      have hread := hR.read i out s hlt.le hs
      rw [if_neg hlt.not_ge]
      dsimp only
      by_cases hc : format i = percent
      · rw [if_pos hc]
        cases cs with
        | nil => exact absurd hc hclean
        | cons d cs =>
          obtain ⟨rfl, hcs⟩ := hcs
          rw [List.length_cons] at hi hleft
          rw [hc] at hclean h hp
          rw [Printable, if_pos rfl] at hp
          have hread' := hR.read (i + 1) out _ hlt hread
          by_cases hd : Supported (format (i + 1))
          · rw [clean_directive hd] at hclean
            rw [draw_directive hd] at h
            rw [if_pos hd] at hp ⊢
            obtain ⟨t, ht, h⟩ := Option.bind_eq_some_iff.mp h
            obtain ⟨rest, hrest, rfl⟩ := Option.map_eq_some_iff.mp h
            have hplain := hp.1 t ht
            obtain ⟨a, ha, ht⟩ := Option.bind_eq_some_iff.mp ht
            obtain ⟨s1, hs1, h1⟩ := convertTo_follows hR ht hplain hread'
            obtain ⟨s2, hs2, h2⟩ := ih hcs (by omega) (by omega) hclean hp.2 hrest h1
            rw [List.append_assoc] at h2
            rw [ha, Option.bind_some, hs1, Option.bind_some]
            exact ⟨s2, hs2, h2⟩
          · rw [clean_other hd] at hclean
            rw [draw_other hd, hclean] at h
            rw [if_neg hd] at hp ⊢
            obtain rfl := Option.some.inj h
            rw [hclean, List.length_nil] at hi
            have hpercent : Plain [percent] := ⟨by decide, by decide⟩
            have h2 := hR.putc _ _ _ hp.1 (hR.putc _ _ _ hpercent hread')
            rw [List.append_assoc] at h2
            refine ⟨_, ?_, h2⟩
            cases left with
            | zero => rfl
            | succ left =>
              rw [kprintfTo]
              exact if_pos (by omega)
      · rw [if_neg hc]
        rw [clean_print hc] at hclean
        rw [draw_print hc] at h
        obtain ⟨hplain, hp⟩ := printable_print hc hp
        obtain ⟨rest, hrest, rfl⟩ := Option.map_eq_some_iff.mp h
        obtain ⟨s1, hs1, h1⟩ := ih hcs (by omega) (by omega) hclean hp hrest
          (hR.putc _ _ _ hplain hread)
        rw [List.append_assoc] at h1
        exact ⟨s1, hs1, h1⟩

end Follow

/-- A plain text has no position code. -/
lemma Plain.respects {text : List UInt8} (h : Plain text) (col : Int8) : Respects col text := by
  induction text using Plain.induct generalizing col with
  | case1 => trivial
  | case2 c => exact h.2
  | case3 d cs ih =>
    rw [Plain, if_pos rfl] at h
    rw [respects_color]
    exact ih h col
  | case4 c d cs hc ih =>
    rw [Plain, if_neg hc] at h
    rw [respects_print hc h.1]
    exact ih h.2 _

section Screen
variable {T : Terminal} {s : Console} {out : List UInt8}

/-- The screen shows the terminal after a plain text, and strings were read up to their NUL. -/
structure Typed (T : Terminal) (out : List UInt8) (s : Console) : Prop where
  fits : (T.append out).Fits
  shows : Shows (T.append out) s.vga
  plain : Plain out
  within : s.Within

lemma Console.Within.read (h : s.Within) {str : CString} {i : ℕ} (hi : i ≤ str.chars.length) :
    (s.read str i).Within := by
  intro r hr
  obtain hr | hr := List.mem_append.mp hr
  · exact h r hr
  · obtain rfl := List.mem_singleton.mp hr
    exact hi

lemma Typed.read (h : Typed T out s) {str : CString} {i : ℕ} (hi : i ≤ str.chars.length) :
    Typed T out (s.read str i) :=
  ⟨h.fits, h.shows, h.plain, h.within.read hi⟩

lemma Typed.putc (h : Typed T out s) {c : UInt8} (hc : Plain [c]) :
    Typed T (out ++ [c]) (s.putc c) := by
  have happend : T.append (out ++ [c]) = (T.append out).putc c := T.append_append h.plain [c]
  refine ⟨?_, ?_, h.plain.append hc, h.within⟩
  · rw [happend]
    exact h.fits.putc c
  · rw [happend]
    exact h.shows.putc h.fits c

/-- `vga_append` reads a plain string up to its NUL. -/
lemma append_reads {str : CString} (hstr : Plain str.chars) (behind : ℕ → UInt8) (v : Vga) :
    ∀ k ∈ (v.append str behind).reads, k ≤ str.chars.length := by
  have hlen := str.strlen_bytes
  have hbefore : ∀ k ∈ List.range (str.chars.length + 1), k ≤ str.chars.length :=
    fun k hk => Nat.lt_succ_iff.mp (List.mem_range.mp hk)
  rw [Vga.append, hlen]
  exact ((safe_appendLoop_iff (holds_chars str behind) (Nat.zero_add _) (str.byteAt_length behind) le_rfl
    hbefore).mpr (hstr.respects _)).1

lemma Console.Within.puts (h : s.Within) {buf : List UInt8} {behind : ℕ → UInt8}
    (hreads : ∀ k ∈ (s.vga.append (CString.ofBuffer buf) fun i =>
      (buf[(Util.puts buf).length + 1 + i]?).getD (behind i)).reads, k ≤ (Util.puts buf).length) :
    (s.puts behind buf).Within := by
  intro r hr
  obtain hr | hr := List.mem_append.mp hr
  · exact h r hr
  · obtain ⟨k, hk, rfl⟩ := List.mem_map.mp hr
    exact hreads k hk

lemma Typed.puts (h : Typed T out s) {buf : List UInt8} (behind : ℕ → UInt8)
    (hbuf : Plain (Util.puts buf)) : Typed T (out ++ Util.puts buf) (s.puts behind buf) := by
  have hlen := (CString.ofBuffer buf).strlen_bytes
  have hend : 0 + (Util.puts buf).length = strlen (CString.ofBuffer buf).bytes := by
    rw [Nat.zero_add, hlen]
    rfl
  have hloop : ((T.append out).append (Util.puts buf)).Fits ∧
      Shows ((T.append out).append (Util.puts buf)) (s.puts behind buf).vga :=
    h.shows.appendLoop (holds_chars (CString.ofBuffer buf) _) hbuf hend hlen.ge h.fits
  obtain ⟨hfits, hshows⟩ := hloop
  rw [← T.append_append h.plain] at hfits hshows
  exact ⟨hfits, hshows, h.plain.append hbuf, h.within.puts (append_reads hbuf _ _)⟩

/-- A colour code at the end of the string takes the NUL for the colour. -/
lemma append_openColor {str : CString} (hstr : str.chars = [ttySetColor]) (behind : ℕ → UInt8)
    (v : Vga) : v.append str behind =
      ⟨true, [0, 1, 0, 1], (v.row, v.col), { v with vgaColor := 0 }⟩ := by
  have hlen : strlen str.bytes = 1 := by rw [str.strlen_bytes, hstr, List.length_singleton]
  have hcode : str.byteAt behind 0 = ttySetColor := by
    have h := holds_chars str behind
    rw [hstr] at h
    exact h.1
  have hnul : str.byteAt behind (0 + 1) = 0 := by
    have h := str.byteAt_length behind
    rw [hstr] at h
    exact h
  rw [Vga.append, hlen, Vga.appendLoop_color one_pos hcode, Vga.appendLoop_end (by norm_num), hnul]
  rfl

/-- The buffer of `%C` sets the colour, be it the NUL of the buffer. -/
lemma Typed.color (h : Typed T out s) (behind : ℕ → UInt8) (c : UInt8) :
    Typed T (out ++ [ttySetColor, c]) (s.puts behind [ttySetColor, c, 0]) := by
  have hplain : Plain [ttySetColor, c] := by
    rw [Plain, if_pos rfl]
    trivial
  have happend : T.append (out ++ [ttySetColor, c]) = { T.append out with color := c } := by
    rw [T.append_append h.plain, Terminal.append, if_pos rfl]
    rfl
  by_cases hc : c = 0
  · have hchars : (CString.ofBuffer [ttySetColor, c, 0]).chars = [ttySetColor] := by
      simp [CString.ofBuffer, Util.puts, ttySetColor, hc]
    refine ⟨?_, ?_, h.plain.append hplain, h.within.puts ?_⟩
    · rw [happend]
      exact ⟨h.fits.col, h.fits.below⟩
    · rw [happend, Console.puts, append_openColor hchars, hc]
      exact ⟨h.shows.row, h.shows.col, rfl, h.shows.cells, h.shows.inside⟩
    · have hlen : (Util.puts [ttySetColor, c, 0]).length = 1 := congrArg List.length hchars
      rw [append_openColor hchars, hlen]
      intro k hk
      simp only [List.mem_cons, List.not_mem_nil, or_false] at hk
      omega
  · have hbuf : Util.puts [ttySetColor, c, 0] = [ttySetColor, c] := by
      simp [Util.puts, ttySetColor, hc]
    have hput : Plain (Util.puts [ttySetColor, c, 0]) := by rwa [hbuf]
    have hputs := h.puts behind hput
    rw [hbuf] at hputs
    exact hputs

/-- One call of `kprintf`. -/
lemma Typed.kprintf (h : Typed T out s) {p : Print} {text : List UInt8} (hclean : Clean p.format.chars)
    (hp : Printable p.format.chars p.list) (ht : draw p.format.chars p.list = some text) :
    ∃ s', s.kprintf p = some s' ∧ Typed T (out ++ text) s' := by
  have hlen := p.format.strlen_bytes
  have hend : 0 + p.format.chars.length = strlen p.format.bytes := by rw [Nat.zero_add, hlen]
  have hstart : Typed T out (forTo (Console.read p.format) (strlen p.format.bytes + 1) s) := by
    apply forTo_invariant (I := fun _ => Typed T out) _ h
    intro i hi t ht
    exact ht.read (by omega)
  have hkeeps : Keeps (Console.read p.format) Console.putc (Console.puts p.behind)
      (strlen p.format.bytes) (Typed T) := by
    constructor
    · exact fun c out s h => h.color p.behind c
    · exact fun buf out s hbuf h => h.puts p.behind hbuf
    · exact fun c out s hc h => h.putc hc
    · exact fun i out s hi h => h.read (hi.trans hlen.le)
  exact kprintfTo_follows hkeeps (holds_chars p.format p.behind) hend hlen.ge hclean hp ht hstart

lemma Typed.kprintfs {prints : List Print} {texts : List (List UInt8)}
    (hclean : ∀ p ∈ prints, Clean p.format.chars) (hp : ∀ p ∈ prints, Printable p.format.chars p.list)
    (ht : List.Forall₂ (fun p text => draw p.format.chars p.list = some text) prints texts)
    (h : Typed T out s) :
    ∃ s', Machine.run Console.kprintf s prints = some s' ∧ Typed T (out ++ texts.flatten) s' := by
  induction ht generalizing out s with
  | nil =>
    rw [List.flatten_nil, List.append_nil]
    exact ⟨s, rfl, h⟩
  | cons htext _ ih =>
    obtain ⟨hc, hclean⟩ := List.forall_mem_cons.mp hclean
    obtain ⟨hpp, hp⟩ := List.forall_mem_cons.mp hp
    obtain ⟨s1, hs1, h1⟩ := h.kprintf hc hpp htext
    obtain ⟨s2, hs2, h2⟩ := ih hclean hp h1
    rw [List.append_assoc] at h2
    rw [Machine.run_cons, hs1, List.flatten_cons]
    exact ⟨s2, hs2, h2⟩

lemma typed_cleared (v : Vga) : Typed (Terminal.empty v.vgaColor) [] (Console.cleared v) :=
  ⟨Terminal.fits_empty _, shows_clear (s := { v with touched := [] }) (by simp [Vga.Inside]), trivial,
    nofun⟩

/-- After `vga_clear` and any calls of `kprintf` the screen shows the texts, one behind the other, and no
string was read behind its NUL. -/
theorem kprintf_shows (v : Vga) (prints : List Print) (texts : List (List UInt8))
    (hclean : ∀ p ∈ prints, Clean p.format.chars) (hp : ∀ p ∈ prints, Printable p.format.chars p.list)
    (ht : List.Forall₂ (fun p text => draw p.format.chars p.list = some text) prints texts) :
    ∃ s', Machine.run Console.kprintf (Console.cleared v) prints = some s' ∧
      Shows ((Terminal.empty v.vgaColor).append texts.flatten) s'.vga ∧ s'.Within := by
  obtain ⟨s', hrun, h⟩ := (typed_cleared v).kprintfs hclean hp ht
  exact ⟨s', hrun, h.shows, h.within⟩

end Screen

/-- A red string on a line of its own, and black behind it. -/
def redLine : Print where
  format := ⟨[0x25, 0x43, 0x25, 0x73, 0x0a, 0x25, 0x43], by simp⟩
  list := [.int 4, .str ⟨[0x68, 0x69], by simp⟩, .int 0]
  behind _ := 0

theorem kprintf_shows_redLine : ∃ s', Machine.run Console.kprintf (Console.cleared Vga.initial)
      [redLine] = some s' ∧
    Shows ((Terminal.empty 0x0f).append [0x01, 0x04, 0x68, 0x69, 0x0a, 0x01, 0x00]) s'.vga ∧
    s'.Within := by
  have hred : toChar 4 = 4 := by decide
  have hblack : toChar 0 = 0 := by decide
  refine kprintf_shows Vga.initial [redLine] [[0x01, 0x04, 0x68, 0x69, 0x0a, 0x01, 0x00]] ?_ ?_ ?_
  · intro p hp
    obtain rfl := List.mem_singleton.mp hp
    simp [redLine, Clean, Supported, percent]
  · intro p hp
    obtain rfl := List.mem_singleton.mp hp
    simp [redLine, Printable, Supported, percent, hred, hblack, screenText, argText, Plain, ttySetColor,
      ttySetPosition]
  · refine List.Forall₂.cons ?_ List.Forall₂.nil
    simp [redLine, draw, Supported, percent, hred, hblack, screenText, argText, ttySetColor]

end EpochKernel.Driver
