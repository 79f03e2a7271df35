import EpochKernel.Driver.Vga

/-! `kprintf_internal` of `util/io.cpp`: the characters that it passes to `putc` and `puts`. Behind a
directive that it does not know it skips one character more than it has written. -/
namespace EpochKernel.Util
open EpochKernel.Library
open EpochKernel.Driver (ttySetColor)

/-- `'%'` and the characters of the switch. -/
def percent : UInt8 := 0x25

def Supported (c : UInt8) : Prop := c = 0x75 ∨ c = 0x78 ∨ c = 0x73 ∨ c = 0x63 ∨ c = 0x43

instance : DecidablePred Supported := fun _ => inferInstanceAs (Decidable (_ ∨ _))

/-- A value of the argument list. -/
inductive Arg
  | u32 (n : UInt32)
  | u64 (n : UInt64)
  | str (s : CString)
  | int (n : Int32)

/-- What `puts` writes of a buffer. -/
def puts (buf : List UInt8) : List UInt8 := buf.takeWhile (· ≠ 0)

/-- The conversion of an `int` to `char`. -/
def toChar (n : Int32) : UInt8 := n.toUInt32.toUInt8

/-- The case of the switch for `c` with the value that `va_arg` gives, which has to be of the type that
the case asks for. -/
def convert (c : UInt8) : Arg → Option (List UInt8)
  | .u32 n => if c = 0x75 then some (puts (itoa n.toUInt64)) else none
  | .u64 n => if c = 0x78 then some ([0x30, 0x78] ++ puts (itoaHex n)) else none
  | .str s => if c = 0x73 then some (puts s.bytes) else none
  | .int n =>
    if c = 0x63 then some [toChar n]
    else if c = 0x43 then some (puts [ttySetColor, toChar n, 0])
    else none

/-- The loop of `kprintf_internal` from character `i` on, at most `left` times. It gives nothing if a
value is missing or of the wrong type. -/
def kprintfLoop (format : ℕ → UInt8) (len : ℕ) : ℕ → ℕ → List Arg → List UInt8 → Option (List UInt8)
  | 0, _, _, out => some out
  | left + 1, i, list, out =>
    if len ≤ i then some out
    else if format i = percent then
      if Supported (format (i + 1)) then
        (list.head?.bind (convert (format (i + 1)))).bind fun text =>
          kprintfLoop format len left (i + 2) list.tail (out ++ text)
      else kprintfLoop format len left (i + 3) list (out ++ [percent, format (i + 1)])
    else kprintfLoop format len left (i + 1) list (out ++ [format i])

/-- `kprintf_internal`. -/
def kprintfInternal (format : CString) (behind : ℕ → UInt8) (list : List Arg) : Option (List UInt8) :=
  let len := strlen format.bytes
  kprintfLoop (format.byteAt behind) len len 0 list []

/-- The text of a value for the directive `c`; there is none if it does not match. -/
def argText (c : UInt8) : Arg → Option (List UInt8)
  | .u32 n => if c = 0x75 then some (decimal n.toNat) else none
  | .u64 n =>
    if c = 0x78 then some ([0x30, 0x78] ++ characters (Numeral.fixed 16 16 n.toNat)) else none
  | .str s => if c = 0x73 then some s.chars else none
  | .int n =>
    if c = 0x63 then some [toChar n]
    else if c = 0x43 then some (ttySetColor :: if toChar n = 0 then [] else [toChar n])
    else none

/-- The reference: every directive is replaced by the text of its value, everything else is kept. There
is nothing if the values do not match the directives. -/
def render : List UInt8 → List Arg → Option (List UInt8)
  | [], _ => some []
  | [c], _ => some [c]
  | c :: d :: cs, list =>
    if c = percent then
      if Supported d then
        (list.head?.bind (argText d)).bind fun text => (render cs list.tail).map (text ++ ·)
      else (render cs list).map ([percent, d] ++ ·)
    else (render (d :: cs) list).map (c :: ·)

/-- A directive that is not supported ends the format, and no `'%'` does on its own. -/
def Clean : List UInt8 → Prop
  | [] => True
  | [c] => c ≠ percent
  | c :: d :: cs => if c = percent then (if Supported d then Clean cs else cs = []) else Clean (d :: cs)

/-- The format is rendered for all values that match it. -/
def Renders (format : CString) : Prop :=
  ∀ behind list out, render format.chars list = some out → kprintfInternal format behind list = some out

section Text

lemma puts_append {text : List UInt8} (h : ∀ c ∈ text, c ≠ 0) (rest : List UInt8) :
    puts (text ++ 0 :: rest) = text := by
  induction text with
  | nil => rfl
  | cons c text ih =>
    obtain ⟨hc, htext⟩ := List.forall_mem_cons.mp h
    rw [puts, List.cons_append, List.takeWhile_cons_of_pos (by simp [hc])]
    exact congrArg (c :: ·) (ih htext)

lemma itoaHexLoop_eq (w : ℕ) (n : UInt64) :
    itoaHexLoop w n = characters (Numeral.fixed 16 w n.toNat) := by
  induction w generalizing n with
  | zero => rfl
  | succ w ih =>
    have hshift : (n >>> 4).toNat = n.toNat / 16 := by
      rw [UInt64.toNat_shiftRight, Nat.shiftRight_eq_div_pow]
      rfl
    have hdigit : itoc (n % 16).toUInt32 = itoc (UInt32.ofNat (n.toNat % 16)) := rfl
    rw [itoaHexLoop, ih, hshift, hdigit, Numeral.fixed, characters, characters, List.map_append]
    rfl

lemma puts_itoa (n : UInt32) : puts (itoa n.toUInt64) = decimal n.toNat := by
  have hlt := n.toNat_lt
  have hnum : n.toUInt64.toNat = n.toNat := UInt32.toNat_toUInt64 n
  rw [itoa_eq (by omega), hnum, decimal]
  apply puts_append
  apply characters_ne_zero
  intro d hd
  exact (Numeral.lt_of_mem_canonical (by norm_num) hd).trans (by norm_num)

lemma puts_itoaHex (n : UInt64) : puts (itoaHex n) = characters (Numeral.fixed 16 16 n.toNat) := by
  rw [itoaHex, itoaHexLoop_eq]
  apply puts_append
  apply characters_ne_zero
  exact fun d hd => Numeral.lt_of_mem_fixed (by norm_num) hd

/-- Each case of the switch writes the text of its value. -/
lemma convert_eq (c : UInt8) (a : Arg) : convert c a = argText c a := by
  cases a with
  | u32 n => rw [convert, argText, puts_itoa]
  | u64 n => rw [convert, argText, puts_itoaHex]
  | str s => rw [convert, argText, CString.bytes, puts_append s.nonzero]
  | int n =>
    have hcolor : puts [ttySetColor, toChar n, 0] =
        ttySetColor :: if toChar n = 0 then [] else [toChar n] := by
      by_cases h : toChar n = 0 <;> simp [puts, ttySetColor, h]
    rw [convert, argText, hcolor]

end Text

section Loop
variable {format : ℕ → UInt8} {len left i : ℕ} {a : Arg} {list : List Arg} {out : List UInt8}

lemma kprintfLoop_end (hi : len ≤ i) : kprintfLoop format len left i list out = some out := by
  cases left with
  | zero => rfl
  | succ left =>
    rw [kprintfLoop]
    exact if_pos hi

lemma kprintfLoop_print (hi : i < len) (h : format i ≠ percent) :
    kprintfLoop format len (left + 1) i list out =
      kprintfLoop format len left (i + 1) list (out ++ [format i]) := by
  rw [kprintfLoop, if_neg hi.not_ge, if_neg h]

lemma kprintfLoop_directive (hi : i < len) (h : format i = percent) (hc : Supported (format (i + 1))) :
    kprintfLoop format len (left + 1) i list out =
      (list.head?.bind (argText (format (i + 1)))).bind fun text =>
        kprintfLoop format len left (i + 2) list.tail (out ++ text) := by
  have hconvert : convert (format (i + 1)) = argText (format (i + 1)) := funext (convert_eq _)
  rw [kprintfLoop, if_neg hi.not_ge, if_pos h, if_pos hc, hconvert]

lemma kprintfLoop_other (hi : i < len) (h : format i = percent) (hc : ¬ Supported (format (i + 1))) :
    kprintfLoop format len (left + 1) i list out =
      kprintfLoop format len left (i + 3) list (out ++ [percent, format (i + 1)]) := by
  rw [kprintfLoop, if_neg hi.not_ge, if_pos h, if_neg hc]

end Loop

section Render
variable {c d : UInt8} {cs : List UInt8} {a : Arg} {list : List Arg}

lemma render_print (h : c ≠ percent) (cs : List UInt8) (list : List Arg) :
    render (c :: cs) list = (render cs list).map (c :: ·) := by
  cases cs with
  | nil => rfl
  | cons d cs => rw [render, if_neg h]

lemma render_directive (hd : Supported d) (cs : List UInt8) (list : List Arg) :
    render (percent :: d :: cs) list =
      (list.head?.bind (argText d)).bind fun text => (render cs list.tail).map (text ++ ·) := by
  rw [render, if_pos rfl, if_pos hd]

lemma render_other (hd : ¬ Supported d) (cs : List UInt8) (list : List Arg) :
    render (percent :: d :: cs) list = (render cs list).map ([percent, d] ++ ·) := by
  rw [render, if_pos rfl, if_neg hd]

end Render

section Clean
variable {format : ℕ → UInt8} {len left : ℕ}

lemma clean_print {c : UInt8} (h : c ≠ percent) (cs : List UInt8) : Clean (c :: cs) ↔ Clean cs := by
  cases cs with
  | nil => exact iff_of_true h trivial
  | cons d cs => rw [Clean, if_neg h]

lemma clean_directive {d : UInt8} (hd : Supported d) (cs : List UInt8) :
    Clean (percent :: d :: cs) ↔ Clean cs := by
  rw [Clean, if_pos rfl, if_pos hd]

lemma clean_other {d : UInt8} (hd : ¬ Supported d) (cs : List UInt8) :
    Clean (percent :: d :: cs) ↔ cs = [] := by
  rw [Clean, if_pos rfl, if_neg hd]

/-- A clean format is rendered. -/
lemma kprintfLoop_of_clean : ∀ {i cs list out text}, Holds format i cs → i + cs.length = len →
    cs.length ≤ left → Clean cs → render cs list = some text →
    kprintfLoop format len left i list out = some (out ++ text) := by
  induction left with
  | zero =>
    intro i cs list out text _ _ hleft _ h
    obtain rfl : cs = [] := List.length_eq_zero_iff.mp (Nat.le_zero.mp hleft)
    obtain rfl : [] = text := Option.some.inj h
    rw [List.append_nil]
    rfl
  | succ left ih =>
    intro i cs list out text hcs hi hleft hclean h
    cases cs with
    | nil =>
      obtain rfl : [] = text := Option.some.inj h
      rw [List.append_nil]
      exact kprintfLoop_end hi.ge
    | cons c cs =>
      obtain ⟨rfl, hcs⟩ := hcs
      rw [List.length_cons] at hi hleft
      have hlt : i < len := by omega
      by_cases hc : format i = percent
      · cases cs with
        | nil => exact absurd hc hclean
        | cons d cs =>
          obtain ⟨rfl, hcs⟩ := hcs
          rw [List.length_cons] at hi hleft
          rw [hc] at hclean h
          by_cases hd : Supported (format (i + 1))
          · rw [clean_directive hd] at hclean
            rw [render_directive hd] at h
            rw [kprintfLoop_directive hlt hc hd]
            obtain ⟨t, ht, h⟩ := Option.bind_eq_some_iff.mp h
            obtain ⟨rest, hrest, rfl⟩ := Option.map_eq_some_iff.mp h
            rw [ht, Option.bind_some, ih hcs (by omega) (by omega) hclean hrest, List.append_assoc]
          · rw [clean_other hd] at hclean
            rw [render_other hd, hclean] at h
            rw [kprintfLoop_other hlt hc hd]
            obtain rfl := Option.some.inj h
            rw [hclean, List.length_nil] at hi
            exact kprintfLoop_end (by omega)
      · rw [clean_print hc] at hclean
        rw [render_print hc] at h
        obtain ⟨rest, hrest, rfl⟩ := Option.map_eq_some_iff.mp h
        rw [kprintfLoop_print hlt hc, ih hcs (by omega) (by omega) hclean hrest, List.append_assoc]
        rfl

end Clean

section Weight

/-- The weight of a character. For a format that is not clean, values are chosen whose texts weigh at
least 3, while a directive weighs 2: what the loop skips or does not replace makes its output too
light. -/
def weight (c : UInt8) : ℕ := if c = 0 ∨ c = 1 then 3 else 1

def weights (text : List UInt8) : ℕ := (text.map weight).sum

/-- A value for the directive `c`. -/
def sample (c : UInt8) : Arg :=
  if c = 0x75 then .u32 111
  else if c = 0x78 then .u64 0
  else if c = 0x73 then .str ⟨[0x61, 0x61, 0x61], by simp⟩
  else .int 0

/-- Values for all directives of a format. -/
def samples : List UInt8 → List Arg
  | [] => []
  | [_] => []
  | c :: d :: cs =>
    if c = percent then (if Supported d then sample d :: samples cs else samples cs)
    else samples (d :: cs)

/-- The weight of the text of a value. -/
def heavy : Arg → ℕ
  | .u64 _ => 18
  | _ => 3

variable {c d : UInt8} {text cs : List UInt8} {a : Arg} {list : List Arg}

lemma weights_cons (c : UInt8) (text : List UInt8) : weights (c :: text) = weight c + weights text := by
  rw [weights, List.map_cons, List.sum_cons]
  rfl

lemma weights_append (t text : List UInt8) : weights (t ++ text) = weights t + weights text := by
  rw [weights, List.map_append, List.sum_append]
  rfl

lemma three_le_heavy (a : Arg) : 3 ≤ heavy a := by
  cases a <;> simp [heavy]

lemma weight_pos (c : UInt8) : 0 < weight c := by
  rw [weight]
  split_ifs <;> norm_num

/-- The text of a chosen value has its weight with every directive that takes it. -/
lemma weights_argText (h : argText c (sample d) = some text) : weights text = heavy (sample d) := by
  have hdecimal : decimal (111 : UInt32).toNat = [0x31, 0x31, 0x31] := by
    simp [decimal, characters, Numeral.canonical, itoc]
  rw [sample] at h ⊢
  split_ifs at h ⊢ <;> rw [argText] at h <;> split_ifs at h <;> obtain rfl := Option.some.inj h
  · rw [hdecimal]
    rfl
  · rfl
  · rfl
  · rfl
  · rfl
  · contradiction

lemma argText_sample (hd : Supported d) : ∃ text, argText d (sample d) = some text := by
  obtain rfl | rfl | rfl | rfl | rfl := hd <;> exact ⟨_, rfl⟩

lemma weight_supported (hd : Supported d) : weight d = 1 := by
  obtain rfl | rfl | rfl | rfl | rfl := hd <;> rfl

lemma not_supported_percent : ¬ Supported percent := by decide

lemma last_append {x : UInt8} (t : List UInt8) (h : text.getLast? = some x) :
    (t ++ text).getLast? = some x := by
  rw [List.getLast?_append, h]
  rfl

/-- The last character is that of the rest, or the first one if there is no rest. -/
lemma last_cons {x : UInt8} (h : (c :: cs).getLast? = some x) :
    cs.getLast? = some x ∨ cs = [] ∧ c = x := by
  cases cs with
  | nil => exact Or.inr ⟨rfl, Option.some.inj h⟩
  | cons d cs =>
    rw [List.getLast?_cons_cons] at h
    exact Or.inl h

/-- The reference replaces 2 by the weight of the text for every directive. -/
lemma render_samples (cs : List UInt8) : ∃ out, render cs (samples cs) = some out ∧
    weights out + 2 * (samples cs).length = weights cs + ((samples cs).map heavy).sum ∧
    (cs.getLast? = some percent → out.getLast? = some percent) := by
  fun_induction samples cs with
  | case1 => exact ⟨[], rfl, rfl, id⟩
  | case2 c => exact ⟨[c], rfl, rfl, id⟩
  | case3 d cs hd ih =>
    obtain ⟨text, htext⟩ := argText_sample hd
    obtain ⟨rest, hrest, hweights, hlast⟩ := ih
    have hheavy := weights_argText htext
    have hd1 := weight_supported hd
    have hp1 : weight percent = 1 := rfl
    refine ⟨text ++ rest, ?_, ?_, fun h => ?_⟩
    · rw [render_directive hd, List.head?_cons, Option.bind_some, htext, Option.bind_some, List.tail_cons,
        hrest]
      rfl
    · rw [weights_append, weights_cons, weights_cons, List.length_cons, List.map_cons, List.sum_cons]
      omega
    · obtain h | ⟨hnil, -⟩ := last_cons h
      · obtain h | ⟨-, rfl⟩ := last_cons h
        · exact last_append text (hlast h)
        · exact absurd hd not_supported_percent
      · cases hnil
  | case4 d cs hd ih =>
    obtain ⟨rest, hrest, hweights, hlast⟩ := ih
    refine ⟨[percent, d] ++ rest, ?_, ?_, fun h => ?_⟩
    · rw [render_other hd, hrest]
      rfl
    · rw [List.cons_append, List.cons_append, List.nil_append, weights_cons, weights_cons, weights_cons,
        weights_cons]
      omega
    · obtain h | ⟨hnil, -⟩ := last_cons h
      · obtain h | ⟨rfl, rfl⟩ := last_cons h
        · exact last_append _ (hlast h)
        · obtain rfl := Option.some.inj hrest
          rfl
      · cases hnil
  | case5 c d cs hc ih =>
    obtain ⟨rest, hrest, hweights, hlast⟩ := ih
    refine ⟨c :: rest, ?_, ?_, fun h => ?_⟩
    · rw [render_print hc, hrest]
      rfl
    · rw [weights_cons, weights_cons c]
      omega
    · obtain h | ⟨hnil, -⟩ := last_cons h
      · exact last_append [c] (hlast h)
      · cases hnil

/-- What the loop writes for the rest `cs` ends with the NUL behind a last `'%'`, or it takes `n` values
and has lost the weight `lost`, nothing only for a clean format. -/
def Lighter (cs : List UInt8) (list : List Arg) (rest : List UInt8) : Prop :=
  (cs.getLast? = some percent ∧ rest.getLast? = some 0) ∨
  ∃ n lost, n ≤ list.length ∧
    weights rest + 2 * n + lost = weights cs + ((list.take n).map heavy).sum ∧ (lost = 0 → Clean cs)

lemma Lighter.print (hc : c ≠ percent) (h : Lighter cs list text) :
    Lighter (c :: cs) list (c :: text) := by
  apply h.imp
  · intro ⟨hcs, htext⟩
    exact ⟨last_append [c] hcs, last_append [c] htext⟩
  · intro ⟨n, lost, hn, hweights, hclean⟩
    refine ⟨n, lost, hn, ?_, fun h0 => (clean_print hc cs).mpr (hclean h0)⟩
    rw [weights_cons, weights_cons c cs]
    omega

lemma Lighter.directive {t : List UInt8} (hd : Supported d) (ht : weights t = heavy a)
    (h : Lighter cs list text) : Lighter (percent :: d :: cs) (a :: list) (t ++ text) := by
  apply h.imp
  · intro ⟨hcs, htext⟩
    exact ⟨last_append [percent, d] hcs, last_append t htext⟩
  · intro ⟨n, lost, hn, hweights, hclean⟩
    have hd1 := weight_supported hd
    have hp1 : weight percent = 1 := rfl
    refine ⟨n + 1, lost, Nat.succ_le_succ hn, ?_, fun h0 => (clean_directive hd cs).mpr (hclean h0)⟩
    rw [weights_append, weights_cons, weights_cons, List.take_succ_cons, List.map_cons, List.sum_cons]
    omega

lemma Lighter.other {x : UInt8} (h : Lighter cs list text) :
    Lighter (percent :: d :: x :: cs) list (percent :: d :: text) := by
  apply h.imp
  · intro ⟨hcs, htext⟩
    exact ⟨last_append [percent, d, x] hcs, last_append [percent, d] htext⟩
  · intro ⟨n, lost, hn, hweights, hclean⟩
    have hx := weight_pos x
    refine ⟨n, lost + weight x, hn, ?_, fun h0 => ?_⟩
    · simp only [weights_cons]
      omega
    · omega

variable {format : ℕ → UInt8} {len left : ℕ}

lemma lighter_nil (list : List Arg) : Lighter [] list [] :=
  Or.inr ⟨0, 0, Nat.zero_le _, rfl, fun _ => trivial⟩

/-- For the chosen values the output is lighter. -/
lemma lighter_of_kprintfLoop (hend : format len = 0) : ∀ {i cs list out out'}, Holds format i cs →
    i + cs.length = len → cs.length ≤ left → (∀ a ∈ list, ∃ d, a = sample d) →
    kprintfLoop format len left i list out = some out' →
    ∃ rest, out' = out ++ rest ∧ Lighter cs list rest := by
  induction left with
  | zero =>
    intro i cs list out out' _ _ hleft _ h
    obtain rfl : cs = [] := List.length_eq_zero_iff.mp (Nat.le_zero.mp hleft)
    obtain rfl : out = out' := Option.some.inj h
    exact ⟨[], (List.append_nil out).symm, lighter_nil list⟩
  | succ left ih =>
    intro i cs list out out' hcs hi hleft hlist h
    cases cs with
    | nil =>
      have hle : len ≤ i := hi.ge
      rw [kprintfLoop_end hle] at h
      obtain rfl : out = out' := Option.some.inj h
      exact ⟨[], (List.append_nil out).symm, lighter_nil list⟩
    | cons c cs =>
      obtain ⟨rfl, hcs⟩ := hcs
      rw [List.length_cons] at hi hleft
      have hlt : i < len := by omega
      by_cases hc : format i = percent
      · cases cs with
        | nil =>
          -- the NUL is taken for the character of the directive
          obtain rfl : i + 1 = len := hi
          have hd : ¬ Supported (format (i + 1)) := by
            rw [hend]
            decide
          rw [kprintfLoop_other hlt hc hd, kprintfLoop_end (by omega), hend] at h
          obtain rfl := Option.some.inj h
          exact ⟨_, rfl, Or.inl ⟨congrArg some hc, rfl⟩⟩
        | cons d cs =>
          obtain ⟨rfl, hcs⟩ := hcs
          rw [List.length_cons] at hi hleft
          rw [hc]
          by_cases hd : Supported (format (i + 1))
          · rw [kprintfLoop_directive hlt hc hd] at h
            obtain ⟨t, ht, h⟩ := Option.bind_eq_some_iff.mp h
            cases list with
            | nil => cases ht
            | cons a list =>
              obtain ⟨⟨d, rfl⟩, htail⟩ := List.forall_mem_cons.mp hlist
              obtain ⟨rest, rfl, hrest⟩ := ih hcs (by omega) (by omega) htail h
              exact ⟨t ++ rest, List.append_assoc .., hrest.directive hd (weights_argText ht)⟩
          · rw [kprintfLoop_other hlt hc hd] at h
            cases cs with
            | nil =>
              rw [List.length_nil] at hi
              rw [kprintfLoop_end (by omega)] at h
              obtain rfl := Option.some.inj h
              refine ⟨_, rfl, Or.inr ⟨0, 0, Nat.zero_le _, rfl, fun _ => (clean_other hd []).mpr rfl⟩⟩
            | cons x cs =>
              rw [List.length_cons] at hi hleft
              obtain ⟨rest, rfl, hrest⟩ := ih hcs.2 (by omega) (by omega) hlist h
              exact ⟨_, List.append_assoc .., hrest.other⟩
      · rw [kprintfLoop_print hlt hc] at h
        obtain ⟨rest, rfl, hrest⟩ := ih hcs (by omega) (by omega) hlist h
        exact ⟨_, List.append_assoc .., hrest.print hc⟩

lemma forall_samples (cs : List UInt8) : ∀ a ∈ samples cs, ∃ d, a = sample d := by
  fun_induction samples cs with
  | case1 => exact nofun
  | case2 => exact nofun
  | case3 d cs hd ih => exact List.forall_mem_cons.mpr ⟨⟨d, rfl⟩, ih⟩
  | case4 d cs hd ih => exact ih
  | case5 c d cs hc ih => exact ih

lemma three_mul_le (list : List Arg) : 3 * list.length ≤ (list.map heavy).sum := by
  induction list with
  | nil => exact le_rfl
  | cons a list ih =>
    have := three_le_heavy a
    rw [List.length_cons, List.map_cons, List.sum_cons]
    omega

/-- An output of the reference that is lighter in this sense is that of a clean format. -/
lemma Lighter.clean {out : List UInt8} (h : Lighter cs (samples cs) out)
    (hout : weights out + 2 * (samples cs).length = weights cs + ((samples cs).map heavy).sum)
    (hlast : cs.getLast? = some percent → out.getLast? = some percent) : Clean cs := by
  obtain ⟨hcs, hnul⟩ | ⟨n, lost, hn, hweights, hclean⟩ := h
  · have hpercent := hlast hcs
    rw [hnul] at hpercent
    exact absurd (Option.some.inj hpercent) (by decide)
  · have hsplit : ((samples cs).map heavy).sum = (((samples cs).take n).map heavy).sum +
        (((samples cs).drop n).map heavy).sum := by
      rw [← List.sum_append, ← List.map_append, List.take_append_drop]
    have hdrop := three_mul_le ((samples cs).drop n)
    rw [List.length_drop] at hdrop
    apply hclean
    omega

end Weight

/-- The formats that are rendered for all matching values are the clean ones. -/
theorem renders_iff_clean (format : CString) : Renders format ↔ Clean format.chars := by
  have hlen := format.strlen_bytes
  have hzero : 0 + format.chars.length = format.chars.length := Nat.zero_add _
  constructor
  · intro h
    obtain ⟨out, hout, hweights, hlast⟩ := render_samples format.chars
    have hcode := h (fun _ => 0) (samples format.chars) out hout
    rw [kprintfInternal, hlen] at hcode
    obtain ⟨rest, rfl, hrest⟩ := lighter_of_kprintfLoop (format.byteAt_length _) (holds_chars format _)
      hzero le_rfl (forall_samples _) hcode
    exact hrest.clean hweights hlast
  · intro hclean behind list out h
    rw [kprintfInternal, hlen]
    exact kprintfLoop_of_clean (holds_chars format behind) hzero le_rfl hclean h

/-- An unknown directive with a character behind it, which is lost. -/
def unknown : CString := ⟨[0x25, 0x64, 0x21], by simp⟩

theorem not_renders_unknown : ¬ Renders unknown := by
  intro h
  have hcode := h (fun _ => 0) [] [0x25, 0x64, 0x21] (by decide)
  exact absurd hcode (by decide)

end EpochKernel.Util
