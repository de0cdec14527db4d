import Kr2r.Basic
import Mathlib.Data.Nat.Digits

/-!
# Text: lines, fields and decimal numbers

Strings are their lists of characters. `BufRead::lines` cuts at `\n` and drops
one `\r` before it, `str::trim` drops `White_Space` at both ends, `splitn` and
`split` cut at a separator character, and `from_str` reads an unsigned decimal
number below the type's bound. `decimal` is `Display` for an unsigned number,
and `from_str` inverts it below the bound.
-/

set_option autoImplicit false

namespace Kr2r.Text

def isWhitespace (c : Char) : Bool :=
  let n := c.toNat
  (9 ≤ n && n ≤ 13) || n == 0x20 || n == 0x85 || n == 0xA0 || n == 0x1680 ||
    (0x2000 ≤ n && n ≤ 0x200A) || n == 0x2028 || n == 0x2029 || n == 0x202F ||
    n == 0x205F || n == 0x3000

def trim (s : List Char) : List Char :=
  ((s.dropWhile isWhitespace).reverse.dropWhile isWhitespace).reverse

def stripCr (l : List Char) : List Char :=
  if l.getLast? = some '\r' then l.dropLast else l

def linesAux : List Char → List Char → List (List Char)
  | [], acc => if acc = [] then [] else [acc.reverse]
  | c :: s, acc => if c = '\n' then stripCr acc.reverse :: linesAux s [] else linesAux s (c :: acc)

/-- `BufRead::lines`. -/
def lines (s : List Char) : List (List Char) := linesAux s []

def splitn : Nat → Char → List Char → List (List Char)
  | 0, _, _ => []
  | 1, _, s => [s]
  | n + 2, c, s =>
    if c ∈ s then s.takeWhile (· != c) :: splitn (n + 1) c (s.dropWhile (· != c)).tail else [s]

def parseDigits (bound : Nat) : Nat → List Char → Option Nat
  | acc, [] => some acc
  | acc, c :: cs =>
    if c.isDigit ∧ acc * 10 + (c.toNat - 48) < bound then
      parseDigits bound (acc * 10 + (c.toNat - 48)) cs
    else none

/-- `from_str` of an unsigned integer type whose values are below `bound`: one
leading `+` is allowed, then ASCII digits, and overflow is an error. -/
def fromStr (bound : Nat) : List Char → Option Nat
  | [] => none
  | c :: cs => if c = '+' then (if cs = [] then none else parseDigits bound 0 cs)
    else parseDigits bound 0 (c :: cs)

def digitChar (d : Nat) : Char := Char.ofNat (48 + d)

def decimal (n : Nat) : List Char :=
  if n = 0 then [digitChar 0] else (Nat.digits 10 n).reverse.map digitChar

/-! ## Lines and fields -/

theorem linesAux_sep (l s acc : List Char) (hl : '\n' ∉ l) :
    linesAux (l ++ '\n' :: s) acc = stripCr (acc.reverse ++ l) :: linesAux s [] := by
  induction l generalizing acc with
  | nil => simp [linesAux]
  | cons c l ih =>
    have hc : c ≠ '\n' := fun h => hl (h ▸ List.mem_cons_self _ _)
    simp [linesAux, hc, ih (c :: acc) (fun h => hl (List.mem_cons_of_mem _ h))]

theorem lines_flatten (L : List (List Char)) (hL : ∀ l ∈ L, '\n' ∉ l) :
    lines (L.map (· ++ ['\n'])).flatten = L.map stripCr := by
  induction L with
  | nil => rfl
  | cons l L ih =>
    simp only [List.map_cons, List.flatten_cons, List.append_assoc, List.singleton_append]
    rw [lines, linesAux_sep _ _ _ (hL l (List.mem_cons_self _ _))]
    simpa using ih (fun l' h => hL l' (List.mem_cons_of_mem _ h))

theorem stripCr_of_getLast (l : List Char) (h : ∀ c ∈ l.getLast?, c ≠ '\r') : stripCr l = l := by
  unfold stripCr
  split_ifs with hl
  · exact absurd rfl (h '\r' hl)
  · rfl

theorem stripCr_append_cons (a b : List Char) (c : Char) (hc : c ≠ '\r') :
    ∃ b', stripCr (a ++ c :: b) = a ++ c :: b' := by
  unfold stripCr
  split_ifs with hl
  · rcases List.eq_nil_or_concat b with rfl | ⟨L, x, rfl⟩
    · simp [hc] at hl
    · exact ⟨L, by
        rw [List.concat_eq_append, ← List.cons_append, ← List.append_assoc, List.dropLast_concat]⟩
  · exact ⟨b, rfl⟩

theorem dropWhile_of_head {p : Char → Bool} (s : List Char) (h : ∀ c ∈ s.head?, p c = false) :
    s.dropWhile p = s := by
  cases s with
  | nil => rfl
  | cons c s => simp [List.dropWhile_cons, h c rfl]

theorem trim_of_ends (s : List Char) (hh : ∀ c ∈ s.head?, isWhitespace c = false)
    (hl : ∀ c ∈ s.getLast?, isWhitespace c = false) : trim s = s := by
  rw [trim, dropWhile_of_head s hh, dropWhile_of_head _ (by simpa using hl), List.reverse_reverse]

theorem splitn_of_not_mem (n : Nat) (c : Char) (s : List Char) (h : c ∉ s) :
    splitn (n + 1) c s = [s] := by
  cases n <;> simp [splitn, h]

theorem splitn_sep (n : Nat) (c : Char) (a b : List Char) (ha : c ∉ a) :
    splitn (n + 2) c (a ++ c :: b) = a :: splitn (n + 1) c b := by
  have hne : ∀ x ∈ a, (x != c) = true := fun x hx => by
    simpa using fun h : x = c => ha (h ▸ hx)
  simp [splitn, List.takeWhile_append_of_pos hne, List.dropWhile_append_of_pos hne]

theorem splitOn_sep (c : Char) (a b : List Char) (ha : c ∉ a) :
    (a ++ c :: b).splitOn c = a :: b.splitOn c :=
  List.splitOnP_first _ a (fun x hx => by simpa using fun h : x = c => ha (h ▸ hx)) c (by simp) b

theorem splitOn_of_not_mem (c : Char) (a : List Char) (ha : c ∉ a) : a.splitOn c = [a] :=
  List.splitOnP_eq_single _ a (fun x hx => by simpa using fun h : x = c => ha (h ▸ hx))

/-! ## Decimal numbers -/

theorem isDigit_iff (c : Char) : c.isDigit = true ↔ 48 ≤ c.toNat ∧ c.toNat ≤ 57 := by
  simp [Char.isDigit, UInt32.le_def, BitVec.le_def, Char.toNat, UInt32.toNat]

theorem toNat_digitChar (d : Nat) (h : d < 10) : (digitChar d).toNat = 48 + d := by
  unfold digitChar Char.ofNat
  rw [dif_pos (Or.inl (by omega))]
  rfl

theorem isDigit_digitChar (d : Nat) (h : d < 10) : (digitChar d).isDigit := by
  rw [isDigit_iff, toNat_digitChar d h]; omega

theorem isDigit_of_mem_decimal (n : Nat) (c : Char) (hc : c ∈ decimal n) : c.isDigit := by
  unfold decimal at hc
  split_ifs at hc
  · simp only [List.mem_singleton] at hc; exact hc ▸ isDigit_digitChar 0 (by decide)
  · obtain ⟨d, hd, rfl⟩ := List.mem_map.mp hc
    exact isDigit_digitChar d (Nat.digits_lt_base (by decide) (List.mem_reverse.mp hd))

theorem decimal_ne_nil (n : Nat) : decimal n ≠ [] := by
  unfold decimal
  split_ifs with h
  · simp
  · simpa using Nat.digits_ne_nil_iff_ne_zero.mpr h

theorem isWhitespace_of_isDigit (c : Char) (h : c.isDigit) : isWhitespace c = false := by
  rw [isDigit_iff] at h
  simp only [isWhitespace, Bool.or_eq_false_iff, Bool.and_eq_false_imp, decide_eq_true_eq,
    decide_eq_false_iff_not, beq_eq_false_iff_ne, ne_eq]
  omega

theorem ne_of_isDigit (c d : Char) (h : c.isDigit) (hd : d.isDigit = false) : c ≠ d := by
  rintro rfl; simp [h] at hd

def digitsValue (acc : Nat) (L : List Nat) : Nat := L.foldl (fun a d => a * 10 + d) acc

theorem le_digitsValue (acc : Nat) (L : List Nat) : acc ≤ digitsValue acc L := by
  induction L generalizing acc with
  | nil => exact le_refl _
  | cons d L ih => exact le_trans (by omega) (ih (acc * 10 + d))

theorem parseDigits_digitChars (bound : Nat) (L : List Nat) (hL : ∀ d ∈ L, d < 10) (acc : Nat)
    (h : digitsValue acc L < bound) :
    parseDigits bound acc (L.map digitChar) = some (digitsValue acc L) := by
  induction L generalizing acc with
  | nil => rfl
  | cons d L ih =>
    have hd := hL d (List.mem_cons_self _ _)
    have hlt : acc * 10 + d < bound := lt_of_le_of_lt (le_digitsValue _ L) h
    simp only [List.map_cons, parseDigits, toNat_digitChar d hd, isDigit_digitChar d hd,
      Nat.add_sub_cancel_left, hlt, and_self, if_true]
    exact ih (fun e he => hL e (List.mem_cons_of_mem _ he)) _ h

theorem digitsValue_reverse (L : List Nat) (acc : Nat) :
    digitsValue acc L.reverse = acc * 10 ^ L.length + Nat.ofDigits 10 L := by
  induction L generalizing acc with
  | nil => simp [digitsValue]
  | cons d L ih =>
    simp only [digitsValue, List.reverse_cons, List.foldl_append] at ih ⊢
    rw [ih]
    simp only [List.foldl_cons, List.foldl_nil, List.length_cons, Nat.ofDigits_cons]
    ring

theorem fromStr_decimal (bound n : Nat) (h : n < bound) : fromStr bound (decimal n) = some n := by
  have hplus : ∀ c ∈ decimal n, c ≠ '+' := fun c hc =>
    ne_of_isDigit c '+' (isDigit_of_mem_decimal n c hc) (by decide)
  have hv : digitsValue 0 (Nat.digits 10 n).reverse = n := by
    rw [digitsValue_reverse, Nat.ofDigits_digits]; simp
  obtain ⟨c, cs, hcs⟩ := List.exists_cons_of_ne_nil (decimal_ne_nil n)
  rw [hcs, fromStr, if_neg (hplus c (hcs ▸ List.mem_cons_self _ _)), ← hcs]
  unfold decimal
  split_ifs with h0
  · subst h0; simp [parseDigits, toNat_digitChar 0 (by decide), isDigit_digitChar 0 (by decide), h]
  · rw [parseDigits_digitChars bound _ (fun d hd => Nat.digits_lt_base (by decide)
      (List.mem_reverse.mp hd)) 0 (by rw [hv]; exact h), hv]

end Kr2r.Text
