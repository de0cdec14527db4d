import Kr2r.Text
import Mathlib.Data.List.Sort
import Mathlib.Data.List.Lex
import Mathlib.Data.Char

/-!
# Numbered files in a directory

`find_and_trans_files` and `find_and_trans_bin_files` read the number of a
file from its name with the pattern `{prefix}_(\d+){suffix}` (or
`{prefix}_(\d+)_\d+{suffix}`), searched for anywhere in the name: the
pattern is not anchored, and the `.` of a suffix matches any character.
Patterns are run as a leftmost-first backtracking engine runs them. Every
name of the exact form is filed under its number; `find_and_trans_files`
keeps the last file of a number, `find_and_trans_bin_files` keeps them all.
With `check` the call succeeds iff the numbers are `1, …, N`, and fails with
the `NotFound` error `File numbers are not continuous starting from 1.`
otherwise. An entry of the listing that cannot be read is skipped by
`find_and_trans_files` and `find_and_sort_files` and returned as the error of
`find_and_trans_bin_files`. The prefix and suffix are spliced into the
pattern unescaped; the theorems are for texts in which `regex` reads every
character as itself, `.` apart (`PlainText`). `find_files` returns every path
of its walk whose name matches, sorted, the same whatever order the walk
takes.
-/

set_option autoImplicit false

namespace Kr2r.FileNames
open Kr2r.Basic Kr2r.Text

/-- An atom of the binaries' patterns: a literal character, `.` (any
character but `\n`), or `\d+`, captured or not. -/
inductive Atom where
  | lit (c : Char)
  | any
  | digits (capture : Bool)
  deriving DecidableEq, Repr

def ndRanges : List (Nat × Nat) :=
  [(0x30, 0x39), (0x660, 0x669), (0x6F0, 0x6F9), (0x7C0, 0x7C9), (0x966, 0x96F),
   (0x9E6, 0x9EF), (0xA66, 0xA6F), (0xAE6, 0xAEF), (0xB66, 0xB6F), (0xBE6, 0xBEF),
   (0xC66, 0xC6F), (0xCE6, 0xCEF), (0xD66, 0xD6F), (0xDE6, 0xDEF), (0xE50, 0xE59),
   (0xED0, 0xED9), (0xF20, 0xF29), (0x1040, 0x1049), (0x1090, 0x1099), (0x17E0, 0x17E9),
   (0x1810, 0x1819), (0x1946, 0x194F), (0x19D0, 0x19D9), (0x1A80, 0x1A89), (0x1A90, 0x1A99),
   (0x1B50, 0x1B59), (0x1BB0, 0x1BB9), (0x1C40, 0x1C49), (0x1C50, 0x1C59), (0xA620, 0xA629),
   (0xA8D0, 0xA8D9), (0xA900, 0xA909), (0xA9D0, 0xA9D9), (0xA9F0, 0xA9F9), (0xAA50, 0xAA59),
   (0xABF0, 0xABF9), (0xFF10, 0xFF19), (0x104A0, 0x104A9), (0x10D30, 0x10D39),
   (0x11066, 0x1106F), (0x110F0, 0x110F9), (0x11136, 0x1113F), (0x111D0, 0x111D9),
   (0x112F0, 0x112F9), (0x11450, 0x11459), (0x114D0, 0x114D9), (0x11650, 0x11659),
   (0x116C0, 0x116C9), (0x11730, 0x11739), (0x118E0, 0x118E9), (0x11950, 0x11959),
   (0x11C50, 0x11C59), (0x11D50, 0x11D59), (0x11DA0, 0x11DA9), (0x11F50, 0x11F59),
   (0x16A60, 0x16A69), (0x16AC0, 0x16AC9), (0x16B50, 0x16B59), (0x1D7CE, 0x1D7FF),
   (0x1E140, 0x1E149), (0x1E2F0, 0x1E2F9), (0x1E4F0, 0x1E4F9), (0x1E950, 0x1E959),
   (0x1FBF0, 0x1FBF9)]

def isNd (c : Char) : Bool := ndRanges.any fun r => r.1 ≤ c.toNat && c.toNat ≤ r.2

/-- The captures of the match of `p` at the front of `s` that a backtracking
engine prefers: `\d+` tries its longest run first. -/
def matchHere : List Atom → List Char → Option (List (List Char))
  | [], _ => some []
  | .lit c :: p, s => match s with
    | x :: s => if x = c then matchHere p s else none
    | [] => none
  | .any :: p, s => match s with
    | x :: s => if x = '\n' then none else matchHere p s
    | [] => none
  | .digits cap :: p, s =>
    (List.range (s.takeWhile isNd).length).reverse.findSome? fun i =>
      (matchHere p (s.drop (i + 1))).map fun cs => if cap then s.take (i + 1) :: cs else cs

def captures (p : List Atom) (s : List Char) : Option (List (List Char)) :=
  (List.range (s.length + 1)).findSome? fun i => matchHere p (s.drop i)

/-- A text spliced into a pattern by `format!`, read as plain text but for `.`. -/
def literal (t : List Char) : List Atom := t.map fun c => if c = '.' then .any else .lit c

/-- The characters `regex` reads as syntax outside a class. -/
def isMeta (c : Char) : Bool := "\\.+*?()|[]\x7b\x7d^$".toList.contains c

/-- A prefix or suffix on which `literal` is the pattern `Regex::new` compiles:
no character `regex` reads as syntax, `.` apart. The binaries' own prefixes
and suffixes are of this kind; `squid` takes its prefix from the command line. -/
structure PlainText where
  chars : List Char
  plain : ∀ c ∈ chars, c = '.' ∨ isMeta c = false

def transPattern (pfx sfx : List Char) : List Atom :=
  literal pfx ++ .lit '_' :: .digits true :: literal sfx

def binPattern (pfx sfx : List Char) : List Atom :=
  literal pfx ++ .lit '_' :: .digits true :: .lit '_' :: .digits false :: literal sfx

def fileNumber (pat : List Atom) (name : List Char) : Option Nat :=
  match captures pat name with
  | some (g :: _) => fromStr usizeSize g
  | _ => none

structure DirEntry where
  name : List Char
  isFile : Bool
  deriving DecidableEq, Repr

def transNumber (pfx sfx : List Char) (e : DirEntry) : Option Nat :=
  if e.isFile && pfx.isPrefixOf e.name && sfx.isSuffixOf e.name then
    fileNumber (transPattern pfx sfx) e.name
  else none

def binNumber (pfx sfx : List Char) (e : DirEntry) : Option Nat :=
  if e.isFile then fileNumber (binPattern pfx sfx) e.name else none

def continuousFrom : Nat → List Nat → Bool
  | _, [] => true
  | i, k :: ks => (i + 1 == k) && continuousFrom (i + 1) ks

def notContinuous : List Char := "File numbers are not continuous starting from 1.".toList

def checkKeys {V : Type} (check : Bool) (m : Map Nat V) : Except Fault (Map Nat V) :=
  if check && !continuousFrom 0 (m.keys.mergeSort fun a b => decide (a ≤ b)) then
    .error (.notFound notContinuous)
  else .ok m

def transStep (pfx sfx : List Char) (m : Map Nat (List Char)) (e : DirEntry) :
    Map Nat (List Char) :=
  match transNumber pfx sfx e with
  | some n => m.insert n e.name
  | none => m

def binStep (pfx sfx : List Char) (m : Map Nat (List (List Char))) (e : DirEntry) :
    Map Nat (List (List Char)) :=
  match binNumber pfx sfx e with
  | some n => push m n e.name
  | none => m

def transFiles (dir : List DirEntry) (pfx sfx : List Char) : Map Nat (List Char) :=
  dir.foldl (transStep pfx sfx) ∅

def binFiles (dir : List DirEntry) (pfx sfx : List Char) : Map Nat (List (List Char)) :=
  dir.foldl (binStep pfx sfx) ∅

/-- What `fs::read_dir` yields: `none` when the directory cannot be read,
else its entries, each of which may be an error. -/
abbrev Listing := Option (List (Except Fault DirEntry))

def findAndTransFiles (dir : Listing) (pfx sfx : List Char) (check : Bool) :
    Except Fault (Map Nat (List Char)) :=
  match dir with
  | none => .error .io
  | some dir => checkKeys check (transFiles (dir.filterMap Except.toOption) pfx sfx)

def findAndTransBinFiles (dir : Listing) (pfx sfx : List Char) (check : Bool) :
    Except Fault (Map Nat (List (List Char))) :=
  match dir with
  | none => .error .io
  | some dir => do
    let m ← dir.foldlM (fun m e => binStep pfx sfx m <$> e) ∅
    checkKeys check m

def findAndSortFiles (dir : Listing) (pfx sfx : List Char) (check : Bool) :
    Except Fault (List (List Char)) :=
  match dir with
  | none => .error .io
  | some dir =>
    let sorted := ((dir.filterMap Except.toOption).filterMap fun e =>
      (transNumber pfx sfx e).map (e.name, ·)).mergeSort fun a b => decide (a.2 ≤ b.2)
    if check && !continuousFrom 0 (sorted.map (·.2)) then .error (.notFound notContinuous)
    else .ok (sorted.map (·.1))

/-- Iteration over a `BTreeMap`: ascending keys. -/
def sortedEntries {V : Type} (m : Map Nat V) : List (Nat × V) :=
  (m.keys.mergeSort fun a b => decide (a ≤ b)).filterMap fun i => (m.lookup i).map (i, ·)

theorem matchHere_literal (t : List Char) (p : List Atom) (s : List Char) :
    matchHere (literal t ++ p) (t ++ s) = matchHere p s := by
  induction t with
  | nil => rfl
  | cons c t ih =>
    simp only [literal, List.map_cons, List.cons_append] at ih ⊢
    by_cases hc : c = '.'
    · subst hc; simp only [if_true, matchHere]; exact ih
    · simp only [hc, if_false, matchHere]; exact ih

theorem isNd_of_isDigit (c : Char) (h : c.isDigit) : isNd c := by
  have := (isDigit_iff c).mp h
  rw [isNd, ndRanges, List.any_cons]
  simp only [this.1, this.2, decide_True, Bool.and_self, Bool.true_or]

theorem takeWhile_isNd (d s : List Char) (hd : ∀ c ∈ d, isNd c)
    (hs : ∀ c ∈ s.head?, isNd c = false) : (d ++ s).takeWhile isNd = d := by
  rw [List.takeWhile_append_of_pos hd]
  cases s with
  | nil => simp
  | cons c s => simp [List.takeWhile_cons, hs c rfl]

theorem matchHere_digits (cap : Bool) (p : List Atom) (d s : List Char) (hd : ∀ c ∈ d, isNd c)
    (hs : ∀ c ∈ s.head?, isNd c = false) (hne : d ≠ []) {cs : List (List Char)}
    (h : matchHere p s = some cs) :
    matchHere (.digits cap :: p) (d ++ s) = some (if cap then d :: cs else cs) := by
  obtain ⟨k, hk⟩ : ∃ k, d.length = k + 1 :=
    Nat.exists_eq_succ_of_ne_zero (List.length_pos.mpr hne).ne'
  rw [matchHere, takeWhile_isNd d s hd hs, hk, List.range_succ, List.reverse_append,
    List.reverse_singleton, List.singleton_append, List.findSome?_cons, ← hk, List.drop_left, h,
    List.take_left]
  rfl

theorem captures_of_matchHere (p : List Atom) (s : List Char) {cs : List (List Char)}
    (h : matchHere p s = some cs) : captures p s = some cs := by
  rw [captures, List.range_succ_eq_map, List.findSome?_cons, List.drop_zero, h]

def transName (pfx sfx : List Char) (n : Nat) : List Char := pfx ++ '_' :: (decimal n ++ sfx)

def binName (pfx sfx : List Char) (n m : Nat) : List Char :=
  pfx ++ '_' :: (decimal n ++ '_' :: (decimal m ++ sfx))

theorem isNd_of_mem_decimal (n : Nat) (c : Char) (hc : c ∈ decimal n) : isNd c :=
  isNd_of_isDigit c (isDigit_of_mem_decimal n c hc)

section
variable (pfx sfx : List Char) (hsfx : ∀ c ∈ sfx.head?, isNd c = false)
include hsfx

theorem captures_transName (n : Nat) :
    captures (transPattern pfx sfx) (transName pfx sfx n) = some [decimal n] := by
  refine captures_of_matchHere _ _ ?_
  rw [transPattern, transName, matchHere_literal, matchHere, if_pos rfl,
    matchHere_digits true _ _ _ (isNd_of_mem_decimal n) hsfx (decimal_ne_nil n)
      (by simpa using matchHere_literal sfx [] [])]
  rfl

theorem captures_binName (n m : Nat) :
    captures (binPattern pfx sfx) (binName pfx sfx n m) = some [decimal n] := by
  refine captures_of_matchHere _ _ ?_
  have hm : matchHere (.digits false :: literal sfx) (decimal m ++ sfx) = some [] :=
    matchHere_digits false _ _ _ (isNd_of_mem_decimal m) hsfx (decimal_ne_nil m)
      (by simpa using matchHere_literal sfx [] [])
  rw [binPattern, binName, matchHere_literal, matchHere, if_pos rfl,
    matchHere_digits true _ _ ('_' :: (decimal m ++ sfx)) (isNd_of_mem_decimal n) (by simp; decide)
      (decimal_ne_nil n) (by rw [matchHere, if_pos rfl, hm])]
  rfl

theorem transNumber_transName (n : Nat) (hn : n < usizeSize) :
    transNumber pfx sfx ⟨transName pfx sfx n, true⟩ = some n := by
  have hp : pfx.isPrefixOf (transName pfx sfx n) :=
    List.isPrefixOf_iff_prefix.mpr (List.prefix_append _ _)
  have hs : sfx.isSuffixOf (transName pfx sfx n) :=
    List.isSuffixOf_iff_suffix.mpr ⟨pfx ++ '_' :: decimal n, by simp [transName]⟩
  simp only [transNumber, hp, hs, Bool.and_self, if_true, fileNumber,
    captures_transName pfx sfx hsfx, fromStr_decimal _ _ hn]

theorem binNumber_binName (n m : Nat) (hn : n < usizeSize) :
    binNumber pfx sfx ⟨binName pfx sfx n m, true⟩ = some n := by
  simp only [binNumber, if_true, fileNumber, captures_binName pfx sfx hsfx, fromStr_decimal _ _ hn]

end

/-! ## The maps and the check -/

theorem continuousFrom_iff (i : Nat) (l : List Nat) :
    continuousFrom i l = true ↔ l = List.range' (i + 1) l.length := by
  induction l generalizing i with
  | nil => simp [continuousFrom]
  | cons k l ih =>
    simp only [continuousFrom, Bool.and_eq_true, beq_iff_eq, ih, List.length_cons,
      List.range'_succ, List.cons.injEq]
    exact and_congr_left' eq_comm

theorem sorted_mergeSort_key {α : Type} (key : α → Nat) (l : List α) :
    (l.mergeSort fun a b => decide (key a ≤ key b)).Pairwise fun a b => key a ≤ key b :=
  (List.sorted_mergeSort (fun a b c hab hbc => by simp at *; omega) (fun a b => by simp; omega)
    l).imp fun hab => by simpa using hab

theorem filter_mergeSort_key {α : Type} (key : α → Nat) (l : List α) (n : Nat) :
    (l.mergeSort fun a b => decide (key a ≤ key b)).filter (fun a => key a = n) =
      l.filter fun a => key a = n := by
  have hpw : (l.filter fun a => key a = n).Pairwise fun a b => decide (key a ≤ key b) :=
    List.pairwise_filter.mpr (List.pairwise_of_forall_mem_list fun a _ b _ ha hb => by
      simp only [decide_eq_true_eq] at ha hb ⊢; omega)
  have hsub := (List.sublist_mergeSort (fun a b c hab hbc => by simp at *; omega)
    (fun a b => by simp; omega) hpw (List.filter_sublist l)).filter fun a => key a = n
  simp only [List.filter_filter, Bool.and_self] at hsub
  exact (hsub.eq_of_length ((List.mergeSort_perm l _).filter _).length_eq.symm).symm

theorem mergeSort_eq_range' (l : List Nat) (N : Nat) :
    l.mergeSort (fun a b => decide (a ≤ b)) = List.range' 1 N ↔ l.Perm (List.range' 1 N) := by
  have hperm := List.mergeSort_perm l fun a b => decide (a ≤ b)
  constructor
  · intro h
    exact h ▸ hperm.symm
  · intro h
    have hs : List.Sorted (· ≤ ·) (l.mergeSort fun a b => decide (a ≤ b)) :=
      sorted_mergeSort_key id l
    exact List.eq_of_perm_of_sorted (hperm.trans h) hs ((List.pairwise_lt_range' 1 N).imp le_of_lt)

theorem continuousFrom_mergeSort (l : List Nat) :
    continuousFrom 0 (l.mergeSort fun a b => decide (a ≤ b)) = true ↔
      ∃ N, l.Perm (List.range' 1 N) := by
  rw [continuousFrom_iff]
  constructor
  · exact fun h => ⟨_, (mergeSort_eq_range' l _).mp h⟩
  · rintro ⟨N, h⟩
    rw [(mergeSort_eq_range' l N).mpr h, List.length_range']

theorem keys_perm_range' {V : Type} (m : Map Nat V) (N : Nat) :
    m.keys.Perm (List.range' 1 N) ↔ ∀ k, k ∈ m ↔ 1 ≤ k ∧ k ≤ N := by
  rw [List.perm_ext_iff_of_nodup m.keys_nodup (List.nodup_range' 1 N)]
  exact forall_congr' fun k => by rw [AList.mem_keys, List.mem_range'_1, Nat.lt_one_add_iff]

theorem continuousFrom_keys {V : Type} (m : Map Nat V) :
    continuousFrom 0 (m.keys.mergeSort fun a b => decide (a ≤ b)) = true ↔
      ∃ N, ∀ k, k ∈ m ↔ 1 ≤ k ∧ k ≤ N := by
  simp only [continuousFrom_mergeSort, keys_perm_range']

theorem checkKeys_true {V : Type} (m m' : Map Nat V) :
    checkKeys true m = .ok m' ↔ m' = m ∧ ∃ N, ∀ k, k ∈ m ↔ 1 ≤ k ∧ k ≤ N := by
  rw [← continuousFrom_keys, checkKeys]
  cases continuousFrom 0 _ <;> simp [eq_comm]

theorem lookup_of_mem_sortedEntries {V : Type} (m : Map Nat V) {p : Nat × V}
    (h : p ∈ sortedEntries m) : m.lookup p.1 = some p.2 := by
  obtain ⟨i, -, hi⟩ := List.mem_filterMap.mp h
  obtain ⟨v, hv, rfl⟩ := Option.map_eq_some'.mp hi
  exact hv

theorem sortedEntries_single {V : Type} (k : Nat) (v : V) :
    sortedEntries ((∅ : Map Nat V).insert k v) = [(k, v)] := by
  show List.filterMap _ (List.mergeSort [k] _) = _
  rw [List.mergeSort_singleton, List.filterMap_cons, AList.lookup_insert]
  rfl

theorem map_fst_sortedEntries {V : Type} (m : Map Nat V) :
    (sortedEntries m).map (·.1) = m.keys.mergeSort fun a b => decide (a ≤ b) := by
  rw [sortedEntries, List.map_filterMap]
  refine (List.filterMap_congr fun i hi => ?_).trans (List.filterMap_some _)
  obtain ⟨v, hv⟩ := Option.isSome_iff_exists.mp
    (AList.lookup_isSome.mpr (AList.mem_keys.mp ((List.mergeSort_perm _ _).mem_iff.mp hi)))
  simp [hv]

theorem sortedEntries_keys {V : Type} (m : Map Nat V) (N : Nat)
    (h : ∀ k, k ∈ m ↔ 1 ≤ k ∧ k ≤ N) :
    (sortedEntries m).map (·.1) = List.range' 1 N := by
  rw [map_fst_sortedEntries, (mergeSort_eq_range' _ N).mpr ((keys_perm_range' m N).mpr h)]

theorem sortedEntries_lt {V : Type} (m : Map Nat V) :
    ((sortedEntries m).map (·.1)).Sorted (· < ·) := by
  rw [map_fst_sortedEntries]
  exact List.Sorted.lt_of_le (sorted_mergeSort_key id m.keys)
    ((List.mergeSort_perm _ _).nodup_iff.mpr m.keys_nodup)

theorem headD_lt_getLastD {l : List Nat} (h : l.Sorted (· < ·)) (d : Nat) :
    l.headD d < l.getLastD d ↔ 2 ≤ l.length := by
  match l, h with
  | [], _ => simp
  | [a], _ => simp
  | a :: b :: t, h =>
    have hlast : t.getLastD b ∈ b :: t := List.getLastD_mem_cons t b
    rw [List.headD_cons, List.getLastD_cons, List.getLastD_cons]
    simpa using (List.sorted_cons.mp h).1 _ hlast

section
variable (pfx sfx : List Char)

theorem lookup_foldl_transStep (dir : List DirEntry) (m : Map Nat (List Char)) (n : Nat) :
    (dir.foldl (transStep pfx sfx) m).lookup n =
      ((dir.reverse.find? fun e => transNumber pfx sfx e = some n).map (·.name)).or
        (m.lookup n) := by
  induction dir generalizing m with
  | nil => simp
  | cons e dir ih =>
    rw [List.foldl_cons, ih, List.reverse_cons, List.find?_append, transStep]
    split
    · next k hk =>
      by_cases hn : k = n
      · subst hn
        simp only [hk, decide_True, List.find?_singleton, if_true, AList.lookup_insert]
        cases List.find? _ dir.reverse <;> rfl
      · simp [hk, hn, AList.lookup_insert_ne (Ne.symm hn)]
    · next hk => simp [hk]

theorem lookup_foldl_binStep (dir : List DirEntry) (m : Map Nat (List (List Char))) (n : Nat) :
    ((dir.foldl (binStep pfx sfx) m).lookup n).getD [] =
      (m.lookup n).getD [] ++ (dir.filter fun e => binNumber pfx sfx e = some n).map (·.name) := by
  induction dir generalizing m with
  | nil => simp
  | cons e dir ih =>
    rw [List.foldl_cons, ih, binStep]
    split
    · next k hk =>
      rw [lookup_push]
      by_cases hn : n = k
      · subst hn; simp [hk]
      · simp [hk, hn, Ne.symm hn]
    · next hk => simp [hk]

theorem mem_foldl_binStep (dir : List DirEntry) (m : Map Nat (List (List Char))) (n : Nat) :
    n ∈ dir.foldl (binStep pfx sfx) m ↔ n ∈ m ∨ ∃ e ∈ dir, binNumber pfx sfx e = some n := by
  induction dir generalizing m with
  | nil => simp
  | cons e dir ih =>
    rw [List.foldl_cons, ih, binStep]
    split
    · next k hk =>
      rw [mem_push]
      constructor
      · rintro ((rfl | h) | ⟨w, hw, hwn⟩)
        · exact .inr ⟨e, by simp, hk⟩
        · exact .inl h
        · exact .inr ⟨w, by simp [hw], hwn⟩
      · rintro (h | ⟨w, hw, hwn⟩)
        · exact .inl (.inr h)
        · rcases List.mem_cons.mp hw with rfl | hw
          · exact .inl (.inl (Option.some_injective _ (hwn.symm.trans hk)))
          · exact .inr ⟨w, hw, hwn⟩
    · next hk =>
      simp only [List.mem_cons, exists_eq_or_imp, hk, reduceCtorEq, false_or]

theorem lookup_binFiles (dir : List DirEntry) (n : Nat) :
    (binFiles dir pfx sfx).lookup n =
      if ∃ e ∈ dir, binNumber pfx sfx e = some n then
        some ((dir.filter fun e => binNumber pfx sfx e = some n).map (·.name))
      else none := by
  have hg := lookup_foldl_binStep pfx sfx dir ∅ n
  split_ifs with h
  · have hk : n ∈ binFiles dir pfx sfx := (mem_foldl_binStep pfx sfx dir ∅ n).mpr (.inr h)
    obtain ⟨l, hl⟩ := Option.isSome_iff_exists.mp (AList.lookup_isSome.mpr hk)
    rw [hl]
    simp only [binFiles] at hl
    simpa [hl] using hg
  · rw [AList.lookup_eq_none, binFiles, mem_foldl_binStep]
    simpa using h

theorem foldlM_binStep_ok (dir : List DirEntry) (m : Map Nat (List (List Char))) :
    (dir.map Except.ok).foldlM (fun m e => binStep pfx sfx m <$> e) m =
      (.ok (dir.foldl (binStep pfx sfx) m) : Except Fault _) := by
  induction dir generalizing m with
  | nil => rfl
  | cons e dir ih => simp only [List.map_cons, List.foldlM_cons, List.foldl_cons, ← ih]; rfl

theorem findAndTransBinFiles_ok (dir : List DirEntry) (check : Bool) :
    findAndTransBinFiles (some (dir.map .ok)) pfx sfx check =
      checkKeys check (binFiles dir pfx sfx) := by
  rw [findAndTransBinFiles, foldlM_binStep_ok]
  rfl

theorem filterMap_toOption_ok (dir : List DirEntry) :
    (dir.map (Except.ok : DirEntry → Except Fault DirEntry)).filterMap Except.toOption = dir := by
  rw [List.filterMap_map]
  exact List.filterMap_some dir

theorem findAndTransFiles_true (dir : Listing) (m : Map Nat (List Char))
    (h : findAndTransFiles dir pfx sfx true = .ok m) : ∃ N, ∀ k, k ∈ m ↔ 1 ≤ k ∧ k ≤ N := by
  cases dir with
  | none => cases h
  | some dir =>
    obtain ⟨rfl, hN⟩ := (checkKeys_true _ m).mp h
    exact hN

theorem findAndTransFiles_ok (dir : List DirEntry) (check : Bool) :
    findAndTransFiles (some (dir.map .ok)) pfx sfx check =
      checkKeys check (transFiles dir pfx sfx) := by
  rw [findAndTransFiles, filterMap_toOption_ok]

end


/-! ## What the binaries see -/

/-- For every suffix that starts with `.`, as `.k2`, `.map` and `.bin` do:
every regular file named exactly `{prefix}_{n}{suffix}` (or
`{prefix}_{n}_{m}{suffix}`) is taken under `n`; `find_and_trans_files` keeps
under each number the last entry of the listing taken under it, and
`find_and_trans_bin_files` all of them in listing order; with `check` the call
is `Ok` iff the numbers are `1, …, N` for some `N`. -/
theorem findAndTransFiles_numbers (p ext : PlainText) (dir : List DirEntry) :
    let pfx := p.chars
    let sfx := '.' :: ext.chars
    (∀ n < usizeSize, transNumber pfx sfx ⟨transName pfx sfx n, true⟩ = some n) ∧
    (∀ n < usizeSize, ∀ k, binNumber pfx sfx ⟨binName pfx sfx n k, true⟩ = some n) ∧
    findAndTransFiles (some (dir.map .ok)) pfx sfx false = .ok (transFiles dir pfx sfx) ∧
    findAndTransBinFiles (some (dir.map .ok)) pfx sfx false = .ok (binFiles dir pfx sfx) ∧
    (∀ n, (transFiles dir pfx sfx).lookup n =
      (dir.reverse.find? fun e => transNumber pfx sfx e = some n).map (·.name)) ∧
    (∀ n, (binFiles dir pfx sfx).lookup n =
      if ∃ e ∈ dir, binNumber pfx sfx e = some n then
        some ((dir.filter fun e => binNumber pfx sfx e = some n).map (·.name))
      else none) ∧
    (∀ m, findAndTransFiles (some (dir.map .ok)) pfx sfx true = .ok m ↔
      m = transFiles dir pfx sfx ∧ ∃ N, ∀ k, k ∈ m ↔ 1 ≤ k ∧ k ≤ N) ∧
    (∀ m, findAndTransBinFiles (some (dir.map .ok)) pfx sfx true = .ok m ↔
      m = binFiles dir pfx sfx ∧ ∃ N, ∀ k, k ∈ m ↔ 1 ≤ k ∧ k ≤ N) := by
  intro pfx sfx
  have hsfx : ∀ c ∈ sfx.head?, isNd c = false := by simp [sfx]; decide
  refine ⟨transNumber_transName pfx sfx hsfx, fun n hn k => binNumber_binName pfx sfx hsfx n k hn,
    findAndTransFiles_ok pfx sfx dir false, findAndTransBinFiles_ok pfx sfx dir false,
    fun n => ?_, lookup_binFiles pfx sfx dir, fun m => ?_, fun m => ?_⟩
  · rw [transFiles, lookup_foldl_transStep, AList.lookup_empty, Option.or_none]
  · rw [findAndTransFiles_ok, checkKeys_true]
    exact and_congr_right fun hm => by rw [hm]
  · rw [findAndTransBinFiles_ok, checkKeys_true]
    exact and_congr_right fun hm => by rw [hm]

/-- `chunkchunk_1.k2` is no `chunk_{n}.k2`, yet it is taken under 1; of
`chunk_1.k2` and `chunk_01.k2`, both under 1, only the later is kept, and the
check passes without a word on the other. -/
theorem findAndTransFiles_stray_names :
    transNumber "chunk".toList ".k2".toList ⟨"chunkchunk_1.k2".toList, true⟩ = some 1 ∧
    (∀ n, "chunkchunk_1.k2".toList ≠ transName "chunk".toList ".k2".toList n) ∧
    (findAndTransFiles (some [.ok ⟨"chunk_1.k2".toList, true⟩, .ok ⟨"chunk_01.k2".toList, true⟩])
      "chunk".toList ".k2".toList true).toOption.map AList.entries =
        some [⟨1, "chunk_01.k2".toList⟩] := by
  refine ⟨by decide, fun n h => ?_, ?_⟩
  · have h6 := congrArg (List.take 6) h
    rw [transName] at h6
    cases h6
  · have hk : (transFiles [⟨"chunk_1.k2".toList, true⟩, ⟨"chunk_01.k2".toList, true⟩]
        "chunk".toList ".k2".toList).keys = [1] := by decide
    erw [findAndTransFiles_ok "chunk".toList ".k2".toList
      [⟨"chunk_1.k2".toList, true⟩, ⟨"chunk_01.k2".toList, true⟩] true]
    rw [checkKeys, hk, List.mergeSort_singleton]
    decide

/-- `find_and_sort_files` returns the names of the entries `find_and_trans_files`
takes, by ascending number and in listing order within a number. With `check`
it is `Ok` iff their numbers, counted with repetition, are `1, …, N`: two
entries under one number fail it, where `find_and_trans_files` keeps one. -/
theorem findAndSortFiles_sorted (p q : PlainText) (dir : List DirEntry) :
    let pfx := p.chars
    let sfx := q.chars
    let taken := dir.filterMap fun e => (transNumber pfx sfx e).map (e.name, ·)
    ∃ ns : List (List Char × Nat),
      findAndSortFiles (some (dir.map .ok)) pfx sfx false = .ok (ns.map (·.1)) ∧
      ns.Perm taken ∧ ns.Pairwise (fun a b => a.2 ≤ b.2) ∧
      (∀ n, ns.filter (fun a => a.2 = n) = taken.filter fun a => a.2 = n) ∧
      ∀ r, findAndSortFiles (some (dir.map .ok)) pfx sfx true = .ok r ↔
        r = ns.map (·.1) ∧ ∃ N, (taken.map (·.2)).Perm (List.range' 1 N) := by
  intro pfx sfx taken
  let sorted := taken.mergeSort fun a b => decide (a.2 ≤ b.2)
  have hf : ∀ check, findAndSortFiles (some (dir.map .ok)) pfx sfx check =
      if check && !continuousFrom 0 (sorted.map (·.2)) then .error (.notFound notContinuous)
      else .ok (sorted.map (·.1)) := by
    intro check
    rw [findAndSortFiles, filterMap_toOption_ok]
  have hmap : sorted.map (·.2) = (taken.map (·.2)).mergeSort fun a b => decide (a ≤ b) :=
    List.map_mergeSort fun _ _ _ _ => rfl
  refine ⟨sorted, hf false, List.mergeSort_perm _ _, sorted_mergeSort_key (·.2) taken,
    filter_mergeSort_key (·.2) taken, fun r => ?_⟩
  rw [hf, hmap, ← continuousFrom_mergeSort]
  cases continuousFrom 0 _ <;> simp [eq_comm]

/-! ## `find_files` -/

/-- A path below the walked directory as its components. `Ord for Path`
compares the components in order, each by its bytes, which on UTF-8 text is
the order of the characters. -/
abbrev Path := List (List Char)

/-- `find_files`: of the entries `WalkDir` yields, an `Err` dropped by
`filter_map(|e| e.ok())`, the paths at any depth, directories included, whose
file name starts with `pfx` and ends with `sfx`, by `sort_unstable`. -/
def findFiles (walk : List (Except Fault Path)) (pfx sfx : List Char) : List Path :=
  ((walk.filterMap Except.toOption).filter fun p =>
    (p.getLast?.map fun name => pfx.isPrefixOf name && sfx.isSuffixOf name).getD false).mergeSort
    fun p q => decide (p ≤ q)

def NameMatches (pfx sfx : List Char) (p : Path) : Prop :=
  ∃ name, p.getLast? = some name ∧ pfx <+: name ∧ sfx <:+ name

instance (pfx sfx : List Char) (p : Path) : Decidable (NameMatches pfx sfx p) :=
  match h : p.getLast? with
  | none => isFalse fun ⟨_, h', _⟩ => by rw [h] at h'; cases h'
  | some name => decidable_of_iff (pfx <+: name ∧ sfx <:+ name)
      ⟨fun hm => ⟨name, h, hm⟩, fun ⟨_, h', hm⟩ => by rw [h] at h'; cases h'; exact hm⟩

theorem nameMatches_iff (pfx sfx : List Char) (p : Path) :
    (p.getLast?.map fun name => pfx.isPrefixOf name && sfx.isSuffixOf name).getD false =
      decide (NameMatches pfx sfx p) := by
  cases h : p.getLast? with
  | none => simp [NameMatches, h]
  | some name =>
    rw [Option.map_some', Option.getD_some, Bool.eq_iff_iff]
    simp [NameMatches, h, List.isPrefixOf_iff_prefix, List.isSuffixOf_iff_suffix]

theorem toOption_eq_some {ε α : Type} {e : Except ε α} {a : α} :
    e.toOption = some a ↔ e = .ok a := by
  cases e <;> simp [Except.toOption]

theorem sorted_mergeSort_le (l : List Path) :
    (l.mergeSort fun p q => decide (p ≤ q)).Sorted (· ≤ ·) :=
  (@List.sorted_mergeSort _ (fun p q : Path => decide (p ≤ q))
    (fun _ _ _ hab hbc => decide_eq_true (le_trans (of_decide_eq_true hab) (of_decide_eq_true hbc)))
    (fun a b => by simpa using le_total a b) l).imp fun h => of_decide_eq_true h

/-- `find_files` returns the paths the walk yields without error whose file
name matches, each as often as the walk yields it, in ascending order: the
same list whatever order the walk yields them in. -/
theorem findFiles_spec (walk : List (Except Fault Path)) (pfx sfx : List Char) :
    let r := findFiles walk pfx sfx
    r.Sorted (· ≤ ·) ∧
      r.Perm ((walk.filterMap Except.toOption).filter fun p => decide (NameMatches pfx sfx p)) ∧
      (∀ p, p ∈ r ↔ .ok p ∈ walk ∧ NameMatches pfx sfx p) ∧
      ∀ walk', walk'.Perm walk → findFiles walk' pfx sfx = r := by
  have hr : ∀ walk, findFiles walk pfx sfx = ((walk.filterMap Except.toOption).filter
      fun p => decide (NameMatches pfx sfx p)).mergeSort fun p q => decide (p ≤ q) := fun walk => by
    simp only [findFiles, nameMatches_iff]
  refine ⟨sorted_mergeSort_le _, by rw [hr]; exact List.mergeSort_perm _ _, fun p => ?_,
    fun walk' hp => ?_⟩
  · simp [hr, List.mem_mergeSort, List.mem_filterMap, toOption_eq_some]
  · rw [hr, hr]
    exact List.eq_of_perm_of_sorted
      (((List.mergeSort_perm _ _).trans ((hp.filterMap _).filter _)).trans
        (List.mergeSort_perm _ _).symm)
      (sorted_mergeSort_le _) (sorted_mergeSort_le _)

end Kr2r.FileNames
