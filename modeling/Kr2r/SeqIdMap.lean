import Kr2r.Text

/-!
# The sample id map

`read_id_to_seq_map` reads lines `id TAB seq_id TAB size TAB c1[|c2]` into a map
from the numeric id to the other four fields. A line with fewer than four
fields or an id that is not a `u32` is skipped; a first count that is not a
`usize` is a panic. Any list of records whose text fields hold no tab and no
line feed, written one per line, is read back as the map that inserting the
records in order builds, the last record winning for a repeated id.
-/

set_option autoImplicit false

namespace Kr2r.SeqIdMap
open Kr2r.Basic Kr2r.Text

abbrev SeqEntry := List Char × List Char × UInt64 × Option UInt64

abbrev IdMap := Map UInt32 SeqEntry

def parseLine (line : List Char) : Except Fault (Option (UInt32 × SeqEntry)) :=
  match splitn 4 '\t' (trim line) with
  | id :: seqId :: seqSize :: counts :: _ =>
    match fromStr UInt32.size id with
    | none => .ok none
    | some id =>
      match counts.splitOn '|' with
      | [] => .error .panic
      | c1 :: rest =>
        match fromStr usizeSize c1 with
        | none => .error .panic
        | some k1 =>
          let k2 := match rest with
            | c2 :: _ => (fromStr usizeSize c2).map UInt64.ofNat
            | [] => none
          .ok (some (UInt32.ofNat id, seqId, seqSize, UInt64.ofNat k1, k2))
  | _ => .ok none

def insertLine (m : IdMap) (line : List Char) : Except Fault IdMap := do
  match ← parseLine line with
  | some (k, v) => pure (m.insert k v)
  | none => pure m

def readIdToSeqMap (text : List Char) : Except Fault IdMap :=
  (lines text).foldlM insertLine ∅

/-! ## Records written one per line -/

structure SeqRecord where
  id : UInt32
  seqId : List Char
  seqSize : List Char
  count1 : UInt64
  count2 : Option UInt64
  deriving DecidableEq, Repr

namespace SeqRecord

def counts (r : SeqRecord) : List Char :=
  decimal r.count1.toNat ++ match r.count2 with
    | none => []
    | some c => '|' :: decimal c.toNat

def line (r : SeqRecord) : List Char :=
  decimal r.id.toNat ++ '\t' :: (r.seqId ++ '\t' :: (r.seqSize ++ '\t' :: r.counts))

def entry (r : SeqRecord) : SeqEntry := (r.seqId, r.seqSize, r.count1, r.count2)

def Clean (r : SeqRecord) : Prop :=
  '\t' ∉ r.seqId ∧ '\n' ∉ r.seqId ∧ '\t' ∉ r.seqSize ∧ '\n' ∉ r.seqSize

instance (r : SeqRecord) : Decidable r.Clean :=
  inferInstanceAs (Decidable (_ ∧ _ ∧ _ ∧ _))

end SeqRecord

def render (rs : List SeqRecord) : List Char := (rs.map fun r => r.line ++ ['\n']).flatten

/-! ## One line -/

theorem not_mem_decimal (n : Nat) (c : Char) (hc : c.isDigit = false) : c ∉ decimal n :=
  fun h => ne_of_isDigit c c (isDigit_of_mem_decimal n c h) hc rfl

def EndsDigit (l : List Char) : Prop := ∀ c ∈ l.getLast?, c.isDigit

theorem endsDigit_decimal (n : Nat) : EndsDigit (decimal n) := fun c hc =>
  isDigit_of_mem_decimal n c (List.mem_of_getLast?_eq_some hc)

theorem endsDigit_append (l l' : List Char) (h : EndsDigit l') (hne : l' ≠ []) :
    EndsDigit (l ++ l') := by
  intro c hc
  obtain ⟨x, hx⟩ := Option.ne_none_iff_exists'.mp (mt List.getLast?_eq_none_iff.mp hne)
  rw [List.getLast?_append, hx] at hc
  exact h c (by rw [hx]; exact hc)

theorem endsDigit_line (r : SeqRecord) : EndsDigit r.line := by
  have hcounts : EndsDigit r.counts ∧ r.counts ≠ [] := by
    rcases h : r.count2 with _ | k <;> simp only [SeqRecord.counts, h]
    · exact ⟨by simpa using endsDigit_decimal _, by simpa using decimal_ne_nil _⟩
    · refine ⟨endsDigit_append _ _ ?_ (List.cons_ne_nil _ _), by simp⟩
      exact List.singleton_append (l := decimal k.toNat) ▸
        endsDigit_append ['|'] _ (endsDigit_decimal _) (decimal_ne_nil _)
  have hcons : ∀ a l, EndsDigit l → l ≠ [] → EndsDigit (a :: l) := fun a l h hne =>
    List.singleton_append (l := l) ▸ endsDigit_append [a] l h hne
  apply endsDigit_append _ _ _ (List.cons_ne_nil _ _)
  exact hcons _ _ (endsDigit_append _ _ (hcons _ _ (endsDigit_append _ _
    (hcons _ _ hcounts.1 hcounts.2) (List.cons_ne_nil _ _)) (by simp))
    (List.cons_ne_nil _ _)) (by simp)

theorem trim_line (r : SeqRecord) : trim r.line = r.line := by
  apply trim_of_ends
  · intro c hc
    obtain ⟨d, L, hd⟩ := List.exists_cons_of_ne_nil (decimal_ne_nil r.id.toNat)
    rw [SeqRecord.line, hd, List.cons_append, List.head?_cons, Option.mem_def,
      Option.some.injEq] at hc
    exact isWhitespace_of_isDigit c
      (isDigit_of_mem_decimal r.id.toNat c (hd ▸ hc ▸ List.mem_cons_self _ _))
  · exact fun c hc => isWhitespace_of_isDigit c (endsDigit_line r c hc)

theorem splitOn_counts (r : SeqRecord) :
    r.counts.splitOn '|' =
      decimal r.count1.toNat :: (r.count2.map fun c => decimal c.toNat).toList := by
  have hd : ∀ n, '|' ∉ decimal n := fun n => not_mem_decimal n '|' (by decide)
  rcases h : r.count2 with _ | k <;> simp only [SeqRecord.counts, h]
  · simp [splitOn_of_not_mem _ _ (hd _)]
  · simp [splitOn_sep _ _ _ (hd _), splitOn_of_not_mem _ _ (hd _)]

theorem ofNat_toNat32 (x : UInt32) : UInt32.ofNat x.toNat = x :=
  UInt32.toNat.inj (UInt32.toNat_ofNat_of_lt x.toNat_lt_size)

theorem ofNat_toNat64 (x : UInt64) : UInt64.ofNat x.toNat = x :=
  UInt64.toNat.inj (UInt64.toNat_ofNat_of_lt x.toNat_lt_size)

theorem fromStr_decimal64 (x : UInt64) : fromStr usizeSize (decimal x.toNat) = some x.toNat :=
  fromStr_decimal _ _ x.toNat_lt_size

theorem parseLine_line (r : SeqRecord) (h : r.Clean) :
    parseLine r.line = .ok (some (r.id, r.entry)) := by
  have htab : '\t' ∉ decimal r.id.toNat := not_mem_decimal _ _ (by decide)
  have hsplit : splitn 4 '\t' r.line = [decimal r.id.toNat, r.seqId, r.seqSize, r.counts] := by
    rw [SeqRecord.line, splitn_sep 2 _ _ _ htab, splitn_sep 1 _ _ _ h.1, splitn_sep 0 _ _ _ h.2.2.1]
    rfl
  rw [parseLine, trim_line, hsplit]
  simp only [fromStr_decimal _ _ r.id.toNat_lt_size, splitOn_counts, fromStr_decimal64,
    ofNat_toNat32, ofNat_toNat64, SeqRecord.entry]
  rcases r.count2 with _ | k
  · rfl
  · simp [fromStr_decimal64, ofNat_toNat64]

/-! ## The whole file -/

theorem lines_render (rs : List SeqRecord) (h : ∀ r ∈ rs, r.Clean) :
    lines (render rs) = rs.map SeqRecord.line := by
  have hnl : ∀ r ∈ rs, '\n' ∉ r.line := by
    intro r hr hmem
    have hc := h r hr
    have hd : ∀ n, '\n' ∉ decimal n := fun n => not_mem_decimal n '\n' (by decide)
    rcases hr2 : r.count2 with _ | k <;>
      simp [SeqRecord.line, SeqRecord.counts, hr2, hd, hc.2.1, hc.2.2.2] at hmem
  rw [render, show (rs.map fun r => r.line ++ ['\n']) = (rs.map SeqRecord.line).map (· ++ ['\n'])
    by simp [Function.comp_def], lines_flatten _ (by simpa using hnl)]
  refine (List.map_congr_left fun l hl => stripCr_of_getLast l ?_).trans (List.map_id _)
  obtain ⟨r, -, rfl⟩ := List.mem_map.mp hl
  intro c hc hcr
  exact absurd (hcr ▸ endsDigit_line r c hc) (by decide)

/-- Every list of records with clean text fields, written one per line, is
read back as the map that inserting them in order builds: every field of the
last record of each id is recovered unchanged. -/
theorem readIdToSeqMap_render (rs : List SeqRecord) (h : ∀ r ∈ rs, r.Clean) :
    ∃ m, readIdToSeqMap (render rs) = .ok m ∧
      m = rs.foldl (fun m r => m.insert r.id r.entry) ∅ ∧
      ∀ k, m.lookup k = (rs.reverse.find? (·.id == k)).map SeqRecord.entry := by
  refine ⟨_, ?_, rfl, fun k => by rw [lookup_foldl_insert, AList.lookup_empty, Option.or_none]; rfl⟩
  rw [readIdToSeqMap, lines_render rs h]
  generalize (∅ : IdMap) = m
  induction rs generalizing m with
  | nil => rfl
  | cons r rs ih =>
    simp only [List.map_cons, List.foldlM_cons, insertLine, parseLine_line r (h r (by simp)),
      List.foldl_cons]
    exact ih (fun r' hr' => h r' (List.mem_cons_of_mem _ hr')) _

/-- Two records under one id, the first with a pair of counts and a `|` and a
space in its sequence id. -/
theorem readIdToSeqMap_render_repeated :
    let rs := [SeqRecord.mk 7 ['r', '|', ' ', '1'] ['1', '5', '0'] 12 (some 9),
      SeqRecord.mk 7 ['r', '2'] ['9', '9'] 3 none]
    (∀ r ∈ rs, r.Clean) ∧ ∃ m, readIdToSeqMap (render rs) = .ok m ∧
      m = rs.foldl (fun m r => m.insert r.id r.entry) ∅ ∧
      ∀ k, m.lookup k = (rs.reverse.find? (·.id == k)).map SeqRecord.entry :=
  ⟨by decide, readIdToSeqMap_render _ (by decide)⟩

/-! ## Lines the reader cannot get past -/

/-- A line with four fields and a `u32` id whose first k-mer count is not a
`usize`: the `unwrap` of `read_id_to_seq_map` panics on it. -/
def Fatal (line : List Char) : Prop :=
  ∃ id seqId seqSize counts rest,
    splitn 4 '\t' (trim line) = id :: seqId :: seqSize :: counts :: rest ∧
    (fromStr UInt32.size id).isSome ∧ fromStr usizeSize ((counts.splitOn '|').headD []) = none

theorem fatal_iff {line id seqId seqSize counts : List Char} {rest : List (List Char)}
    (h : splitn 4 '\t' (trim line) = id :: seqId :: seqSize :: counts :: rest) :
    Fatal line ↔ (fromStr UInt32.size id).isSome ∧
      fromStr usizeSize ((counts.splitOn '|').headD []) = none := by
  unfold Fatal
  rw [h]
  constructor
  · rintro ⟨_, _, _, _, _, he, hf⟩
    simp only [List.cons.injEq] at he
    obtain ⟨rfl, -, -, rfl, -⟩ := he
    exact hf
  · exact fun hf => ⟨_, _, _, _, _, rfl, hf⟩

theorem parseLine_error (line : List Char) (e : Fault) :
    parseLine line = .error e ↔ e = .panic ∧ Fatal line := by
  unfold parseLine
  split
  · next id seqId seqSize counts rest hsplit =>
    rw [fatal_iff hsplit]
    cases hid : fromStr UInt32.size id with
    | none => simp only [reduceCtorEq, Option.isSome_none, Bool.false_eq_true, false_and, and_false]
    | some i =>
      cases hc : counts.splitOn '|' with
      | nil => exact ⟨fun h => ⟨(Except.error.inj h).symm, rfl, rfl⟩, fun h => h.1 ▸ rfl⟩
      | cons c1 cs =>
        cases h1 : fromStr usizeSize c1 <;>
          simp only [h1, reduceCtorEq, Except.error.injEq, Option.isSome_some, List.headD_cons,
            true_and, eq_comm, and_true, and_false]
  · next hne =>
    simp only [reduceCtorEq, false_iff, not_and, Fatal, not_exists]
    exact fun _ id seqId seqSize counts rest h => absurd h (hne id seqId seqSize counts rest)

theorem insertLine_ok_of_not_fatal (m : IdMap) {line : List Char} (h : ¬Fatal line) :
    ∃ m', insertLine m line = .ok m' := by
  cases hp : parseLine line with
  | error e => exact absurd ((parseLine_error line e).mp hp).2 h
  | ok r => cases r <;> exact ⟨_, by simp only [insertLine, hp]; rfl⟩

/-- `read_id_to_seq_map` fails exactly when one of the lines of the file is
fatal, and then by a panic: every other line is skipped or inserted. -/
theorem readIdToSeqMap_error (text : List Char) (e : Fault) :
    readIdToSeqMap text = .error e ↔ e = .panic ∧ ∃ l ∈ lines text, Fatal l := by
  rw [readIdToSeqMap]
  generalize (∅ : IdMap) = m
  induction lines text generalizing m with
  | nil => simp [pure, Except.pure]
  | cons l ls ih =>
    simp only [List.foldlM_cons, List.mem_cons, or_and_right, exists_or, exists_eq_left]
    by_cases hl : Fatal l
    · have hi : insertLine m l = .error .panic := by
        simp only [insertLine, (parseLine_error l .panic).mpr ⟨rfl, hl⟩]; rfl
      rw [hi]
      exact ⟨fun h => ⟨(Except.error.inj h).symm, .inl hl⟩, fun h => h.1 ▸ rfl⟩
    · obtain ⟨m', hm'⟩ := insertLine_ok_of_not_fatal m hl
      rw [hm', or_iff_right hl]
      exact ih m'

example : readIdToSeqMap "1\tr1\t9\t5\n2\tr2\t9\tx|5\n".toList = .error .panic := rfl

end Kr2r.SeqIdMap
