import Kr2r.SeqIdMap

/-!
# Id files read line by line

`read_id_to_taxon_map` reads `seqid2taxid.map`: on each line, after `trim`,
the first two whitespace-separated fields are a sequence id and a `u64`
taxon id. A line with fewer fields, or whose second field is not a `u64`, is
skipped, and a later line for the same sequence id wins. Any list of pairs
whose sequence ids are nonempty and hold no whitespace, written as lines
`seq_id TAB taxid`, is read back as the map that inserting them in order
builds.

`get_lastest_file_index` reads a file whose lines start with a decimal index
and a tab, and returns the largest index, `0` for an empty file.
-/

set_option autoImplicit false

namespace Kr2r.IdFiles
open Kr2r.Basic Kr2r.Text Kr2r.SeqIdMap

def splitWhitespace (s : List Char) : List (List Char) :=
  (s.splitOnP isWhitespace).filter fun p => !p.isEmpty

def insertTaxon (m : Map (List Char) UInt64) (line : List Char) : Map (List Char) UInt64 :=
  match splitWhitespace (trim line) with
  | seqId :: taxid :: _ =>
    match fromStr UInt64.size taxid with
    | some t => m.insert seqId (UInt64.ofNat t)
    | none => m
  | _ => m

def readIdToTaxonMap (file : Option (List Char)) : Except Fault (Map (List Char) UInt64) :=
  match file with
  | none => .error .io
  | some text => .ok ((lines text).foldl insertTaxon ∅)

/-- `get_lastest_file_index`: the first tab-separated field of each line, read
as a `usize` where it is one; their maximum, `1` if there is none, and `0`
for an empty file. `none` is a file `read_to_string` cannot read. -/
def getLastestFileIndex (file : Option (List Char)) : Except Fault Nat :=
  match file with
  | none => .error .io
  | some content =>
    .ok (if content.isEmpty then 0 else
      (((lines content).filterMap fun line => (line.splitOn '\t').head?).filterMap
        (fromStr usizeSize)).max?.getD 1)

/-! ## `seqid2taxid.map` -/

structure TaxonRecord where
  seqId : List Char
  taxid : UInt64
  deriving DecidableEq, Repr

namespace TaxonRecord

def line (r : TaxonRecord) : List Char := r.seqId ++ '\t' :: decimal r.taxid.toNat

def Clean (r : TaxonRecord) : Prop := r.seqId ≠ [] ∧ ∀ c ∈ r.seqId, isWhitespace c = false

instance (r : TaxonRecord) : Decidable r.Clean := inferInstanceAs (Decidable (_ ∧ _))

end TaxonRecord

def renderTaxa (rs : List TaxonRecord) : List Char := (rs.map fun r => r.line ++ ['\n']).flatten

theorem endsDigit_taxonLine (r : TaxonRecord) : EndsDigit r.line :=
  endsDigit_append _ _ (List.singleton_append (l := decimal _) ▸
    endsDigit_append ['\t'] _ (endsDigit_decimal _) (decimal_ne_nil _)) (List.cons_ne_nil _ _)

section
variable (r : TaxonRecord) (h : r.Clean)
include h

theorem trim_taxonLine : trim r.line = r.line := by
  refine trim_of_ends _ (fun c hc => ?_)
    fun c hc => isWhitespace_of_isDigit c (endsDigit_taxonLine r c hc)
  obtain ⟨d, L, hd⟩ := List.exists_cons_of_ne_nil h.1
  rw [TaxonRecord.line, hd, List.cons_append, List.head?_cons, Option.mem_def,
    Option.some.injEq] at hc
  exact hc ▸ h.2 d (hd ▸ List.mem_cons_self _ _)

theorem splitWhitespace_taxonLine : splitWhitespace r.line = [r.seqId, decimal r.taxid.toNat] := by
  have hd : ∀ c ∈ decimal r.taxid.toNat, ¬isWhitespace c := fun c hc => by
    simp [isWhitespace_of_isDigit c (isDigit_of_mem_decimal _ c hc)]
  rw [splitWhitespace, TaxonRecord.line,
    List.splitOnP_first _ _ (fun c hc => by simp [h.2 c hc]) '\t' (by decide),
    List.splitOnP_eq_single _ _ hd]
  simp [List.isEmpty_iff, h.1, decimal_ne_nil]

theorem insertTaxon_line (m : Map (List Char) UInt64) :
    insertTaxon m r.line = m.insert r.seqId r.taxid := by
  rw [insertTaxon, trim_taxonLine r h, splitWhitespace_taxonLine r h]
  simp only [fromStr_decimal _ _ r.taxid.toNat_lt_size, ofNat_toNat64]

end

theorem lines_renderTaxa (rs : List TaxonRecord) (h : ∀ r ∈ rs, r.Clean) :
    lines (renderTaxa rs) = rs.map TaxonRecord.line := by
  have hnl : ∀ r ∈ rs, '\n' ∉ r.line := fun r hr hmem => by
    have hd : '\n' ∉ decimal r.taxid.toNat := not_mem_decimal _ _ (by decide)
    rcases List.mem_append.mp hmem with hs | hs
    · exact absurd ((h r hr).2 _ hs) (by decide)
    · simp [hd] at hs
  rw [renderTaxa, show (rs.map fun r => r.line ++ ['\n']) =
    (rs.map TaxonRecord.line).map (· ++ ['\n']) by simp [Function.comp_def],
    lines_flatten _ (by simpa using hnl)]
  refine (List.map_congr_left fun l hl => stripCr_of_getLast l ?_).trans (List.map_id _)
  obtain ⟨r, hr, rfl⟩ := List.mem_map.mp hl
  intro c hc hcr
  exact absurd (hcr ▸ endsDigit_taxonLine r c hc) (by decide)

/-- Every list of records with clean sequence ids, written one per line, is
read back as the map that inserting them in order builds: each sequence id
holds the taxon id of its last record. -/
theorem readIdToTaxonMap_render (rs : List TaxonRecord) (h : ∀ r ∈ rs, r.Clean) :
    ∃ m, readIdToTaxonMap (some (renderTaxa rs)) = .ok m ∧
      ∀ k, m.lookup k = (rs.reverse.find? fun r => r.seqId = k).map (·.taxid) := by
  refine ⟨_, rfl, fun k => ?_⟩
  rw [lines_renderTaxa rs h, List.foldl_map]
  have hfold : ∀ m : Map (List Char) UInt64, rs.foldl (fun m r => insertTaxon m r.line) m =
      rs.foldl (fun m r => m.insert r.seqId r.taxid) m := by
    induction rs with
    | nil => exact fun _ => rfl
    | cons r rs ih =>
      intro m
      rw [List.foldl_cons, List.foldl_cons, insertTaxon_line r (h r (List.mem_cons_self _ _)),
        ih fun r' hr' => h r' (List.mem_cons_of_mem _ hr')]
  rw [hfold, lookup_foldl_insert, AList.lookup_empty, Option.or_none]

theorem readIdToTaxonMap_render_repeated :
    let rs := [TaxonRecord.mk "NC_1".toList 9606, TaxonRecord.mk "NC_2".toList 562,
      TaxonRecord.mk "NC_1".toList 10239]
    (∀ r ∈ rs, r.Clean) ∧ ∃ m, readIdToTaxonMap (some (renderTaxa rs)) = .ok m ∧
      ∀ k, m.lookup k = (rs.reverse.find? fun r => r.seqId = k).map (·.taxid) :=
  ⟨by decide, readIdToTaxonMap_render _ (by decide)⟩

/-! ## The index file -/

def indexLine (r : Nat × List Char) : List Char := decimal r.1 ++ '\t' :: r.2

def renderIndex (rs : List (Nat × List Char)) : List Char :=
  (rs.map fun r => indexLine r ++ ['\n']).flatten

theorem firstField_indexLine (r : Nat × List Char) :
    ((stripCr (indexLine r)).splitOn '\t').head? = some (decimal r.1) := by
  obtain ⟨b, hb⟩ := stripCr_append_cons (decimal r.1) r.2 '\t' (by decide)
  rw [indexLine, hb, splitOn_sep _ _ _ (not_mem_decimal _ _ (by decide)), List.head?_cons]

/-- The index of a file whose lines each start with an index and a tab is
the largest of them, and `0` for a file with no line. -/
theorem getLastestFileIndex_render (rs : List (Nat × List Char))
    (h : ∀ r ∈ rs, r.1 < usizeSize ∧ '\n' ∉ r.2) :
    getLastestFileIndex (some (renderIndex rs)) = .ok ((rs.map (·.1)).max?.getD 0) := by
  have hnl : ∀ l ∈ rs.map indexLine, '\n' ∉ l := by
    simp only [List.mem_map]
    rintro _ ⟨r, hr, rfl⟩ hmem
    rcases List.mem_append.mp hmem with hs | hs
    · exact not_mem_decimal _ _ (by decide) hs
    · simp [(h r hr).2] at hs
  have hlines : lines (renderIndex rs) = (rs.map indexLine).map stripCr := by
    rw [renderIndex, show (rs.map fun r => indexLine r ++ ['\n']) =
      (rs.map indexLine).map (· ++ ['\n']) by simp [Function.comp_def], lines_flatten _ hnl]
  have hfields : ((rs.map indexLine).map stripCr).filterMap (fun l => (l.splitOn '\t').head?) =
      rs.map fun r => decimal r.1 := by
    rw [List.map_map, List.filterMap_map]
    exact (List.filterMap_congr fun r _ => firstField_indexLine r).trans
      (congrFun (List.filterMap_eq_map _) rs)
  have hnums : (rs.map fun r => decimal r.1).filterMap (fromStr usizeSize) = rs.map (·.1) := by
    rw [List.filterMap_map]
    exact (List.filterMap_congr fun r hr => fromStr_decimal _ _ (h r hr).1).trans
      (congrFun (List.filterMap_eq_map _) rs)
  rw [getLastestFileIndex, hlines, hfields, hnums]
  rcases rs with _ | ⟨r, rs⟩
  · rfl
  · obtain ⟨x, hx⟩ := Option.isSome_iff_exists.mp
      (List.isSome_max?_of_mem (List.mem_map_of_mem (·.1) (List.mem_cons_self r rs)))
    simp [renderIndex, indexLine, hx]

theorem getLastestFileIndex_render_three :
    (∀ r ∈ [(3, "a.fq".toList), (12, []), (7, "b\r".toList)], r.1 < usizeSize ∧ '\n' ∉ r.2) ∧
      getLastestFileIndex (some (renderIndex [(3, "a.fq".toList), (12, []), (7, "b\r".toList)])) =
        .ok (([(3, "a.fq".toList), (12, []), (7, "b\r".toList)].map (·.1)).max?.getD 0) :=
  ⟨by decide, getLastestFileIndex_render _ (by decide)⟩

end Kr2r.IdFiles
