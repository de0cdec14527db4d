import Kr2r.SeqIdMap
import Kr2r.HitRows
import Kr2r.FileNames

/-!
# Resolving hit files

`resolve` walks the partitions `i` that have hit files `sample_file_i_j.bin`,
in ascending order. For each it reads the id map `sample_id_i.map` and runs
`process_batch` over the hit files one file at a time: the rows of a file
are grouped by sequence id, and each group whose id the map holds goes to
`process_hitgroup` as one `HitGroup` and gives one output line. A read whose
rows lie in several files of its partition is therefore classified once per
file, on the rows of that file. The totals count the partitions that have
hit files, and every id map of the directory is deleted at the end. With an
output directory a report is written per partition, in ascending order, and a
combined one when there are two partitions or more.
-/

set_option autoImplicit false

namespace Kr2r.Resolve
open Kr2r.Basic Kr2r.Reader Kr2r.HitRows Kr2r.SeqIdMap Kr2r.FileNames

inductive OptionPair (α : Type) where
  | single (a : α)
  | pair (a b : α)
  deriving DecidableEq, Repr

def OptionPair.ofPair {α : Type} : α × Option α → OptionPair α
  | (a, none) => .single a
  | (a, some b) => .pair a b

structure HitGroup (Row : Type) where
  rows : List Row
  range : OptionPair (Nat × Nat)
  deriving DecidableEq, Repr

/-- What the caller sees of `process_hitgroup`: whether it counted the read in
`classify_counter`, and the columns of the output line it renders. -/
structure HitData where
  classified : Bool
  status : List Char
  taxon : List Char
  trace : List Char
  deriving DecidableEq, Repr

/-- The parts of `resolve` whose code this repository does not contain: the
layout of `compact_hash::Row` and its order, `seqkmer::trim_pair_info`, and
`classify::process_hitgroup` with the taxonomy, thresholds and value mask of
the run fixed. -/
structure Externals (Row : Type) where
  layout : RowLayout Row
  le : Row → Row → Bool
  trimPairInfo : List Char → List Char
  processHitgroup : HitGroup Row → HitData

/-- The calls `process_batch` has made to `process_hitgroup`, the lines it has
written, and `classify_counter`. -/
structure Batch (Row : Type) where
  calls : List (UInt32 × HitGroup Row)
  lines : List (List Char)
  classified : Nat

def mateRange (c1 : UInt64) (c2 : Option UInt64) : Option (OptionPair (Nat × Nat)) := do
  let mate2 ← match c2 with
    | none => pure none
    | some size => (addUsize size.toNat c1.toNat).map fun e => some (c1.toNat, e)
  pure (OptionPair.ofPair ((0, c1.toNat), mate2))

def outputLine (d : HitData) (dnaId seqSize : List Char) : List Char :=
  d.status ++ '\t' :: dnaId ++ '\t' :: d.taxon ++ '\t' :: seqSize ++ '\t' :: d.trace ++ ['\n']

section
variable {Row : Type} (X : Externals Row)

/-- The closure of `buffer_map_parallel` on an entry `(k, rows)` of a file's
map; an id the map lacks is only reported on stderr. -/
def processEntry (idMap : IdMap) (b : Batch Row) (e : Σ _ : UInt32, List Row) :
    Except Fault (Batch Row) :=
  match idMap.lookup e.1 with
  | none => .ok b
  | some (seqId, seqSize, c1, c2) => do
    let range ← orPanic (mateRange c1 c2)
    let hits : HitGroup Row := ⟨e.2.mergeSort X.le, range⟩
    let d := X.processHitgroup hits
    pure ⟨b.calls ++ [(e.1, hits)], b.lines ++ [outputLine d (X.trimPairInfo seqId) seqSize],
      b.classified + if d.classified then 1 else 0⟩

def processFile (idMap : IdMap) (b : Batch Row) (file : Option Stream) :
    Except Fault (Batch Row) := do
  let hitCounts ← readRowsFromFile X.layout file
  hitCounts.entries.foldlM (processEntry X idMap) b

def processBatch (files : List (Option Stream)) (idMap : IdMap) : Except Fault (Batch Row) :=
  files.foldlM (processFile X idMap) ⟨[], [], 0⟩

end

/-- The chunk directory as `resolve` sees it: its listing, the text of each
file, the reader of each file, and whether `sample_file.map` is there. -/
structure ChunkDir where
  listing : Listing
  text : List Char → Option (List Char)
  hits : List Char → Option Stream
  sampleFileMap : Bool

inductive ReportFile where
  | partition (i : Nat)
  | combined (lo hi : Nat)
  deriving DecidableEq, Repr

structure Outcome where
  totalSeqs : Nat
  totalUnclassified : Nat
  reports : List (ReportFile × Nat × Nat)
  lines : List (List Char)
  removed : List (List Char)

def partitionMap (fs : ChunkDir) (sampleIdFiles : Map Nat (List Char)) (i : Nat) :
    Except Fault IdMap := do
  let idPath ← orPanic (sampleIdFiles.lookup i)
  let text ← match fs.text idPath with
    | some t => .ok t
    | none => .error .io
  readIdToSeqMap text

section
variable {Row : Type} (X : Externals Row)

def partitionStep (fs : ChunkDir) (outputDir : Bool) (sampleIdFiles : Map Nat (List Char))
    (o : Outcome) (p : Nat × List (List Char)) : Except Fault Outcome := do
  let sampleIdMap ← partitionMap fs sampleIdFiles p.1
  let threadSequences := sampleIdMap.keys.length
  let b ← processBatch X (p.2.map fs.hits) sampleIdMap
  let unclassified ← orPanic (subUsize threadSequences b.classified)
  let totalSeqs ← orPanic (addUsize o.totalSeqs threadSequences)
  let totalUnclassified ← orPanic (addUsize o.totalUnclassified unclassified)
  pure ⟨totalSeqs, totalUnclassified,
    if outputDir then o.reports ++ [(.partition p.1, threadSequences, unclassified)] else o.reports,
    o.lines ++ b.lines, o.removed⟩

/-- `resolve::run` over a chunk directory, after the taxonomy and the hash
config have been loaded. -/
def run (fs : ChunkDir) (outputDir : Bool) : Except Fault Outcome := do
  let sampleFiles ← findAndTransBinFiles fs.listing "sample_file".toList ".bin".toList false
  let sampleIdFiles ← findAndTransFiles fs.listing "sample_id".toList ".map".toList false
  let parts := sortedEntries sampleFiles
  let o ← parts.foldlM (partitionStep X fs outputDir sampleIdFiles) ⟨0, 0, [], [], []⟩
  let o ← if outputDir && !parts.isEmpty then do
      let lo := (parts.headD (0, [])).1
      let hi := (parts.getLastD (0, [])).1
      let o := if hi > lo then
        { o with reports := o.reports ++ [(.combined lo hi, o.totalSeqs, o.totalUnclassified)] }
        else o
      if fs.sampleFileMap then .ok o else .error .io
    else .ok o
  pure { o with removed := parts.flatMap (·.2) ++ (sortedEntries sampleIdFiles).map (·.2) }

end

/-! ## `process_batch` -/

/-- No id of the map has counts whose sum `size + c1` overflows. -/
def NoOverflow (M : IdMap) : Prop :=
  ∀ k ent, M.lookup k = some ent → ∀ c2 ∈ ent.2.2.2, c2.toNat + ent.2.2.1.toNat < usizeSize

theorem mateRange_isSome (c1 : UInt64) (c2 : Option UInt64)
    (h : ∀ c ∈ c2, c.toNat + c1.toNat < usizeSize) : (mateRange c1 c2).isSome := by
  cases c2 with
  | none => rfl
  | some c => simp [mateRange, addUsize_of_lt (h c rfl)]

theorem noOverflow_single (k : UInt32) (seqId seqSize : List Char) (c1 : UInt64) :
    NoOverflow ((∅ : IdMap).insert k (seqId, seqSize, c1, none)) := by
  intro j ent h c hc
  by_cases hj : j = k
  · subst hj
    rw [AList.lookup_insert] at h
    cases h
    cases hc
  · rw [AList.lookup_insert_ne hj] at h
    cases h

section
variable {Row : Type} (X : Externals Row)

def entryCall (M : IdMap) (e : Σ _ : UInt32, List Row) : Option (UInt32 × HitGroup Row) :=
  (M.lookup e.1).bind fun ent =>
    (mateRange ent.2.2.1 ent.2.2.2).map fun r => (e.1, ⟨e.2.mergeSort X.le, r⟩)

def Consistent (b : Batch Row) : Prop :=
  b.lines.length = b.calls.length ∧
    b.classified = b.calls.countP fun c => (X.processHitgroup c.2).classified

theorem processEntry_ok {M : IdMap} {b b' : Batch Row} {e : Σ _ : UInt32, List Row}
    (h : processEntry X M b e = .ok b') :
    b'.calls = b.calls ++ (entryCall X M e).toList ∧ (Consistent X b → Consistent X b') := by
  unfold processEntry at h
  split at h
  · next hk => cases h; simp [entryCall, hk]
  · next seqId seqSize c1 c2 hk =>
    cases hr : mateRange c1 c2 with
    | none => simp [hr, bind, Except.bind] at h
    | some r =>
      simp only [hr, orPanic_some, bind, Except.bind, pure, Except.pure, Except.ok.injEq] at h
      subst h
      refine ⟨by simp [entryCall, hk, hr], fun hb => ⟨by simp [hb.1], ?_⟩⟩
      simp only [List.countP_append, hb.2, List.countP_singleton]

theorem processEntry_total {M : IdMap} (hM : NoOverflow M) (b : Batch Row)
    (e : Σ _ : UInt32, List Row) : ∃ b', processEntry X M b e = .ok b' := by
  unfold processEntry
  split
  · exact ⟨_, rfl⟩
  · next seqId seqSize c1 c2 hk =>
    obtain ⟨r, hr⟩ := Option.isSome_iff_exists.mp (mateRange_isSome c1 c2 (hM _ _ hk))
    simp only [hr, orPanic_some, bind, Except.bind, pure, Except.pure]
    exact ⟨_, rfl⟩

theorem foldlM_processEntry (M : IdMap) (es : List (Σ _ : UInt32, List Row)) (b b' : Batch Row)
    (h : es.foldlM (processEntry X M) b = .ok b') :
    b'.calls = b.calls ++ es.filterMap (entryCall X M) ∧ (Consistent X b → Consistent X b') := by
  induction es generalizing b with
  | nil => cases h; simp
  | cons e es ih =>
    rw [List.foldlM_cons] at h
    cases he : processEntry X M b e with
    | error f => rw [he] at h; cases h
    | ok b1 =>
      rw [he] at h
      obtain ⟨h1, h2⟩ := processEntry_ok X he
      obtain ⟨h3, h4⟩ := ih b1 h
      refine ⟨?_, fun hb => h4 (h2 hb)⟩
      rw [h3, h1, List.filterMap_cons]
      cases entryCall X M e <;> simp

theorem foldlM_processEntry_total {M : IdMap} (hM : NoOverflow M)
    (es : List (Σ _ : UInt32, List Row)) (b : Batch Row) :
    ∃ b', es.foldlM (processEntry X M) b = .ok b' := by
  induction es generalizing b with
  | nil => exact ⟨b, rfl⟩
  | cons e es ih =>
    obtain ⟨b1, h1⟩ := processEntry_total X hM b e
    obtain ⟨b', h'⟩ := ih b1
    exact ⟨b', by rw [List.foldlM_cons, h1]; exact h'⟩

def fileRows (L : RowLayout Row) (s : Stream) : List Row :=
  (records L.size (content s)).map L.decode

def fileCalls (M : IdMap) (s : Stream) : List (UInt32 × HitGroup Row) :=
  (groupBy X.layout.seqId (fileRows X.layout s) ∅).entries.filterMap (entryCall X M)

theorem processFile_some {M : IdMap} {s : Stream} (hs : Piece.fail ∉ s) (b : Batch Row) :
    processFile X M b (some s) =
      (groupBy X.layout.seqId (fileRows X.layout s) ∅).entries.foldlM (processEntry X M) b := by
  rw [processFile, readRowsFromFile, readRowsLoop_eq, avail_eq_content s hs]
  rfl

theorem foldlM_processFile {M : IdMap} (hM : NoOverflow M) (files : List Stream)
    (hf : ∀ s ∈ files, Piece.fail ∉ s) (b : Batch Row) :
    ∃ b', (files.map some).foldlM (processFile X M) b = .ok b' ∧
      b'.calls = b.calls ++ files.flatMap (fileCalls X M) ∧ (Consistent X b → Consistent X b') := by
  induction files generalizing b with
  | nil => exact ⟨b, rfl, by simp, id⟩
  | cons s files ih =>
    have hs := hf s (List.mem_cons_self _ _)
    obtain ⟨b1, h1⟩ := foldlM_processEntry_total X hM
      (groupBy X.layout.seqId (fileRows X.layout s) ∅).entries b
    obtain ⟨c1, k1⟩ := foldlM_processEntry X M _ b b1 h1
    obtain ⟨b', h', c', k'⟩ := ih (fun s' hs' => hf s' (List.mem_cons_of_mem _ hs')) b1
    refine ⟨b', ?_, by rw [c', c1, List.flatMap_cons, List.append_assoc]; rfl, k' ∘ k1⟩
    rw [List.map_cons, List.foldlM_cons, processFile_some X hs, h1]
    exact h'

theorem processBatch_spec {M : IdMap} (hM : NoOverflow M) (files : List Stream)
    (hf : ∀ s ∈ files, Piece.fail ∉ s) :
    ∃ b, processBatch X (files.map some) M = .ok b ∧ b.calls = files.flatMap (fileCalls X M) ∧
      Consistent X b := by
  obtain ⟨b, h, hc, hk⟩ := foldlM_processFile X hM files hf ⟨[], [], 0⟩
  exact ⟨b, h, hc, hk ⟨rfl, rfl⟩⟩


theorem filter_key_eq {V : Type} (l : List (Σ _ : UInt32, V)) (hl : l.NodupKeys) (k : UInt32) :
    l.filter (fun e => e.1 = k) = (l.dlookup k).toList.map (⟨k, ·⟩) := by
  induction l with
  | nil => rfl
  | cons e l ih =>
    rw [List.nodupKeys_cons] at hl
    by_cases he : e.1 = k
    · subst he
      have hnil : l.filter (fun e' => e'.1 = e.1) = [] :=
        List.filter_eq_nil_iff.mpr fun e' he' h => hl.1 (by
          have := List.mem_keys_of_mem he'
          rwa [of_decide_eq_true h] at this)
      rcases e with ⟨k, v⟩
      simp only [List.filter_cons, decide_True, if_true, hnil, List.dlookup_cons_eq]
      rfl
    · simp only [List.filter_cons, he, decide_False, Bool.false_eq_true, if_false,
        List.dlookup_cons_ne l e (Ne.symm he), ih hl.2]

theorem fileCalls_key (M : IdMap) (s : Stream) (k : UInt32) :
    (fileCalls X M s).filter (fun c => c.1 = k) =
      if ∃ r ∈ fileRows X.layout s, X.layout.seqId r = k then
        (entryCall X M ⟨k, (fileRows X.layout s).filter fun r => X.layout.seqId r = k⟩).toList
      else [] := by
  have hkey : ∀ e, (entryCall X M e).filter (fun c => decide (c.1 = k)) =
      if e.1 = k then entryCall X M e else none := by
    intro e
    cases h : entryCall X M e with
    | none => simp
    | some c =>
      have : c.1 = e.1 := by
        simp only [entryCall, Option.bind_eq_some, Option.map_eq_some'] at h
        obtain ⟨_, _, _, _, rfl⟩ := h
        rfl
      by_cases he : e.1 = k <;> simp [Option.filter, this, he]
  have hfilter : ∀ l : List (Σ _ : UInt32, List Row),
      l.filterMap (fun e => if e.1 = k then entryCall X M e else none) =
        (l.filter fun e => e.1 = k).filterMap (entryCall X M) := by
    intro l; rw [List.filterMap_filter]; simp only [decide_eq_true_eq]
  rw [fileCalls, List.filter_filterMap, List.filterMap_congr (fun e _ => hkey e), hfilter,
    filter_key_eq _ (AList.nodupKeys _)]
  show ((AList.lookup k (groupBy X.layout.seqId (fileRows X.layout s) ∅)).toList.map _).filterMap _
    = _
  rw [lookup_groupBy_empty]
  split_ifs
  · simp only [Option.toList_some, List.map_singleton, List.filterMap_cons, List.filterMap_nil]
    cases entryCall X M _ <;> rfl
  · rfl


/-- Under every id, `process_batch` calls `process_hitgroup` once per hit file
holding rows of that id, each time with that file's rows only. -/
theorem processBatch_calls_key {M : IdMap} (hM : NoOverflow M) (files : List Stream)
    (hf : ∀ s ∈ files, Piece.fail ∉ s) :
    ∃ b, processBatch X (files.map some) M = .ok b ∧ Consistent X b ∧ ∀ k,
      b.calls.filter (fun c => c.1 = k) = files.flatMap fun s =>
        if ∃ r ∈ fileRows X.layout s, X.layout.seqId r = k then
          (entryCall X M ⟨k, (fileRows X.layout s).filter fun r => X.layout.seqId r = k⟩).toList
        else [] := by
  obtain ⟨b, h, hc, hk⟩ := processBatch_spec X hM files hf
  exact ⟨b, h, hk, fun k => by
    rw [hc, List.filter_flatMap]
    exact congrArg files.flatMap (funext fun s => fileCalls_key X M s k)⟩

theorem processBatch_calls_key_split :
    let X : Externals Bytes := ⟨byteRows, fun _ _ => true, id, fun _ => ⟨true, ['C'], ['9'], []⟩⟩
    let files : List Stream := [[.data 7 [1, 0, 0]], [.data 7 [2, 0, 0]]]
    NoOverflow ((∅ : IdMap).insert 7 (['r'], ['9'], 5, none)) ∧ (∀ s ∈ files, Piece.fail ∉ s) ∧
    ∃ b, processBatch X (files.map some) ((∅ : IdMap).insert 7 (['r'], ['9'], 5, none)) = .ok b ∧
      Consistent X b ∧ ∀ k, b.calls.filter (fun c => c.1 = k) = files.flatMap fun s =>
        if ∃ r ∈ fileRows X.layout s, X.layout.seqId r = k then
          (entryCall X ((∅ : IdMap).insert 7 (['r'], ['9'], 5, none))
            ⟨k, (fileRows X.layout s).filter fun r => X.layout.seqId r = k⟩).toList
        else [] :=
  ⟨noOverflow_single 7 ['r'] ['9'] 5, by decide,
    processBatch_calls_key _ (noOverflow_single 7 ['r'] ['9'] 5) _ (by decide)⟩

theorem processBatch_empty_file (M : IdMap) :
    processBatch X [some []] M = .ok ⟨[], [], 0⟩ := by
  have h : fileRows X.layout [] = [] := by
    rw [fileRows, content, records_of_lt _ _ X.layout.size_pos, List.map_nil]
  rw [processBatch, List.foldlM_cons, processFile_some X (List.not_mem_nil _), h]
  rfl

end

def partitionWithoutHits : ChunkDir where
  listing := some [.ok ⟨"sample_file_1_1.bin".toList, true⟩, .ok ⟨"sample_id_2.map".toList, true⟩,
    .ok ⟨"sample_id_1.map".toList, true⟩]
  text := fun n => if n = "sample_id_1.map".toList then some "1\tr1\t9\t5\n".toList
    else if n = "sample_id_2.map".toList then some "2\tr2\t9\t5\n".toList else none
  hits := fun n => if n = "sample_file_1_1.bin".toList then some [] else none
  sampleFileMap := true

theorem run_partitionWithoutHits {Row : Type} (X : Externals Row) (outputDir : Bool) :
    run X partitionWithoutHits outputDir =
      .ok ⟨1, 1, if outputDir then [(.partition 1, 1, 1)] else [], [],
        ["sample_file_1_1.bin".toList, "sample_id_1.map".toList, "sample_id_2.map".toList]⟩ := by
  have hbin :
      findAndTransBinFiles partitionWithoutHits.listing "sample_file".toList ".bin".toList false =
      .ok ((∅ : Map Nat (List (List Char))).insert 1 ["sample_file_1_1.bin".toList]) := rfl
  have hid : findAndTransFiles partitionWithoutHits.listing "sample_id".toList ".map".toList false =
      .ok (@AList.insert Nat (fun _ => List Char) _ 1 "sample_id_1.map".toList
        (@AList.insert Nat (fun _ => List Char) _ 2 "sample_id_2.map".toList ∅)) := rfl
  have hsi : sortedEntries (@AList.insert Nat (fun _ => List Char) _ 1 "sample_id_1.map".toList
        (@AList.insert Nat (fun _ => List Char) _ 2 "sample_id_2.map".toList ∅)) =
      [(1, "sample_id_1.map".toList), (2, "sample_id_2.map".toList)] := by
    show List.filterMap _ (List.mergeSort [1, 2] _) = _
    rw [List.mergeSort_of_sorted (by decide)]; rfl
  have hb := processBatch_empty_file X ((∅ : IdMap).insert 1 (['r', '1'], ['9'], 5, none))
  have hlookup : (@AList.insert Nat (fun _ => List Char) _ 1 "sample_id_1.map".toList
      (@AList.insert Nat (fun _ => List Char) _ 2 "sample_id_2.map".toList ∅)).lookup 1 =
        some "sample_id_1.map".toList := rfl
  have htext :
      partitionWithoutHits.text "sample_id_1.map".toList = some "1\tr1\t9\t5\n".toList := rfl
  have hM : readIdToSeqMap "1\tr1\t9\t5\n".toList =
      .ok ((∅ : IdMap).insert 1 (['r', '1'], ['9'], 5, none)) := rfl
  have hhits : ["sample_file_1_1.bin".toList].map partitionWithoutHits.hits = [some []] := rfl
  rw [run, hbin]
  simp only [bind, Except.bind, hid, sortedEntries_single, hsi, List.foldlM_cons, List.foldlM_nil,
    partitionStep, partitionMap, hlookup, orPanic_some, htext, hM, hhits, hb]
  cases outputDir <;> rfl

/-! ## The run -/

section
variable {Row : Type} (X : Externals Row) (fs : ChunkDir) (outputDir : Bool)
  (sampleIdFiles : Map Nat (List Char))

/-- What the loop records for partition `p`: its number, the size of its id
map `M`, and that size less the calls of its batch that classified. -/
def PartitionReport (p : Nat × List (List Char)) (r : Nat × Nat × Nat) : Prop :=
  ∃ M b, partitionMap fs sampleIdFiles p.1 = .ok M ∧ processBatch X (p.2.map fs.hits) M = .ok b ∧
    b.classified ≤ M.keys.length ∧ r = (p.1, M.keys.length, M.keys.length - b.classified)

theorem partitionStep_ok {o o' : Outcome} {p : Nat × List (List Char)}
    (h : partitionStep X fs outputDir sampleIdFiles o p = .ok o') :
    ∃ M b, partitionMap fs sampleIdFiles p.1 = .ok M ∧ processBatch X (p.2.map fs.hits) M = .ok b ∧
      b.classified ≤ M.keys.length ∧
      o' = ⟨o.totalSeqs + M.keys.length, o.totalUnclassified + (M.keys.length - b.classified),
        if outputDir then
          o.reports ++ [(.partition p.1, M.keys.length, M.keys.length - b.classified)]
        else o.reports, o.lines ++ b.lines, o.removed⟩ := by
  simp only [partitionStep, bind_eq_ok, orPanic_eq_ok, subUsize_eq_some, addUsize_eq_some, pure,
    Except.pure, Except.ok.injEq] at h
  obtain ⟨M, hM, b, hb, u, ⟨hle, rfl⟩, t, ⟨-, rfl⟩, tu, ⟨-, rfl⟩, rfl⟩ := h
  exact ⟨M, b, hM, hb, hle, rfl⟩

theorem foldlM_partitionStep (parts : List (Nat × List (List Char))) (o o' : Outcome)
    (h : parts.foldlM (partitionStep X fs outputDir sampleIdFiles) o = .ok o') :
    ∃ (Ms : List IdMap) (rs : List (Nat × Nat × Nat)),
      parts.map (fun p => partitionMap fs sampleIdFiles p.1) = Ms.map .ok ∧
      rs.map (·.2.1) = Ms.map (·.keys.length) ∧
      List.Forall₂ (PartitionReport X fs sampleIdFiles) parts rs ∧
      o'.totalSeqs = o.totalSeqs + (rs.map (·.2.1)).sum ∧
      o'.totalUnclassified = o.totalUnclassified + (rs.map (·.2.2)).sum ∧
      (o.totalUnclassified ≤ o.totalSeqs → o'.totalUnclassified ≤ o'.totalSeqs) ∧
      o'.reports = o.reports ++ (if outputDir then rs.map fun r => (.partition r.1, r.2) else []) ∧
      o'.removed = o.removed := by
  induction parts generalizing o with
  | nil =>
    cases h
    exact ⟨[], [], rfl, rfl, .nil, rfl, rfl, id, by split <;> simp, rfl⟩
  | cons p parts ih =>
    rw [List.foldlM_cons] at h
    obtain ⟨o1, h1, h'⟩ := bind_eq_ok.mp h
    obtain ⟨M, b, hM, hb, hle, rfl⟩ := partitionStep_ok X fs outputDir sampleIdFiles h1
    obtain ⟨Ms, rs, hMs, hns, hrs, hs, hu, hle', hrep, hr⟩ := ih _ h'
    refine ⟨M :: Ms, (p.1, M.keys.length, M.keys.length - b.classified) :: rs, by simp [hM, hMs],
      by simp [hns], .cons ⟨M, b, hM, hb, hle, rfl⟩ hrs, by simp [hs, Nat.add_assoc],
      by simp [hu, Nat.add_assoc], fun hou => hle' (by dsimp only; omega), ?_, hr⟩
    cases outputDir <;> simp [hrep]

theorem run_inv {o : Outcome} (h : run X fs outputDir = .ok o) :
    ∃ sampleFiles sampleIdFiles o1,
      findAndTransBinFiles fs.listing "sample_file".toList ".bin".toList false = .ok sampleFiles ∧
      findAndTransFiles fs.listing "sample_id".toList ".map".toList false = .ok sampleIdFiles ∧
      (sortedEntries sampleFiles).foldlM (partitionStep X fs outputDir sampleIdFiles)
        ⟨0, 0, [], [], []⟩ = .ok o1 ∧
      (outputDir = true → sortedEntries sampleFiles ≠ [] → fs.sampleFileMap = true) ∧
      let lo := ((sortedEntries sampleFiles).headD (0, [])).1
      let hi := ((sortedEntries sampleFiles).getLastD (0, [])).1
      o = ⟨o1.totalSeqs, o1.totalUnclassified, o1.reports ++
        (if outputDir = true ∧ lo < hi then [(.combined lo hi, o1.totalSeqs, o1.totalUnclassified)]
          else []),
        o1.lines,
        (sortedEntries sampleFiles).flatMap (·.2) ++ (sortedEntries sampleIdFiles).map (·.2)⟩ := by
  rw [run] at h
  obtain ⟨sampleFiles, hsf, h⟩ := bind_eq_ok.mp h
  obtain ⟨sids, hsi, h⟩ := bind_eq_ok.mp h
  obtain ⟨o1, h1, h⟩ := bind_eq_ok.mp h
  refine ⟨sampleFiles, sids, o1, hsf, hsi, h1, ?_⟩
  dsimp only at h ⊢
  split_ifs at h with hc hmap hlt <;>
    simp only [bind, Except.bind, pure, Except.pure, Except.ok.injEq] at h <;> cases h
  · exact ⟨fun _ _ => hmap, by rw [if_pos ⟨(Bool.and_eq_true _ _ ▸ hc).1, hlt⟩]⟩
  · exact ⟨fun _ _ => hmap, by rw [if_neg fun h => hlt h.2, List.append_nil]⟩
  · have hc : outputDir = true → sortedEntries sampleFiles = [] := by simpa using hc
    refine ⟨fun ho hne => absurd (hc ho) hne, ?_⟩
    rw [if_neg, List.append_nil]
    rintro ⟨ho, hlt⟩
    simp [hc ho] at hlt

theorem map_fst_of_forall₂ {parts : List (Nat × List (List Char))} {rs : List (Nat × Nat × Nat)}
    (h : List.Forall₂ (PartitionReport X fs sampleIdFiles) parts rs) :
    rs.map (·.1) = parts.map (·.1) := by
  induction h with
  | nil => rfl
  | cons hr _ ih =>
    obtain ⟨M, b, -, -, -, rfl⟩ := hr
    rw [List.map_cons, List.map_cons, ih]

/-- With an output directory, whenever `run` returns `Ok` it has written one
report `output_{i}.kreport2` for each partition `i` with hit files, in
ascending order, carrying the size of the id map of `i` and that size less
the calls of its batch that classified. With two partitions or more it has also
written the combined report `output_{min}-{max}.kreport2`, carrying the
totals, which are the sums over the partition reports. `sample_file.map` was
there to be copied. -/
theorem run_reports (o : Outcome) (h : run X fs true = .ok o) :
    ∃ sampleFiles sampleIdFiles,
      findAndTransBinFiles fs.listing "sample_file".toList ".bin".toList false = .ok sampleFiles ∧
      findAndTransFiles fs.listing "sample_id".toList ".map".toList false = .ok sampleIdFiles ∧
      (sortedEntries sampleFiles ≠ [] → fs.sampleFileMap = true) ∧
      ∃ rs : List (Nat × Nat × Nat),
        List.Forall₂ (PartitionReport X fs sampleIdFiles) (sortedEntries sampleFiles) rs ∧
        (rs.map (·.1)).Sorted (· < ·) ∧
        o.totalSeqs = (rs.map (·.2.1)).sum ∧ o.totalUnclassified = (rs.map (·.2.2)).sum ∧
        o.reports = rs.map (fun r => (.partition r.1, r.2)) ++
          if 2 ≤ rs.length then
            [(.combined ((rs.map (·.1)).headD 0) ((rs.map (·.1)).getLastD 0), o.totalSeqs,
              o.totalUnclassified)]
          else [] := by
  obtain ⟨sampleFiles, sids, o1, hsf, hsi, h1, hmap, rfl⟩ := run_inv X fs true h
  obtain ⟨-, rs, -, -, hrs, hs, hu, -, hrep, -⟩ := foldlM_partitionStep X fs true sids _ _ o1 h1
  have hkeys := map_fst_of_forall₂ X fs sids hrs
  have hsorted : (rs.map (·.1)).Sorted (· < ·) := hkeys ▸ sortedEntries_lt sampleFiles
  have hlo : ((sortedEntries sampleFiles).headD (0, [])).1 = (rs.map (·.1)).headD 0 := by
    rw [hkeys]; exact (List.headD_map _ _ _).symm
  have hhi : ((sortedEntries sampleFiles).getLastD (0, [])).1 = (rs.map (·.1)).getLastD 0 := by
    rw [hkeys]; exact (List.getLastD_map _ _ _).symm
  refine ⟨sampleFiles, sids, hsf, hsi, hmap rfl, rs, hrs, hsorted, by simpa using hs,
    by simpa using hu, ?_⟩
  simp only [hrep, hlo, hhi, headD_lt_getLastD hsorted]
  simp
end
theorem run_reports_one_partition :
    let X : Externals Bytes := ⟨byteRows, fun _ _ => true, id, fun _ => ⟨true, [], [], []⟩⟩
    ∃ o, run X partitionWithoutHits true = .ok o ∧ ∃ sampleFiles sampleIdFiles,
      findAndTransBinFiles partitionWithoutHits.listing "sample_file".toList ".bin".toList false =
        .ok sampleFiles ∧
      findAndTransFiles partitionWithoutHits.listing "sample_id".toList ".map".toList false =
        .ok sampleIdFiles ∧
      (sortedEntries sampleFiles ≠ [] → partitionWithoutHits.sampleFileMap = true) ∧
      ∃ rs : List (Nat × Nat × Nat),
        List.Forall₂ (PartitionReport X partitionWithoutHits sampleIdFiles) (sortedEntries sampleFiles) rs ∧
        (rs.map (·.1)).Sorted (· < ·) ∧
        o.totalSeqs = (rs.map (·.2.1)).sum ∧ o.totalUnclassified = (rs.map (·.2.2)).sum ∧
        o.reports = rs.map (fun r => (.partition r.1, r.2)) ++
          if 2 ≤ rs.length then
            [(.combined ((rs.map (·.1)).headD 0) ((rs.map (·.1)).getLastD 0), o.totalSeqs,
              o.totalUnclassified)]
          else [] :=
  by intro X; exact ⟨_, run_partitionWithoutHits X true,
    run_reports X partitionWithoutHits _ (run_partitionWithoutHits X true)⟩

theorem run_partition_without_hits {Row : Type} (X : Externals Row) :
    (readIdToSeqMap "2\tr2\t9\t5\n".toList).toOption.map (·.keys.length) = some 1 ∧
    ∃ o, run X partitionWithoutHits false = .ok o ∧ o.totalSeqs = 1 ∧
      "sample_id_2.map".toList ∈ o.removed :=
  ⟨rfl, _, run_partitionWithoutHits X false, rfl, by decide⟩

def splitReadDir : ChunkDir where
  listing := some [.ok ⟨"sample_file_1_1.bin".toList, true⟩,
    .ok ⟨"sample_file_1_2.bin".toList, true⟩, .ok ⟨"sample_id_1.map".toList, true⟩]
  text := fun n => if n = "sample_id_1.map".toList then some "7\tr\t9\t5\n".toList else none
  hits := fun n => if n = "sample_file_1_1.bin".toList then some [.data 7 [1, 0, 0]]
    else if n = "sample_file_1_2.bin".toList then some [.data 7 [2, 0, 0]] else none
  sampleFileMap := true

theorem run_split_read (le : Bytes → Bytes → Bool) (trim : List Char → List Char)
    (P : HitGroup Bytes → HitData) :
    readIdToSeqMap "7\tr\t9\t5\n".toList = .ok ((∅ : IdMap).insert 7 (['r'], ['9'], 5, none)) ∧
    (∃ b, processBatch ⟨byteRows, le, trim, P⟩
        (["sample_file_1_1.bin".toList, "sample_file_1_2.bin".toList].map splitReadDir.hits)
        ((∅ : IdMap).insert 7 (['r'], ['9'], 5, none)) = .ok b ∧
      b.calls = [(7, ⟨[[7, 1, 0, 0]], .single (0, 5)⟩), (7, ⟨[[7, 2, 0, 0]], .single (0, 5)⟩)]) ∧
    run ⟨byteRows, le, trim, fun _ => ⟨true, ['C'], ['9'], []⟩⟩ splitReadDir false = .error .panic := by
  have hM := noOverflow_single 7 ['r'] ['9'] 5
  have hfiles : ["sample_file_1_1.bin".toList, "sample_file_1_2.bin".toList].map splitReadDir.hits =
      [[.data 7 [1, 0, 0]], [.data 7 [2, 0, 0]]].map some := rfl
  have hbatch : ∀ P' : HitGroup Bytes → HitData, ∃ b, processBatch ⟨byteRows, le, trim, P'⟩
      (["sample_file_1_1.bin".toList, "sample_file_1_2.bin".toList].map splitReadDir.hits)
      ((∅ : IdMap).insert 7 (['r'], ['9'], 5, none)) = .ok b ∧
      b.calls = [(7, ⟨[[7, 1, 0, 0]], .single (0, 5)⟩), (7, ⟨[[7, 2, 0, 0]], .single (0, 5)⟩)] ∧
      Consistent ⟨byteRows, le, trim, P'⟩ b := by
    intro P'
    obtain ⟨b, h, hc, hk⟩ := processBatch_spec ⟨byteRows, le, trim, P'⟩ hM _
      (by decide : ∀ s ∈ [[Piece.data 7 [1, 0, 0]], [.data 7 [2, 0, 0]]], Piece.fail ∉ s)
    refine ⟨b, hfiles ▸ h, ?_, hk⟩
    have h1 : fileRows byteRows [.data 7 [1, 0, 0]] = [[7, 1, 0, 0]] := rfl
    have h2 : fileRows byteRows [.data 7 [2, 0, 0]] = [[7, 2, 0, 0]] := rfl
    rw [hc, List.flatMap_cons, List.flatMap_cons, List.flatMap_nil, fileCalls, fileCalls, h1, h2]
    show ([(7, ⟨List.mergeSort [[7, 1, 0, 0]] le, .single (0, 5)⟩),
      (7, ⟨List.mergeSort [[7, 2, 0, 0]] le, .single (0, 5)⟩)] : List (UInt32 × HitGroup Bytes)) = _
    rw [List.mergeSort_singleton, List.mergeSort_singleton]
  refine ⟨rfl, (hbatch P).imp fun b h => ⟨h.1, h.2.1⟩, ?_⟩
  obtain ⟨b, hb, hcalls, hcons⟩ := hbatch fun _ => ⟨true, ['C'], ['9'], []⟩
  have hsub : subUsize ((∅ : IdMap).insert 7 (['r'], ['9'], 5, none) : IdMap).keys.length
      b.classified = none := by
    rw [hcons.2, hcalls]; rfl
  have hbin : findAndTransBinFiles splitReadDir.listing "sample_file".toList ".bin".toList false =
      .ok ((∅ : Map Nat (List (List Char))).insert 1
        ["sample_file_1_1.bin".toList, "sample_file_1_2.bin".toList]) := rfl
  have hid : findAndTransFiles splitReadDir.listing "sample_id".toList ".map".toList false =
      .ok (@AList.insert Nat (fun _ => List Char) _ 1 "sample_id_1.map".toList ∅) := rfl
  have hlookup : (@AList.insert Nat (fun _ => List Char) _ 1 "sample_id_1.map".toList ∅).lookup 1 =
      some "sample_id_1.map".toList := rfl
  have htext : splitReadDir.text "sample_id_1.map".toList = some "7\tr\t9\t5\n".toList := rfl
  have hmap : readIdToSeqMap "7\tr\t9\t5\n".toList =
      .ok ((∅ : IdMap).insert 7 (['r'], ['9'], 5, none)) := rfl
  rw [run, hbin]
  simp only [bind, Except.bind, hid, sortedEntries_single, List.foldlM_cons, partitionStep,
    partitionMap, hlookup, orPanic_some, htext,
    hmap, hb, hsub, orPanic_none]

end Kr2r.Resolve
