import Kr2r.Resolve

/-!
# Any schedule of `buffer_map_parallel`

`process_batch` hands the map of each hit file to `buffer_map_parallel`, which
runs the closure on the entries on several threads, in an order that neither
`HashMap` iteration nor the threads fix, and writes the lines as the results
come back. A schedule here is any order of the entries of each file and any
order of the writes of its lines. Whatever the schedule, the batch ends with
the same error, or with the same calls under every id, the same calls and
lines up to order, and the same `classify_counter`: the only state the
closure shares is the counters it adds to, and the entries of a map have
distinct ids. The model of `Kr2r.Resolve` is the schedule that keeps the
order of the map. The same holds of `resolve::run` with a schedule per
partition: its totals, reports and removals are those of the model, and its
lines differ only in order.
-/

set_option autoImplicit false

namespace Kr2r.Parallel
open Kr2r.Basic Kr2r.Reader Kr2r.HitRows Kr2r.SeqIdMap Kr2r.FileNames Kr2r.Resolve

/-- A schedule of `buffer_map_parallel` over the hit files of a batch: for the
`j`-th file, the order in which the closure runs on the entries of its map,
and the order in which the lines it returns reach the writer. -/
structure Schedule (Row : Type) where
  run : Nat → HitMap Row → List (Σ _ : UInt32, List Row)
  write : Nat → List (List Char) → List (List Char)
  run_perm : ∀ j m, (run j m).Perm m.entries
  write_perm : ∀ j ls, (write j ls).Perm ls

section
variable {Row : Type} (X : Externals Row)

def processFileIn (σ : Schedule Row) (idMap : IdMap) (j : Nat) (b : Batch Row)
    (file : Option Stream) : Except Fault (Batch Row) := do
  let hitCounts ← readRowsFromFile X.layout file
  let r ← (σ.run j hitCounts).foldlM (processEntry X idMap) { b with lines := [] }
  pure { r with lines := b.lines ++ σ.write j r.lines }

def processFilesIn (σ : Schedule Row) (idMap : IdMap) :
    Nat → Batch Row → List (Option Stream) → Except Fault (Batch Row)
  | _, b, [] => .ok b
  | j, b, file :: files => do
    let b ← processFileIn X σ idMap j b file
    processFilesIn σ idMap (j + 1) b files

/-- `process_batch` under the schedule `σ`. -/
def processBatchIn (σ : Schedule Row) (files : List (Option Stream)) (idMap : IdMap) :
    Except Fault (Batch Row) :=
  processFilesIn X σ idMap 0 ⟨[], [], 0⟩ files

def EntryFails (M : IdMap) (e : Σ _ : UInt32, List Row) : Prop :=
  ∃ ent, M.lookup e.1 = some ent ∧ mateRange ent.2.2.1 ent.2.2.2 = none

instance (M : IdMap) (e : Σ _ : UInt32, List Row) : Decidable (EntryFails M e) :=
  match h : M.lookup e.1 with
  | none => isFalse fun ⟨ent, h', _⟩ => by rw [h] at h'; cases h'
  | some ent => decidable_of_iff (mateRange ent.2.2.1 ent.2.2.2 = none)
      ⟨fun h' => ⟨ent, h, h'⟩, fun ⟨ent', h', h''⟩ => by rw [h] at h'; cases h'; exact h''⟩

def lineOf (M : IdMap) (c : UInt32 × HitGroup Row) : List Char :=
  match M.lookup c.1 with
  | some (seqId, seqSize, _, _) => outputLine (X.processHitgroup c.2) (X.trimPairInfo seqId) seqSize
  | none => []

def extend (M : IdMap) (b : Batch Row) (cs : List (UInt32 × HitGroup Row)) : Batch Row :=
  ⟨b.calls ++ cs, b.lines ++ cs.map (lineOf X M),
    b.classified + cs.countP fun c => (X.processHitgroup c.2).classified⟩

theorem extend_nil (M : IdMap) (b : Batch Row) : extend X M b [] = b := by
  cases b; simp [extend]

theorem extend_append (M : IdMap) (b : Batch Row) (cs cs' : List (UInt32 × HitGroup Row)) :
    extend X M (extend X M b cs) cs' = extend X M b (cs ++ cs') := by
  simp [extend, List.countP_append, Nat.add_assoc]

theorem processEntry_eq (M : IdMap) (b : Batch Row) (e : Σ _ : UInt32, List Row) :
    processEntry X M b e =
      if EntryFails M e then .error .panic else .ok (extend X M b (entryCall X M e).toList) := by
  unfold processEntry
  split
  · next hk =>
    rw [if_neg fun ⟨ent, h, _⟩ => by rw [hk] at h; cases h]
    simp [entryCall, hk, extend_nil]
  · next seqId seqSize c1 c2 hk =>
    cases hr : mateRange c1 c2 with
    | none => rw [if_pos ⟨_, hk, hr⟩]; rfl
    | some r =>
      rw [if_neg fun ⟨ent, h, h'⟩ => by rw [hk] at h; cases h; rw [hr] at h'; cases h']
      simp [entryCall, hk, hr, extend, lineOf, bind, Except.bind, pure, Except.pure,
        List.countP_singleton]

theorem foldlM_processEntry_eq (M : IdMap) (es : List (Σ _ : UInt32, List Row)) (b : Batch Row) :
    es.foldlM (processEntry X M) b =
      if ∃ e ∈ es, EntryFails M e then .error .panic
      else .ok (extend X M b (es.filterMap (entryCall X M))) := by
  induction es generalizing b with
  | nil => simp [extend_nil, pure, Except.pure]
  | cons e es ih =>
    rw [List.foldlM_cons, processEntry_eq]
    by_cases he : EntryFails M e
    · simp [he, bind, Except.bind]
    · rw [if_neg he]
      show es.foldlM (processEntry X M) (extend X M b (entryCall X M e).toList) = _
      rw [ih, extend_append]
      simp only [List.mem_cons, exists_eq_or_imp, he, false_or]
      congr 2
      rw [List.filterMap_cons]
      cases entryCall X M e <;> rfl

theorem keys_filterMap_entryCall (M : IdMap) (es : List (Σ _ : UInt32, List Row)) :
    ((es.filterMap (entryCall X M)).map Prod.fst).Sublist (es.map Sigma.fst) := by
  induction es with
  | nil => exact .slnil
  | cons e es ih =>
    cases h : entryCall X M e with
    | none => simpa [List.filterMap_cons, h] using ih.cons e.1
    | some c =>
      have : c.1 = e.1 := by
        simp only [entryCall, Option.bind_eq_some, Option.map_eq_some'] at h
        obtain ⟨_, _, _, _, rfl⟩ := h
        rfl
      simpa [List.filterMap_cons, h, this] using ih.cons₂ e.1
end

theorem filter_key_eq_of_perm {C : Type} {cs cs' : List (UInt32 × C)} (h : cs.Perm cs')
    (hn : (cs.map Prod.fst).Nodup) (k : UInt32) :
    cs.filter (fun c => c.1 = k) = cs'.filter (fun c => c.1 = k) := by
  have hp := h.filter (fun c => decide (c.1 = k))
  have hone : (cs.filter fun c => c.1 = k).length ≤ 1 := by
    have hsub : ((cs.filter fun c => c.1 = k).map Prod.fst).Nodup :=
      hn.sublist ((List.filter_sublist _).map _)
    have heq : (cs.filter fun c => c.1 = k).map Prod.fst =
        List.replicate ((cs.filter fun c => c.1 = k).map Prod.fst).length k :=
      List.eq_replicate_iff.mpr ⟨rfl, fun a ha => by
        obtain ⟨c, hc, rfl⟩ := List.mem_map.mp ha
        exact of_decide_eq_true (List.mem_filter.mp hc).2⟩
    rw [heq, List.nodup_replicate, List.length_map] at hsub
    exact hsub
  rcases hf : cs.filter (fun c => c.1 = k) with _ | ⟨a, _ | ⟨a', t⟩⟩
  · rw [hf] at hp; exact hf.trans hp.nil_eq
  · rw [hf] at hp; exact hf.trans (List.singleton_perm.mp hp)
  · rw [hf] at hone; simp at hone

/-! ## Every schedule runs the same -/

/-- Two ends of a run that no schedule tells apart: the same error, or results
related by `R`. -/
def Agree {α : Type} (R : α → α → Prop) : Except Fault α → Except Fault α → Prop
  | .ok a, .ok a' => R a a'
  | .error e, .error e' => e = e'
  | _, _ => False

theorem agree_bind {α β : Type} {R : α → α → Prop} {S : β → β → Prop}
    {x x' : Except Fault α} {f f' : α → Except Fault β} (hx : Agree R x x')
    (hf : ∀ a a', R a a' → Agree S (f a) (f' a')) : Agree S (x >>= f) (x' >>= f') := by
  cases x <;> cases x' <;> first | exact hf _ _ hx | exact hx | cases hx

theorem agree_rfl {α : Type} (x : Except Fault α) : Agree Eq x x := by
  cases x <;> rfl

theorem agree_bind_same {α β : Type} {S : β → β → Prop} (x : Except Fault α)
    {f f' : α → Except Fault β} (hf : ∀ a, Agree S (f a) (f' a)) : Agree S (x >>= f) (x >>= f') :=
  agree_bind (agree_rfl x) fun a _ h => h ▸ hf a

theorem agree_foldlM_of_step {α β : Type} {R : α → α → Prop} {f f' : α → β → Except Fault α}
    (hf : ∀ a a', R a a' → ∀ x, Agree R (f a x) (f' a' x)) (xs : List β) :
    ∀ {a a' : α}, R a a' → Agree R (xs.foldlM f a) (xs.foldlM f' a') := by
  induction xs with
  | nil => exact fun h => h
  | cons x xs ih => exact fun h => agree_bind (hf _ _ h x) fun _ _ => ih

section
variable {Row : Type}

/-- What no schedule changes: under every id the calls made, in order; all the
calls and all the lines up to order; and `classify_counter`. -/
def SameRun (b b' : Batch Row) : Prop :=
  (∀ k, b'.calls.filter (fun c => c.1 = k) = b.calls.filter (fun c => c.1 = k)) ∧
    b'.calls.Perm b.calls ∧ b'.lines.Perm b.lines ∧ b'.classified = b.classified

variable (X : Externals Row)

theorem processFile_eq (M : IdMap) (b : Batch Row) (file : Option Stream) :
    processFile X M b file = readRowsFromFile X.layout file >>= fun m =>
      if ∃ e ∈ m.entries, EntryFails M e then .error .panic
      else .ok (extend X M b (m.entries.filterMap (entryCall X M))) := by
  simp only [processFile, foldlM_processEntry_eq]

theorem processFileIn_eq (σ : Schedule Row) (M : IdMap) (j : Nat) (b : Batch Row)
    (file : Option Stream) :
    processFileIn X σ M j b file = readRowsFromFile X.layout file >>= fun m =>
      if ∃ e ∈ σ.run j m, EntryFails M e then .error .panic
      else
        let cs := (σ.run j m).filterMap (entryCall X M)
        .ok ⟨b.calls ++ cs, b.lines ++ σ.write j (cs.map (lineOf X M)),
          b.classified + cs.countP fun c => (X.processHitgroup c.2).classified⟩ := by
  unfold processFileIn
  cases readRowsFromFile X.layout file with
  | error e => rfl
  | ok m =>
    dsimp only [bind, Except.bind]
    rw [foldlM_processEntry_eq]
    split_ifs <;> rfl

def Schedule.inOrder (Row : Type) : Schedule Row :=
  ⟨fun _ m => m.entries, fun _ ls => ls, fun _ _ => .refl _, fun _ _ => .refl _⟩

theorem processBatchIn_inOrder (files : List (Option Stream)) (M : IdMap) :
    processBatchIn X (.inOrder Row) files M = processBatch X files M := by
  suffices ∀ j b, processFilesIn X (.inOrder Row) M j b files =
      files.foldlM (processFile X M) b from this 0 _
  induction files with
  | nil => exact fun _ _ => rfl
  | cons file files ih =>
    intro j b
    have h : processFileIn X (.inOrder Row) M j b file = processFile X M b file := by
      rw [processFileIn_eq, processFile_eq]; rfl
    rw [processFilesIn, h, List.foldlM_cons]
    cases processFile X M b file
    · rfl
    · exact ih _ _

theorem agree_processFile (σ : Schedule Row) (M : IdMap) (j : Nat) {b b' : Batch Row}
    (hb : SameRun b b') (file : Option Stream) :
    Agree SameRun (processFile X M b file) (processFileIn X σ M j b' file) := by
  rw [processFile_eq, processFileIn_eq]
  cases readRowsFromFile X.layout file with
  | error e => rfl
  | ok m =>
    have hperm := σ.run_perm j m
    have hfails : (∃ e ∈ σ.run j m, EntryFails M e) ↔ ∃ e ∈ m.entries, EntryFails M e :=
      exists_congr fun e => and_congr_left' hperm.mem_iff
    show Agree SameRun (if _ then _ else _) (if _ then _ else _)
    by_cases hf : ∃ e ∈ m.entries, EntryFails M e
    · rw [if_pos hf, if_pos (hfails.mpr hf)]; rfl
    · rw [if_neg hf, if_neg (mt hfails.mp hf)]
      have hcs := hperm.filterMap (entryCall X M)
      have hn := (keys_filterMap_entryCall X M m.entries).nodup m.nodupKeys
      refine ⟨fun k => ?_, hb.2.1.append hcs,
        hb.2.2.1.append ((σ.write_perm j _).trans (hcs.map _)), ?_⟩
      · simp only [extend, List.filter_append]
        rw [hb.1 k, filter_key_eq_of_perm hcs.symm hn k]
      · simp only [extend]
        rw [hb.2.2.2, hcs.countP_eq]

theorem agree_foldlM (σ : Schedule Row) (M : IdMap) (files : List (Option Stream)) :
    ∀ (j : Nat) {b b' : Batch Row}, SameRun b b' →
      Agree SameRun (files.foldlM (processFile X M) b) (processFilesIn X σ M j b' files) := by
  induction files with
  | nil => exact fun _ _ _ hb => hb
  | cons file files ih =>
    intro j b b' hb
    rw [List.foldlM_cons, processFilesIn]
    exact agree_bind (agree_processFile X σ M j hb file) fun _ _ => ih (j + 1)

/-- However `buffer_map_parallel` schedules the closure over the entries of
each hit file's map, and the writes of the lines it returns, `process_batch`
ends the same way: with the same error, or having made the same calls of
`process_hitgroup` under every id in the same order, the same calls and the
same lines up to order, and the same `classify_counter`. -/
theorem processBatch_schedule (σ : Schedule Row) (files : List (Option Stream)) (M : IdMap) :
    Agree SameRun (processBatch X files M) (processBatchIn X σ files M) :=
  agree_foldlM X σ M files 0 ⟨fun _ => rfl, .refl _, .refl _, rfl⟩

end

/-! ## `resolve::run` under any schedule -/

/-- What no schedule changes in the end of `resolve::run`: all but the order of
the output lines. -/
def SameOutcome (o o' : Outcome) : Prop :=
  o'.totalSeqs = o.totalSeqs ∧ o'.totalUnclassified = o.totalUnclassified ∧
    o'.reports = o.reports ∧ o'.lines.Perm o.lines ∧ o'.removed = o.removed

section
variable {Row : Type} (X : Externals Row) (σ : Nat → Schedule Row) (fs : ChunkDir)
  (outputDir : Bool)

def partitionStepIn (sampleIdFiles : Map Nat (List Char)) (o : Outcome)
    (p : Nat × List (List Char)) : Except Fault Outcome := do
  let sampleIdMap ← partitionMap fs sampleIdFiles p.1
  let threadSequences := sampleIdMap.keys.length
  let b ← processBatchIn X (σ p.1) (p.2.map fs.hits) sampleIdMap
  let unclassified ← orPanic (subUsize threadSequences b.classified)
  let totalSeqs ← orPanic (addUsize o.totalSeqs threadSequences)
  let totalUnclassified ← orPanic (addUsize o.totalUnclassified unclassified)
  pure ⟨totalSeqs, totalUnclassified,
    if outputDir then o.reports ++ [(.partition p.1, threadSequences, unclassified)] else o.reports,
    o.lines ++ b.lines, o.removed⟩

/-- `resolve::run` with the batch of partition `i` under the schedule `σ i`. -/
def runIn : Except Fault Outcome := do
  let sampleFiles ← findAndTransBinFiles fs.listing "sample_file".toList ".bin".toList false
  let sampleIdFiles ← findAndTransFiles fs.listing "sample_id".toList ".map".toList false
  let parts := sortedEntries sampleFiles
  let o ← parts.foldlM (partitionStepIn X σ fs outputDir sampleIdFiles) ⟨0, 0, [], [], []⟩
  let o ← if outputDir && !parts.isEmpty then do
      let lo := (parts.headD (0, [])).1
      let hi := (parts.getLastD (0, [])).1
      let o := if hi > lo then
        { o with reports := o.reports ++ [(.combined lo hi, o.totalSeqs, o.totalUnclassified)] }
        else o
      if fs.sampleFileMap then .ok o else .error .io
    else .ok o
  pure { o with removed := parts.flatMap (·.2) ++ (sortedEntries sampleIdFiles).map (·.2) }

theorem runIn_inOrder : runIn X (fun _ => .inOrder Row) fs outputDir = run X fs outputDir := by
  have h : partitionStepIn X (fun _ => .inOrder Row) fs outputDir =
      partitionStep X fs outputDir := by
    funext sampleIdFiles o p
    simp only [partitionStepIn, partitionStep, processBatchIn_inOrder]
  simp only [runIn, run, h]

theorem agree_partitionStep (sampleIdFiles : Map Nat (List Char)) {o o' : Outcome}
    (ho : SameOutcome o o') (p : Nat × List (List Char)) :
    Agree SameOutcome (partitionStep X fs outputDir sampleIdFiles o p)
      (partitionStepIn X σ fs outputDir sampleIdFiles o' p) := by
  obtain ⟨hs, hu, hr, hl, hd⟩ := ho
  unfold partitionStep partitionStepIn
  refine agree_bind_same _ fun M =>
    agree_bind (agree_foldlM X (σ p.1) M _ 0 ⟨fun _ => rfl, .refl _, .refl _, rfl⟩)
      fun b b' hb => ?_
  dsimp only
  rw [hb.2.2.2, hs, hu, hr]
  exact agree_bind_same _ fun u => agree_bind_same _ fun t => agree_bind_same _ fun tu =>
    ⟨rfl, rfl, rfl, hl.append hb.2.2.1, hd⟩

/-- Whatever schedule `buffer_map_parallel` follows in each partition, `resolve`
ends the same way: with the same error, or with the same totals, the same
reports with the same counts, the same files removed, and the same output
lines up to order. -/
theorem run_schedule : Agree SameOutcome (run X fs outputDir) (runIn X σ fs outputDir) := by
  unfold run runIn
  refine agree_bind_same _ fun sampleFiles => agree_bind_same _ fun sampleIdFiles =>
    agree_bind (agree_foldlM_of_step (fun _ _ => agree_partitionStep X σ fs outputDir sampleIdFiles)
      _ ⟨rfl, rfl, rfl, .refl _, rfl⟩) fun o o' ho => ?_
  obtain ⟨hs, hu, hr, hl, -⟩ := ho
  dsimp only
  split_ifs <;>
    first | rfl | exact ⟨hs, hu, hr, hl, rfl⟩ | exact ⟨hs, hu, by rw [hr, hs, hu], hl, rfl⟩

end
end Kr2r.Parallel
