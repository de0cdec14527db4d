import Kr2r.FileNames

/-!
# Building the database from chunk files

`build_k2_db` loads the taxonomy and the hash config, finds the chunk files
`chunk_i.k2` of the database directory under `check`, so that their numbers
are `1, …, N`, and hands them to
`process_k2file` in ascending order, adding up the counts it returns. It then
writes the total into `hash_config.k2d` and removes the chunk files. Any call
that fails ends the run. Whatever the calls return, the run makes them in one
order: chunks `1, 2, …` up to the first failure, then, only if every chunk
was processed, the config with the total of all their counts, then the
removals up to the first failure. So no chunk file is removed before the
config holding the full count is written.
-/

set_option autoImplicit false

namespace Kr2r.BuildK2Db
open Kr2r.Basic Kr2r.FileNames

/-- A call `build_k2_db::run` makes to code outside this repository or to the
file system. -/
inductive Event where
  | process (i : Nat) (file : List Char)
  | writeConfig (size : Nat)
  | remove (file : List Char)
  deriving DecidableEq, Repr

/-- What the code outside this repository returns: `Taxonomy::from_file` and
`HashConfig::from_hash_header` on the database's files, `process_k2file` on
chunk `i` (the count it adds to the table), `HashConfig::write_to_file` with
the total size, and `fs::remove_file`. -/
structure Externals where
  loadTaxonomy : Except Fault Unit
  loadHashConfig : Except Fault Unit
  processK2file : Nat → List Char → Except Fault Nat
  writeToFile : Nat → Except Fault Unit
  removeFile : List Char → Except Fault Unit

section
variable (X : Externals)

def processChunks : List (Nat × List Char) → Nat → List Event × Except Fault Nat
  | [], size => ([], .ok size)
  | (i, file) :: cs, size =>
    match X.processK2file i file with
    | .error e => ([.process i file], .error e)
    | .ok count =>
      match addUsize size count with
      | none => ([.process i file], .error .panic)
      | some size =>
        let r := processChunks cs size
        (.process i file :: r.1, r.2)

def removeChunks : List (List Char) → List Event × Except Fault Unit
  | [] => ([], .ok ())
  | file :: fs =>
    match X.removeFile file with
    | .error e => ([.remove file], .error e)
    | .ok () =>
      let r := removeChunks fs
      (.remove file :: r.1, r.2)

/-- The taxonomy, the hash config, then the chunk files, each with `?`. -/
def chunkFiles (listing : Listing) : Except Fault (Map Nat (List Char)) := do
  X.loadTaxonomy
  X.loadHashConfig
  findAndTransFiles listing "chunk".toList ".k2".toList true

/-- `build_k2_db::run`: the calls it makes, in order, and how it ends. -/
def run (listing : Listing) : List Event × Except Fault Unit :=
  match chunkFiles X listing with
  | .error e => ([], .error e)
  | .ok chunkFiles =>
    let parts := sortedEntries chunkFiles
    let r := processChunks X parts 0
    match r.2 with
    | .error e => (r.1, .error e)
    | .ok size =>
      match X.writeToFile size with
      | .error e => (r.1 ++ [.writeConfig size], .error e)
      | .ok () =>
        let d := removeChunks X (parts.map (·.2))
        (r.1 ++ .writeConfig size :: d.1, d.2)

/-! ## The two loops -/

theorem processChunks_cases (cs : List (Nat × List Char)) (s : Nat) (hs : s < usizeSize) :
    (∃ ns : List Nat, cs.map (fun c => X.processK2file c.1 c.2) = ns.map .ok ∧
      s + ns.sum < usizeSize ∧
      processChunks X cs s = (cs.map fun c => .process c.1 c.2, .ok (s + ns.sum))) ∨
    ∃ done c rest, cs = done ++ c :: rest ∧ ∃ (ns : List Nat) (e : Fault),
      done.map (fun c => X.processK2file c.1 c.2) = ns.map .ok ∧ s + ns.sum < usizeSize ∧
      (X.processK2file c.1 c.2 = .error e ∨
        ∃ n, X.processK2file c.1 c.2 = .ok n ∧ usizeSize ≤ s + ns.sum + n ∧ e = .panic) ∧
      processChunks X cs s = ((done ++ [c]).map fun c => .process c.1 c.2, .error e) := by
  induction cs generalizing s with
  | nil => exact .inl ⟨[], rfl, by simpa using hs, by simp [processChunks]⟩
  | cons c cs ih =>
    obtain ⟨i, file⟩ := c
    rcases hp : X.processK2file i file with e | count
    · exact .inr ⟨[], _, cs, rfl, [], e, rfl, by simpa using hs, .inl hp,
        by simp [processChunks, hp]⟩
    by_cases hfit : s + count < usizeSize
    · have ha := addUsize_of_lt hfit
      rcases ih (s + count) hfit with ⟨ns, hns, hlt, hrun⟩ |
          ⟨done, c, rest, rfl, ns, e, hns, hlt, hc, hrun⟩
      · exact .inl ⟨count :: ns, by simp [hp, hns], by simpa [Nat.add_assoc] using hlt,
          by simp [processChunks, hp, ha, hrun, Nat.add_assoc]⟩
      · exact .inr ⟨(i, file) :: done, c, rest, rfl, count :: ns, e, by simp [hp, hns],
          by simpa [Nat.add_assoc] using hlt, by simpa [Nat.add_assoc] using hc,
          by simp [processChunks, hp, ha, hrun]⟩
    · have ha : addUsize s count = none := if_neg hfit
      exact .inr ⟨[], _, cs, rfl, [], .panic, rfl, by simpa using hs,
        .inr ⟨count, hp, by simpa using hfit, rfl⟩, by simp [processChunks, hp, ha]⟩

theorem processChunks_ok (cs : List (Nat × List Char)) (ns : List Nat)
    (hns : cs.map (fun c => X.processK2file c.1 c.2) = ns.map .ok) (s : Nat)
    (h : s + ns.sum < usizeSize) :
    processChunks X cs s = (cs.map fun c => .process c.1 c.2, .ok (s + ns.sum)) := by
  induction cs generalizing ns s with
  | nil => cases ns <;> simp_all [processChunks]
  | cons c cs ih =>
    obtain ⟨i, file⟩ := c
    rcases ns with _ | ⟨n, ns⟩
    · cases hns
    simp only [List.map_cons, List.cons.injEq] at hns
    simp only [List.sum_cons] at h
    simp [processChunks, hns.1, addUsize_of_lt (show s + n < usizeSize by omega),
      ih ns hns.2 (s + n) (by omega), Nat.add_assoc]

theorem removeChunks_cases (ps : List (Nat × List Char)) :
    ((∀ p ∈ ps, X.removeFile p.2 = .ok ()) ∧
      removeChunks X (ps.map (·.2)) = (ps.map fun p => .remove p.2, .ok ())) ∨
    ∃ done c rest, ps = done ++ c :: rest ∧ (∀ p ∈ done, X.removeFile p.2 = .ok ()) ∧
      ∃ e, X.removeFile c.2 = .error e ∧
        removeChunks X (ps.map (·.2)) = ((done ++ [c]).map fun p => .remove p.2, .error e) := by
  induction ps with
  | nil => exact .inl ⟨by simp, rfl⟩
  | cons p ps ih =>
    rcases hr : X.removeFile p.2 with e | ⟨⟩
    · exact .inr ⟨[], p, ps, rfl, by simp, e, hr, by simp [removeChunks, hr]⟩
    rcases ih with ⟨hall, hrem⟩ | ⟨done, c, rest, rfl, hdone, e, hc, hrem⟩
    · exact .inl ⟨List.forall_mem_cons.mpr ⟨hr, hall⟩, by simp [removeChunks, hr, hrem]⟩
    · exact .inr ⟨p :: done, c, rest, rfl, List.forall_mem_cons.mpr ⟨hr, hdone⟩, e, hc,
        by simp only [List.cons_append, List.map_cons, removeChunks, hr, hrem]⟩

/-! ## The run -/

/-- Whatever the calls return, `run` makes them in this order and ends at the
first failure. Without the taxonomy, the hash config or chunk numbers
`1, …, N` it makes no call. It processes chunks `1, 2, …` until one fails or
overflows the total, and ends with that error; only after all `N` it writes
the config with the total of their counts, ending with the write's error if
it fails; then it removes the chunk files in order until a removal fails, and
ends with that error, or `Ok` after the last. -/
theorem run_events (listing : Listing) :
    (∃ e, chunkFiles X listing = .error e ∧ run X listing = ([], .error e)) ∨
    ∃ m N, chunkFiles X listing = .ok m ∧ (∀ k, k ∈ m ↔ 1 ≤ k ∧ k ≤ N) ∧
      (sortedEntries m).map (·.1) = List.range' 1 N ∧
      (∀ p ∈ sortedEntries m, m.lookup p.1 = some p.2) ∧
      let parts := sortedEntries m
      let procs : List Event := parts.map fun p => .process p.1 p.2
      (∃ done c rest, parts = done ++ c :: rest ∧ ∃ (ns : List Nat) (e : Fault),
        done.map (fun p => X.processK2file p.1 p.2) = ns.map .ok ∧ ns.sum < usizeSize ∧
        (X.processK2file c.1 c.2 = .error e ∨
          ∃ n, X.processK2file c.1 c.2 = .ok n ∧ usizeSize ≤ ns.sum + n ∧ e = .panic) ∧
        run X listing = ((done ++ [c]).map fun p => .process p.1 p.2, .error e)) ∨
      ∃ ns : List Nat, parts.map (fun p => X.processK2file p.1 p.2) = ns.map .ok ∧
        ns.sum < usizeSize ∧
        ((∃ e, X.writeToFile ns.sum = .error e ∧
            run X listing = (procs ++ [.writeConfig ns.sum], .error e)) ∨
          X.writeToFile ns.sum = .ok () ∧
          ((∃ done c rest, parts = done ++ c :: rest ∧
              (∀ p ∈ done, X.removeFile p.2 = .ok ()) ∧ ∃ e, X.removeFile c.2 = .error e ∧
              run X listing =
                (procs ++ .writeConfig ns.sum :: (done ++ [c]).map fun p => .remove p.2, .error e)) ∨
            (∀ p ∈ parts, X.removeFile p.2 = .ok ()) ∧
              run X listing = (procs ++ .writeConfig ns.sum :: parts.map fun p => .remove p.2,
                .ok ()))) := by
  rcases hf : chunkFiles X listing with e | m
  · exact .inl ⟨e, rfl, by rw [run, hf]⟩
  have hf' : findAndTransFiles listing "chunk".toList ".k2".toList true = .ok m := by
    simp only [chunkFiles, bind_eq_ok] at hf
    obtain ⟨_, -, _, -, h⟩ := hf
    exact h
  obtain ⟨N, hN⟩ := findAndTransFiles_true _ _ listing m hf'
  refine .inr ⟨m, N, rfl, hN, sortedEntries_keys m N hN, fun p => lookup_of_mem_sortedEntries m, ?_⟩
  intro parts procs
  rcases processChunks_cases X parts 0 (by decide) with ⟨ns, hns, hlt, hrun⟩ |
      ⟨done, c, rest, hparts, ns, e, hns, hlt, hc, hrun⟩
  · rw [Nat.zero_add] at hlt hrun
    refine .inr ⟨ns, hns, hlt, ?_⟩
    rcases hw : X.writeToFile ns.sum with e | ⟨⟨⟩⟩
    · exact .inl ⟨e, rfl, by rw [run, hf]; simp [parts, procs, hrun, hw]⟩
    refine .inr ⟨rfl, ?_⟩
    rcases removeChunks_cases X parts with ⟨hall, hrem⟩ | ⟨done, c, rest, hp, hdone, e, he, hrem⟩
    · exact .inr ⟨hall, by rw [run, hf]; simp [parts, procs, hrun, hw, hrem]⟩
    · exact .inl ⟨done, c, rest, hp, hdone, e, he,
        by rw [run, hf]; simp [parts, procs, hrun, hw, hrem]⟩
  · rw [Nat.zero_add] at hlt hc
    exact .inl ⟨done, c, rest, hparts, ns, e, hns, hlt, hc, by rw [run, hf]; simp [parts, hrun]⟩

/-- `run` returns `Ok` exactly when the taxonomy and the hash config load, the
chunk numbers are `1, …, N`, every chunk gives a count, the total is a
`usize`, the config is written and every chunk file is removed; it has then
processed every chunk, in order, before writing their total. -/
theorem run_ok (listing : Listing) :
    (run X listing).2 = .ok () ↔
      ∃ m, chunkFiles X listing = .ok m ∧
      ∃ ns : List Nat, (sortedEntries m).map (fun p => X.processK2file p.1 p.2) = ns.map .ok ∧
        ns.sum < usizeSize ∧ X.writeToFile ns.sum = .ok () ∧
        (∀ p ∈ sortedEntries m, X.removeFile p.2 = .ok ()) ∧
        (run X listing).1 = (sortedEntries m).map (fun p => .process p.1 p.2) ++
          .writeConfig ns.sum :: (sortedEntries m).map fun p => .remove p.2 := by
  constructor
  · intro h
    rcases hf : chunkFiles X listing with e | m
    · rw [run, hf] at h; simp at h
    rcases processChunks_cases X (sortedEntries m) 0 (by decide) with ⟨ns, hns, hlt, hrun⟩ |
        ⟨_, _, _, _, _, e, _, _, _, hrun⟩
    · rw [Nat.zero_add] at hlt hrun
      rcases hw : X.writeToFile ns.sum with e | ⟨⟨⟩⟩
      · rw [run, hf] at h; simp [hrun, hw] at h
      rcases removeChunks_cases X (sortedEntries m) with ⟨hall, hrem⟩ | ⟨_, _, _, _, _, e, _, hrem⟩
      · exact ⟨m, rfl, ns, hns, hlt, hw, hall, by rw [run, hf]; simp [hrun, hw, hrem]⟩
      · rw [run, hf] at h; simp [hrun, hw, hrem] at h
    · rw [run, hf] at h; simp [hrun] at h
  · rintro ⟨m, hf, ns, hns, hlt, hw, hrem, -⟩
    rcases removeChunks_cases X (sortedEntries m) with ⟨-, hall⟩ | ⟨_, c, _, hp, -, e, he, -⟩
    · rw [run, hf]; simp [processChunks_ok X _ ns hns 0 (by simpa using hlt), hw, hall]
    · exact absurd (hrem c (by simp [hp])) (by rw [he]; nofun)

end

end Kr2r.BuildK2Db
