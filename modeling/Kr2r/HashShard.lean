import Kr2r.Basic
import Mathlib.Logic.Function.Basic

/-!
# Splitting the index into shards

`hashshard` reads the capacity `C` of a legacy `hash.k2d` from its header,
writing nothing when that fails, and cuts the cell array into
`p = ⌈C / H⌉` shard files `hash_i.k2d` of at most `H` cells, each headed by
its number and its cell count. The run is a list of writes to the database
directory, and a crash leaves any prefix of it applied. `hash_config.k2d` is
written before the first shard: it marks a split as started, and a second run
refuses to start over it. So the config is on disk in every state a crash
can leave after its write, whether or not the shards are complete; what
holds in each such state is that the shards before some `j` are complete,
shard `j` holds a prefix of its content, and the later ones are untouched.
-/

set_option autoImplicit false

namespace Kr2r.HashShard
open Kr2r.Basic

inductive DbFile where
  | hashConfig
  | shard (i : Nat)
  | taxo
  | opts
  deriving DecidableEq, Repr

/-- One write to the directory: `File::create`, which leaves an empty file, or
a `write_all` that reached the file. -/
inductive Op where
  | create (f : DbFile)
  | append (f : DbFile) (b : Bytes)
  deriving DecidableEq, Repr

abbrev Dir := DbFile → Option Bytes

def Op.file : Op → DbFile
  | .create f => f
  | .append f _ => f

def Op.apply (d : Dir) : Op → Dir
  | .create f => Function.update d f (some [])
  | .append f b => Function.update d f (some ((d f).getD [] ++ b))

def applyOps (d : Dir) (ops : List Op) : Dir := ops.foldl Op.apply d

def fileOps (f : DbFile) (chunks : List Bytes) : List Op := .create f :: chunks.map (.append f)

def partitionCount (capacity hashCapacity : Nat) : Option Nat := do
  let s ← addUsize capacity hashCapacity
  let s ← subUsize s 1
  divUsize s hashCapacity

def fileLen (capacity : Nat) : Option Nat := do
  let a ← mulUsize capacity 4
  addUsize a 32

def shardRange (hashCapacity fileLen i : Nat) : Option (Nat × Nat) := do
  let im1 ← subUsize i 1
  let a ← mulUsize hashCapacity im1
  let a ← mulUsize a 4
  let offset ← addUsize 32 a
  let length ← mulUsize hashCapacity 4
  let e ← addUsize offset length
  if e > fileLen then
    let length ← subUsize fileLen offset
    pure (offset, length)
  else pure (offset, length)

/-- `mmap_read_write`: the writes it makes and how it ends. Creating,
opening and seeking succeed; `read_exact` fails when the index is too short. -/
def mmapReadWrite (index : Bytes) (partition cap offset length : Nat) : List Op × Option Fault :=
  let header := [toLeBytes partition, toLeBytes cap]
  if offset + length ≤ index.length then
    (fileOps (.shard partition) (header ++ [(index.drop offset).take length]), none)
  else (fileOps (.shard partition) header, some .io)

def shardLoop (index : Bytes) (hashCapacity fileLen : Nat) : List Nat → List Op × Option Fault
  | [] => ([], none)
  | i :: is =>
    match shardRange hashCapacity fileLen i with
    | none => ([], some .panic)
    | some (offset, length) =>
      match mmapReadWrite index i (length / 4) offset length with
      | (ops, some f) => (ops, some f)
      | (ops, none) =>
        let r := shardLoop index hashCapacity fileLen is
        (ops ++ r.1, r.2)

/-- `hashshard::run`, with `index` the bytes of `hash.k2d`, `header` what
`HashConfig::from_kraken2_header` reads from it (the capacity, or its error),
and `config` the bytes `write_to_file` writes. The database directory is both
source and destination, so `fs::copy` of `taxo.k2d` or `opts.k2d` runs only
when the file is missing, and then fails. -/
def run (index : Bytes) (header : Except Fault Nat) (hashCapacity : Nat) (config : Bytes)
    (d : Dir) : List Op × Option Fault :=
  match header with
  | .error f => ([], some f)
  | .ok capacity =>
    match partitionCount capacity hashCapacity, fileLen capacity with
    | some partition, some fileLen =>
      if (d .hashConfig).isSome then ([], some .panic)
      else
        let r := shardLoop index hashCapacity fileLen (List.range' 1 partition)
        let ops := fileOps .hashConfig [config] ++ r.1
        match r.2 with
        | some f => (ops, some f)
        | none => (ops, if (d .taxo).isSome && (d .opts).isSome then none else some .io)
    | _, _ => ([], some .panic)

/-! ## Writes -/

@[simp] theorem applyOps_nil (d : Dir) : applyOps d [] = d := rfl

theorem applyOps_append (d : Dir) (a b : List Op) :
    applyOps d (a ++ b) = applyOps (applyOps d a) b := List.foldl_append _ _ _ _

theorem applyOps_cons (d : Dir) (op : Op) (ops : List Op) :
    applyOps d (op :: ops) = applyOps (op.apply d) ops := rfl

theorem applyOps_other (d : Dir) (ops : List Op) (g : DbFile) (h : ∀ op ∈ ops, op.file ≠ g) :
    applyOps d ops g = d g := by
  induction ops generalizing d with
  | nil => rfl
  | cons op ops ih =>
    rw [applyOps_cons, ih _ fun op' h' => h op' (List.mem_cons_of_mem _ h')]
    have hg := h op (List.mem_cons_self _ _)
    cases op <;> exact Function.update_noteq (Ne.symm hg) _ _

theorem file_of_mem_fileOps {f : DbFile} {cs : List Bytes} {op : Op} (h : op ∈ fileOps f cs) :
    op.file = f := by
  simp only [fileOps, List.mem_cons, List.mem_map] at h
  rcases h with rfl | ⟨_, _, rfl⟩ <;> rfl

theorem applyOps_appends (d : Dir) (f : DbFile) (cs : List Bytes) (b : Bytes) (hf : d f = some b) :
    applyOps d (cs.map (.append f)) f = some (b ++ cs.flatten) := by
  induction cs generalizing d b with
  | nil => simpa using hf
  | cons c cs ih =>
    rw [List.map_cons, applyOps_cons, ih _ (b ++ c) (by simp [Op.apply, hf]), List.flatten_cons,
      List.append_assoc]

theorem applyOps_fileOps_take (d : Dir) (f : DbFile) (cs : List Bytes) (k : Nat) (hk : 1 ≤ k) :
    applyOps d ((fileOps f cs).take k) f = some (cs.take (k - 1)).flatten := by
  obtain ⟨m, rfl⟩ : ∃ m, k = m + 1 := ⟨k - 1, by omega⟩
  rw [fileOps, List.take_succ_cons, applyOps_cons, ← List.map_take,
    applyOps_appends _ _ _ [] (by simp [Op.apply]), List.nil_append, Nat.add_sub_cancel]

theorem applyOps_fileOps (d : Dir) (f : DbFile) (cs : List Bytes) :
    applyOps d (fileOps f cs) f = some cs.flatten := by
  rw [← List.take_length (fileOps f cs), applyOps_fileOps_take _ _ _ _ (by simp [fileOps])]
  simp [fileOps]

theorem flatten_take_prefix (cs : List Bytes) (m : Nat) : (cs.take m).flatten <+: cs.flatten := by
  conv_rhs => rw [← List.take_append_drop m cs]
  rw [List.flatten_append]
  exact List.prefix_append _ _

def shardWrites : List (List Bytes) → Nat → List Op
  | [], _ => []
  | cs :: W, a => fileOps (.shard a) cs ++ shardWrites W (a + 1)

theorem file_of_mem_shardWrites (W : List (List Bytes)) (a : Nat) {op : Op}
    (h : op ∈ shardWrites W a) : ∃ i, a ≤ i ∧ op.file = .shard i := by
  induction W generalizing a with
  | nil => cases h
  | cons cs W ih =>
    rcases List.mem_append.mp h with h | h
    · exact ⟨a, le_rfl, file_of_mem_fileOps h⟩
    · obtain ⟨i, hi, hf⟩ := ih (a + 1) h
      exact ⟨i, by omega, hf⟩

theorem shardWrites_other (d : Dir) (W : List (List Bytes)) (a : Nat) (f : DbFile)
    (h : ∀ i, a ≤ i → f ≠ .shard i) : applyOps d (shardWrites W a) f = d f :=
  applyOps_other _ _ _ fun _ hop => by
    obtain ⟨i, hi, hf⟩ := file_of_mem_shardWrites W a hop
    rw [hf]; exact (h i hi).symm

theorem shardWrites_take (W : List (List Bytes)) (a : Nat) (d : Dir) (k : Nat) :
    let s := applyOps d ((shardWrites W a).take k)
    ∃ j, a ≤ j ∧ (∀ i, a ≤ i → i < j → s (.shard i) = applyOps d (shardWrites W a) (.shard i)) ∧
      (s (.shard j) = d (.shard j) ∨
        ∃ t, s (.shard j) = some t ∧ t <+: (applyOps d (shardWrites W a) (.shard j)).getD []) ∧
      ∀ f, (∀ i, a ≤ i → i ≤ j → f ≠ .shard i) → s f = d f := by
  induction W generalizing a d k with
  | nil => exact ⟨a, le_rfl, fun i h1 h2 => by omega, .inl (by simp [shardWrites]),
      fun f _ => by simp [shardWrites]⟩
  | cons cs W ih =>
    intro s
    have hrest : ∀ d', applyOps d' (shardWrites W (a + 1)) (.shard a) = d' (.shard a) :=
      fun d' => shardWrites_other _ _ _ _ fun i hi h => by cases h; omega
    have hfinal : applyOps d (shardWrites (cs :: W) a) (.shard a) = some cs.flatten := by
      rw [shardWrites, applyOps_append, hrest, applyOps_fileOps]
    by_cases hk : k ≤ (fileOps (.shard a) cs).length
    · have hs : s = applyOps d ((fileOps (.shard a) cs).take k) := by
        simp only [s, shardWrites, List.take_append_of_le_length hk]
      refine ⟨a, le_rfl, fun i h1 h2 => by omega, ?_, fun f hf => ?_⟩
      · rcases Nat.eq_zero_or_pos k with rfl | hk1
        · exact .inl (by simp [hs, applyOps])
        · refine .inr ⟨_, by rw [hs, applyOps_fileOps_take _ _ _ _ hk1], ?_⟩
          rw [hfinal]; exact flatten_take_prefix _ _
      · rw [hs]
        exact applyOps_other _ _ _ fun op hop => by
          rw [file_of_mem_fileOps (List.mem_of_mem_take hop)]; exact (hf a le_rfl le_rfl).symm
    · have hd1 : ∀ f, f ≠ .shard a → applyOps d (fileOps (.shard a) cs) f = d f := fun f hf =>
        applyOps_other _ _ _ fun op hop => by rw [file_of_mem_fileOps hop]; exact Ne.symm hf
      have hs : s = applyOps (applyOps d (fileOps (.shard a) cs))
          ((shardWrites W (a + 1)).take (k - (fileOps (.shard a) cs).length)) := by
        simp only [s, shardWrites, List.take_append_eq_append_take,
          List.take_of_length_le (Nat.le_of_not_le hk), applyOps_append]
      have hall : applyOps d (shardWrites (cs :: W) a) =
          applyOps (applyOps d (fileOps (.shard a) cs)) (shardWrites W (a + 1)) := by
        rw [shardWrites, applyOps_append]
      obtain ⟨j, hj, h1, h2, h3⟩ := ih (a + 1) (applyOps d (fileOps (.shard a) cs))
        (k - (fileOps (.shard a) cs).length)
      rw [← hs, ← hall] at h1 h2
      rw [← hs] at h3
      refine ⟨j, by omega, fun i hi hij => ?_, ?_, fun f hf => ?_⟩
      · rcases Nat.eq_or_lt_of_le hi with rfl | hi
        · rw [h3 _ fun i' hi' _ h => by cases h; omega, hfinal, applyOps_fileOps]
        · exact h1 i hi hij
      · rwa [hd1 _ fun h => by cases h; omega] at h2
      · rw [h3 f fun i hi hij => hf i (by omega) hij, hd1 f (hf a le_rfl (by omega))]


theorem shardLoop_writes (index : Bytes) (H L a n : Nat) :
    ∃ W, (shardLoop index H L (List.range' a n)).1 = shardWrites W a := by
  induction n generalizing a with
  | zero => exact ⟨[], rfl⟩
  | succ n ih =>
    rw [List.range'_succ, shardLoop]
    split
    · exact ⟨[], rfl⟩
    · next offset length _ =>
      simp only [mmapReadWrite]
      split_ifs
      · obtain ⟨W, hW⟩ := ih (a + 1)
        exact ⟨_ :: W, by rw [hW]; rfl⟩
      · exact ⟨[[toLeBytes a, toLeBytes (length / 4)]], by simp [shardWrites]⟩

theorem run_writes (index : Bytes) (header : Except Fault Nat) (H : Nat) (config : Bytes)
    (d : Dir) :
    (run index header H config d).1 = [] ∨
      ∃ W, (run index header H config d).1 = fileOps .hashConfig [config] ++ shardWrites W 1 := by
  rcases header with f | C
  · exact .inl rfl
  unfold run
  dsimp only
  split
  · next p L _ _ =>
    by_cases hc : (d .hashConfig).isSome
    · simp only [hc, if_true, true_or]
    · simp only [hc, if_false, Bool.false_eq_true]
      obtain ⟨W, hW⟩ := shardLoop_writes index H L 1 p
      refine .inr ⟨W, ?_⟩
      split <;> rw [hW]
  · exact .inl rfl


theorem applyOps_take_hashConfig (d : Dir) (config : Bytes) (W : List (List Bytes)) (k : Nat)
    (hk : 1 ≤ k) :
    applyOps d ((fileOps .hashConfig [config] ++ shardWrites W 1).take k) .hashConfig ≠ none := by
  have hlen : (fileOps .hashConfig [config]).length = 2 := rfl
  by_cases hk2 : k ≤ 2
  · rw [List.take_append_of_le_length (hlen ▸ hk2), applyOps_fileOps_take _ _ _ _ hk]
    simp
  · rw [List.take_append_eq_append_take, List.take_of_length_le (by omega), applyOps_append,
      applyOps_other _ _ _ fun op hop => by
        obtain ⟨i, -, hf⟩ := file_of_mem_shardWrites W 1 (List.mem_of_mem_take hop)
        rw [hf]; simp, applyOps_fileOps]
    simp

/-- Every state a crash, an `Err` or a panic can leave: the config is the first
file written, and on disk from its creation on; the shards before some `j`
hold their final content, shard `j` is untouched or holds a prefix of it, and
every other file is as before the run. -/
theorem run_crash (index : Bytes) (header : Except Fault Nat) (H : Nat) (config : Bytes) (d : Dir)
    (k : Nat) :
    let ops := (run index header H config d).1
    let s := applyOps d (ops.take k)
    (ops = [] ∨ ops.take 2 = fileOps .hashConfig [config]) ∧
    (1 ≤ k → k ≤ ops.length → s .hashConfig ≠ none) ∧
    ∃ j, (∀ i, 1 ≤ i → i < j → s (.shard i) = applyOps d ops (.shard i)) ∧
      (s (.shard j) = d (.shard j) ∨
        ∃ t, s (.shard j) = some t ∧ t <+: (applyOps d ops (.shard j)).getD []) ∧
      ∀ f, f ≠ .hashConfig → (∀ i, 1 ≤ i → i ≤ j → f ≠ .shard i) → s f = d f := by
  intro ops s
  rcases run_writes index header H config d with h | ⟨W, h⟩
  · have hs : s = d := by simp [s, ops, h]
    refine ⟨.inl h, fun h1 h2 => by simp [ops, h] at h2; omega, 1, fun i h1 h2 => by omega,
      .inl (by rw [hs]), fun f _ _ => by rw [hs]⟩
  have hcfg : ∀ f, f ≠ .hashConfig → applyOps d (fileOps .hashConfig [config]) f = d f :=
    fun f hf => applyOps_other _ _ _ fun op hop => by rw [file_of_mem_fileOps hop]; exact Ne.symm hf
  have hlen : (fileOps .hashConfig [config]).length = 2 := rfl
  have hall : applyOps d ops =
      applyOps (applyOps d (fileOps .hashConfig [config])) (shardWrites W 1) := by
    rw [show ops = _ from h, applyOps_append]
  refine ⟨.inr (by rw [show ops = _ from h, List.take_left' hlen]), fun h1 _ => by
    simpa only [s, show ops = _ from h] using applyOps_take_hashConfig d config W k h1, ?_⟩
  by_cases hk : k ≤ 2
  · have hs : ∀ f, f ≠ .hashConfig → s f = d f := fun f hf => by
      simp only [s, show ops = _ from h, List.take_append_of_le_length (hlen ▸ hk)]
      exact applyOps_other _ _ _ fun op hop => by
        rw [file_of_mem_fileOps (List.mem_of_mem_take hop)]; exact Ne.symm hf
    exact ⟨1, fun i h1 h2 => by omega, .inl (hs _ (by simp)), fun f hf _ => hs f hf⟩
  · have htail : s = applyOps (applyOps d (fileOps .hashConfig [config]))
        ((shardWrites W 1).take (k - 2)) := by
      simp only [s, show ops = _ from h, List.take_append_eq_append_take,
        List.take_of_length_le (show (fileOps .hashConfig [config]).length ≤ k by omega), hlen,
        applyOps_append]
    obtain ⟨j, -, h1, h2, h3⟩ := shardWrites_take W 1 (applyOps d (fileOps .hashConfig [config]))
      (k - 2)
    rw [← htail, ← hall] at h1 h2
    rw [← htail] at h3
    refine ⟨j, h1, ?_, fun f hf hf' => by rw [h3 f hf', hcfg f hf]⟩
    rwa [hcfg _ (by simp)] at h2

/-- A crash right after the config is written leaves `hash_config.k2d` on disk
and `hash_1.k2d` absent. -/
theorem run_crash_after_config :
    let d : Dir := fun f => if f = .taxo ∨ f = .opts then some [] else none
    let ops := (run (List.replicate 52 0) (.ok 5) 2 [1] d).1
    2 ≤ ops.length ∧ applyOps d (ops.take 2) .hashConfig = some [1] ∧
      applyOps d (ops.take 2) (.shard 1) = none := by
  decide

/-- Once a run has written anything, in every state a crash or an error leaves
every later run, of any index, header, hash capacity or config, writes
nothing: it returns the error of reading the header, or panics before its
first write. A split is never resumed or redone over its own leftovers. -/
theorem run_again (index : Bytes) (header : Except Fault Nat) (H : Nat) (config : Bytes) (d : Dir)
    (k : Nat) (hk : 1 ≤ k) (hops : (run index header H config d).1 ≠ [])
    (index' : Bytes) (header' : Except Fault Nat) (H' : Nat) (config' : Bytes) :
    let s := applyOps d ((run index header H config d).1.take k)
    (run index' header' H' config' s).1 = [] ∧
      (∀ f, header' = .error f → (run index' header' H' config' s).2 = some f) ∧
      ∀ C', header' = .ok C' → (run index' header' H' config' s).2 = some .panic := by
  obtain ⟨W, hW⟩ := (run_writes index header H config d).resolve_left hops
  have hc := applyOps_take_hashConfig d config W k hk
  rw [← hW] at hc
  generalize applyOps d ((run index header H config d).1.take k) = s at hc ⊢
  have hok : ∀ C', run index' (.ok C') H' config' s = ([], some .panic) := fun C' => by
    unfold run
    dsimp only
    split
    · rw [if_pos (Option.isSome_iff_ne_none.mpr hc)]
    · rfl
  rcases header' with f | C'
  · exact ⟨rfl, fun _ h => by cases h; rfl, fun _ h => nomatch h⟩
  · simp [hok]

theorem run_again_after_config :
    let d : Dir := fun f => if f = .taxo ∨ f = .opts then some [] else none
    1 ≤ 2 ∧ (run (List.replicate 52 0) (.ok 5) 2 [1] d).1 ≠ [] ∧
    ∀ (index' : Bytes) (header' : Except Fault Nat) (H' : Nat) (config' : Bytes),
      let s := applyOps d ((run (List.replicate 52 0) (.ok 5) 2 [1] d).1.take 2)
      (run index' header' H' config' s).1 = [] ∧
        (∀ f, header' = .error f → (run index' header' H' config' s).2 = some f) ∧
        ∀ C', header' = .ok C' → (run index' header' H' config' s).2 = some .panic :=
  ⟨by decide, by decide, run_again _ (.ok 5) 2 [1] _ 2 (by decide) (by decide)⟩

/-! ## The split -/

def shardCap (C H i : Nat) : Nat := min H (C - H * (i - 1))

/-- `hash_i.k2d` as the split makes it: its number, its cell count, and its
cells from the index, which start at byte 32. -/
def shardContent (index : Bytes) (C H i : Nat) : Bytes :=
  toLeBytes i ++ toLeBytes (shardCap C H i) ++
    (index.drop (32 + 4 * (H * (i - 1)))).take (4 * shardCap C H i)

section
variable {C H : Nat} (hH : 1 ≤ H) (hfit : 4 * (C + H) + 32 < usizeSize)
include hH hfit

theorem partitionCount_eq : partitionCount C H = some ((C + H - 1) / H) := by
  simp [partitionCount, addUsize_of_lt (show C + H < usizeSize by omega),
    subUsize_of_le (show 1 ≤ C + H by omega), divUsize_of_pos hH]

theorem fileLen_eq : fileLen C = some (C * 4 + 32) := by
  simp [fileLen, mulUsize_of_lt (show C * 4 < usizeSize by omega),
    addUsize_of_lt (show C * 4 + 32 < usizeSize by omega)]

omit hfit in
theorem start_lt (i : Nat) (h1 : 1 ≤ i) (hi : i ≤ (C + H - 1) / H) : H * (i - 1) < C := by
  have hp := Nat.div_mul_le_self (C + H - 1) H
  have hmono : H * i ≤ H * ((C + H - 1) / H) := Nat.mul_le_mul_left H hi
  have hsucc : H * i = H * (i - 1) + H := by
    conv_lhs => rw [show i = i - 1 + 1 by omega]
    rw [Nat.mul_succ]
  rw [Nat.mul_comm H ((C + H - 1) / H)] at hmono
  omega

theorem shardRange_eq (i : Nat) (h1 : 1 ≤ i) (hi : i ≤ (C + H - 1) / H) :
    shardRange H (C * 4 + 32) i = some (32 + H * (i - 1) * 4, shardCap C H i * 4) := by
  have hs := start_lt hH i h1 hi
  simp only [shardRange, subUsize_of_le h1, Option.bind_eq_bind, Option.some_bind,
    mulUsize_of_lt (show H * (i - 1) < usizeSize by omega),
    mulUsize_of_lt (show H * (i - 1) * 4 < usizeSize by omega),
    addUsize_of_lt (show 32 + H * (i - 1) * 4 < usizeSize by omega),
    mulUsize_of_lt (show H * 4 < usizeSize by omega),
    addUsize_of_lt (show 32 + H * (i - 1) * 4 + H * 4 < usizeSize by omega)]
  split_ifs with he
  · rw [subUsize_of_le (by omega)]
    simp only [Option.some_bind, shardCap]
    congr 2
    rw [min_eq_right (by omega)]
    omega
  · simp only [shardCap, min_eq_left (show H ≤ C - H * (i - 1) by omega)]
    rfl


theorem shardLoop_full (index : Bytes) (hlen : C * 4 + 32 ≤ index.length) (a n : Nat) (ha : 1 ≤ a)
    (hn : a + n ≤ (C + H - 1) / H + 1) :
    shardLoop index H (C * 4 + 32) (List.range' a n) =
      (shardWrites ((List.range' a n).map fun i => [toLeBytes i, toLeBytes (shardCap C H i),
        (index.drop (32 + 4 * (H * (i - 1)))).take (4 * shardCap C H i)]) a, none) := by
  induction n generalizing a with
  | zero => rfl
  | succ n ih =>
    have hs := start_lt hH a ha (show a ≤ (C + H - 1) / H by omega)
    have hcap : shardCap C H a ≤ C - H * (a - 1) := min_le_right _ _
    rw [List.range'_succ, shardLoop, shardRange_eq hH hfit a ha (by omega),
      Nat.mul_comm (H * (a - 1)) 4, Nat.mul_comm (shardCap C H a) 4]
    simp only [mmapReadWrite, Nat.mul_div_cancel_left _ (show 0 < 4 by decide),
      if_pos (show 32 + 4 * (H * (a - 1)) + 4 * shardCap C H a ≤ index.length by omega),
      ih (a + 1) (by omega) (by omega), List.map_cons, shardWrites, List.cons_append,
      List.nil_append]

end

theorem applyOps_shardWrites (d : Dir) (f : Nat → List Bytes) (a n i : Nat) (h1 : a ≤ i)
    (h2 : i < a + n) : applyOps d (shardWrites ((List.range' a n).map f) a) (.shard i) =
      some (f i).flatten := by
  induction n generalizing a d with
  | zero => omega
  | succ n ih =>
    rw [List.range'_succ, List.map_cons, shardWrites, applyOps_append]
    rcases Nat.eq_or_lt_of_le h1 with rfl | h1
    · rw [shardWrites_other _ _ _ _ fun j hj h => by cases h; omega, applyOps_fileOps]
    · exact ih _ (a + 1) h1 (by omega)


section
variable {C H : Nat} (hH : 1 ≤ H)
include hH

theorem cell_in_shard (index : Bytes) (b : Nat) (hb : b < C) :
    b / H + 1 ≤ (C + H - 1) / H ∧ b % H < shardCap C H (b / H + 1) ∧
      ((shardContent index C H (b / H + 1)).drop (16 + 4 * (b % H))).take 4 =
        (index.drop (32 + 4 * b)).take 4 := by
  have hdm := Nat.div_add_mod b H
  have hmod := Nat.mod_lt b hH
  have hcap : b % H < shardCap C H (b / H + 1) := by
    simp only [shardCap, Nat.add_sub_cancel]
    exact lt_min hmod (by omega)
  refine ⟨?_, hcap, ?_⟩
  · rw [← Nat.add_div_right b hH]
    exact Nat.div_le_div_right (by omega)
  · rw [shardContent, List.append_assoc, List.drop_append_eq_append_drop, length_toLeBytes,
      List.drop_eq_nil_of_le (by simp; omega), List.nil_append, List.drop_append_eq_append_drop,
      length_toLeBytes, List.drop_eq_nil_of_le (by simp; omega), List.nil_append,
      show 16 + 4 * (b % H) - 8 - 8 = 4 * (b % H) by omega, List.drop_take, List.take_take,
      min_eq_left (by omega), List.drop_drop, Nat.add_sub_cancel]
    congr 2
    omega

theorem ceil_bounds (h : 1 ≤ C) :
    1 ≤ (C + H - 1) / H ∧ H * ((C + H - 1) / H - 1) < C ∧ C ≤ H * ((C + H - 1) / H) := by
  have hp : 1 ≤ (C + H - 1) / H := by
    rw [Nat.le_div_iff_mul_le (by omega)]; omega
  have hdm := Nat.div_add_mod (C + H - 1) H
  have hmod := Nat.mod_lt (C + H - 1) (show 0 < H by omega)
  exact ⟨hp, start_lt hH _ hp le_rfl, by omega⟩

theorem shardCap_of_lt (i : Nat) (h1 : 1 ≤ i) (hi : i < (C + H - 1) / H) : shardCap C H i = H := by
  have hs := start_lt hH ((C + H - 1) / H) (by omega) le_rfl
  have hmono : H * i ≤ H * ((C + H - 1) / H - 1) := Nat.mul_le_mul_left H (by omega)
  have hsucc : H * i = H * (i - 1) + H := by
    conv_lhs => rw [show i = i - 1 + 1 by omega]
    rw [Nat.mul_succ]
  exact min_eq_left (by omega)

theorem shardCap_last (h : 1 ≤ C) :
    1 ≤ shardCap C H ((C + H - 1) / H) ∧ shardCap C H ((C + H - 1) / H) ≤ H ∧
      H * ((C + H - 1) / H - 1) + shardCap C H ((C + H - 1) / H) = C := by
  obtain ⟨hp, hlt, hle⟩ := ceil_bounds hH h
  have hsucc : H * ((C + H - 1) / H) = H * ((C + H - 1) / H - 1) + H := by
    conv_lhs => rw [show (C + H - 1) / H = (C + H - 1) / H - 1 + 1 by omega]
    rw [Nat.mul_succ]
  simp only [shardCap, min_eq_right (show C - H * ((C + H - 1) / H - 1) ≤ H by omega)]
  omega

end

section
variable {C H : Nat} (hH : 1 ≤ H) (hfit : 4 * (C + H) + 32 < usizeSize)
include hH hfit

theorem run_eq (index config : Bytes) (d : Dir) (hlen : C * 4 + 32 ≤ index.length)
    (hcfg : d .hashConfig = none) :
    run index (.ok C) H config d = (fileOps .hashConfig [config] ++
      shardWrites ((List.range' 1 ((C + H - 1) / H)).map fun i => [toLeBytes i,
        toLeBytes (shardCap C H i),
        (index.drop (32 + 4 * (H * (i - 1)))).take (4 * shardCap C H i)]) 1,
      if (d .taxo).isSome && (d .opts).isSome then none else some .io) := by
  simp only [run, partitionCount_eq hH hfit, fileLen_eq hH hfit, hcfg, Option.isSome_none,
    Bool.false_eq_true, if_false,
    shardLoop_full hH hfit index hlen 1 ((C + H - 1) / H) le_rfl (by omega)]

end


/-- For an index whose header gives capacity `C` and that holds its `32 + 4 C`
bytes, `1 ≤ H`, `4 (C + H) + 32 < 2^64`, and no `hash_config.k2d` yet:
`p = ⌈C / H⌉`, no `usize` operation overflows (the run can only end in an
`Err`, on a missing `taxo.k2d` or `opts.k2d`), and `hash_i.k2d` holds its
number, its cell count and its cells for every `i ≤ p`. The shards hold `H`
cells but the last, which holds `1` to `H`; together they hold the `C` cells
in order, each at its place in its shard. -/
theorem run_shards (index : Bytes) (C H : Nat) (config : Bytes) (d : Dir) (hH : 1 ≤ H)
    (hfit : 4 * (C + H) + 32 < usizeSize) (hlen : 32 + 4 * C ≤ index.length)
    (hcfg : d .hashConfig = none) :
    let p := (C + H - 1) / H
    partitionCount C H = some p ∧
    (1 ≤ C → (p - 1) * H < C ∧ C ≤ p * H) ∧
    (run index (.ok C) H config d).2 =
      (if (d .taxo).isSome && (d .opts).isSome then none else some .io) ∧
    (∀ i, 1 ≤ i → i ≤ p →
      applyOps d (run index (.ok C) H config d).1 (.shard i) = some (shardContent index C H i)) ∧
    (∀ i, 1 ≤ i → i < p → shardCap C H i = H) ∧
    (1 ≤ C → 1 ≤ shardCap C H p ∧ shardCap C H p ≤ H ∧ H * (p - 1) + shardCap C H p = C) ∧
    ∀ b < C, b / H + 1 ≤ p ∧ b % H < shardCap C H (b / H + 1) ∧
      ((shardContent index C H (b / H + 1)).drop (16 + 4 * (b % H))).take 4 =
        (index.drop (32 + 4 * b)).take 4 := by
  intro p
  have hrun := run_eq hH hfit index config d (by omega) hcfg
  refine ⟨partitionCount_eq hH hfit, fun h => ?_, by rw [hrun], fun i h1 h2 => ?_,
    shardCap_of_lt hH, shardCap_last hH, fun b hb => cell_in_shard hH index b hb⟩
  · obtain ⟨-, hlt, hle⟩ := ceil_bounds hH h
    exact ⟨by rw [Nat.mul_comm]; exact hlt, by rw [Nat.mul_comm]; exact hle⟩
  · rw [hrun, applyOps_append, applyOps_shardWrites _ _ 1 p i h1 (by omega), shardContent]
    simp only [List.flatten_cons, List.flatten_nil, List.append_nil, List.append_assoc]

theorem run_shards_doc :
    let d : Dir := fun f => if f = .taxo ∨ f = .opts then some [] else none
    let index : Bytes := List.replicate 432 0
    1 ≤ 40 ∧ 4 * (100 + 40) + 32 < usizeSize ∧ 32 + 4 * 100 ≤ index.length ∧ d .hashConfig = none ∧
    let p := (100 + 40 - 1) / 40
    partitionCount 100 40 = some p ∧
    (1 ≤ 100 → (p - 1) * 40 < 100 ∧ 100 ≤ p * 40) ∧
    (run index (.ok 100) 40 [] d).2 =
      (if (d .taxo).isSome && (d .opts).isSome then none else some .io) ∧
    (∀ i, 1 ≤ i → i ≤ p →
      applyOps d (run index (.ok 100) 40 [] d).1 (.shard i) = some (shardContent index 100 40 i)) ∧
    (∀ i, 1 ≤ i → i < p → shardCap 100 40 i = 40) ∧
    (1 ≤ 100 → 1 ≤ shardCap 100 40 p ∧ shardCap 100 40 p ≤ 40 ∧ 40 * (p - 1) + shardCap 100 40 p = 100) ∧
    ∀ b < 100, b / 40 + 1 ≤ p ∧ b % 40 < shardCap 100 40 (b / 40 + 1) ∧
      ((shardContent index 100 40 (b / 40 + 1)).drop (16 + 4 * (b % 40))).take 4 =
        (index.drop (32 + 4 * b)).take 4 :=
  ⟨by decide, by decide, by rw [List.length_replicate], rfl,
    run_shards (List.replicate 432 0) 100 40 [] _ (by decide) (by decide)
      (by rw [List.length_replicate]) rfl⟩

/-- The split of the scenario over a directory that already holds
`hash_config.k2d`: the run panics and writes no shard. -/
theorem run_config_present :
    let d : Dir := fun f => if f = .hashConfig ∨ f = .taxo ∨ f = .opts then some [] else none
    run (List.replicate 432 0) (.ok 100) 40 [] d = ([], some .panic) := by
  decide

end Kr2r.HashShard
