import Kr2r.Reader

/-!
# Hit files

`read_rows_from_file` reads `Row`-sized records with `read_exact` until a call
fails, and groups them by `seq_id`. The loop stops at the first failure of any
kind, so the map it returns holds the complete records delivered before the
first read error, or before the end: an I/O error in the middle of a file is
returned as `Ok` of a partial map. On a reader without errors the map holds,
under every id, exactly that id's complete records in file order.
-/

set_option autoImplicit false

namespace Kr2r.HitRows
open Kr2r.Basic Kr2r.Reader

/-- The layout of `compact_hash::Row`, whose declaration this repository does
not contain: its size in bytes, the `transmute` of that many bytes, and the
`seq_id` field. -/
structure RowLayout (Row : Type) where
  size : Nat
  size_pos : 0 < size
  decode : Bytes → Row
  seqId : Row → UInt32

abbrev HitMap (Row : Type) := Map UInt32 (List Row)

section
variable {Row : Type} (L : RowLayout Row)

def readRowsLoop (m : HitMap Row) (s : Stream) : HitMap Row :=
  match _h : readExact L.size s with
  | .ok (buf, s') => readRowsLoop (push m (L.seqId (L.decode buf)) (L.decode buf)) s'
  | .error _ => m
termination_by (avail s).length
decreasing_by
  obtain ⟨hle, -, hav⟩ := readExact_ok _h
  simp_wf
  rw [hav, List.length_drop]
  have := L.size_pos
  omega

/-- `read_rows_from_file`; `none` is a file that `File::open` cannot open. -/
def readRowsFromFile (file : Option Stream) : Except Fault (HitMap Row) :=
  match file with
  | none => .error .io
  | some s => .ok (readRowsLoop L ∅ s)

theorem readRowsLoop_eq (m : HitMap Row) (s : Stream) :
    readRowsLoop L m s = groupBy L.seqId ((records L.size (avail s)).map L.decode) m := by
  obtain ⟨n, hn⟩ : ∃ n, (avail s).length = n := ⟨_, rfl⟩
  induction n using Nat.strong_induction_on generalizing s m with
  | _ n ih =>
    rw [readRowsLoop]
    split
    · next buf s' h =>
      obtain ⟨hle, rfl, hav⟩ := readExact_ok h
      have hrec : records L.size (avail s) =
          (avail s).take L.size :: records L.size (avail s') := by
        conv_lhs => rw [← List.take_append_drop L.size (avail s), ← hav]
        exact records_append _ _ _ L.size_pos (List.length_take_of_le hle)
      rw [ih _ (by rw [← hn, hav, List.length_drop]; have := L.size_pos; omega) _ s' rfl, hrec]
      rfl
    · next e h =>
      have hlt : (avail s).length < L.size := by
        by_contra hge
        obtain ⟨s', h', -⟩ := readExact_of_le L.size s (by omega)
        rw [h'] at h
        cases h
      rw [records_of_lt _ _ hlt]
      rfl

def content : Stream → Bytes
  | [] => []
  | .fail :: s => content s
  | .data b bs :: s => b :: bs ++ content s

theorem avail_eq_content (s : Stream) (h : Piece.fail ∉ s) : avail s = content s := by
  induction s with
  | nil => rfl
  | cons p s ih =>
    cases p with
    | fail => exact absurd (List.mem_cons_self _ _) h
    | data b bs => simp [avail, content, ih (fun h' => h (List.mem_cons_of_mem _ h'))]

/-- On a file read without errors, in any pieces: `Ok`, and under every id
exactly the complete records carrying it, in file order; an id is a key iff
such a record exists. -/
theorem readRowsFromFile_grouped (s : Stream) (h : Piece.fail ∉ s) :
    ∃ m, readRowsFromFile L (some s) = .ok m ∧ ∀ k, m.lookup k =
      let rows := (records L.size (content s)).map L.decode
      if ∃ r ∈ rows, L.seqId r = k then some (rows.filter fun r => L.seqId r = k) else none :=
  ⟨_, rfl, fun k => by rw [readRowsLoop_eq, avail_eq_content s h, lookup_groupBy_empty]⟩

end

def byteRows : RowLayout Bytes :=
  ⟨4, by decide, id, fun r => UInt32.ofNat (r.headD 0).toNat⟩

theorem readRowsFromFile_grouped_two_reads :
    let s : Stream := [.data 1 [0, 0, 0, 2], .data 0 [0, 0, 1, 0]]
    Piece.fail ∉ s ∧ ∃ m, readRowsFromFile byteRows (some s) = .ok m ∧ ∀ k, m.lookup k =
      let rows := (records byteRows.size (content s)).map byteRows.decode
      if ∃ r ∈ rows, byteRows.seqId r = k then some (rows.filter fun r => byteRows.seqId r = k)
      else none :=
  ⟨by decide, readRowsFromFile_grouped byteRows _ (by decide)⟩

/-- A file of two rows, for sequences 1 and 2, whose reader fails between them:
`read_rows_from_file` returns `Ok` with only the first row. -/
theorem readRowsFromFile_error_mid_file :
    readRowsFromFile byteRows (some [.data 1 [0, 0, 0], .fail, .data 2 [0, 0, 0]]) =
      .ok (groupBy byteRows.seqId [[1, 0, 0, 0]] ∅) := by
  simp only [readRowsFromFile, readRowsLoop_eq]
  rfl

end Kr2r.HitRows
