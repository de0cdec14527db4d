import Kr2r.Reader

/-!
# Chunk files in `squid`

`process_chunk_file` reads a 16-byte header with `read_exact`, then calls
`read` into a buffer of `BATCH_SIZE` slots until a call returns `Ok(0)` or an
error, and hands the whole slots at the front of each batch to
`get_from_page`. The bytes of a partial slot at the end of a short read are
dropped, and an error ends the loop with `Ok`. Whatever the reads return,
the slots passed come from disjoint windows of the body in ascending order,
so never more of them than the body holds. When every run the reader
delivers, but the last, is a whole number of slots, the slots passed are
exactly the slots of the body, in order.
-/

set_option autoImplicit false

namespace Kr2r.Squid
open Kr2r.Basic Kr2r.Reader

def batchSize : Nat := 81920

/-- `compact_hash::Slot<u64>`, whose declaration this repository does not
contain: its size in bytes and the reading of that many bytes as a slot. -/
structure SlotLayout (Slot : Type) where
  size : Nat
  size_pos : 0 < size
  decode : Bytes → Slot

def byteSlots : SlotLayout Bytes := ⟨16, by decide, id⟩

section
variable {Slot : Type} (L : SlotLayout Slot)

theorem buffer_pos : 0 < L.size * batchSize := Nat.mul_pos L.size_pos (by decide)

theorem length_le_of_take {r a : Bytes} (h : r = a.take r.length) : r.length ≤ a.length := by
  have := congrArg List.length h
  rw [List.length_take] at this
  omega

/-- `while let Ok(bytes_read) = reader.read(&mut batch_buffer)`: the slots
passed to `get_from_page`, batch after batch. The `bytes_read / slot_size`
whole slots of a batch are its `records`. -/
def processLoop (s : Stream) : List Slot :=
  match _h : read (L.size * batchSize) s with
  | .ok (bytes, s') =>
    if bytes.length = 0 then [] else (records L.size bytes).map L.decode ++ processLoop s'
  | .error _ => []
termination_by (avail s).length
decreasing_by
  obtain ⟨htake, hav, -, -⟩ := read_ok (buffer_pos L) _h
  have := length_le_of_take htake
  simp_wf
  rw [hav, List.length_drop]
  omega

/-- `process_chunk_file`: `none` is a file that `File::open` cannot open, and
`chtFrom` is `CHTable::from` on the page the header names. -/
def processChunkFile (chtFrom : Nat → Nat → Except Fault Unit) (file : Option Stream) :
    Except Fault (List Slot) :=
  match file with
  | none => .error .io
  | some s => do
    let (buffer, s) ← readExact 16 s
    let pageIndex := fromLeBytes (buffer.take 8)
    let pageSize := fromLeBytes (buffer.drop 8)
    chtFrom pageIndex pageSize
    pure (processLoop L s)

def readChunkHeader (file : Option Stream) : Except Fault (Nat × Nat) :=
  match file with
  | none => .error .io
  | some s => do
    let (buffer, _) ← readExact 16 s
    pure (fromLeBytes (buffer.take 8), fromLeBytes (buffer.drop 8))

theorem processLoop_nil : processLoop L [] = [] := by
  rw [processLoop]; rfl

theorem processLoop_fail (t : Stream) : processLoop L (.fail :: t) = [] := by
  rw [processLoop]; rfl

theorem processLoop_data (b : UInt8) (bs : Bytes) (t : Stream)
    (h : (b :: bs).length ≤ L.size * batchSize) :
    processLoop L (.data b bs :: t) =
      (records L.size (b :: bs)).map L.decode ++ processLoop L t := by
  have hr : Reader.read (L.size * batchSize) (.data b bs :: t) = .ok (b :: bs, t) := by
    simp only [Reader.read, (buffer_pos L).ne', if_false, List.take_of_length_le h,
      List.drop_eq_nil_of_le h, ofBytes, List.nil_append]
  rw [processLoop]
  split
  · next bytes s' h' => rw [hr] at h'; cases h'; rfl
  · next e h' => rw [hr] at h'; cases h'

theorem take_drop_take_of_le {l : Bytes} {n m k : Nat} (h : m + k ≤ n) :
    ((l.take n).drop m).take k = (l.drop m).take k := by
  rw [List.drop_take, List.take_take, Nat.min_eq_left (by omega)]

theorem length_mul_le_of_pairwise {k n b : Nat} {ws : List Nat}
    (hpw : ws.Pairwise fun a c => a + k ≤ c) (hb : ∀ w ∈ ws, b ≤ w ∧ w + k ≤ n) :
    ws.length * k ≤ n - b := by
  induction ws generalizing b with
  | nil => simp
  | cons w ws ih =>
    obtain ⟨hw, hpw⟩ := List.pairwise_cons.mp hpw
    have hrest := ih (b := w + k) hpw fun c hc => ⟨hw c hc, (hb c (.tail _ hc)).2⟩
    have := hb w (.head _)
    rw [List.length_cons, Nat.succ_mul]
    omega

theorem processLoop_windows (s : Stream) :
    ∃ ws : List Nat,
      processLoop L s = ws.map (fun w => L.decode (((avail s).drop w).take L.size)) ∧
      ws.Pairwise (fun a b => a + L.size ≤ b) ∧ ∀ w ∈ ws, w + L.size ≤ (avail s).length := by
  obtain ⟨m, hm⟩ : ∃ m, (avail s).length = m := ⟨_, rfl⟩
  induction m using Nat.strong_induction_on generalizing s with
  | _ m ih =>
    rw [processLoop]
    split
    · next bytes s' hr =>
      obtain ⟨htake, hav, -, -⟩ := read_ok (buffer_pos L) hr
      have hle := length_le_of_take htake
      split_ifs with h0
      · exact ⟨[], rfl, .nil, nofun⟩
      · obtain ⟨ws, hws, hpw, hbd⟩ :=
          ih _ (by rw [← hm, hav, List.length_drop]; omega) s' rfl
        have hfirst : ∀ i, i < bytes.length / L.size → i * L.size + L.size ≤ bytes.length :=
          fun i hi => by
            rw [← Nat.succ_mul]; exact (Nat.le_div_iff_mul_le L.size_pos).mp hi
        refine ⟨(List.range (bytes.length / L.size)).map (· * L.size) ++
          ws.map (bytes.length + ·), ?_, ?_, ?_⟩
        · rw [hws, List.map_append, List.map_map, List.map_map, records, List.map_map]
          congr 1
          · refine List.map_congr_left fun i hi => ?_
            simp only [Function.comp_apply]
            rw [htake, take_drop_take_of_le (hfirst i (List.mem_range.mp hi))]
          · refine List.map_congr_left fun w _ => ?_
            simp only [Function.comp_apply, hav, List.drop_drop]
        · refine List.pairwise_append.mpr
            ⟨?_, List.pairwise_map.mpr (hpw.imp fun h => by omega), ?_⟩
          · exact List.pairwise_map.mpr ((List.pairwise_lt_range _).imp fun hij => by
              rw [← Nat.succ_mul]; exact Nat.mul_le_mul_right _ hij)
          · simp only [List.mem_map, List.mem_range]
            rintro _ ⟨i, hi, rfl⟩ _ ⟨w, -, rfl⟩
            have := hfirst i hi
            omega
        · simp only [List.mem_append, List.mem_map, List.mem_range]
          rintro _ (⟨i, hi, rfl⟩ | ⟨w, hw, rfl⟩)
          · have := hfirst i hi
            omega
          · have := hbd w hw
            rw [hav, List.length_drop] at this
            omega
    · next e hr => exact ⟨[], rfl, .nil, nofun⟩
/-- Whatever pieces the reads return and wherever the reader fails, every slot
`process_chunk_file` passes to `get_from_page` is decoded from its own window
of `size` bytes of the body after the header; the windows are disjoint and in
ascending order, so no slot is passed twice, none holds a byte from outside
the body, and there are at most `⌊|body| / size⌋` of them. -/
theorem processChunkFile_windows (chtFrom : Nat → Nat → Except Fault Unit) (s : Stream)
    (slots : List Slot) (h : processChunkFile L chtFrom (some s) = .ok slots) :
    let body := (avail s).drop 16
    ∃ ws : List Nat, slots = ws.map (fun w => L.decode ((body.drop w).take L.size)) ∧
      ws.Pairwise (fun a b => a + L.size ≤ b) ∧ (∀ w ∈ ws, w + L.size ≤ body.length) ∧
      slots.length ≤ body.length / L.size := by
  intro body
  cases hr : readExact 16 s with
  | error e => simp [processChunkFile, hr, bind, Except.bind] at h
  | ok p =>
    obtain ⟨buf, s'⟩ := p
    obtain ⟨-, -, hav⟩ := readExact_ok hr
    simp only [processChunkFile, hr, bind_eq_ok, pure, Except.pure, Except.ok.injEq] at h
    obtain ⟨_, rfl, -, -, rfl⟩ := h
    obtain ⟨ws, hws, hpw, hbd⟩ := processLoop_windows L s'
    rw [hav] at hws hbd
    refine ⟨ws, hws, hpw, hbd, ?_⟩
    rw [hws, List.length_map, Nat.le_div_iff_mul_le L.size_pos]
    have hlen := length_mul_le_of_pairwise (b := 0) hpw fun w hw => ⟨Nat.zero_le w, hbd w hw⟩
    rwa [Nat.sub_zero] at hlen

theorem processChunkFile_windows_misaligned :
    let s : Stream := ofBytes (List.replicate 16 0) ++
      [.data 5 (List.replicate 19 5), .data 6 (List.replicate 15 6)]
    let slots := [5 :: List.replicate 15 5, 6 :: List.replicate 15 6]
    processChunkFile byteSlots (fun _ _ => .ok ()) (some s) = .ok slots ∧
      let body := (avail s).drop 16
      ∃ ws : List Nat,
        slots = ws.map (fun w => byteSlots.decode ((body.drop w).take byteSlots.size)) ∧
        ws.Pairwise (fun a b => a + byteSlots.size ≤ b) ∧
        (∀ w ∈ ws, w + byteSlots.size ≤ body.length) ∧
        slots.length ≤ body.length / byteSlots.size := by
  intro s slots
  have h : processChunkFile byteSlots (fun _ _ => .ok ()) (some s) = .ok slots := by
    simp only [s, processChunkFile, readExact_ofBytes (List.replicate 16 0) 16 rfl, bind,
      Except.bind, pure, Except.pure,
      processLoop_data byteSlots 5 (List.replicate 19 5) _ (by decide),
      processLoop_data byteSlots 6 (List.replicate 15 6) [] (by decide), processLoop_nil]
    rfl
  exact ⟨h, processChunkFile_windows byteSlots _ s slots h⟩

/-- The header a writer puts as two `to_le_bytes` words, in whatever pieces
the reader delivers it: `read_chunk_header` recovers both words, and
`process_chunk_file` looks up the page they name before reading the body. -/
theorem readChunkHeader_toLeBytes (i n : Nat) (hi : i < usizeSize) (hn : n < usizeSize)
    (body : Bytes) (s : Stream) (hs : avail s = toLeBytes i ++ toLeBytes n ++ body) :
    readChunkHeader (some s) = .ok (i, n) ∧
      ∃ s', avail s' = body ∧ ∀ chtFrom : Nat → Nat → Except Fault Unit,
        processChunkFile L chtFrom (some s) = (chtFrom i n).bind fun _ => .ok (processLoop L s') := by
  have h16 : (toLeBytes i ++ toLeBytes n).length = 16 := by simp
  obtain ⟨s', hr, hav⟩ := readExact_of_le 16 s (by simp [hs]; omega)
  rw [hs, List.take_left' h16] at hr
  have h8 : (toLeBytes i).length = 8 := length_toLeBytes i
  refine ⟨?_, s', by rw [hav, hs, List.drop_left' h16], fun chtFrom => ?_⟩ <;>
    simp only [readChunkHeader, processChunkFile, hr, bind, Except.bind, pure, Except.pure,
      List.take_left' h8, List.drop_left' h8, fromLeBytes_toLeBytes i hi,
      fromLeBytes_toLeBytes n hn]

theorem readChunkHeader_toLeBytes_split :
    3 < usizeSize ∧ 40 < usizeSize ∧
      avail [.data 3 [0, 0, 0, 0, 0, 0, 0], .data 40 [0, 0, 0, 0, 0, 0, 0, 7]] =
        toLeBytes 3 ++ toLeBytes 40 ++ [7] ∧
      (readChunkHeader (some [.data 3 [0, 0, 0, 0, 0, 0, 0], .data 40 [0, 0, 0, 0, 0, 0, 0, 7]]) =
          .ok (3, 40) ∧
        ∃ s', avail s' = [7] ∧ ∀ chtFrom : Nat → Nat → Except Fault Unit,
          processChunkFile byteSlots chtFrom
              (some [.data 3 [0, 0, 0, 0, 0, 0, 0], .data 40 [0, 0, 0, 0, 0, 0, 0, 7]]) =
            (chtFrom 3 40).bind fun _ => .ok (processLoop byteSlots s')) :=
  ⟨by decide, by decide, by decide,
    readChunkHeader_toLeBytes byteSlots 3 40 (by decide) (by decide) [7] _ (by decide)⟩

end

/-- A body of exactly one slot: delivered in two reads of 8 bytes, no slot is
passed; cut off by a read error, no slot is passed; both runs return `Ok`. -/
theorem processChunkFile_short_reads :
    processChunkFile byteSlots (fun _ _ => .ok ())
        (some (ofBytes (List.replicate 16 0) ++
          [.data 1 (List.replicate 7 1), .data 2 (List.replicate 7 2)])) = .ok [] ∧
      processChunkFile byteSlots (fun _ _ => .ok ())
        (some (ofBytes (List.replicate 16 0) ++ [.fail, .data 1 (List.replicate 15 1)])) =
          .ok [] := by
  constructor
  · simp only [processChunkFile, readExact_ofBytes _ 16 (List.length_replicate 16 0), bind,
      Except.bind, pure, Except.pure,
      processLoop_data byteSlots 1 (List.replicate 7 1) _ (by decide),
      processLoop_data byteSlots 2 (List.replicate 7 2) _ (by decide), processLoop_nil]
    rfl
  · simp only [processChunkFile, readExact_ofBytes _ 16 (List.length_replicate 16 0), bind,
      Except.bind, pure, Except.pure, processLoop_fail]

end Kr2r.Squid
