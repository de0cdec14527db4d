import Kr2r.Basic
import Mathlib.Tactic.Ring

/-!
# Readers

A value of `impl Read` (a `BufReader` over a file) is the list of answers it
has ready: runs of bytes, and errors. A `read` into a buffer of `n > 0` bytes
returns a nonempty prefix of the next run, or `Ok(0)` at the end, or the next
error. Any way of cutting a file into reads that `std::io::Read` allows, with
errors at any offset, is such a list. `read_exact` returns the next `n` bytes
the reader delivers before its first error, or fails.
-/

set_option autoImplicit false

namespace Kr2r.Reader
open Kr2r.Basic

/-- One answer of the underlying reader: a nonempty run of bytes, or an error. -/
inductive Piece where
  | data (b : UInt8) (bs : Bytes)
  | fail
  deriving DecidableEq, Repr

abbrev Stream := List Piece

def ofBytes : Bytes → Stream
  | [] => []
  | b :: bs => [.data b bs]

def avail : Stream → Bytes
  | [] => []
  | .fail :: _ => []
  | .data b bs :: s => b :: bs ++ avail s

def read (n : Nat) : Stream → Except Fault (Bytes × Stream)
  | [] => .ok ([], [])
  | .fail :: _ => .error .io
  | .data b bs :: s =>
    if n = 0 then .ok ([], .data b bs :: s)
    else .ok ((b :: bs).take n, ofBytes ((b :: bs).drop n) ++ s)

/-- `Read::read_exact` of `n` bytes: reads until `n` bytes have come, an error
is returned as it is, and the end of the data is `UnexpectedEof`. -/
def readExact : Nat → Stream → Except Fault (Bytes × Stream)
  | 0, s => .ok ([], s)
  | _ + 1, [] => .error .io
  | _ + 1, .fail :: _ => .error .io
  | n + 1, .data b bs :: s =>
    if (b :: bs).length ≤ n + 1 then
      (readExact (n + 1 - (b :: bs).length) s).map fun (r, s') => (b :: bs ++ r, s')
    else .ok ((b :: bs).take (n + 1), ofBytes ((b :: bs).drop (n + 1)) ++ s)

@[simp] theorem avail_ofBytes_append (l : Bytes) (s : Stream) :
    avail (ofBytes l ++ s) = l ++ avail s := by
  cases l <;> simp [ofBytes, avail]

/-! ## `read_exact` -/

theorem readExact_of_le (n : Nat) (s : Stream) (h : n ≤ (avail s).length) :
    ∃ s', readExact n s = .ok ((avail s).take n, s') ∧ avail s' = (avail s).drop n := by
  induction s generalizing n with
  | nil => simp only [avail, List.length_nil, Nat.le_zero] at h; subst h; exact ⟨[], rfl, rfl⟩
  | cons p s ih =>
    cases p with
    | fail =>
      simp only [avail, List.length_nil, Nat.le_zero] at h; subst h; exact ⟨_, rfl, rfl⟩
    | data b bs =>
      rcases n with _ | n
      · exact ⟨_, rfl, rfl⟩
      simp only [avail, List.length_append] at h
      by_cases hl : (b :: bs).length ≤ n + 1
      · obtain ⟨s', hs', hav⟩ := ih (n + 1 - (b :: bs).length) (by omega)
        refine ⟨s', ?_, ?_⟩
        · simp only [readExact, hl, if_true, hs', Except.map, avail,
            List.take_append_eq_append_take, List.take_of_length_le hl]
        · simp only [avail, hav, List.drop_append_eq_append_drop, List.drop_eq_nil_of_le hl,
            List.nil_append]
      · have hle : n + 1 ≤ (b :: bs).length := by omega
        refine ⟨ofBytes ((b :: bs).drop (n + 1)) ++ s, ?_, ?_⟩
        · simp only [readExact, hl, if_false, avail, List.take_append_of_le_length hle]
        · rw [avail_ofBytes_append, avail, List.drop_append_of_le_length hle]

theorem readExact_of_lt (n : Nat) (s : Stream) (h : (avail s).length < n) :
    readExact n s = .error .io := by
  induction s generalizing n with
  | nil => rcases n with _ | n <;> simp_all [readExact]
  | cons p s ih =>
    cases p with
    | fail => rcases n with _ | n <;> simp_all [readExact]
    | data b bs =>
      rcases n with _ | n
      · simp at h
      simp only [avail, List.length_append] at h
      rw [readExact, if_pos (by omega), ih _ (by omega)]
      rfl

theorem readExact_ofBytes (l : Bytes) (n : Nat) (hl : l.length = n) (s : Stream) :
    readExact n (ofBytes l ++ s) = .ok (l, s) := by
  subst hl
  cases l with
  | nil => simp [ofBytes, readExact]
  | cons b bs => simp [ofBytes, readExact, Except.map]

theorem readExact_ok {n : Nat} {s s' : Stream} {r : Bytes} (h : readExact n s = .ok (r, s')) :
    n ≤ (avail s).length ∧ r = (avail s).take n ∧ avail s' = (avail s).drop n := by
  by_cases hn : n ≤ (avail s).length
  · obtain ⟨s'', h', hav⟩ := readExact_of_le n s hn
    rw [h'] at h
    cases h
    exact ⟨hn, rfl, hav⟩
  · rw [readExact_of_lt n s (by omega)] at h
    cases h

/-! ## `read` -/

theorem take_length_take (n : Nat) (l : Bytes) : l.take (l.take n).length = l.take n := by
  rw [List.length_take]
  rcases le_total n l.length with h | h
  · rw [min_eq_left h]
  · rw [min_eq_right h, List.take_length, List.take_of_length_le h]

theorem drop_length_take (n : Nat) (l : Bytes) : l.drop (l.take n).length = l.drop n := by
  rw [List.length_take]
  rcases le_total n l.length with h | h
  · rw [min_eq_left h]
  · rw [min_eq_right h, List.drop_length, List.drop_eq_nil_of_le h]

theorem read_ok {n : Nat} {s s' : Stream} {r : Bytes} (hn : 0 < n) (h : read n s = .ok (r, s')) :
    r = (avail s).take r.length ∧ avail s' = (avail s).drop r.length ∧ r.length ≤ n ∧
      (r = [] → avail s = []) := by
  rcases s with _ | ⟨⟨b, bs⟩ | _, s⟩
  · cases h; simp [avail]
  · simp only [read, Nat.pos_iff_ne_zero.mp hn, if_false, Except.ok.injEq, Prod.mk.injEq] at h
    obtain ⟨rfl, rfl⟩ := h
    have hle : ((b :: bs).take n).length ≤ (b :: bs).length := List.length_take_le' _ _
    refine ⟨?_, ?_, List.length_take_le _ _, fun h => ?_⟩
    · rw [avail, List.take_append_of_le_length hle, take_length_take]
    · rw [avail_ofBytes_append, avail, List.drop_append_of_le_length hle, drop_length_take]
    · rcases n with _ | n
      · omega
      · simp at h
  · cases h

/-! ## Fixed-size records -/

/-- The complete `k`-byte records at the front of `l`, in order. A shorter
tail is not a record. -/
def records (k : Nat) (l : Bytes) : List Bytes :=
  (List.range (l.length / k)).map fun i => (l.drop (i * k)).take k

theorem records_of_lt (k : Nat) (l : Bytes) (h : l.length < k) : records k l = [] := by
  simp [records, Nat.div_eq_of_lt h]

theorem records_append (k : Nat) (x l : Bytes) (hk : 0 < k) (hx : x.length = k) :
    records k (x ++ l) = x :: records k l := by
  have hlen : (x ++ l).length / k = l.length / k + 1 := by
    rw [List.length_append, hx, Nat.add_comm, Nat.add_div_right _ hk]
  rw [records, hlen, List.range_succ_eq_map, List.map_cons, List.map_map]
  refine congrArg₂ _ (by simp [← hx]) (List.map_congr_left fun i _ => ?_)
  simp only [Function.comp_apply, List.drop_append_eq_append_drop, hx, Nat.succ_mul,
    Nat.add_sub_cancel]
  rw [List.drop_eq_nil_of_le (by rw [hx]; omega), List.nil_append]

theorem length_of_mem_records {k : Nat} {l r : Bytes} (h : r ∈ records k l) : r.length = k := by
  obtain ⟨i, hi, rfl⟩ := List.mem_map.mp h
  have hi := List.mem_range.mp hi
  have : (i + 1) * k ≤ l.length := by
    exact Nat.mul_le_of_le_div k (i + 1) l.length hi
  simp only [List.length_take, List.length_drop]
  rw [Nat.succ_mul] at this
  omega

end Kr2r.Reader
