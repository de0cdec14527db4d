import Mathlib.Data.List.AList
import Mathlib.Algebra.Group.Nat.Basic

/-!
# Words, byte strings and maps

Every `usize` operation of the binaries is checked here: a result outside
`[0, 2^64)`, or a division by zero, is the panic of a debug build. Rust's
`HashMap` and `BTreeMap` are association lists. Only lookups and key sets of
a map are observed, never the order in which a `HashMap` is iterated.
-/

set_option autoImplicit false

namespace Kr2r.Basic

/-- How a run stops early: an `Err` of the operating system passed on by `?`,
an `io::Error::new(io::ErrorKind::NotFound, msg)` the code builds itself, or a
panic (`panic!`, `unwrap`, `expect`, an arithmetic overflow, a missing map
index). -/
inductive Fault where
  | io
  | notFound (msg : List Char)
  | panic
  deriving DecidableEq, Repr

abbrev Bytes := List UInt8

def usizeSize : Nat := UInt64.size

def orPanic {α : Type} : Option α → Except Fault α
  | some a => .ok a
  | none => .error .panic

@[simp] theorem orPanic_some {α : Type} (a : α) : orPanic (some a) = .ok a := rfl
@[simp] theorem orPanic_none {α : Type} : orPanic (none : Option α) = .error .panic := rfl

theorem orPanic_eq_ok {α : Type} {x : Option α} {a : α} : orPanic x = .ok a ↔ x = some a := by
  cases x <;> simp [orPanic]

theorem bind_eq_ok {ε α β : Type} {x : Except ε α} {f : α → Except ε β} {b : β} :
    x >>= f = .ok b ↔ ∃ a, x = .ok a ∧ f a = .ok b := by
  cases x <;> simp [bind, Except.bind]

/-! ## Checked `usize` arithmetic -/

def addUsize (a b : Nat) : Option Nat := if a + b < usizeSize then some (a + b) else none
def subUsize (a b : Nat) : Option Nat := if b ≤ a then some (a - b) else none
def mulUsize (a b : Nat) : Option Nat := if a * b < usizeSize then some (a * b) else none
def divUsize (a b : Nat) : Option Nat := if b = 0 then none else some (a / b)

section
variable {a b : Nat}

@[simp] theorem addUsize_of_lt (h : a + b < usizeSize) : addUsize a b = some (a + b) := if_pos h
@[simp] theorem subUsize_of_le (h : b ≤ a) : subUsize a b = some (a - b) := if_pos h
@[simp] theorem mulUsize_of_lt (h : a * b < usizeSize) : mulUsize a b = some (a * b) := if_pos h
@[simp] theorem divUsize_of_pos (h : 0 < b) : divUsize a b = some (a / b) :=
  if_neg (Nat.pos_iff_ne_zero.mp h)

theorem subUsize_of_lt (h : a < b) : subUsize a b = none := if_neg (by omega)

theorem subUsize_eq_some {c : Nat} : subUsize a b = some c ↔ b ≤ a ∧ a - b = c := by
  unfold subUsize
  split_ifs with h <;> simp [h]

theorem addUsize_eq_some {c : Nat} : addUsize a b = some c ↔ a + b < usizeSize ∧ a + b = c := by
  unfold addUsize
  split_ifs with h <;> simp [h]

end

def leBytes (n : Nat) : Nat → Bytes
  | 0 => []
  | k + 1 => UInt8.ofNat (n % 256) :: leBytes (n / 256) k

def toLeBytes (n : Nat) : Bytes := leBytes n 8

def fromLeBytes : Bytes → Nat
  | [] => 0
  | b :: bs => b.toNat + 256 * fromLeBytes bs

@[simp] theorem length_leBytes (n k : Nat) : (leBytes n k).length = k := by
  induction k generalizing n with
  | zero => rfl
  | succ k ih => simp [leBytes, ih]

@[simp] theorem length_toLeBytes (n : Nat) : (toLeBytes n).length = 8 := length_leBytes n 8

theorem fromLeBytes_leBytes (n k : Nat) : fromLeBytes (leBytes n k) = n % 256 ^ k := by
  induction k generalizing n with
  | zero => exact (Nat.mod_one n).symm
  | succ k ih =>
    rw [leBytes, fromLeBytes, ih, Nat.pow_succ', Nat.mod_mul]
    congr 1
    exact Nat.mod_mod n 256

theorem fromLeBytes_toLeBytes (n : Nat) (h : n < usizeSize) : fromLeBytes (toLeBytes n) = n :=
  (fromLeBytes_leBytes n 8).trans (Nat.mod_eq_of_lt h)

/-! ## Maps -/

abbrev Map (K V : Type) := AList (fun _ : K => V)

section
variable {K V : Type} [DecidableEq K]

def push (m : Map K (List V)) (k : K) (v : V) : Map K (List V) :=
  m.insert k ((m.lookup k).getD [] ++ [v])

def groupBy (key : V → K) (vs : List V) (m : Map K (List V)) : Map K (List V) :=
  vs.foldl (fun m v => push m (key v) v) m

theorem lookup_push (m : Map K (List V)) (k j : K) (v : V) :
    (push m k v).lookup j = if j = k then some ((m.lookup k).getD [] ++ [v]) else m.lookup j := by
  by_cases h : j = k
  · subst h; simp [push]
  · simp [push, h, AList.lookup_insert_ne h]

theorem mem_push (m : Map K (List V)) (k j : K) (v : V) : j ∈ push m k v ↔ j = k ∨ j ∈ m :=
  AList.mem_insert m

theorem lookup_foldl_insert {α : Type} (key : α → K) (val : α → V) (rs : List α)
    (m : Map K V) (k : K) : (rs.foldl (fun m r => m.insert (key r) (val r)) m).lookup k =
      ((rs.reverse.find? fun r => key r = k).map val).or (m.lookup k) := by
  induction rs generalizing m with
  | nil => simp
  | cons r rs ih =>
    rw [List.foldl_cons, ih, List.reverse_cons, List.find?_append]
    by_cases hk : key r = k
    · subst hk
      cases List.find? _ rs.reverse <;> simp
    · simp [hk, AList.lookup_insert_ne (Ne.symm hk)]

theorem groupBy_cons (key : V → K) (v : V) (vs : List V) (m : Map K (List V)) :
    groupBy key (v :: vs) m = groupBy key vs (push m (key v) v) := rfl

theorem groupBy_append (key : V → K) (vs ws : List V) (m : Map K (List V)) :
    groupBy key (vs ++ ws) m = groupBy key ws (groupBy key vs m) := List.foldl_append _ _ _ _

theorem lookup_groupBy (key : V → K) (vs : List V) (m : Map K (List V)) (k : K) :
    ((groupBy key vs m).lookup k).getD [] =
      (m.lookup k).getD [] ++ vs.filter (fun v => key v = k) := by
  induction vs generalizing m with
  | nil => simp [groupBy]
  | cons v vs ih =>
    rw [groupBy_cons, ih, lookup_push]
    by_cases h : k = key v
    · subst h; simp
    · simp [h, Ne.symm h]

theorem mem_groupBy (key : V → K) (vs : List V) (m : Map K (List V)) (k : K) :
    k ∈ groupBy key vs m ↔ k ∈ m ∨ ∃ v ∈ vs, key v = k := by
  induction vs generalizing m with
  | nil => simp [groupBy]
  | cons v vs ih =>
    rw [groupBy_cons, ih, mem_push]
    constructor
    · rintro ((rfl | h) | ⟨w, hw, rfl⟩)
      · exact .inr ⟨v, by simp⟩
      · exact .inl h
      · exact .inr ⟨w, by simp [hw]⟩
    · rintro (h | ⟨w, hw, rfl⟩)
      · exact .inl (.inr h)
      · rcases List.mem_cons.mp hw with rfl | hw
        · exact .inl (.inl rfl)
        · exact .inr ⟨w, hw, rfl⟩

theorem lookup_groupBy_empty (key : V → K) (vs : List V) (k : K) :
    (groupBy key vs ∅).lookup k =
      if ∃ v ∈ vs, key v = k then some (vs.filter (fun v => key v = k)) else none := by
  have hg := lookup_groupBy key vs ∅ k
  split_ifs with h
  · have hk : k ∈ groupBy key vs ∅ := (mem_groupBy key vs ∅ k).mpr (.inr h)
    obtain ⟨l, hl⟩ := Option.isSome_iff_exists.mp (AList.lookup_isSome.mpr hk)
    simpa [hl] using hg
  · rw [AList.lookup_eq_none, mem_groupBy]
    simpa using h

end

end Kr2r.Basic
