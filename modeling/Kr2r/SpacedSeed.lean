import Kr2r.Basic
import Mathlib.Data.Nat.Bitwise

/-!
# Spaced seed masks

`expand_spaced_seed_mask` replicates each of the low `⌊64/f⌋` bits of a mask
into a block of `f` bits. The guard lets every `f` in `1 ≤ f ≤ 64` through.
For `f ≤ 63` every shift stays below the word width and the result is the
block expansion of the mask. At `f = 64`, `1 << f` shifts by the full width,
which panics in a debug build.
-/

set_option autoImplicit false

namespace Kr2r.SpacedSeed

def checkedShl (a s : UInt64) : Option UInt64 := if s < 64 then some (a <<< s) else none

def checkedShr (a s : UInt64) : Option UInt64 := if s < 64 then some (a >>> s) else none

def expandStep (spacedSeedMask bitExpansionFactor bits newMask : UInt64) (i : Nat) :
    Option UInt64 := do
  let newMask ← checkedShl newMask bitExpansionFactor
  let b ← checkedShr spacedSeedMask (UInt64.ofNat i)
  pure (if b &&& 1 == 1 then newMask ||| bits else newMask)

def expandSpacedSeedMask (spacedSeedMask bitExpansionFactor : UInt64) : Option UInt64 :=
  if bitExpansionFactor == 0 || bitExpansionFactor > 64 then some spacedSeedMask
  else do
    let bits ← checkedShl 1 bitExpansionFactor
    (List.range (64 / bitExpansionFactor).toNat).reverse.foldlM
      (expandStep spacedSeedMask bitExpansionFactor (bits - 1)) 0

/-! ## Words as numbers -/

theorem toNat_shiftLeft (a s : UInt64) (hs : s.toNat < 64) :
    (a <<< s).toNat = a.toNat * 2 ^ s.toNat % 2 ^ 64 := by
  show (a.toBitVec <<< (s.mod 64).toBitVec).toNat = _
  rw [BitVec.shiftLeft_eq', BitVec.toNat_shiftLeft]
  simp [UInt64.mod, Nat.shiftLeft_eq, Nat.mod_eq_of_lt (show s.toBitVec.toNat < 64 from hs)]
  rfl

theorem toNat_shiftRight (a s : UInt64) (hs : s.toNat < 64) :
    (a >>> s).toNat = a.toNat / 2 ^ s.toNat := by
  show (a.toBitVec >>> (s.mod 64).toBitVec).toNat = _
  rw [BitVec.ushiftRight_eq', BitVec.toNat_ushiftRight]
  simp [UInt64.mod, Nat.shiftRight_eq_div_pow,
    Nat.mod_eq_of_lt (show s.toBitVec.toNat < 64 from hs)]
  rfl

theorem two_pow_mul_or (a b f : Nat) (hb : b < 2 ^ f) : 2 ^ f * a ||| b = 2 ^ f * a + b := by
  apply Nat.eq_of_testBit_eq
  intro j
  rw [Nat.testBit_or, Nat.testBit_mul_pow_two_add a hb, ← Nat.add_zero (2 ^ f * a),
    Nat.testBit_mul_pow_two_add a (Nat.two_pow_pos f)]
  split_ifs with h
  · simp
  · have : b.testBit j = false :=
      Nat.testBit_lt_two_pow (hb.trans_le (Nat.pow_le_pow_right Nat.two_pos (not_lt.mp h)))
    simp [this]

theorem toNat_ofNat_of_lt (i : Nat) (hi : i < 2 ^ 64) : (UInt64.ofNat i).toNat = i := by
  show (BitVec.ofNat 64 i).toNat = i
  rw [BitVec.toNat_ofNat]
  exact Nat.mod_eq_of_lt hi

theorem beq_one (x : UInt64) : (x == 1) = decide (x.toNat = 1) := by
  by_cases h : x = 1
  · subst h; rfl
  · have : x.toNat ≠ 1 := fun h' => h (UInt64.toNat.inj h')
    simp [h, this]

theorem seed_bit (m : UInt64) (i : Nat) (hi : i < 64) :
    (m >>> UInt64.ofNat i &&& 1 == 1) = m.toNat.testBit i := by
  have hs := toNat_ofNat_of_lt i (by omega)
  have hand : (m >>> UInt64.ofNat i &&& 1).toNat = m.toNat / 2 ^ i % 2 := by
    rw [show (m >>> UInt64.ofNat i &&& 1).toNat = (m >>> UInt64.ofNat i).toNat &&& 1 from
      BitVec.toNat_and _ _, Nat.and_one_is_mod, toNat_shiftRight _ _ (by omega), hs]
  rw [Nat.testBit_to_div_mod, ← hand, beq_one]

/-! ## The expansion as a number -/

def block (m f i : Nat) : Nat := if m.testBit i then 2 ^ f - 1 else 0

def blocks (m f : Nat) : Nat → Nat
  | 0 => 0
  | q + 1 => 2 ^ (f * q) * block m f q + blocks m f q

theorem block_lt (m f i : Nat) : block m f i < 2 ^ f := by
  unfold block
  split_ifs <;> have := Nat.two_pow_pos f <;> omega

theorem blocks_lt (m f q : Nat) : blocks m f q < 2 ^ (f * q) := by
  induction q with
  | zero => simp [blocks]
  | succ q ih =>
    have hb := block_lt m f q
    calc 2 ^ (f * q) * block m f q + blocks m f q
        < 2 ^ (f * q) * block m f q + 2 ^ (f * q) := by omega
      _ = 2 ^ (f * q) * (block m f q + 1) := (Nat.mul_succ _ _).symm
      _ ≤ 2 ^ (f * q) * 2 ^ f := Nat.mul_le_mul_left _ hb
      _ = 2 ^ (f * (q + 1)) := by rw [Nat.mul_succ, Nat.pow_add]

theorem testBit_block (m f i j : Nat) :
    (block m f i).testBit j = (m.testBit i && decide (j < f)) := by
  unfold block
  split_ifs with h <;> simp [h, Nat.testBit_two_pow_sub_one]

theorem testBit_blocks (m f q j : Nat) (hf : 0 < f) :
    (blocks m f q).testBit j = (decide (j < f * q) && m.testBit (j / f)) := by
  induction q with
  | zero => simp [blocks]
  | succ q ih =>
    rw [blocks, Nat.testBit_mul_pow_two_add _ (blocks_lt m f q), testBit_block, Nat.mul_succ]
    split_ifs with hj
    · rw [ih]; simp [hj, show j < f * q + f by omega]
    · by_cases hlt : j - f * q < f
      · have hq : j / f = q := Nat.div_eq_of_lt_le (by rw [Nat.mul_comm]; omega)
          (by rw [Nat.add_mul, one_mul, Nat.mul_comm]; omega)
        simp [hlt, hq, show j < f * q + f by omega]
      · simp [hlt, show ¬ j < f * q + f by omega]

/-! ## The loop -/

section
variable (m F : UInt64) (hF : F.toNat < 64)
include hF

theorem expandStep_spec (bits acc : UInt64) (hbits : bits.toNat = 2 ^ F.toNat - 1)
    (i : Nat) (hi : i < 64) (hacc : (acc.toNat + 1) * 2 ^ F.toNat ≤ 2 ^ 64) :
    ∃ r, expandStep m F bits acc i = some r ∧
      r.toNat = 2 ^ F.toNat * acc.toNat + block m.toNat F.toNat i := by
  have hsh : (acc <<< F).toNat = 2 ^ F.toNat * acc.toNat := by
    rw [toNat_shiftLeft _ _ hF, Nat.mod_eq_of_lt (lt_of_lt_of_le
      (Nat.mul_lt_mul_of_pos_right (Nat.lt_succ_self _) (Nat.two_pow_pos _)) hacc), Nat.mul_comm]
  have hi' : UInt64.ofNat i < 64 := by
    show (UInt64.ofNat i).toNat < 64
    rw [toNat_ofNat_of_lt i (by omega)]; exact hi
  have hF' : F < 64 := hF
  simp only [expandStep, checkedShl, checkedShr, hF', hi', if_true, Option.bind_eq_bind,
    Option.some_bind, seed_bit m i hi]
  unfold block
  split_ifs with hb
  · refine ⟨_, rfl, ?_⟩
    rw [show (acc <<< F ||| bits).toNat = (acc <<< F).toNat ||| bits.toNat from
      BitVec.toNat_or _ _, hsh, hbits,
      two_pow_mul_or _ _ _ (by have := Nat.two_pow_pos F.toNat; omega)]
  · exact ⟨_, rfl, by simp [hsh]⟩

theorem expandLoop_spec (bits : UInt64) (hbits : bits.toNat = 2 ^ F.toNat - 1) (q : Nat)
    (hq : q ≤ 64) (acc : UInt64) (hacc : (acc.toNat + 1) * 2 ^ (F.toNat * q) ≤ 2 ^ 64) :
    ∃ r, (List.range q).reverse.foldlM (expandStep m F bits) acc = some r ∧
      r.toNat = 2 ^ (F.toNat * q) * acc.toNat + blocks m.toNat F.toNat q := by
  induction q generalizing acc with
  | zero => exact ⟨acc, rfl, by simp [blocks]⟩
  | succ q ih =>
    have hpow : 2 ^ (F.toNat * (q + 1)) = 2 ^ F.toNat * 2 ^ (F.toNat * q) := by
      rw [Nat.mul_succ, Nat.pow_add, Nat.mul_comm]
    rw [hpow, ← Nat.mul_assoc] at hacc
    have hstep : (acc.toNat + 1) * 2 ^ F.toNat ≤ 2 ^ 64 :=
      (Nat.le_mul_of_pos_right _ (Nat.two_pow_pos _)).trans hacc
    obtain ⟨a, ha, hav⟩ := expandStep_spec m F hF bits acc hbits q (by omega) hstep
    have ha1 : a.toNat + 1 ≤ (acc.toNat + 1) * 2 ^ F.toNat := by
      have := block_lt m.toNat F.toNat q
      rw [hav, Nat.succ_mul, Nat.mul_comm]; omega
    obtain ⟨r, hr, hrv⟩ := ih (by omega) a ((Nat.mul_le_mul_right _ ha1).trans hacc)
    refine ⟨r, ?_, ?_⟩
    · rw [List.range_succ, List.reverse_append]
      simpa only [List.reverse_singleton, List.singleton_append, List.foldlM_cons, ha,
        Option.bind_eq_bind, Option.some_bind] using hr
    rw [hrv, hav, hpow, blocks, Nat.mul_add, ← Nat.mul_assoc, Nat.mul_comm (2 ^ (F.toNat * q)),
      Nat.add_assoc]

/-- For every mask and every factor `1 ≤ f ≤ 63` no shift overflows, and bit
`j` of the result is set iff `j < f·⌊64/f⌋` and seed bit `⌊j/f⌋` is set. -/
theorem expandSpacedSeedMask_bits (hF1 : 1 ≤ F.toNat) :
    ∃ r, expandSpacedSeedMask m F = some r ∧
      ∀ j, r.toNat.testBit j =
        (decide (j < F.toNat * (64 / F.toNat)) && m.toNat.testBit (j / F.toNat)) := by
  have h1 : ((1 : UInt64) <<< F).toNat = 2 ^ F.toNat := by
    rw [toNat_shiftLeft _ _ hF, show (1 : UInt64).toNat = 1 from rfl, one_mul]
    exact Nat.mod_eq_of_lt (Nat.pow_lt_pow_right (by decide) hF)
  have hbits : ((1 : UInt64) <<< F - 1).toNat = 2 ^ F.toNat - 1 := by
    have hle : (1 : UInt64) ≤ (1 : UInt64) <<< F := by
      show (1 : UInt64).toNat ≤ ((1 : UInt64) <<< F).toNat
      rw [h1]; exact Nat.one_le_two_pow
    rw [UInt64.toNat_sub_of_le _ _ hle, h1]
    rfl
  have hq : (64 / F).toNat = 64 / F.toNat := UInt64.toNat_div _ _
  have hle : F.toNat * (64 / F.toNat) ≤ 64 := Nat.mul_div_le 64 F.toNat
  obtain ⟨r, hr, hrv⟩ := expandLoop_spec m F hF _ hbits (64 / F.toNat)
    (Nat.div_le_self 64 _) 0 (by simpa using Nat.pow_le_pow_right (by decide) hle)
  refine ⟨r, ?_, fun j => ?_⟩
  · have hF0 : F ≠ 0 := fun h => absurd hF1 (by subst h; decide)
    have hF64 : ¬ F > 64 := fun h => absurd (show 64 < F.toNat from h) (by omega)
    simp only [expandSpacedSeedMask, beq_iff_eq, hF0, hF64, decide_False, Bool.or_false,
      Bool.false_eq_true, if_false, checkedShl, show F < 64 from hF, if_true,
      Option.bind_eq_bind, Option.some_bind, hq, hr]
  · rw [hrv, show (0 : UInt64).toNat = 0 from rfl, Nat.mul_zero, Nat.zero_add,
      testBit_blocks _ _ _ _ (by omega)]

end

theorem expandSpacedSeedMask_bits_doc :
    (2 : UInt64).toNat < 64 ∧ 1 ≤ (2 : UInt64).toNat ∧
      ∃ r, expandSpacedSeedMask 0b1010 2 = some r ∧ ∀ j, r.toNat.testBit j =
        (decide (j < (2 : UInt64).toNat * (64 / (2 : UInt64).toNat)) &&
          (0b1010 : UInt64).toNat.testBit (j / (2 : UInt64).toNat)) :=
  ⟨by decide, by decide, expandSpacedSeedMask_bits 0b1010 2 (by decide) (by decide)⟩

/-- The doc examples of the source, with factors 2, 1, 0 and 65. -/
example : expandSpacedSeedMask 0b1010 2 = some 204 := rfl
set_option maxRecDepth 4000 in
example : expandSpacedSeedMask 0b0101 1 = some 5 := rfl
example : expandSpacedSeedMask 0b1010 0 = some 0b1010 := rfl
example : expandSpacedSeedMask 0b1010 65 = some 0b1010 := rfl

/-- At `f = 64` the guard lets the factor through and `1 << 64` panics. -/
theorem expandSpacedSeedMask_factor_64 : expandSpacedSeedMask 1 64 = none := rfl

end Kr2r.SpacedSeed
