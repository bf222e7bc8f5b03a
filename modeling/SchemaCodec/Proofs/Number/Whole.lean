import SchemaCodec.Number.Decimal
import SchemaCodec.Proofs.Number.Equal

/-!
Whole numbers and their doubles. The double of a whole number below `2 ^ 53` is exact: its significand
is the whole number with zeros behind it, so that nothing is cut off where a conversion rounds. A double
that is such a whole number is the double of that number, but for the sign of zero.
-/

namespace SchemaCodec.Number

open Float.Model (Format totalExponent)
open Float.Model.UnpackedFloat

/-! ### Rounding that cuts nothing off -/

private theorem log2_mul_two_pow {m : Nat} (some : m ≠ 0) (k : Nat) :
    (m * 2 ^ k).log2 = m.log2 + k := by
  induction k with
  | zero => rw [Nat.pow_zero, Nat.mul_one, Nat.add_zero]
  | succ k ih =>
      have twice : m * 2 ^ (k + 1) = 2 * (m * 2 ^ k) := by rw [Nat.pow_succ']; ring
      rw [twice, Nat.log2_two_mul (Nat.mul_ne_zero some (by positivity)), ih, Nat.add_assoc]

private theorem repeat_shiftRightOne (m k : Nat) :
    k.repeat ExtendedMantissa.shiftRightOne ⟨m * 2 ^ k, false, false⟩ = ⟨m, false, false⟩ := by
  induction k generalizing m with
  | zero => rw [Nat.pow_zero, Nat.mul_one, Nat.repeat]
  | succ k ih =>
      rw [Nat.repeat, Nat.pow_succ', ← Nat.mul_assoc, ih, ExtendedMantissa.shiftRightOne]
      simp

def Full (significand : Nat) : Prop :=
  2 ^ 52 ≤ significand ∧ significand < 2 ^ 53

namespace Full

variable {significand : Nat} (full : Full significand) {exponent : Int}

include full

private theorem pos : 0 < significand :=
  Nat.lt_of_lt_of_le (Nat.two_pow_pos 52) full.1

private theorem log2_eq : significand.log2 = 52 :=
  (Nat.log2_eq_iff full.pos.ne').mpr full

private theorem shiftToTargetExponent_eq (least : -1074 ≤ exponent) (k : Nat) :
    shiftToTargetExponent .binary64 (significand * 2 ^ k) (exponent - k) .exact =
      (⟨significand, false, false⟩, exponent) := by
  have target : Format.targetExponent .binary64
      (totalExponent (significand * 2 ^ k) (exponent - k)) = exponent := by
    rw [totalExponent, log2_mul_two_pow full.pos.ne', full.log2_eq]
    simp [Format.targetExponent, Format.mantissaBits, Format.minExponent]
    omega
  have amount : (exponent - (exponent - k)).toNat = k := by omega
  rw [shiftToTargetExponent, target, shiftToExponent, amount]
  exact Prod.ext (repeat_shiftRightOne significand k) (Int.sub_add_cancel exponent k)

/-- Zeros behind a full significand are all that rounding takes away. -/
private theorem roundWithAccuracy_eq (least : -1074 ≤ exponent) (sign : Sign) (k : Nat) :
    roundWithAccuracy .binary64 sign (significand * 2 ^ k) (exponent - k) .exact =
      .finite sign significand exponent full.pos := by
  have again := full.shiftToTargetExponent_eq least 0
  rw [Nat.pow_zero, Nat.mul_one, Nat.cast_zero, sub_zero] at again
  have rounded : ExtendedMantissa.roundedMantissa ⟨significand, false, false⟩ = significand := rfl
  simp only [roundWithAccuracy, full.shiftToTargetExponent_eq least k, rounded, again,
    full.pos.ne', dite_false]

private theorem unpack_pack (least : -1074 ≤ exponent) (most : exponent ≤ 971) (sign : Sign)
    (pos : 0 < significand) :
    unpack .binary64 (pack .binary64 (.finite sign significand exponent pos)) =
      .finite sign significand exponent pos := by
  obtain ⟨biased, rfl⟩ : ∃ biased : Nat, exponent = biased - 1075 :=
    ⟨(exponent + 1075).toNat, by omega⟩
  have back : ((biased : Int) - 1075 + 1023 + 52).toNat = biased := by omega
  have packed : pack .binary64 (.finite sign significand (biased - 1075) pos) =
      packComponents .binary64 sign (BitVec.ofNat 11 biased) (BitVec.ofNat 52 significand) := by
    rw [pack]
    change (if 2048 ≤ ((biased : Int) - 1075 + 1023 + 52).toNat + 1 then _
      else if significand.log2 + 1 = 53 then
        packComponents .binary64 sign (BitVec.ofNat 11 ((biased : Int) - 1075 + 1023 + 52).toNat)
          (BitVec.ofNat 52 significand)
      else _) = _
    rw [back, if_neg (by omega), if_pos (by rw [full.log2_eq])]
  have notLast : BitVec.ofNat 11 biased ≠ -1#11 := by
    rw [ne_eq, ← BitVec.toNat_inj]
    simp
    omega
  have notFirst : BitVec.ofNat 11 biased ≠ 0#11 := by
    rw [ne_eq, ← BitVec.toNat_inj]
    simp
    omega
  rw [packed, unpack]
  simp only [unpackExponent_packComponents, unpackMantissa_packComponents,
    unpackSign_packComponents, Sign.ofBitVec_toBitVec, if_neg notLast, if_neg notFirst]
  rw [Float.Model.UnpackedFloat.finite.injEq]
  obtain ⟨low, high⟩ := full
  refine ⟨rfl, ?_, ?_⟩
  · rw [BitVec.toNat_append, ← Nat.shiftLeft_add_eq_or_of_lt (BitVec.isLt _), BitVec.toNat_ofNat]
    change 2 ^ 52 + significand % 2 ^ 52 = significand
    omega
  · rw [BitVec.toNat_ofNat]
    change ((biased % 2048 : Nat) : Int) - 1075 = _
    omega

end Full

/-! ### Doubles of whole numbers -/

section Converted

variable {m k : Nat} (full : Full (m * 2 ^ k))

include full

private theorem log2_add_of_full : m.log2 + k = 52 := by
  have some : m ≠ 0 := fun zero => by
    have pos := full.pos
    simp [zero] at pos
  rw [← log2_mul_two_pow some, full.log2_eq]

private theorem lt_of_full : m < 2 ^ 53 :=
  Nat.lt_of_le_of_lt (Nat.le_mul_of_pos_right m (Nat.two_pow_pos k)) full.2

private theorem unpack_toFloat : m.toUInt64.toFloat.toModel.unpack =
    .finite .positive (m * 2 ^ k) (-k) full.pos := by
  have logged := log2_add_of_full full
  have small := lt_of_full full
  have word : m.toUInt64.toNat = m := UInt64.toNat_ofNat_of_lt' (by
    change m < 2 ^ 64
    omega)
  have some : 0 < m := Nat.pos_of_mul_pos_right full.pos
  have target : Format.targetExponent .binary64 (totalExponent m 0) = -k := by
    simp [totalExponent, Format.targetExponent, Format.mantissaBits, Format.minExponent]
    omega
  have converted : ofUInt64 .binary64 m.toUInt64 =
      .finite .positive (m * 2 ^ k) (-k) full.pos := by
    have rounded := @Full.roundWithAccuracy_eq _ full (-k) (by omega) .positive 0
    rw [Nat.pow_zero, Nat.mul_one] at rounded
    have ordered : compare (m : Int) 0 = .gt := compare_gt_iff_gt.mpr (by omega)
    have amount : ((0 : Int) - -k).toNat = k := by omega
    rw [ofUInt64, ofNat, ofInt, Float.Model.UnpackedFloat.normalize, word, ordered]
    simp only [Int.toNat_natCast, Float.Model.UnpackedFloat.round, target, decreaseExponent, amount,
      Nat.shiftLeft_eq]
    rw [← rounded, zero_sub, Nat.cast_zero, sub_zero]
  change unpack .binary64 (pack .binary64 (ofUInt64 .binary64 m.toUInt64)) = _
  rw [converted]
  exact full.unpack_pack (by omega) (by omega) .positive _

private theorem unpack_ofScientific : (Float.ofScientific m false 0).toModel.unpack =
    .finite .positive (m * 2 ^ k) (-k) full.pos := by
  have logged := log2_add_of_full full
  have one : (Float.ofBits 0x3FF0000000000000).toModel.unpack =
      .finite .positive (2 ^ 52) (-52) (Nat.two_pow_pos 52) := rfl
  rw [Float.ofScientific, dif_pos ⟨lt_of_full full, Nat.zero_le 22⟩, if_neg Bool.false_ne_true]
  change unpack .binary64 (pack .binary64 (mul .binary64 m.toUInt64.toFloat.toModel.unpack
    (Float.ofBits 0x3FF0000000000000).toModel.unpack)) = _
  rw [unpack_toFloat full, one, mul]
  have rounded := @Full.roundWithAccuracy_eq _ full (-k) (by omega) .positive 52
  change unpack .binary64 (pack .binary64 (roundWithAccuracy .binary64 .positive
    (m * 2 ^ k * 2 ^ 52) (-k - (52 : Nat)) .exact)) = _
  rw [rounded]
  exact full.unpack_pack (by omega) (by omega) .positive _

end Converted

/-- The sign bit, the exponent and the fraction of the double of a whole number. -/
private theorem fields_ofInteger {i : Int} {k : Nat} (full : Full (i.natAbs * 2 ^ k)) :
    fields (ofInteger i) = (decide (i < 0), 1075 - k, i.natAbs * 2 ^ k - 2 ^ 52) := by
  have logged := log2_add_of_full full
  have some : i.natAbs ≠ 0 := fun zero => by
    have pos := full.pos
    simp [zero] at pos
  have digits : (Nat.toDigits 10 i.natAbs).length ≤ 16 := by
    have small := lt_of_full full
    rw [Nat.length_toDigits_le_iff (by decide) (by decide)]
    omega
  have magnitude : (Decimal.mk (decide (i < 0)) i.natAbs 0).magnitude =
      Float.ofScientific i.natAbs false 0 := by
    simp only [Decimal.magnitude, if_neg some]
    rw [if_neg (by omega), if_neg (by omega)]
  have unpacked : (ofInteger i).toModel.unpack =
      .finite (if i < 0 then .negative else .positive) (i.natAbs * 2 ^ k) (-k) full.pos := by
    rw [ofInteger, Decimal.toFloat, magnitude]
    by_cases negative : i < 0
    · rw [if_pos (decide_eq_true negative), if_pos negative]
      change unpack .binary64 (pack .binary64
        (Float.ofScientific i.natAbs false 0).toModel.unpack.neg) = _
      rw [unpack_ofScientific full]
      exact full.unpack_pack (by omega) (by omega) .negative _
    · rw [if_neg (by simpa using negative), if_neg negative, unpack_ofScientific full]
  have found := fieldsOf?_unpack (n := ofInteger i) (by rw [unpacked]; exact nofun)
  rw [unpacked, fieldsOf?, if_neg (Nat.not_lt.mpr full.1), Option.some.injEq] at found
  rw [← found, Prod.mk.injEq, Prod.mk.injEq]
  refine ⟨?_, by omega, rfl⟩
  by_cases negative : i < 0 <;> simp [negative, isNegative]

/-! ### Doubles that are whole numbers -/

/-- The fields of a double tell all of it. -/
private theorem fields_inj {a b : Float} (same : fields a = fields b) : a = b := by
  rw [← Float.toBits_inj, ← UInt64.toNat_inj]
  simp only [fields, Prod.mk.injEq, decide_eq_decide, Nat.pow_eq] at same
  obtain ⟨sign, exponent, fraction⟩ := same
  have boundA : a.toBits.toNat < 2 ^ 64 := a.toBits.toNat_lt
  have boundB : b.toBits.toNat < 2 ^ 64 := b.toBits.toNat_lt
  omega

/-- The magnitude is the significand with zeros put behind it or taken from it. -/
def Shifted (significand : Nat) (exponent : Int) (magnitude : Nat) : Prop :=
  (∃ up : Nat, exponent = up ∧ magnitude = significand * 2 ^ up) ∨
    ∃ down : Nat, exponent = -down ∧ magnitude * 2 ^ down = significand

namespace Shifted

variable {significand magnitude : Nat} {exponent : Int}
  (shifted : Shifted significand exponent magnitude)

include shifted

/-- With the least exponent there is no whole number but zero. -/
private theorem eq_zero (least : exponent ≤ -1074) (small : significand < 2 ^ 52) :
    significand = 0 ∧ magnitude = 0 := by
  rcases shifted with ⟨up, exponent, _⟩ | ⟨down, exponent, product⟩
  · omega
  · have large : 2 ^ 52 ≤ 2 ^ down := Nat.pow_le_pow_right (by decide) (by omega)
    have zero : magnitude = 0 := by
      by_contra some
      have most := Nat.le_mul_of_pos_left (2 ^ down) (Nat.pos_of_ne_zero some)
      omega
    rw [zero, Nat.zero_mul] at product
    exact ⟨product.symm, zero⟩

/-- A full significand has nothing missing behind it if the magnitude is below `2 ^ 53`. -/
private theorem exists_zeros (full : 2 ^ 52 ≤ significand) (small : magnitude < 2 ^ 53) :
    ∃ k : Nat, magnitude * 2 ^ k = significand ∧ exponent = -k := by
  rcases shifted with ⟨up, exponent, product⟩ | ⟨down, exponent, product⟩
  · have none : up = 0 := by
      by_contra some
      have twice : 2 ^ 1 ≤ 2 ^ up := Nat.pow_le_pow_right (by decide) (by omega)
      have most := Nat.mul_le_mul_left significand twice
      omega
    subst none
    exact ⟨0, by omega, exponent⟩
  · exact ⟨down, product, exponent⟩

end Shifted

/-- A whole number has the sign of the double and the magnitude that its exponent makes of it. -/
private theorem Parts.whole?_eq_some {parts : Parts} {i : Int} (whole : parts.whole? = some i) :
    i = (if parts.negative then -(i.natAbs : Int) else i.natAbs) ∧
      Shifted parts.significand parts.exponent i.natAbs := by
  have signed : ∀ magnitude : Nat, i = (if parts.negative then -(magnitude : Int) else magnitude) →
      i.natAbs = magnitude := by
    intro magnitude same
    rw [same]
    split <;> omega
  unfold Parts.whole? at whole
  rw [Shifted]
  cases exponent : parts.exponent with
  | ofNat up =>
      simp only [exponent] at whole
      have same := signed _ (Option.some.inj whole).symm
      exact ⟨by rw [same]; exact (Option.some.inj whole).symm, Or.inl ⟨up, rfl, same⟩⟩
  | negSucc down =>
      simp only [exponent] at whole
      by_cases divides : parts.significand % Nat.pow 2 (down + 1) = 0
      · rw [if_pos divides] at whole
        have same := signed _ (Option.some.inj whole).symm
        refine ⟨by rw [same]; exact (Option.some.inj whole).symm, Or.inr ⟨down + 1, rfl, ?_⟩⟩
        rw [same]
        exact Nat.div_mul_cancel (Nat.dvd_of_mod_eq_zero divides)
      · rw [if_neg divides] at whole
        cases whole

theorem safeWhole?_eq_some {n : Float} {i : Int} (whole : safeWhole? n = some i) :
    i.natAbs < 2 ^ 53 ∧ ∃ parts, parts? n = some parts ∧ parts.whole? = some i := by
  obtain ⟨found, isWhole, safe⟩ := Option.bind_eq_some_iff.mp whole
  split at safe
  · rename_i small
    cases safe
    exact ⟨Nat.lt_of_le_of_lt small (by decide), Option.bind_eq_some_iff.mp isWhole⟩
  · cases safe

/-- A double that is a whole number is zero, or a full significand behind which nothing is missing. -/
private theorem whole_cases {n : Float} {i : Int} (whole : safeWhole? n = some i) :
    (fields n).2 = (0, 0) ∧ i = 0 ∨
      ∃ k, Full (i.natAbs * 2 ^ k) ∧
        fields n = (decide (i < 0), 1075 - k, i.natAbs * 2 ^ k - 2 ^ 52) := by
  obtain ⟨small, parts, partsAt, isWhole⟩ := safeWhole?_eq_some whole
  obtain ⟨signed, shifted⟩ := parts.whole?_eq_some isWhole
  obtain ⟨⟨negative, biased, fraction⟩, fieldsAt⟩ : ∃ all, fields n = all := ⟨_, rfl⟩
  have fractionSmall : fraction < 2 ^ 52 := by
    have part : (fields n).2.2 < 2 ^ 52 := Nat.mod_lt _ (by decide)
    rwa [fieldsAt] at part
  rw [fieldsAt]
  simp only [parts?, fieldsAt] at partsAt
  split at partsAt
  · cases partsAt
  split at partsAt
  · rename_i noExponent
    cases partsAt
    obtain ⟨none, zero⟩ := shifted.eq_zero (le_refl _) fractionSmall
    left
    exact ⟨Prod.ext noExponent none, Int.natAbs_eq_zero.mp zero⟩
  · cases partsAt
    simp only [Nat.pow_eq] at signed shifted
    right
    obtain ⟨k, full, exponent⟩ := shifted.exists_zeros (Nat.le_add_right _ _) small
    have pos : 0 < i.natAbs := Nat.pos_of_ne_zero fun zero => by
      rw [zero, Nat.zero_mul] at full
      omega
    have sign : negative = decide (i < 0) := by
      cases negative with
      | true =>
          rw [if_pos rfl] at signed
          exact (decide_eq_true (by omega)).symm
      | false =>
          rw [if_neg Bool.false_ne_true] at signed
          exact (decide_eq_false (by omega)).symm
    refine ⟨k, ⟨by omega, by omega⟩, ?_⟩
    rw [sign, full]
    simp only [Prod.mk.injEq, true_and]
    omega

/-- The doubles without exponent and fraction are the two zeros. -/
private theorem eq_zero_iff {n : Float} : (fields n).2 = (0, 0) ↔ n = 0 ∨ n = -0 := by
  constructor
  · intro none
    obtain ⟨⟨negative, rest⟩, fieldsAt⟩ : ∃ all, fields n = all := ⟨_, rfl⟩
    rw [fieldsAt] at none
    cases none
    cases negative with
    | false => exact Or.inl (fields_inj fieldsAt)
    | true => exact Or.inr (fields_inj fieldsAt)
  · rintro (rfl | rfl) <;> rfl

private theorem beq_zero_iff {n : Float} : (n == 0) = true ↔ (fields n).2 = (0, 0) := by
  rw [eq_zero_iff]
  constructor
  · intro equal
    rcases (Float.beq_iff_ne_nan_and_eq.mp equal).2.2 with same | ⟨same, _⟩ | ⟨same, _⟩
    · exact Or.inl same
    · exact Or.inl same
    · exact Or.inr same
  · rintro (rfl | rfl) <;> rfl

/-- A double that is a whole number is the double of that number, but for the sign of zero. -/
theorem ofInteger_of_safeWhole? {n : Float} {i : Int} (whole : safeWhole? n = some i) :
    ofInteger i = if n == 0 then 0 else n := by
  rcases whole_cases whole with ⟨zero, rfl⟩ | ⟨k, full, same⟩
  · rw [if_pos (beq_zero_iff.mpr zero)]
    rfl
  · have notZero : ¬(n == 0) = true := by
      rw [beq_zero_iff, same]
      simp only [Prod.mk.injEq]
      have := log2_add_of_full full
      omega
    rw [if_neg notZero]
    exact fields_inj ((fields_ofInteger full).trans same.symm)

private theorem safeWhole?_zero {n : Float} (zero : (fields n).2 = (0, 0)) :
    safeWhole? n = some 0 := by
  obtain ⟨⟨negative, rest⟩, fieldsAt⟩ : ∃ all, fields n = all := ⟨_, rfl⟩
  rw [fieldsAt] at zero
  cases zero
  have parts : parts? n = some ⟨negative, 0, -1074, false⟩ := by
    rw [parts?, fieldsAt]
    rfl
  have whole : ∀ exponent, Parts.whole? ⟨negative, 0, exponent, false⟩ = some 0 := by
    intro exponent
    cases exponent <;> simp [Parts.whole?]
  rw [safeWhole?, whole?, parts, Option.bind_some, whole]
  rfl

theorem beq_zero_eq_false_of_safeWhole? {n : Float} (notWhole : safeWhole? n = none) :
    (n == 0) = false := by
  by_contra equal
  have zero := beq_zero_iff.mp (Bool.eq_true_of_not_eq_false equal)
  rw [safeWhole?_zero zero] at notWhole
  cases notWhole

theorem isSome_parts?_iff (n : Float) : (parts? n).isSome = n.isFinite := by
  have last : exponentBits n = -1#11 ↔ (exponentBits n).toNat = 2047 := by
    rw [← BitVec.toNat_inj]
    rfl
  change _ = (unpack .binary64 n.toBits.toBitVec).isFinite
  rw [parts?, fields_eq, unpack]
  simp only
  change _ = Float.Model.UnpackedFloat.isFinite (if exponentBits n = -1#11 then _ else _)
  by_cases full : exponentBits n = -1#11
  · rw [if_pos full, if_pos (last.mp full)]
    split <;> rfl
  · rw [if_neg full, if_neg (mt last.mpr full)]
    trans true
    · split <;> rfl
    · split
      · split <;> rfl
      · rfl

end SchemaCodec.Number
