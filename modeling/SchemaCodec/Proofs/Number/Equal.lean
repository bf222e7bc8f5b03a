import Mathlib
import SchemaCodec.Number.Text

/-!
Equal numbers have one text. Two numbers are equal only if they are the same bits or two zeros, and
the text of a zero does not tell its sign.
-/

namespace SchemaCodec.Number

open Float.Model.UnpackedFloat

abbrev signBit (n : Float) : BitVec 1 :=
  @unpackSign .binary64 n.toBits.toBitVec

abbrev exponentBits (n : Float) : BitVec 11 :=
  @unpackExponent .binary64 n.toBits.toBitVec

abbrev fractionBits (n : Float) : BitVec 52 :=
  @unpackMantissa .binary64 n.toBits.toBitVec

def isNegative : Sign → Bool
  | .negative => true
  | .positive => false

def fieldsOf? : Float.Model.UnpackedFloat → Option (Bool × Nat × Nat)
  | .infinity sign => some (isNegative sign, 2047, 0)
  | .notANumber => none
  | .zero sign => some (isNegative sign, 0, 0)
  | .finite sign significand exponent _ =>
    if significand < 2 ^ 52 then some (isNegative sign, 0, significand)
    else some (isNegative sign, (exponent + 1075).toNat, significand - 2 ^ 52)

/-- The fields of the bit pattern, as the format of the bits names them. -/
theorem fields_eq (n : Float) :
    fields n = (decide (signBit n ≠ 0#1),
      (exponentBits n).toNat,
      (fractionBits n).toNat) := by
  have bounded : n.toBits.toNat < 2 ^ 64 := n.toBits.toNat_lt
  simp only [fields, unpackSign, unpackExponent, unpackMantissa, BitVec.toNat_cast,
    BitVec.extractLsb_toNat, UInt64.toNat_toBitVec, Nat.shiftRight_eq_div_pow, Prod.mk.injEq,
    decide_eq_decide, ne_eq, BitVec.toNat_eq]
  refine ⟨?_, ?_, ?_⟩
  · simp
    omega
  · simp
  · simp

theorem fieldsOf?_unpack {n : Float} (isNumber : n.toModel.unpack ≠ .notANumber) :
    fieldsOf? n.toModel.unpack = some (fields n) := by
  rw [fields_eq]
  change unpack .binary64 n.toBits.toBitVec ≠ _ at isNumber
  change fieldsOf? (unpack .binary64 n.toBits.toBitVec) = _
  have signs : ∀ bit : BitVec 1, isNegative (Sign.ofBitVec bit) = decide (bit ≠ 0#1) := by
    decide
  have small := (fractionBits n).isLt
  change _ < 2 ^ 52 at small
  unfold unpack at isNumber ⊢
  simp only at isNumber ⊢
  split at isNumber
  · rename_i full
    change exponentBits n = _ at full
    rw [if_pos full, full]
    split at isNumber
    · rename_i noFraction
      change fractionBits n = _ at noFraction
      rw [if_pos noFraction, noFraction, fieldsOf?, signs]
      rfl
    · exact absurd rfl isNumber
  · rename_i notFull
    rw [if_neg notFull]
    split
    · rename_i noExponent
      change exponentBits n = _ at noExponent
      rw [noExponent]
      split
      · rename_i noFraction
        change fractionBits n = _ at noFraction
        rw [noFraction, fieldsOf?, signs]
        rfl
      · rw [fieldsOf?, if_pos small, signs]
        rfl
    · have significand : (1#1 ++ fractionBits n).toNat =
          2 ^ 52 + (fractionBits n).toNat := by
        rw [BitVec.toNat_append, ← Nat.shiftLeft_add_eq_or_of_lt (BitVec.isLt _)]
        rfl
      have exponent : (((exponentBits n).toNat : Int) -
          ((Float.Model.Format.binary64.exponentBias : Int) +
            (Float.Model.Format.binary64.mantissaBitsWithoutImplicit : Int)) + 1075).toNat =
          (exponentBits n).toNat := by
        change (((exponentBits n).toNat : Int) - 1075 +
          1075).toNat = _
        omega
      simp only [fieldsOf?, significand]
      rw [if_neg (by omega), signs, exponent, Nat.add_sub_cancel_left]

/-- Numbers that compare as equal are zeros, or have one form. -/
private theorem eq_of_compare {u w : Float.Model.UnpackedFloat}
    (equal : u.compare w = some .eq) :
    (∃ sign other, u = .zero sign ∧ w = .zero other) ∨ u = w ∧ u ≠ .notANumber := by
  cases u with
  | notANumber => cases w <;> simp [Float.Model.UnpackedFloat.compare] at equal
  | zero sign =>
      cases w with
      | zero other => exact Or.inl ⟨sign, other, rfl, rfl⟩
      | notANumber => simp [Float.Model.UnpackedFloat.compare] at equal
      | infinity other => cases other <;> simp [Float.Model.UnpackedFloat.compare] at equal
      | finite other _ _ _ => cases other <;> simp [Float.Model.UnpackedFloat.compare] at equal
  | infinity sign =>
      refine Or.inr ⟨?_, nofun⟩
      cases w with
      | infinity other => cases sign <;> cases other <;> first | rfl | cases equal
      | _ => cases sign <;> cases equal
  | finite sign m e positive =>
      refine Or.inr ⟨?_, nofun⟩
      cases w with
      | finite other otherMantissa otherExponent _ =>
          have sameParts : sign = other ∧ m = otherMantissa ∧ e = otherExponent := by
            cases sign <;> cases other <;>
              simp [Float.Model.UnpackedFloat.compare, Ordering.then_eq_eq] at equal
            · exact ⟨rfl, equal.2, equal.1⟩
            · exact ⟨rfl, equal.2, equal.1⟩
          obtain ⟨rfl, rfl, rfl⟩ := sameParts
          rfl
      | notANumber => cases sign <;> cases equal
      | infinity other => cases sign <;> cases other <;> cases equal
      | zero other => cases sign <;> cases equal

/-- Equal numbers have the same fields, except for zeros. -/
private theorem fields_of_equal {a b : Float} (equal : (a == b) = true) :
    fields a = fields b ∨ (fields a).2 = (0, 0) ∧ (fields b).2 = (0, 0) := by
  have ordering : a.toModel.unpack.compare b.toModel.unpack = some .eq := by
    have compared : Float.Model.UnpackedFloat.beq a.toModel.unpack b.toModel.unpack = true := equal
    simpa [Float.Model.UnpackedFloat.beq] using compared
  rcases eq_of_compare ordering with ⟨sign, other, zeroA, zeroB⟩ | ⟨same, isNumber⟩
  · have left := fieldsOf?_unpack (n := a) (by rw [zeroA]; exact nofun)
    have right := fieldsOf?_unpack (n := b) (by rw [zeroB]; exact nofun)
    rw [zeroA] at left
    rw [zeroB] at right
    exact Or.inr ⟨congrArg Prod.snd (Option.some.inj left).symm,
      congrArg Prod.snd (Option.some.inj right).symm⟩
  · have left := fieldsOf?_unpack isNumber
    have right := fieldsOf?_unpack (same ▸ isNumber)
    rw [same, right] at left
    exact Or.inl (Option.some.inj left).symm

private theorem text_of_zero {n : Float} (zero : (fields n).2 = (0, 0)) : text n = "0" := by
  rcases split : fields n with ⟨negative, biased, fraction⟩
  rw [split] at zero
  cases zero
  have parts : parts? n = some ⟨negative, 0, -1074, false⟩ := by
    rw [parts?, split]
    rfl
  rw [text, parts]
  rfl

/-- Equal numbers have one text. -/
theorem text_of_equal {a b : Float} (equal : (a == b) = true) : text a = text b := by
  rcases fields_of_equal equal with same | ⟨zeroA, zeroB⟩
  · simp only [text, parts?, wordOf, same]
  · rw [text_of_zero zeroA, text_of_zero zeroB]

end SchemaCodec.Number
