import Script.Proofs.NearestEven
import Script.Proofs.NumberShapes
import Script.Proofs.Results
import Script.Proofs.Shape

/-!
# Whole numbers as values

A whole number up to `2 ^ 53` is a double, and as a value it is the text of its decimal digits. On
these texts reading, stepping up and comparing are what they are on the numbers themselves, as long
as no number is larger than that.
-/
namespace Script

namespace Double

theorem exists_ofNat {n : Nat} (hn : n ≤ 2 ^ 53) :
    ∃ m : Magnitude, ofNat n = .finite false m ∧ m.units = n * Magnitude.one := by
  obtain ⟨m, hm, hunits⟩ := Magnitude.exists_round_whole hn
  exact ⟨m, rounded_of_round _ hm, hunits⟩

theorem ofNat_lt {a b : Nat} (ha : a ≤ 2 ^ 53) (hb : b ≤ 2 ^ 53) :
    (ofNat a).lt (ofNat b) = decide (a < b) := by
  obtain ⟨m, hm, hunits⟩ := exists_ofNat ha
  obtain ⟨m', hm', hunits'⟩ := exists_ofNat hb
  rw [hm, hm', Bool.eq_iff_iff, Numeral.unsigned_lt, hunits, hunits', decide_eq_true_iff]
  exact Nat.mul_lt_mul_right Magnitude.one_pos

theorem ofNat_add {a b : Nat} (h : a + b ≤ 2 ^ 53) :
    (ofNat a).add (ofNat b) = ofNat (a + b) := by
  obtain ⟨m, hm, hunits⟩ := exists_ofNat (Nat.le_trans (Nat.le_add_right a b) h)
  obtain ⟨m', hm', hunits'⟩ := exists_ofNat (Nat.le_trans (Nat.le_add_left b a) h)
  have hsum : signedUnits false m + signedUnits false m' = ((a + b) * Magnitude.one : Nat) := by
    simp [signedUnits, hunits, hunits', Nat.add_mul]
  rw [hm, hm', add, hsum, Int.natAbs_natCast, ofNat]
  generalize (a + b) * Magnitude.one = sum
  have hsign : ¬ (sum : Int) < 0 := by omega
  simp [hsign]

end Double

namespace Numeral

theorem format_ofNat {n : Nat} (hn : n ≤ 2 ^ 53) : format (.ofNat n) = toString n := by
  obtain ⟨m, hm, hunits⟩ := Double.exists_ofNat hn
  have hwhole : m.units % Magnitude.one = 0 ∧ m.units < leastExponential := by
    rw [hunits, leastExponential]
    exact ⟨Nat.mul_mod_left n _, Nat.mul_lt_mul_of_pos_right
      (Nat.lt_of_le_of_lt hn (by decide)) Magnitude.one_pos⟩
  rw [hm, format_whole false hwhole, Double.truncate, hunits,
    Nat.mul_div_cancel n Magnitude.one_pos]
  rfl

theorem literal?_toString {n : Nat} (hn : n ≤ 2 ^ 53) :
    literal? (toString n) = some (.ofNat n) := by
  obtain ⟨m, hm, -⟩ := Double.exists_ofNat hn
  rw [← format_ofNat hn, literal?_format_eq, hm, Double.unsigned_finite]
  simp

/-- The decimal digits of a number are a numeral. -/
theorem isNumeral_toString (n : Nat) : Token.IsNumeral (toString n).toList := by
  have hdigits : (toString n).toList = Text.digits n := by
    rw [← String.toList_ofList (l := Text.digits n), ofList_digits]
    rfl
  rw [hdigits]
  exact .whole Nat.toDigits_ne_nil fun _ => isDigit_of_mem_digits

end Numeral

namespace Value

/-- The value of a whole number is its decimal text. -/
theorem ofNat_eq {n : Nat} (hn : n ≤ 2 ^ 53) : ofNat n = .number (toString n) :=
  congrArg number (Numeral.format_ofNat hn)

theorem readNumber_toString {n : Nat} (hn : n ≤ 2 ^ 53) :
    readNumber (toString n) = .ok (.ofNat n) := by
  rw [readNumber, Numeral.literal?_toString hn]

end Value

namespace Operator

theorem step?_up {n : Nat} (hn : n + 1 ≤ 2 ^ 53) :
    step? "++" (.number (toString n)) = .ok (some (.number (toString (n + 1)))) := by
  have hread := Value.readNumber_toString (n := n) (by omega)
  simp only [step?, hread, if_true, ok_bind, Double.ofNat_add hn, ← Value.ofNat_eq hn]
  rfl

theorem apply_lt (identity : Identity) {a b : Nat} (ha : a ≤ 2 ^ 53) (hb : b ≤ 2 ^ 53) :
    apply identity "<" (.number (toString a)) (.number (toString b)) =
      .ok (.boolean (decide (a < b))) := by
  have hcompare : apply identity "<" (.number (toString a)) (.number (toString b)) =
      compare Double.lt (.number (toString a)) (.number (toString b)) := rfl
  simp only [hcompare, compare, Value.toDouble, Value.readNumber_toString ha,
    Value.readNumber_toString hb]
  exact congrArg (fun b => Except.ok (Value.boolean b)) (Double.ofNat_lt ha hb)

end Operator
end Script
