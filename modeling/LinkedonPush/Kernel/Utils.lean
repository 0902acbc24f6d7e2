import Mathlib.Data.Nat.Digits.Defs
import LinkedonPush.Kernel.Base

/-!
# Numbers as text

`IntToString`, `LongToString` and `StringToLong` of `lpushUtils.h`, and `empty` of `lpushMath.cpp`.
-/

namespace LinkedonPush

def minInt64 : Int := -(2 ^ 63)
def maxInt64 : Int := 2 ^ 63 - 1

def digitChar (d : Nat) : UInt8 := UInt8.ofNat (48 + d)

/-- The decimal text of a natural number. -/
def decimalNat (n : Nat) : Bytes := if n = 0 then [48] else (Nat.digits 10 n).reverse.map digitChar

/-- `IntToString` and `LongToString`. -/
def decimal (value : Int) : Bytes :=
  if value < 0 then 45 :: decimalNat value.natAbs else decimalNat value.natAbs

/-- `isspace` in the C locale. -/
def isSpace (c : UInt8) : Bool := c == 32 || (9 ≤ c && c ≤ 13)

def isDigit (c : UInt8) : Bool := 48 ≤ c && c ≤ 57

def digitsValue (digits : Bytes) : Nat := digits.foldl (fun value c => 10 * value + (c.toNat - 48)) 0

/-- The sign of a number, and what follows it. -/
def signOf : Bytes → Int × Bytes
  | 45 :: rest => (-1, rest)
  | 43 :: rest => (1, rest)
  | rest => (1, rest)

/-- `StringToLong`; `none` where the assertion fails or `stoll` raises. -/
def stringToLong (str : Bytes) : Option Int :=
  let (sign, rest) := signOf (str.dropWhile isSpace)
  let digits := rest.takeWhile isDigit
  let value := sign * digitsValue digits
  if digits = [] then none
  else if value < minInt64 ∨ maxInt64 < value then none
  else some value

/-- `empty(int)`, the overload that a 64-bit argument is converted for. -/
def emptyInt (value : Int) : Bool := (BitVec.ofInt 32 value).toInt ≤ 0

/-! ### Printing and reading back -/

theorem digitChar_toNat {d : Nat} (h : d < 10) : (digitChar d).toNat = 48 + d := by
  rw [digitChar, UInt8.toNat_ofNat']
  omega

theorem isDigit_digitChar {d : Nat} (h : d < 10) : isDigit (digitChar d) = true := by
  have hvalue := digitChar_toNat h
  simp only [isDigit, Bool.and_eq_true, decide_eq_true_eq, UInt8.le_iff_toNat_le, hvalue]
  refine ⟨Nat.le_add_right 48 d, ?_⟩
  change 48 + d ≤ 57
  omega

theorem digitsValue_append_digitChar (digits : Bytes) {d : Nat} (h : d < 10) :
    digitsValue (digits ++ [digitChar d]) = 10 * digitsValue digits + d := by
  simp only [digitsValue, List.foldl_append, List.foldl_cons, List.foldl_nil, digitChar_toNat h]
  omega

theorem digitsValue_digits {digits : List Nat} (h : ∀ d ∈ digits, d < 10) :
    digitsValue (digits.reverse.map digitChar) = Nat.ofDigits 10 digits := by
  induction digits with
  | nil => rfl
  | cons d digits ih =>
      rw [List.reverse_cons, List.map_append, List.map_singleton,
        digitsValue_append_digitChar _ (h d List.mem_cons_self),
        ih fun d hd => h d (List.mem_cons_of_mem _ hd), Nat.ofDigits_cons]
      exact Nat.add_comm _ _

theorem isDigit_of_mem_decimalNat {n : Nat} {c : UInt8} (h : c ∈ decimalNat n) : isDigit c = true := by
  unfold decimalNat at h
  split at h
  · rw [List.mem_singleton.mp h]
    decide
  · obtain ⟨d, hd, rfl⟩ := List.mem_map.mp h
    exact isDigit_digitChar (Nat.digits_lt_base (by omega) (List.mem_reverse.mp hd))

theorem decimalNat_ne_nil (n : Nat) : decimalNat n ≠ [] := by
  unfold decimalNat
  split
  · exact List.cons_ne_nil _ _
  · rename_i hn
    intro hnil
    exact hn (Nat.digits_eq_nil_iff_eq_zero.mp (List.reverse_eq_nil_iff.mp (List.map_eq_nil_iff.mp hnil)))

theorem digitsValue_decimalNat (n : Nat) : digitsValue (decimalNat n) = n := by
  unfold decimalNat
  split
  · rename_i hn
    rw [hn]
    rfl
  · rw [digitsValue_digits fun d hd => Nat.digits_lt_base (by omega) hd, Nat.ofDigits_digits]

theorem takeWhile_isDigit_decimalNat (n : Nat) : (decimalNat n).takeWhile isDigit = decimalNat n :=
  List.takeWhile_eq_self_iff.mpr fun _ h => isDigit_of_mem_decimalNat h

theorem isSpace_of_isDigit {c : UInt8} (h : isDigit c = true) : isSpace c = false := by
  have hlow : 48 ≤ c := by
    simp only [isDigit, Bool.and_eq_true, decide_eq_true_eq] at h
    exact h.1
  have h13 : ¬ c ≤ 13 := fun hc => absurd (UInt8.le_trans hlow hc) (by decide)
  have h32 : c ≠ 32 := by
    rintro rfl
    exact absurd hlow (by decide)
  simp [isSpace, h13, h32]

/-- The first character of a decimal text is neither blank nor a sign. -/
theorem signOf_dropWhile_decimalNat (n : Nat) :
    signOf ((decimalNat n).dropWhile isSpace) = (1, decimalNat n) := by
  cases htext : decimalNat n with
  | nil => exact (decimalNat_ne_nil n htext).elim
  | cons c rest =>
      have hdigit : isDigit c = true := isDigit_of_mem_decimalNat (by rw [htext]; exact List.mem_cons_self)
      have hspace : isSpace c = false := isSpace_of_isDigit hdigit
      rw [List.dropWhile_cons_of_neg (by simp [hspace])]
      unfold signOf
      split
      · rename_i heq
        rw [(List.cons.inj heq).1] at hdigit
        exact absurd hdigit (by decide)
      · rename_i heq
        rw [(List.cons.inj heq).1] at hdigit
        exact absurd hdigit (by decide)
      · rfl

/-- **`StringToLong` reads back what `LongToString` printed.** -/
theorem stringToLong_decimal {value : Int} (hlow : minInt64 ≤ value) (hhigh : value ≤ maxInt64) :
    stringToLong (decimal value) = some value := by
  have hrange : ¬ (value < minInt64 ∨ maxInt64 < value) := by omega
  by_cases hneg : value < 0
  · have hvalue : (-1 : Int) * (value.natAbs : Int) = value := by omega
    have hsign : signOf ((45 :: decimalNat value.natAbs).dropWhile isSpace) =
        (-1, decimalNat value.natAbs) := rfl
    simp only [stringToLong, decimal, if_pos hneg, hsign, takeWhile_isDigit_decimalNat,
      digitsValue_decimalNat, if_neg (decimalNat_ne_nil _), hvalue, if_neg hrange]
  · have hvalue : (1 : Int) * (value.natAbs : Int) = value := by omega
    simp only [stringToLong, decimal, if_neg hneg, signOf_dropWhile_decimalNat,
      takeWhile_isDigit_decimalNat, digitsValue_decimalNat, if_neg (decimalNat_ne_nil _), hvalue,
      if_neg hrange]

end LinkedonPush
