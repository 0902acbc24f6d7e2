import Mathlib.Data.List.Infix
import Mathlib.Data.List.TakeWhile
import Mathlib.Tactic.IntervalCases

/-!
# Strings, integers and error codes

A `std::string` is the list of its bytes, a C `int` is a bit vector of width 32, and the codes of
`lpushSystemErrorDef.h` that some modelled function returns keep their values.
-/

namespace LinkedonPush

abbrev Bytes := List UInt8

/-- The bytes of a string literal of the source. -/
def text (literal : String) : Bytes := literal.toList.map fun c => UInt8.ofNat c.toNat

/-- What a function that takes a `const char*` sees of a string: the bytes before the first NUL. -/
def cStr (s : Bytes) : Bytes := s.takeWhile (· ≠ 0)

theorem cStr_eq_self {s : Bytes} (h : (0 : UInt8) ∉ s) : cStr s = s := by
  rw [cStr, List.takeWhile_eq_self_iff]
  intro b hb
  rw [decide_eq_true_iff]
  intro hzero
  exact h (hzero ▸ hb)

theorem zero_notMem_cStr (s : Bytes) : (0 : UInt8) ∉ cStr s := by
  intro h
  have hkept := List.mem_takeWhile_imp h
  exact absurd hkept (by decide)

theorem cStr_cStr (s : Bytes) : cStr (cStr s) = cStr s := cStr_eq_self (zero_notMem_cStr s)

theorem cStr_eq_self_iff {s : Bytes} : cStr s = s ↔ (0 : UInt8) ∉ s := by
  constructor
  · intro h
    rw [← h]
    exact zero_notMem_cStr s
  · exact cStr_eq_self

theorem cStr_isPrefix (s : Bytes) : cStr s <+: s := List.takeWhile_prefix _

/-- A NUL among the bytes hides everything after it. -/
theorem cStr_append_of_mem {s : Bytes} (h : (0 : UInt8) ∈ s) (t : Bytes) : cStr (s ++ t) = cStr s := by
  induction s with
  | nil => simp at h
  | cons b s ih =>
      by_cases hb : b = 0
      · simp [cStr, hb]
      · have hs : (0 : UInt8) ∈ s := by
          rcases List.mem_cons.mp h with heq | hmem
          · exact (hb heq.symm).elim
          · exact hmem
        simpa [cStr, hb] using ih hs

theorem cStr_append_of_notMem {s : Bytes} (h : (0 : UInt8) ∉ s) (t : Bytes) : cStr (s ++ t) = s ++ cStr t := by
  apply List.takeWhile_append_of_pos
  intro b hb
  rw [decide_eq_true_iff]
  rintro rfl
  exact h hb

theorem cStr_append_nul (s : Bytes) : cStr (s ++ [0]) = cStr s := by
  by_cases h : (0 : UInt8) ∈ s
  · exact cStr_append_of_mem h _
  · rw [cStr_append_of_notMem h, cStr_eq_self h]
    exact List.append_nil s

/-- Whether `strstr` (or `std::string::find` with a `const char*`) finds the needle. -/
def occursIn (needle hay : Bytes) : Bool := decide (cStr needle <:+: hay)

/-- A needle without a NUL is found exactly if it lies at some offset with no NUL before it. -/
theorem isInfix_cStr_iff {needle hay : Bytes} (hneedle : (0 : UInt8) ∉ needle) :
    needle <:+: cStr hay ↔
      ∃ offset, (hay.drop offset).take needle.length = needle ∧ (0 : UInt8) ∉ hay.take offset := by
  constructor
  · rintro ⟨before, after, hparts⟩
    have hbefore : (0 : UInt8) ∉ before := by
      intro hzero
      apply zero_notMem_cStr hay
      rw [← hparts, List.append_assoc]
      exact List.mem_append_left _ hzero
    have hhay : hay = before ++ (needle ++ (after ++ hay.dropWhile (· ≠ 0))) := by
      calc
        hay = cStr hay ++ hay.dropWhile (· ≠ 0) := List.takeWhile_append_dropWhile.symm
        _ = _ := by rw [← hparts]; simp only [List.append_assoc]
    refine ⟨before.length, ?_, ?_⟩
    · rw [hhay, List.drop_left, List.take_left]
    · rw [hhay, List.take_left]
      exact hbefore
  · rintro ⟨offset, hneedleAt, hbefore⟩
    have hrest : needle ++ (hay.drop offset).drop needle.length = hay.drop offset := by
      calc
        _ = (hay.drop offset).take needle.length ++ (hay.drop offset).drop needle.length := by rw [hneedleAt]
        _ = hay.drop offset := List.take_append_drop _ _
    have hhay : hay = hay.take offset ++ (needle ++ (hay.drop offset).drop needle.length) := by
      rw [hrest, List.take_append_drop]
    rw [hhay, cStr_append_of_notMem hbefore, cStr_append_of_notMem hneedle]
    exact ⟨_, _, List.append_assoc _ _ _⟩

/-- A text without a NUL that is found in one that is no longer is all of it. -/
theorem eq_of_occursIn {needle hay : Bytes} (hneedle : (0 : UInt8) ∉ needle)
    (hlength : hay.length ≤ needle.length) (h : occursIn needle hay = true) : needle = hay := by
  rw [occursIn, decide_eq_true_iff, cStr_eq_self hneedle] at h
  exact h.eq_of_length (Nat.le_antisymm h.length_le hlength)

def errorSuccess : Int := 0
def errorSystemHandshake : Int := 200
def errorFmt : Int := 201
def errorConnHreatbeatTimeout : Int := 202
def errorDataEmpty : Int := 203
def errorUserScreteNoExist : Int := 208
def errorUserScreteMismatch : Int := 209
def errorDataMax : Int := 210
def errorObjectNotExist : Int := 211
def errorNotActive : Int := 212
def errorUserIsExist : Int := 213
def errorSocketRead : Int := 1007
def errorSocketWrite : Int := 1009
def errorSocketTimeout : Int := 1011
def errorReaderBufferOverflow : Int := 1022
def errorSystemPidAcquire : Int := 1034
def errorSystemPidAlreadyRunning : Int := 1035
def errorSystemPidLock : Int := 1036
def errorSystemPidTruncateFile : Int := 1037
def errorSystemPidWriteFile : Int := 1038
def errorSystemPidGetFileInfo : Int := 1039
def errorSystemPidSetFileInfo : Int := 1040
def errorSystemFileRead : Int := 1044

/-! ### Big-endian integers -/

/-- `*buf++<<24 | *buf++<<16 | *buf++<<8 | *buf++`, operands evaluated from left to right. -/
def assembleInt (b0 b1 b2 b3 : UInt8) : BitVec 32 :=
  b0.toBitVec.setWidth 32 <<< 24 ||| b1.toBitVec.setWidth 32 <<< 16 |||
    b2.toBitVec.setWidth 32 <<< 8 ||| b3.toBitVec.setWidth 32

/-- The big-endian integer at an offset. -/
def intAt (s : Bytes) (offset : Nat) : BitVec 32 :=
  assembleInt (s.getD offset 0) (s.getD (offset + 1) 0) (s.getD (offset + 2) 0) (s.getD (offset + 3) 0)

/-- `(v>>shift)&0xFF`, stored into a byte. -/
def byteAt (v : BitVec 32) (shift : Nat) : UInt8 :=
  ⟨(v.sshiftRight shift &&& 0xFF#32).setWidth 8⟩

/-- The bytes of an `int`, the highest first. -/
def intBytes (v : BitVec 32) : Bytes := [byteAt v 24, byteAt v 16, byteAt v 8, byteAt v 0]

theorem assembleInt_byteAt (v : BitVec 32) :
    assembleInt (byteAt v 24) (byteAt v 16) (byteAt v 8) (byteAt v 0) = v := by
  apply BitVec.eq_of_getLsbD_eq
  intro i hi
  simp only [assembleInt, byteAt, BitVec.getLsbD_or, BitVec.getLsbD_shiftLeft, BitVec.getLsbD_setWidth,
    BitVec.getLsbD_and, BitVec.getLsbD_sshiftRight]
  interval_cases i <;> simp

theorem assembleInt_eq_append (b0 b1 b2 b3 : UInt8) :
    assembleInt b0 b1 b2 b3 = b0.toBitVec ++ b1.toBitVec ++ b2.toBitVec ++ b3.toBitVec := by
  apply BitVec.eq_of_getLsbD_eq
  intro i hi
  simp [assembleInt]
  grind

theorem toNat_assembleInt (b0 b1 b2 b3 : UInt8) :
    (assembleInt b0 b1 b2 b3).toNat =
      b0.toNat * 2 ^ 24 + b1.toNat * 2 ^ 16 + b2.toNat * 2 ^ 8 + b3.toNat := by
  have h1 := b1.toNat_lt
  have h2 := b2.toNat_lt
  have h3 := b3.toNat_lt
  rw [assembleInt_eq_append]
  simp only [BitVec.toNat_append, UInt8.toNat_toBitVec]
  rw [← Nat.shiftLeft_add_eq_or_of_lt (by omega), ← Nat.shiftLeft_add_eq_or_of_lt (by omega),
    ← Nat.shiftLeft_add_eq_or_of_lt (by omega)]
  simp only [Nat.shiftLeft_eq]
  omega

/-- A positive big-endian integer below `2^16` has two leading zero bytes. -/
theorem leading_zero_of_assembleInt {b0 b1 b2 b3 : UInt8}
    (hpos : 0 < (assembleInt b0 b1 b2 b3).toInt) (hlt : (assembleInt b0 b1 b2 b3).toInt < 2 ^ 16) :
    b0 = 0 := by
  have hnat := toNat_assembleInt b0 b1 b2 b3
  have hbound := (assembleInt b0 b1 b2 b3).isLt
  rw [BitVec.toInt_eq_toNat_cond] at hpos hlt
  have hsmall : (assembleInt b0 b1 b2 b3).toNat < 2 ^ 16 := by
    split at hpos <;> split at hlt <;> omega
  have hzero : b0.toNat = 0 := by omega
  exact UInt8.toNat_inj.mp hzero

theorem toInt_ofNat {n : Nat} (h : n < 2 ^ 31) : (BitVec.ofNat 32 n).toInt = n := by
  have hnat : (BitVec.ofNat 32 n).toNat = n := by
    rw [BitVec.toNat_ofNat]
    omega
  rw [BitVec.toInt_eq_toNat_of_lt (by omega), hnat]

/-- An `int` becomes the same `size_t`. -/
theorem toNat_signExtend {n : BitVec 32} (h : 0 ≤ n.toInt) : ((n.signExtend 64).toNat : Int) = n.toInt := by
  have hsame : (n.signExtend 64).toInt = n.toInt := BitVec.toInt_signExtend_of_le (by decide)
  rw [BitVec.toInt_eq_toNat_cond] at hsame
  split at hsame <;> omega

/-- A negative one becomes huge. -/
theorem le_toNat_signExtend {n : BitVec 32} (h : n.toInt < 0) : 2 ^ 63 ≤ (n.signExtend 64).toNat := by
  have hsame : (n.signExtend 64).toInt = n.toInt := BitVec.toInt_signExtend_of_le (by decide)
  rw [BitVec.toInt_eq_toNat_cond] at hsame
  split at hsame <;> omega

end LinkedonPush
