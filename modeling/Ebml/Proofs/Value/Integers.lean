import Mathlib
import Ebml.Proofs.Bytes.Signed
import Ebml.Value

/-!
# Integers as values

Up to 8 bytes are read as the number that is written with them, in two's complement where the element
is declared so, and more bytes are refused. Bytes in front that only repeat the sign, or that are zero
where there is no sign, do not change the value. What is refused of unsigned numbers, and only by a
strict reader, is exactly what would need the sign bit of 8 bytes (`decode_integers`).
-/

namespace Ebml.Value

variable {decl : ElementDecl} {content : Bytes} {policy : SignBitPolicy}

/-! ## Signed numbers -/

section

variable (htype : decl.type = .integer) (hlength : content.length ≤ 8)

include htype hlength

theorem decode_integer : decode decl content policy = .ok (.integer (beInt content)) := by
  have hnarrow : ¬maxIntegerWidth < content.length := Nat.not_lt.mpr hlength
  simp only [decode, htype, readInteger, if_neg hnarrow]
  rfl

end

/-- Every number of 8 bytes is the value of some bytes. -/
theorem exists_decode_integer (htype : decl.type = .integer) {n : Int} (hlo : -2 ^ 63 ≤ n)
    (hhi : n ≤ 2 ^ 63 - 1) :
    ∃ content : Bytes, content.length = 8 ∧
      ∀ policy, decode decl content policy = .ok (.integer n) := by
  have hfits : FitsSigned 8 n := fitsSigned_eight.mpr ⟨hlo, hhi⟩
  have hlength : (beBytesInt 8 n).length = 8 := length_beBytesInt 8 n
  refine ⟨beBytesInt 8 n, hlength, fun policy => ?_⟩
  rw [decode_integer htype (Nat.le_of_eq hlength), beInt_beBytesInt hfits]

/-! ## Unsigned numbers -/

/-- What does not fit 8 bytes with a sign is what reaches the sign bit. -/
theorem not_fitsSigned_iff (n : Nat) : ¬FitsSigned maxIntegerWidth n ↔ 2 ^ 63 ≤ n := by
  rw [maxIntegerWidth, fitsSigned_eight]
  omega

section

variable (htype : decl.type = .unsigned) (hlength : content.length ≤ 8)

include htype hlength

theorem decode_unsigned (policy : SignBitPolicy) :
    decode decl content policy =
      if 2 ^ 63 ≤ beNat content ∧ policy = .strict then
        .error (.unsignedOverflow decl.name (beNat content))
      else .ok (.unsigned (beNat content)) := by
  have hnarrow : ¬maxIntegerWidth < content.length := Nat.not_lt.mpr hlength
  simp only [decode, htype, readUnsigned, if_neg hnarrow, not_fitsSigned_iff]
  split <;> rfl

theorem decode_unsigned_lenient :
    decode decl content .lenient = .ok (.unsigned (beNat content)) := by
  rw [decode_unsigned htype hlength, if_neg (by simp)]

/-- A strict reader refuses what reaches the sign bit. -/
theorem decode_strict_error_iff {e : ValueError} :
    decode decl content .strict = .error e ↔
      e = .unsignedOverflow decl.name (beNat content) ∧ 2 ^ 63 ≤ beNat content := by
  rw [decode_unsigned htype hlength]
  by_cases hsign : 2 ^ 63 ≤ beNat content
  · rw [if_pos ⟨hsign, rfl⟩, Except.error.injEq, eq_comm, and_iff_left hsign]
  · rw [if_neg (not_and_of_not_left _ hsign)]
    exact ⟨by simp, fun h => absurd h.2 hsign⟩

theorem decode_strict_of_lt (hlt : beNat content < 2 ^ 63) :
    decode decl content .strict = decode decl content .lenient := by
  rw [decode_unsigned htype hlength, decode_unsigned htype hlength, if_neg (by omega),
    if_neg (by simp)]

end

/-- Whatever the reader's policy, only the bytes' value and their number count. -/
theorem decode_unsigned_congr {other : Bytes} (htype : decl.type = .unsigned)
    (hlength : content.length ≤ 8) (hother : other.length ≤ 8) (hsame : beNat other = beNat content)
    (policy : SignBitPolicy) : decode decl other policy = decode decl content policy := by
  rw [decode_unsigned htype hother, decode_unsigned htype hlength, hsame]

/-! ## Numbers of both kinds -/

theorem decode_tooWide (htype : decl.type = .integer ∨ decl.type = .unsigned ∨ decl.type = .date)
    (hlength : 8 < content.length) :
    decode decl content policy = .error (.integerTooWide decl.name content.length) := by
  have hwide : maxIntegerWidth < content.length := hlength
  rcases htype with htype | htype | htype
  · simp only [decode, htype, readInteger, if_pos hwide]
    rfl
  · simp only [decode, htype, readUnsigned, if_pos hwide]
    rfl
  · simp only [decode, htype, readInteger, if_pos hwide]
    rfl

/-- A number is had as a natural one exactly if it is one. -/
theorem toNat?_integer_iff {n : Int} {m : Nat} : (integer n).toNat? = some m ↔ (m : Int) = n := by
  rw [toNat?]
  split
  · rw [Option.some.injEq]
    omega
  · simp only [reduceCtorEq, false_iff]
    omega

/-- Contents of more than 8 bytes are too wide for every integer. Up to 8 bytes a signed integer is the
number that they are in two's complement, zero if there are none; bytes in front that repeat its sign
do not change it, every number of 8 bytes is reached, and it is had as a natural number exactly if it
is not negative. An unsigned integer is the number that they are without a sign, zero bytes in front do
not change it, and it is had as a natural number; a strict reader refuses it, with an error that tells
the number, exactly from `2 ^ 63` on, and below that there is no difference between strict and
lenient. -/
theorem decode_integers (decl : ElementDecl) :
    (decl.type = .integer ∨ decl.type = .unsigned ∨ decl.type = .date →
      ∀ content policy, 8 < content.length →
        decode decl content policy = .error (.integerTooWide decl.name content.length)) ∧
    (decl.type = .integer →
      (∀ content policy, content.length ≤ 8 →
        decode decl content policy = .ok (.integer (beInt content)) ∧
        (∀ n, beInt content = n ↔
          FitsSigned content.length n ∧ beBytesInt content.length n = content) ∧
        (content = [] → beInt content = 0) ∧
        (∀ n : Nat, (integer (beInt content)).toNat? = some n ↔ (n : Int) = beInt content) ∧
        ∀ k, k + content.length ≤ 8 →
          decode decl (List.replicate k (signByte content) ++ content) policy =
            decode decl content policy) ∧
      ∀ n, -2 ^ 63 ≤ n → n ≤ 2 ^ 63 - 1 → ∃ content : Bytes, content.length = 8 ∧
        ∀ policy, decode decl content policy = .ok (.integer n)) ∧
    (decl.type = .unsigned → ∀ content : Bytes, content.length ≤ 8 →
      decode decl content .lenient = .ok (.unsigned (beNat content)) ∧
      (∀ n, beNat content = n ↔
        n < 256 ^ content.length ∧ beBytes content.length n = content) ∧
      (unsigned (beNat content)).toNat? = some (beNat content) ∧
      (∀ e, decode decl content .strict = .error e ↔
        e = .unsignedOverflow decl.name (beNat content) ∧ 2 ^ 63 ≤ beNat content) ∧
      (beNat content < 2 ^ 63 → decode decl content .strict = decode decl content .lenient) ∧
      ∀ policy k, k + content.length ≤ 8 →
        decode decl (List.replicate k 0 ++ content) policy = decode decl content policy) := by
  refine ⟨fun htype content policy hlength => decode_tooWide htype hlength,
    fun htype => ⟨fun content policy hlength => ⟨decode_integer htype hlength, fun n => beInt_eq_iff,
      ?_, fun n => toNat?_integer_iff, fun k hk => ?_⟩, fun n => exists_decode_integer htype⟩,
    fun htype content hlength => ⟨decode_unsigned_lenient htype hlength, fun n => beNat_eq_iff, rfl,
      fun e => decode_strict_error_iff htype hlength, decode_strict_of_lt htype hlength,
      fun policy k hk => ?_⟩⟩
  · rintro rfl
    rfl
  · have hextended : (List.replicate k (signByte content) ++ content).length ≤ 8 := by
      rwa [List.length_append, List.length_replicate]
    rw [decode_integer htype hextended, decode_integer htype hlength, beInt_extend]
  · have hextended : (List.replicate k 0 ++ content).length ≤ 8 := by
      rwa [List.length_append, List.length_replicate]
    exact decode_unsigned_congr htype hlength hextended (beNat_replicate_zero_append k content) policy

/-- A date of 9 bytes, no bytes at all, a negative number in two bytes and in 8, the least number of
all, and unsigned numbers that reach the sign bit of 8 bytes and of one. -/
theorem decode_integers_at_sign :
    let block : ElementDecl := ⟨0xFB, "ReferenceBlock", 3, .integer, false⟩
    let uid : ElementDecl := ⟨0x73C5, "TrackUID", 3, .unsigned, false⟩
    let date : ElementDecl := ⟨0x4461, "DateUTC", 2, .date, false⟩
    decode date (List.replicate 9 0) .lenient = .error (.integerTooWide "DateUTC" 9) ∧
      decode block [] .lenient = .ok (.integer 0) ∧
      decode block [0xFF, 0x38] .strict = .ok (.integer (-200)) ∧
      decode block (List.replicate 6 0xFF ++ [0xFF, 0x38]) .strict = .ok (.integer (-200)) ∧
      (∃ content : Bytes, content.length = 8 ∧
        ∀ policy, decode block content policy = .ok (.integer (-2 ^ 63))) ∧
      decode uid [0x80, 0, 0, 0, 0, 0, 0, 1] .strict =
        .error (.unsignedOverflow "TrackUID" (2 ^ 63 + 1)) ∧
      decode uid [0, 0x80] .strict = .ok (.unsigned 128) := by
  intro block uid date
  obtain ⟨hwide, -, -⟩ := decode_integers date
  obtain ⟨-, hsigned, -⟩ := decode_integers block
  obtain ⟨-, -, hunsigned⟩ := decode_integers uid
  obtain ⟨hread, hreached⟩ := hsigned rfl
  obtain ⟨hempty, -, hzero, -, -⟩ := hread [] .lenient (by decide)
  rw [hzero rfl] at hempty
  obtain ⟨hshort, hvalue, -, -, hextend⟩ := hread [0xFF, 0x38] .strict (by decide)
  rw [(hvalue (-200)).mpr (by decide)] at hshort
  obtain ⟨-, hlarge, -, hrefused, -, -⟩ := hunsigned rfl [0x80, 0, 0, 0, 0, 0, 0, 1] (by decide)
  rw [(hlarge (2 ^ 63 + 1)).mpr (by decide)] at hrefused
  obtain ⟨hkept, hsmall, -, -, hsame, -⟩ := hunsigned rfl [0, 0x80] (by decide)
  rw [(hsmall 128).mpr (by decide)] at hkept hsame
  exact ⟨hwide (by decide) _ _ (by decide), hempty, hshort, (hextend 6 (by decide)).trans hshort,
    hreached _ (by decide) (by decide), (hrefused _).mpr ⟨rfl, by decide⟩,
    (hsame (by decide)).trans hkept⟩

end Ebml.Value
