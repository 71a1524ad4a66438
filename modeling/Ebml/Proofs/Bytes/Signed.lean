import Mathlib
import Ebml.Bytes

/-!
# Two's complement

Bytes stand for the signed number that is written with them, and a number that they can hold is read
from what is written for it (`beBytesInt_beInt`, `beInt_beBytesInt`). More bytes in front that repeat
the sign do not change it (`beInt_extend`).
-/

namespace Ebml

variable {width : Nat} {n : Int}

/-- What bytes stand for can be held by as many. -/
theorem fitsSigned_beInt (bytes : Bytes) : FitsSigned bytes.length (beInt bytes) := by
  have hlt := beNat_lt bytes
  unfold FitsSigned beInt
  split <;> omega

/-- As an unsigned number of their width, signed bytes are what they are without a sign. -/
theorem beInt_emod (bytes : Bytes) : beInt bytes % (256 ^ bytes.length : Nat) = beNat bytes := by
  have hlt := beNat_lt bytes
  have hmod : ((beNat bytes : Int)) % (256 ^ bytes.length : Nat) = beNat bytes :=
    Int.emod_eq_of_lt (by omega) (by omega)
  unfold beInt
  split
  · exact hmod
  · rw [Int.sub_emod_right, hmod]

/-- Bytes are how the number that they stand for is written. -/
theorem beBytesInt_beInt (bytes : Bytes) : beBytesInt bytes.length (beInt bytes) = bytes := by
  rw [beBytesInt, beInt_emod, Int.toNat_natCast, beBytes_beNat]

@[simp] theorem length_beBytesInt (width : Nat) (n : Int) : (beBytesInt width n).length = width :=
  length_beBytes _ _

/-- A number is read from what was written for it, if it could be held. -/
theorem beInt_beBytesInt (h : FitsSigned width n) : beInt (beBytesInt width n) = n := by
  obtain ⟨hlo, hhi⟩ := h
  generalize hpow : 256 ^ width = size at hlo hhi
  have hunsigned : beNat (beBytesInt width n) = (n % (size : Nat)).toNat := by
    have hlt : (n % (size : Nat)).toNat < size := by
      have := Int.emod_lt_of_pos n (show (0 : Int) < size by omega)
      omega
    rw [beBytesInt, hpow, beNat_beBytes, hpow, Nat.mod_eq_of_lt hlt]
  rw [beInt, length_beBytesInt, hpow, hunsigned]
  by_cases hsign : 0 ≤ n
  · rw [Int.emod_eq_of_lt hsign (by omega)]
    split <;> omega
  · have hmod : n % (size : Nat) = n + size := by
      rw [← Int.add_emod_right, Int.emod_eq_of_lt (by omega) (by omega)]
    rw [hmod]
    split <;> omega

/-- Bytes stand for one number: the one that fits and is written with them. -/
theorem beInt_eq_iff {bytes : Bytes} :
    beInt bytes = n ↔ FitsSigned bytes.length n ∧ beBytesInt bytes.length n = bytes := by
  constructor
  · rintro rfl
    exact ⟨fitsSigned_beInt bytes, beBytesInt_beInt bytes⟩
  · rintro ⟨hfits, hbytes⟩
    have hread := beInt_beBytesInt hfits
    rwa [hbytes] at hread

/-- Without a sign the same goes for the number that is small enough. -/
theorem beNat_eq_iff {bytes : Bytes} {m : Nat} :
    beNat bytes = m ↔ m < 256 ^ bytes.length ∧ beBytes bytes.length m = bytes := by
  constructor
  · rintro rfl
    exact ⟨beNat_lt bytes, beBytes_beNat bytes⟩
  · rintro ⟨hlt, hbytes⟩
    have hread := beNat_beBytes bytes.length m
    rwa [hbytes, Nat.mod_eq_of_lt hlt] at hread

/-- The signed numbers of 8 bytes. -/
theorem fitsSigned_eight : FitsSigned 8 n ↔ -2 ^ 63 ≤ n ∧ n ≤ 2 ^ 63 - 1 := by
  rw [FitsSigned, show (256 ^ 8 : Nat) = 2 ^ 64 by rfl]
  omega

/-! ## More bytes in front -/

theorem beNat_replicate_zero_append (k : Nat) (bytes : Bytes) :
    beNat (List.replicate k 0 ++ bytes) = beNat bytes := by
  induction k with
  | zero => rfl
  | succ k ih =>
    rw [List.replicate_succ, List.cons_append, beNat_cons, ih]
    simp

/-- The byte whose bits all are the sign: the highest bit of the first byte, zero if there is none. -/
def signByte (bytes : Bytes) : UInt8 :=
  match bytes with
  | [] => 0
  | first :: _ => if first.toNat < 128 then 0 else 255

/-- A number is negative exactly if the highest bit of its first byte is set. -/
theorem two_mul_beNat_cons_lt_iff (first : UInt8) (rest : Bytes) :
    2 * beNat (first :: rest) < 256 ^ (rest.length + 1) ↔ first.toNat < 128 := by
  have hrest := beNat_lt rest
  rw [beNat_cons, Nat.pow_succ]
  generalize 256 ^ rest.length = size at hrest ⊢
  constructor
  · intro h
    refine Nat.lt_of_not_le fun hsign => ?_
    have := Nat.mul_le_mul_right size hsign
    omega
  · intro h
    have := Nat.mul_le_mul_right size (Nat.le_of_lt_succ h)
    omega

/-- So the first byte tells the sign. -/
theorem beInt_cons (first : UInt8) (rest : Bytes) :
    beInt (first :: rest) =
      if first.toNat < 128 then (beNat (first :: rest) : Int)
      else beNat (first :: rest) - (256 ^ (rest.length + 1) : Nat) := by
  have hsign := two_mul_beNat_cons_lt_iff first rest
  unfold beInt
  by_cases hfirst : first.toNat < 128
  · rw [if_pos hfirst]
    exact if_pos (hsign.mpr hfirst)
  · rw [if_neg hfirst]
    exact if_neg (mt hsign.mp hfirst)

theorem signByte_signByte_cons (bytes : Bytes) :
    signByte (signByte bytes :: bytes) = signByte bytes := by
  cases bytes with
  | nil => rfl
  | cons first rest =>
    by_cases hfirst : first.toNat < 128 <;> simp [signByte, hfirst]

theorem beInt_signByte_cons (bytes : Bytes) : beInt (signByte bytes :: bytes) = beInt bytes := by
  cases bytes with
  | nil => rfl
  | cons first rest =>
    rw [beInt_cons, beInt_cons, beNat_cons (signByte (first :: rest)), List.length_cons,
      Nat.pow_succ 256 (rest.length + 1)]
    by_cases hfirst : first.toNat < 128
    · simp [signByte, hfirst]
    · -- What the byte in front counts is what the greater width takes off.
      have hbyte : (signByte (first :: rest)).toNat = 255 := by simp [signByte, hfirst]
      rw [hbyte, if_neg (by omega), if_neg hfirst]
      omega

theorem signByte_extend (k : Nat) (bytes : Bytes) :
    signByte (List.replicate k (signByte bytes) ++ bytes) = signByte bytes := by
  cases k with
  | zero => rfl
  | succ k =>
    rw [List.replicate_succ, List.cons_append]
    exact signByte_signByte_cons bytes

/-- Bytes that repeat the sign in front do not change the number. -/
theorem beInt_extend (k : Nat) (bytes : Bytes) :
    beInt (List.replicate k (signByte bytes) ++ bytes) = beInt bytes := by
  induction k with
  | zero => rfl
  | succ k ih =>
    have hfront := beInt_signByte_cons (List.replicate k (signByte bytes) ++ bytes)
    rwa [signByte_extend, ih] at hfront

end Ebml
