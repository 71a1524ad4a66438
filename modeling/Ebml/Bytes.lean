/-!
# Byte strings

Everything this library reads or writes is a list of bytes. Numbers stand in it most significant
byte first; `beNat` reads such a number and `beBytes` writes one in a given number of bytes. A power of
natural numbers is `Nat.pow` here and in every module above, whatever other powers it knows.
-/

namespace Ebml

attribute [scoped instance (2000)] instPowNat instNatPowNat

/-- A byte string. -/
abbrev Bytes := List UInt8

/-- The number whose base-256 digits are `bytes`, most significant first. -/
def beNat (bytes : Bytes) : Nat :=
  bytes.foldl (fun n b => 256 * n + b.toNat) 0

/-- The lowest `width` base-256 digits of `n`, most significant first. -/
def beBytes : Nat → Nat → Bytes
  | 0, _ => []
  | width + 1, n => UInt8.ofNat (n / 256 ^ width) :: beBytes width n

/-- The number in two's complement that `bytes` hold, most significant first; zero if there are
none. -/
def beInt (bytes : Bytes) : Int :=
  if 2 * beNat bytes < 256 ^ bytes.length then beNat bytes
  else beNat bytes - (256 ^ bytes.length : Nat)

/-- The lowest `width` base-256 digits of `n` in two's complement, most significant first. -/
def beBytesInt (width : Nat) (n : Int) : Bytes :=
  beBytes width (n % (256 ^ width : Nat)).toNat

/-- Whether `width` bytes can hold `n` in two's complement. -/
def FitsSigned (width : Nat) (n : Int) : Prop :=
  -(256 ^ width : Nat) ≤ 2 * n ∧ 2 * n < (256 ^ width : Nat)

instance (width : Nat) (n : Int) : Decidable (FitsSigned width n) :=
  inferInstanceAs (Decidable (_ ∧ _))

/-- The number of base-256 digits of `n`, none for zero. -/
def byteLength (n : Nat) : Nat :=
  if n = 0 then 0 else Nat.log2 n / 8 + 1

/-- `bytes` without the zero bytes at its end. -/
def trimZeros (bytes : Bytes) : Bytes :=
  (bytes.reverse.dropWhile (· == 0)).reverse

/-! ## Widths -/

@[simp] theorem length_beBytes (width n : Nat) : (beBytes width n).length = width := by
  induction width with
  | zero => rfl
  | succ width ih => simp [beBytes, ih]

private theorem foldl_be (bytes : Bytes) (n : Nat) :
    bytes.foldl (fun n b => 256 * n + b.toNat) n = n * 256 ^ bytes.length + beNat bytes := by
  induction bytes generalizing n with
  | nil => simp [beNat]
  | cons b rest ih =>
    simp only [beNat, List.foldl_cons, List.length_cons]
    rw [ih, ih (256 * 0 + b.toNat), Nat.pow_succ]
    have : (256 * n + b.toNat) * 256 ^ rest.length =
        n * (256 ^ rest.length * 256) + b.toNat * 256 ^ rest.length := by
      rw [Nat.add_mul, Nat.mul_comm 256 n, Nat.mul_assoc, Nat.mul_comm 256]
    rw [this]
    simp [Nat.add_assoc]

@[simp] theorem beNat_nil : beNat [] = 0 := rfl

/-- The first byte counts `256 ^ length` of what follows it. -/
theorem beNat_cons (b : UInt8) (rest : Bytes) :
    beNat (b :: rest) = b.toNat * 256 ^ rest.length + beNat rest := by
  rw [beNat, List.foldl_cons, foldl_be]
  simp

/-- A byte string of length `k` reads as a number below `256 ^ k`. -/
theorem beNat_lt (bytes : Bytes) : beNat bytes < 256 ^ bytes.length := by
  induction bytes with
  | nil => simp
  | cons b rest ih =>
    rw [beNat_cons, List.length_cons, Nat.pow_succ]
    have hb := b.toNat_lt
    calc b.toNat * 256 ^ rest.length + beNat rest
        < b.toNat * 256 ^ rest.length + 256 ^ rest.length := by omega
      _ = (b.toNat + 1) * 256 ^ rest.length := (Nat.succ_mul _ _).symm
      _ ≤ 256 * 256 ^ rest.length := Nat.mul_le_mul_right _ (by omega)
      _ = 256 ^ rest.length * 256 := Nat.mul_comm _ _

/-- Writing a number in enough bytes and reading it gives it back. -/
theorem beNat_beBytes (width n : Nat) : beNat (beBytes width n) = n % 256 ^ width := by
  induction width with
  | zero => simp [beBytes, Nat.mod_one]
  | succ width ih =>
    have hmod : n % 256 ^ (width + 1) = n % 256 ^ width + 256 ^ width * (n / 256 ^ width % 256) := by
      rw [Nat.pow_succ, Nat.mod_mul]
    rw [beBytes, beNat_cons, length_beBytes, ih, UInt8.toNat_ofNat', hmod, Nat.mul_comm,
      Nat.add_comm]

/-- Reading bytes and writing the number in as many bytes gives them back. -/
theorem beBytes_beNat (bytes : Bytes) : beBytes bytes.length (beNat bytes) = bytes := by
  -- What stands in front of the bytes must be free for the induction.
  have key : ∀ (bytes : Bytes) (m : Nat),
      beBytes bytes.length (m * 256 ^ bytes.length + beNat bytes) = bytes := by
    intro bytes
    induction bytes with
    | nil => intro m; rfl
    | cons b rest ih =>
      intro m
      have hlt := beNat_lt rest
      have hpos : 0 < 256 ^ rest.length := Nat.pow_pos (by omega)
      rw [List.length_cons, beBytes, beNat_cons]
      have hsplit : m * 256 ^ (rest.length + 1) + (b.toNat * 256 ^ rest.length + beNat rest) =
          (m * 256 + b.toNat) * 256 ^ rest.length + beNat rest := by
        rw [Nat.pow_succ, Nat.add_mul, Nat.mul_assoc, Nat.mul_comm 256, Nat.add_assoc]
      rw [hsplit]
      have hdiv : ((m * 256 + b.toNat) * 256 ^ rest.length + beNat rest) / 256 ^ rest.length =
          m * 256 + b.toNat := by
        rw [Nat.mul_comm, Nat.mul_add_div hpos, Nat.div_eq_of_lt hlt, Nat.add_zero]
      rw [hdiv, ih]
      congr 1
      apply UInt8.toNat_inj.mp
      rw [UInt8.toNat_ofNat']
      have hb := b.toNat_lt
      omega
  simpa using key bytes 0

/-! ## Hexadecimal text

Ids are shown as `0x` and upper-case digits without leading zeros, byte contents as two lower-case
digits a byte. -/

/-- The digits of `n` in base 16, upper case and without leading zeros. -/
def hexDigits (n : Nat) : String :=
  String.ofList ((Nat.toDigits 16 n).map Char.toUpper)

/-- `0x` and the digits of `n`. -/
def hexId (n : Nat) : String :=
  "0x" ++ hexDigits n

/-- `0x` and the digits of `n`, filled with zeros up to 16 of them. -/
def hexWord (n : Nat) : String :=
  let digits := hexDigits n
  "0x" ++ String.ofList (List.replicate (16 - digits.length) '0') ++ digits

/-- One byte as two lower-case digits. -/
def hexByte (b : UInt8) : List Char :=
  [Nat.digitChar (b.toNat / 16), Nat.digitChar (b.toNat % 16)]

/-- Two lower-case digits a byte, nothing between them. -/
def hexBytes (bytes : Bytes) : String :=
  String.ofList (bytes.flatMap hexByte)

end Ebml
