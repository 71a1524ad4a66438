import Ebml.Bytes
import Ebml.IoError

/-!
# Byte sources

A source hands out bytes in order and says how many it could hand out without waiting. Every
operation gives an answer, which may be a failure, and the source afterwards, so a caller can repeat
what failed.

Nothing says that a source ends. A finite source knows a bound on the bytes it will still hand out,
`remaining`. That bound is what makes reading end: whatever a source announces, what it has handed out
is gone from the bound. A source is steady if moreover every operation either leaves it as it is or
lowers the bound.
-/

namespace Ebml

/-- The number of bytes that an answer of `readByte` hands out. -/
def handedByte : Except IoError (Option UInt8) → Nat
  | .ok (some _) => 1
  | _ => 0

/-- The number of bytes that an answer of `readBytes` hands out. -/
def handedBytes : Except IoError Bytes → Nat
  | .ok bytes => bytes.length
  | _ => 0

/-- What hands out bytes. -/
class ByteSource (σ : Type) where
  /-- How many bytes can be handed out without waiting. -/
  available : σ → Except IoError Nat × σ
  /-- The next byte, or none at the end. -/
  readByte : σ → Except IoError (Option UInt8) × σ
  /-- Up to the given number of bytes. -/
  readBytes : Nat → σ → Except IoError Bytes × σ
  /-- Whether the end was reached. -/
  eof : σ → Except IoError Bool × σ
  length_readBytes : ∀ n s bytes, (readBytes n s).1 = .ok bytes → bytes.length ≤ n

/-- A source that hands out only so many bytes. -/
class FiniteSource (σ : Type) extends ByteSource σ where
  /-- How many bytes it will hand out from here on, at most. -/
  remaining : σ → Nat
  remaining_available : ∀ s, remaining (available s).2 ≤ remaining s
  remaining_readByte : ∀ s, remaining (readByte s).2 + handedByte (readByte s).1 ≤ remaining s
  remaining_readBytes :
    ∀ n s, remaining (readBytes n s).2 + handedBytes (readBytes n s).1 ≤ remaining s
  remaining_eof : ∀ s, remaining (eof s).2 ≤ remaining s

/-- A source whose operations leave it as it is unless they lower the bound on what remains. -/
class SteadySource (σ : Type) extends FiniteSource σ where
  steady_available : ∀ s, (available s).2 = s ∨ remaining (available s).2 < remaining s
  steady_readByte : ∀ s, (readByte s).2 = s ∨ remaining (readByte s).2 < remaining s
  steady_readBytes : ∀ n s, (readBytes n s).2 = s ∨ remaining (readBytes n s).2 < remaining s
  steady_eof : ∀ s, (eof s).2 = s ∨ remaining (eof s).2 < remaining s

end Ebml
