import Mathlib.Data.Nat.Find
import Ebml.Source

/-!
# Sources that run out

A source needs no bound of its own. Whatever its four operations answer, from a state in which only
finitely many bytes can still come of it there is a least bound on these bytes, and with that bound the
operations are a source (`LimitedSource`). They may announce more than comes, give none where some are
left, or give fewer than were asked for.
-/

namespace Ebml

/-- The operations of a source, with no word on how much they will hand out. -/
structure Operations (σ : Type) where
  available : σ → Except IoError Nat × σ
  readByte : σ → Except IoError (Option UInt8) × σ
  readBytes : Nat → σ → Except IoError Bytes × σ
  eof : σ → Except IoError Bool × σ
  length_readBytes : ∀ n s bytes, (readBytes n s).1 = .ok bytes → bytes.length ≤ n

namespace Operations

variable {σ : Type} (o : Operations σ)

/-- Some operations, one after the other, hand out `count` bytes in all. -/
inductive Gives : σ → Nat → σ → Prop
  | refl (s : σ) : Gives s 0 s
  | available {s s' : σ} {count : Nat} : Gives (o.available s).2 count s' → Gives s count s'
  | readByte {s s' : σ} {count : Nat} :
      Gives (o.readByte s).2 count s' → Gives s (handedByte (o.readByte s).1 + count) s'
  | readBytes {s s' : σ} {count : Nat} (n : Nat) :
      Gives (o.readBytes n s).2 count s' → Gives s (handedBytes (o.readBytes n s).1 + count) s'
  | eof {s s' : σ} {count : Nat} : Gives (o.eof s).2 count s' → Gives s count s'

/-- However the source is used, no more than `most` bytes come of it. -/
def AtMost (most : Nat) (s : σ) : Prop :=
  ∀ count s', o.Gives s count s' → count ≤ most

/-- Only finitely many bytes come of the source. -/
def Limited (s : σ) : Prop :=
  ∃ most, o.AtMost most s

namespace AtMost

variable {o} {most : Nat} {s : σ}

theorem available (h : o.AtMost most s) : o.AtMost most (o.available s).2 :=
  fun count s' hgives => h count s' (.available hgives)

theorem eof (h : o.AtMost most s) : o.AtMost most (o.eof s).2 :=
  fun count s' hgives => h count s' (.eof hgives)

/-- What is handed out is gone from the bound. -/
theorem readByte (h : o.AtMost most s) :
    handedByte (o.readByte s).1 ≤ most ∧
      o.AtMost (most - handedByte (o.readByte s).1) (o.readByte s).2 := by
  refine ⟨h _ _ (.readByte (.refl _)), fun count s' hgives => ?_⟩
  have := h _ _ (.readByte hgives)
  omega

theorem readBytes (h : o.AtMost most s) (n : Nat) :
    handedBytes (o.readBytes n s).1 ≤ most ∧
      o.AtMost (most - handedBytes (o.readBytes n s).1) (o.readBytes n s).2 := by
  refine ⟨h _ _ (.readBytes n (.refl _)), fun count s' hgives => ?_⟩
  have := h _ _ (.readBytes n hgives)
  omega

end AtMost

end Operations

/-- A source of which only finitely many bytes come. -/
structure LimitedSource {σ : Type} (o : Operations σ) where
  state : σ
  limited : o.Limited state

namespace LimitedSource

variable {σ : Type} {o : Operations σ}

open Classical in
/-- The most bytes that can come. -/
noncomputable def most (s : LimitedSource o) : Nat :=
  Nat.find s.limited

theorem atMost_most (s : LimitedSource o) : o.AtMost s.most s.state := by
  classical
  exact Nat.find_spec s.limited

theorem most_le {s : LimitedSource o} {bound : Nat} (h : o.AtMost bound s.state) : s.most ≤ bound := by
  classical
  exact Nat.find_min' s.limited h

def available (s : LimitedSource o) : Except IoError Nat × LimitedSource o :=
  ((o.available s.state).1, ⟨(o.available s.state).2, s.most, s.atMost_most.available⟩)

def readByte (s : LimitedSource o) : Except IoError (Option UInt8) × LimitedSource o :=
  ((o.readByte s.state).1, ⟨(o.readByte s.state).2, _, s.atMost_most.readByte.2⟩)

def readBytes (n : Nat) (s : LimitedSource o) : Except IoError Bytes × LimitedSource o :=
  ((o.readBytes n s.state).1, ⟨(o.readBytes n s.state).2, _, (s.atMost_most.readBytes n).2⟩)

def eof (s : LimitedSource o) : Except IoError Bool × LimitedSource o :=
  ((o.eof s.state).1, ⟨(o.eof s.state).2, s.most, s.atMost_most.eof⟩)

theorem most_readByte (s : LimitedSource o) :
    s.readByte.2.most + handedByte s.readByte.1 ≤ s.most := by
  obtain ⟨hhanded, hrest⟩ := s.atMost_most.readByte
  have hle : s.readByte.2.most ≤ s.most - handedByte s.readByte.1 := most_le hrest
  change handedByte s.readByte.1 ≤ s.most at hhanded
  omega

theorem most_readBytes (n : Nat) (s : LimitedSource o) :
    (s.readBytes n).2.most + handedBytes (s.readBytes n).1 ≤ s.most := by
  obtain ⟨hhanded, hrest⟩ := s.atMost_most.readBytes n
  have hle : (s.readBytes n).2.most ≤ s.most - handedBytes (s.readBytes n).1 := most_le hrest
  change handedBytes (s.readBytes n).1 ≤ s.most at hhanded
  omega

noncomputable instance : FiniteSource (LimitedSource o) where
  available := available
  readByte := readByte
  readBytes := readBytes
  eof := eof
  remaining := most
  length_readBytes n s := o.length_readBytes n s.state
  remaining_available s := most_le s.atMost_most.available
  remaining_readByte := most_readByte
  remaining_readBytes := most_readBytes
  remaining_eof s := most_le s.atMost_most.eof

end LimitedSource

end Ebml
