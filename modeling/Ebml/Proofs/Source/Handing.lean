import Ebml.Scanner
import Ebml.Source.Push

/-!
# What a source hands out

A scanner sees a source only through the answers of its operations. `Hands s bytes s'` says that
some operations lead from `s` to `s'` and that `bytes` are all they handed out, in order; it holds
whatever else the source answers, failures included.

A source is announcing if it holds the bytes that it announces and hands these out without fail, so
that only announcing can fail; it is buffered if that cannot fail either.
-/

namespace Ebml

/-- The bytes that an answer of `readByte` hands out. -/
def byteOf : Except IoError (Option UInt8) → Bytes
  | .ok (some b) => [b]
  | _ => []

/-- The bytes that an answer of `readBytes` hands out. -/
def bytesOf : Except IoError Bytes → Bytes
  | .ok bytes => bytes
  | _ => []

/-- Some operations lead from one state of a source to another and hand out the given bytes. -/
inductive Hands {σ : Type} [ByteSource σ] : σ → Bytes → σ → Prop
  | refl (s : σ) : Hands s [] s
  | available {s s' : σ} {bytes : Bytes} :
      Hands s bytes s' → Hands s bytes (ByteSource.available s').2
  | eof {s s' : σ} {bytes : Bytes} : Hands s bytes s' → Hands s bytes (ByteSource.eof s').2
  | readByte {s s' : σ} {bytes : Bytes} :
      Hands s bytes s' →
        Hands s (bytes ++ byteOf (ByteSource.readByte s').1) (ByteSource.readByte s').2
  | readBytes {s s' : σ} {bytes : Bytes} (n : Nat) :
      Hands s bytes s' →
        Hands s (bytes ++ bytesOf (ByteSource.readBytes n s').1) (ByteSource.readBytes n s').2

namespace Hands

variable {σ : Type} [ByteSource σ]

theorem trans {s s' s'' : σ} {bytes bytes' : Bytes} (h : Hands s bytes s')
    (h' : Hands s' bytes' s'') : Hands s (bytes ++ bytes') s'' := by
  induction h' with
  | refl => rw [List.append_nil]; exact h
  | available _ ih => exact ih.available
  | eof _ ih => exact ih.eof
  | readByte _ ih => rw [← List.append_assoc]; exact ih.readByte
  | readBytes n _ ih => rw [← List.append_assoc]; exact ih.readBytes n

/-- Operations never raise the bound on what remains. -/
theorem remaining_le {σ : Type} [FiniteSource σ] {s s' : σ} {bytes : Bytes} (h : Hands s bytes s') :
    FiniteSource.remaining s' ≤ FiniteSource.remaining s := by
  induction h with
  | refl => exact Nat.le_refl _
  | available _ ih => exact Nat.le_trans (FiniteSource.remaining_available _) ih
  | eof _ ih => exact Nat.le_trans (FiniteSource.remaining_eof _) ih
  | @readByte s' _ _ ih =>
    have := FiniteSource.remaining_readByte s'
    omega
  | @readBytes s' _ n _ ih =>
    have := FiniteSource.remaining_readBytes n s'
    omega

/-- Bytes taken one at a time are handed out in that order. -/
theorem takeBytes (n : Nat) (s : σ) :
    Hands s (Scanner.takeBytes n s).bytes (Scanner.takeBytes n s).source := by
  induction n generalizing s with
  | zero => exact .refl s
  | succ n ih =>
    have hread := (refl s).readByte
    unfold Scanner.takeBytes
    split <;> rename_i heq <;> simp only [heq, byteOf, List.nil_append] at hread
    · exact hread
    · exact hread
    · exact hread.trans (ih _)

theorem pull (n : Nat) (s : σ) : Hands s (Scanner.pull n s).bytes (Scanner.pull n s).source := by
  have havailable := (refl s).available
  unfold Scanner.pull
  split <;> rename_i heq <;> simp only [heq] at havailable
  · exact havailable
  · exact havailable.trans (takeBytes _ _)

end Hands

/-! ## How many bytes come -/

namespace Scanner

variable {σ : Type} [ByteSource σ]

theorem length_takeBytes_le (n : Nat) (s : σ) : (takeBytes n s).bytes.length ≤ n := by
  induction n generalizing s with
  | zero => exact Nat.le_refl _
  | succ n ih =>
    unfold takeBytes
    split
    · exact Nat.zero_le _
    · exact Nat.zero_le _
    · exact Nat.succ_le_succ (ih _)

/-- Taking bytes fails only before all of them came. -/
theorem length_takeBytes_lt {n : Nat} {s : σ} {e : IoError}
    (h : (takeBytes n s).failure = some e) : (takeBytes n s).bytes.length < n := by
  induction n generalizing s with
  | zero => simp [takeBytes] at h
  | succ n ih =>
    unfold takeBytes at h ⊢
    split at h
    · exact Nat.succ_pos n
    · simp at h
    · exact Nat.succ_lt_succ (ih h)

theorem length_pull_le (n : Nat) (s : σ) : (pull n s).bytes.length ≤ n := by
  unfold pull
  split
  · exact Nat.zero_le _
  · exact Nat.le_trans (length_takeBytes_le _ _) (Nat.min_le_left _ _)

theorem length_pull_lt {n : Nat} {s : σ} {e : IoError} (hpos : 0 < n)
    (h : (pull n s).failure = some e) : (pull n s).bytes.length < n := by
  unfold pull at h ⊢
  split at h
  · exact hpos
  · exact Nat.lt_of_lt_of_le (length_takeBytes_lt h) (Nat.min_le_left _ _)

end Scanner

/-! ## Announcing sources -/

/-- A source that holds the bytes it announces and hands them out without fail. -/
class AnnouncingSource (σ : Type) [ByteSource σ] where
  /-- The bytes held. -/
  held : σ → Bytes
  available_held : ∀ (s : σ) (n : Nat), (ByteSource.available s).1 = .ok n →
    n = (held (ByteSource.available s).2).length
  readByte_held : ∀ s b rest, held s = b :: rest →
    (ByteSource.readByte s).1 = .ok (some b) ∧ held (ByteSource.readByte s).2 = rest
  readBytes_held : ∀ n s, held s ≠ [] →
    (ByteSource.readBytes n s).1 = .ok ((held s).take n) ∧
      held (ByteSource.readBytes n s).2 = (held s).drop n

/-- An announcing source that never fails to announce. -/
class BufferedSource (σ : Type) [ByteSource σ] extends AnnouncingSource σ where
  available_ok : ∀ s : σ, ∃ n, (ByteSource.available s).1 = .ok n

/-- Some operations lead from one state of a source to another. -/
def Reaches {σ : Type} [ByteSource σ] (s s' : σ) : Prop :=
  ∃ bytes, Hands s bytes s'

/-- After some operations the source could not say how many bytes it has. -/
def Balks {σ : Type} [ByteSource σ] (s : σ) (e : IoError) (s' : σ) : Prop :=
  ∃ s₁, Reaches s s₁ ∧ ByteSource.available s₁ = (.error e, s')

section

variable {σ : Type} [ByteSource σ] {s s' s'' : σ}

theorem Reaches.refl (s : σ) : Reaches s s :=
  ⟨[], .refl s⟩

theorem Reaches.trans (h : Reaches s s') (h' : Reaches s' s'') : Reaches s s'' := by
  obtain ⟨bytes, hhands⟩ := h
  obtain ⟨more, hhands'⟩ := h'
  exact ⟨bytes ++ more, hhands.trans hhands'⟩

theorem Reaches.balks {e : IoError} (h : Reaches s s') (h' : Balks s' e s'') : Balks s e s'' := by
  obtain ⟨s₁, hreach, hfails⟩ := h'
  exact ⟨s₁, h.trans hreach, hfails⟩

/-- A buffered source never balks. -/
theorem not_balks [BufferedSource σ] {e : IoError} : ¬Balks s e s' := by
  rintro ⟨s₁, -, hfails⟩
  obtain ⟨n, hok⟩ := BufferedSource.available_ok s₁
  simp [hfails] at hok

end

/-! ## Answered operations -/

/-- Some operations, all of them answered, lead from one state of a source to another. -/
inductive Serves {σ : Type} [ByteSource σ] (s : σ) : σ → Prop
  | refl : Serves s s
  | available {s' : σ} {n : Nat} :
      Serves s s' → (ByteSource.available s').1 = .ok n → Serves s (ByteSource.available s').2
  | eof {s' : σ} {answer : Bool} :
      Serves s s' → (ByteSource.eof s').1 = .ok answer → Serves s (ByteSource.eof s').2
  | readByte {s' : σ} {b : Option UInt8} :
      Serves s s' → (ByteSource.readByte s').1 = .ok b → Serves s (ByteSource.readByte s').2
  | readBytes {s' : σ} {bytes : Bytes} (n : Nat) :
      Serves s s' → (ByteSource.readBytes n s').1 = .ok bytes → Serves s (ByteSource.readBytes n s').2

/-- An operation with which bytes are looked for or taken fails. -/
def Fails {σ : Type} [ByteSource σ] (s : σ) (e : IoError) (s' : σ) : Prop :=
  ByteSource.available s = (.error e, s') ∨ ByteSource.readByte s = (.error e, s') ∨
    ∃ n, ByteSource.readBytes n s = (.error e, s')

theorem Serves.trans {σ : Type} [ByteSource σ] {s s' s'' : σ} (h : Serves s s')
    (h' : Serves s' s'') : Serves s s'' := by
  induction h' with
  | refl => exact h
  | available _ hok ih => exact ih.available hok
  | eof _ hok ih => exact ih.eof hok
  | readByte _ hok ih => exact ih.readByte hok
  | readBytes n _ hok ih => exact ih.readBytes n hok

theorem Serves.reaches {σ : Type} [ByteSource σ] {s s' : σ} (h : Serves s s') : Reaches s s' := by
  induction h with
  | refl => exact .refl s
  | available _ _ ih => exact ih.trans ⟨_, (Hands.refl _).available⟩
  | eof _ _ ih => exact ih.trans ⟨_, (Hands.refl _).eof⟩
  | readByte _ _ ih => exact ih.trans ⟨_, (Hands.refl _).readByte⟩
  | readBytes n _ _ ih => exact ih.trans ⟨_, (Hands.refl _).readBytes n⟩

/-! ## Taking what is held -/

namespace Scanner

open AnnouncingSource (held)

variable {σ : Type} [ByteSource σ] [AnnouncingSource σ]

/-- As many bytes as are held can be taken one at a time. -/
theorem takeBytes_held {n : Nat} {s : σ} (h : n ≤ (held s).length) :
    (takeBytes n s).bytes.length = n ∧ (takeBytes n s).failure = none ∧
      held (takeBytes n s).source = (held s).drop n := by
  induction n generalizing s with
  | zero => exact ⟨rfl, rfl, rfl⟩
  | succ n ih =>
    cases hheld : held s with
    | nil => simp [hheld] at h
    | cons b rest =>
      obtain ⟨hread, hrest⟩ := AnnouncingSource.readByte_held s b rest hheld
      have hn : n ≤ (held (ByteSource.readByte s).2).length := by
        rw [hrest]
        simp only [hheld, List.length_cons] at h
        omega
      obtain ⟨hlen, hfail, hdrop⟩ := ih hn
      unfold takeBytes
      split <;> rename_i heq <;> simp only [heq] at hread hrest hlen hfail hdrop
      · simp at hread
      · simp at hread
      · simp only [List.length_cons, hlen, hfail, hdrop, hrest, List.drop_succ_cons, and_self]

/-- Taking bytes from an announcing source fails only where it cannot say how many it has, and when
fewer come than wanted without a failure it holds none afterwards. -/
theorem pull_held (n : Nat) (s : σ) :
    (∀ e, (pull n s).failure = some e →
        ByteSource.available s = (.error e, (pull n s).source)) ∧
      ((pull n s).failure = none → (pull n s).bytes.length ≠ n → held (pull n s).source = []) := by
  have havailable := AnnouncingSource.available_held s
  unfold pull
  split <;> rename_i heq <;> simp only [heq] at havailable ⊢
  · exact ⟨fun e he => by rw [Option.some.inj he], by simp⟩
  · rename_i ready s'
    obtain rfl := havailable ready rfl
    obtain ⟨hlength, hfailure, hdrop⟩ := takeBytes_held (Nat.min_le_right n (held s').length)
    refine ⟨by simp [hfailure], fun _ hshort => ?_⟩
    rw [hdrop]
    exact List.drop_eq_nil_of_le (by omega)

end Scanner

/-! ## Pushed bytes -/

instance : BufferedSource PushSource where
  held s := s.buffer
  available_held s n h := (Except.ok.inj h).symm
  available_ok s := ⟨s.buffer.length, rfl⟩
  readByte_held s b rest h := by
    change s.readByte.1 = _ ∧ s.readByte.2.buffer = _
    simp [PushSource.readByte, h]
  readBytes_held n s h := by
    change (s.readBytes n).1 = _ ∧ (s.readBytes n).2.buffer = _
    simp [PushSource.readBytes, h]

namespace PushSource

/-- What pushed bytes are handed out is the front of what was held. -/
theorem buffer_of_hands {s s' : PushSource} {bytes : Bytes} (h : Hands s bytes s') :
    s.buffer = bytes ++ s'.buffer ∧ s'.finished = s.finished := by
  -- The operation made last is undone first, as each stands behind those before it.
  induction h with
  | refl => exact ⟨rfl, rfl⟩
  | available _ ih => exact ih
  | eof _ ih => exact ih
  | @readByte s' bytes _ ih =>
    change s.buffer = bytes ++ byteOf s'.readByte.1 ++ s'.readByte.2.buffer ∧
      s'.readByte.2.finished = s.finished
    rw [ih.1, ← ih.2]
    unfold PushSource.readByte
    split
    · rename_i hbuffer
      simp [byteOf, hbuffer]
    · rename_i hbuffer
      cases s'.finished <;> simp [byteOf, hbuffer]
  | @readBytes s' bytes n _ ih =>
    change s.buffer = bytes ++ bytesOf (s'.readBytes n).1 ++ (s'.readBytes n).2.buffer ∧
      (s'.readBytes n).2.finished = s.finished
    rw [ih.1, ← ih.2]
    unfold PushSource.readBytes
    split
    · simp [bytesOf]
    · simp [bytesOf]

/-- A source of given bytes can hand out the first of them. -/
theorem hands_ofBytes (bytes rest : Bytes) :
    Hands (ofBytes (bytes ++ rest)) bytes (ofBytes rest) := by
  have hread := (Hands.refl (ofBytes (bytes ++ rest))).readBytes bytes.length
  change Hands _ ([] ++ bytesOf (PushSource.readBytes bytes.length _).1)
    (PushSource.readBytes bytes.length _).2 at hread
  simpa [PushSource.readBytes, ofBytes, bytesOf] using hread

end PushSource

end Ebml
