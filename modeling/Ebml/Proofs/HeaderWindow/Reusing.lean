import Mathlib
import Ebml.HeaderWindow.Buffer

/-!
# A buffer that is used again

A buffer presents a window: what it holds and answers at each offset is what the window does, although a
window has no cells behind its bytes (`HeaderBuffer.Presents`). As long as no offset can overflow, the
window is the one that the same calls make, and it consists of the first bytes pushed since the last
reset, of as many as a header can have (`keyed_by_offset`). Bytes from before the reset are still in the
cells then, but whether an offset is held does not depend on the cells.
-/

namespace Ebml

/-! ## Windows by offset -/

namespace HeaderWindow

variable (w : HeaderWindow) (offset : Nat)

theorem contains_iff :
    w.contains offset = true ↔ w.start ≤ offset ∧ offset < w.start + w.bytes.length := by
  rw [contains, Bool.and_eq_true, decide_eq_true_eq, decide_eq_true_eq, stop]

/-- The byte at an offset is the first of those from there on. -/
theorem get?_eq_head? : w.get? offset = (w.sliceFrom offset).head? := by
  unfold get? sliceFrom
  by_cases hbefore : offset < w.start
  · have hnot : ¬w.contains offset = true := by rw [contains_iff]; omega
    rw [if_neg hnot, if_pos hbefore, List.head?_nil]
  · rw [if_neg hbefore, List.head?_drop]
    split
    · rfl
    · rename_i hnot
      rw [contains_iff] at hnot
      exact (List.getElem?_eq_none (by omega)).symm

theorem sliceFrom_ne_nil_iff : w.sliceFrom offset ≠ [] ↔ w.contains offset = true := by
  rw [contains_iff, sliceFrom]
  split
  · exact ⟨fun h => absurd rfl h, by omega⟩
  · rw [Ne, List.drop_eq_nil_iff]
    omega

theorem isSome_get?_iff : (w.get? offset).isSome = true ↔ w.contains offset = true := by
  rw [get?_eq_head?, ← sliceFrom_ne_nil_iff, Option.isSome_iff_ne_none, Ne, List.head?_eq_none_iff]

end HeaderWindow

/-! ## What a buffer presents -/

namespace HeaderBuffer

variable {b : HeaderBuffer} {w : HeaderWindow}

/-- The bytes held, with the offset of the first. -/
def window (b : HeaderBuffer) : HeaderWindow :=
  ⟨b.start.toNat, b.held⟩

@[simp] theorem length_held (b : HeaderBuffer) : b.held.length = b.length := by
  rw [held, List.length_take, Vector.length_toList]
  exact Nat.min_eq_left b.length_le

/-- Whatever is asked of the buffer, the answer is the window's. -/
structure Presents (b : HeaderBuffer) (w : HeaderWindow) : Prop where
  start_eq : b.start.toNat = w.start
  held_eq : b.held = w.bytes
  length_eq : b.length = w.bytes.length
  isEmpty_eq : b.isEmpty = w.isEmpty
  stop_eq : b.stop.toNat = w.stop
  contains_eq : ∀ offset, b.contains offset = w.contains offset.toNat
  get?_eq : ∀ offset, b.get? offset = w.get? offset.toNat
  sliceFrom_eq : ∀ offset, b.sliceFrom offset = w.sliceFrom offset.toNat
  push_eq : ∀ byte, (b.push byte).1 = (w.push? byte).isSome

/-- Full cells would not reach the largest offset. -/
def Fits (b : HeaderBuffer) : Prop :=
  b.start.toNat + maxHeaderLength < 2 ^ 64

theorem push_of_full (h : b.length = maxHeaderLength) (byte : UInt8) : b.push byte = (false, b) := by
  rw [push, dif_pos h]

theorem push_of_room (h : b.length < maxHeaderLength) (byte : UInt8) :
    (b.push byte).1 = true ∧ (b.push byte).2.window = ⟨b.start.toNat, b.held ++ [byte]⟩ := by
  have hlength : b.length < b.cells.toList.length := by rwa [Vector.length_toList]
  rw [push, dif_neg (Nat.ne_of_lt h)]
  refine ⟨rfl, ?_⟩
  -- The cell behind the bytes held is overwritten, whatever was in it.
  have hheld : (b.cells.toList.set b.length byte).take (b.length + 1) = b.held ++ [byte] := by
    rw [List.take_succ_eq_append_getElem (by rwa [List.length_set]), List.getElem_set_self,
      List.take_set_of_le (Nat.le_refl _), held]
  simp only [window, held, Vector.toList_set] at hheld ⊢
  rw [hheld]

theorem refused_iff {byte : UInt8} : (b.push byte).1 = false ↔ b.length = maxHeaderLength := by
  refine ⟨fun hrefused => ?_, fun h => congrArg Prod.fst (push_of_full h byte)⟩
  by_contra hne
  have haccepted := (push_of_room (Nat.lt_of_le_of_ne b.length_le hne) byte).1
  simp [hrefused] at haccepted

/-- A byte that is not taken leaves the buffer as it is. -/
theorem eq_of_refused {byte : UInt8} (h : (b.push byte).1 = false) : (b.push byte).2 = b :=
  congrArg Prod.snd (push_of_full (refused_iff.mp h) byte)

theorem push_window (b : HeaderBuffer) (byte : UInt8) :
    (b.push byte).1 = (b.window.push? byte).isSome ∧
      (b.push byte).2.window = (b.window.push? byte).getD b.window := by
  unfold HeaderWindow.push?
  simp only [window, length_held]
  by_cases h : b.length < maxHeaderLength
  · simpa [h, window] using push_of_room h byte
  · have hfull : b.length = maxHeaderLength := Nat.le_antisymm b.length_le (Nat.le_of_not_lt h)
    simp [push_of_full hfull, h]

theorem toNat_stop (h : b.Fits) : b.stop.toNat = b.start.toNat + b.length := by
  have hlength := b.length_le
  unfold Fits at h
  simp only [stop, UInt64.toNat_add, UInt64.toNat_ofNat']
  omega

theorem contains_window (h : b.Fits) (offset : UInt64) :
    b.contains offset = b.window.contains offset.toNat := by
  rw [Bool.eq_iff_iff, HeaderWindow.contains_iff, contains, Bool.and_eq_true, decide_eq_true_eq,
    decide_eq_true_eq, UInt64.le_iff_toNat_le, UInt64.lt_iff_toNat_lt, toNat_stop h, window,
    length_held]

/-- Among the bytes held the cells are what the buffer holds. -/
theorem getElem?_cells {i : Nat} (h : i < b.length) : b.cells[i]? = b.held[i]? := by
  rw [held, List.getElem?_take_of_lt h, Vector.getElem?_toList]

theorem get?_window (h : b.Fits) (offset : UInt64) : b.get? offset = b.window.get? offset.toNat := by
  unfold get? HeaderWindow.get?
  rw [contains_window h]
  split
  · rename_i hcontains
    obtain ⟨hle, hlt⟩ := (HeaderWindow.contains_iff _ _).mp hcontains
    simp only [window, length_held] at hle hlt ⊢
    rw [UInt64.toNat_sub_of_le _ _ (UInt64.le_iff_toNat_le.mpr hle), getElem?_cells (by omega)]
  · rfl

theorem sliceFrom_eq_drop (b : HeaderBuffer) (offset : UInt64) :
    b.sliceFrom offset =
      if offset < b.start then [] else b.held.drop (offset.toNat - b.start.toNat) := by
  unfold sliceFrom
  split
  · rfl
  · rename_i hnot
    rw [UInt64.toNat_sub_of_le _ _ (UInt64.not_lt.mp hnot)]

theorem sliceFrom_window (b : HeaderBuffer) (offset : UInt64) :
    b.sliceFrom offset = b.window.sliceFrom offset.toNat := by
  rw [sliceFrom_eq_drop, HeaderWindow.sliceFrom]
  exact if_congr UInt64.lt_iff_toNat_lt rfl rfl

theorem presents_window (h : b.Fits) : b.Presents b.window where
  start_eq := rfl
  held_eq := rfl
  length_eq := (length_held b).symm
  isEmpty_eq := by
    rw [Bool.eq_iff_iff, isEmpty, HeaderWindow.isEmpty, List.isEmpty_iff_length_eq_zero, beq_iff_eq,
      window, length_held]
  stop_eq := by rw [toNat_stop h, HeaderWindow.stop, window, length_held]
  contains_eq := contains_window h
  get?_eq := get?_window h
  sliceFrom_eq := sliceFrom_window b
  push_eq byte := (push_window b byte).1

namespace Presents

variable (h : b.Presents w) (offset : UInt64)
include h

theorem contains_iff :
    b.contains offset = true ↔
      b.start.toNat ≤ offset.toNat ∧ offset.toNat < b.start.toNat + b.length := by
  rw [h.contains_eq, HeaderWindow.contains_iff, h.start_eq, h.length_eq]

theorem isSome_get?_iff : (b.get? offset).isSome = true ↔ b.contains offset = true := by
  rw [h.get?_eq, h.contains_eq, HeaderWindow.isSome_get?_iff]

theorem sliceFrom_ne_nil_iff : b.sliceFrom offset ≠ [] ↔ b.contains offset = true := by
  rw [h.sliceFrom_eq, h.contains_eq, HeaderWindow.sliceFrom_ne_nil_iff]

theorem get?_eq_head? : b.get? offset = (b.sliceFrom offset).head? := by
  rw [h.get?_eq, h.sliceFrom_eq, HeaderWindow.get?_eq_head?]

end Presents

end HeaderBuffer

/-! ## Calls -/

/-- A call that changes what is held. -/
inductive HeaderCall
  | reset (offset : UInt64)
  | push (byte : UInt8)

namespace HeaderCall

/-- A call of a buffer. -/
def make : HeaderCall → HeaderBuffer → HeaderBuffer
  | reset offset, b => b.reset offset
  | push byte, b => (b.push byte).2

/-- All calls of a new buffer. -/
def makeAll (calls : List HeaderCall) : HeaderBuffer :=
  calls.foldl (fun b call => call.make b) {}

/-- The same call of a window. -/
def move : HeaderCall → HeaderWindow → HeaderWindow
  | reset offset, _ => .openedAt offset.toNat
  | push byte, w => (w.push? byte).getD w

/-- The same calls of a new window. -/
def moveAll (calls : List HeaderCall) : HeaderWindow :=
  calls.foldl (fun w call => call.move w) {}

/-- The bytes pushed since the last reset, those for which there was no room included. -/
def pushed (calls : List HeaderCall) : Bytes :=
  calls.foldl (fun | _, reset _ => [] | bytes, push byte => bytes ++ [byte]) []

/-- The offset of the last reset, and of a new buffer. -/
def origin (calls : List HeaderCall) : UInt64 :=
  calls.foldl (fun | _, reset offset => offset | start, push _ => start) 0

section

variable (calls : List HeaderCall) (call : HeaderCall) (offset : UInt64) (byte : UInt8)

theorem makeAll_concat : makeAll (calls ++ [call]) = call.make (makeAll calls) := by
  simp [makeAll]

theorem moveAll_concat : moveAll (calls ++ [call]) = call.move (moveAll calls) := by
  simp [moveAll]

@[simp] theorem pushed_reset : pushed (calls ++ [reset offset]) = [] := by
  simp [pushed]

@[simp] theorem pushed_push : pushed (calls ++ [push byte]) = pushed calls ++ [byte] := by
  simp [pushed]

@[simp] theorem origin_reset : origin (calls ++ [reset offset]) = offset := by
  simp [origin]

@[simp] theorem origin_push : origin (calls ++ [push byte]) = origin calls := by
  simp [origin]

theorem window_make (b : HeaderBuffer) : (call.make b).window = call.move b.window := by
  cases call with
  | reset offset => rfl
  | push byte => exact (b.push_window byte).2

/-- A buffer holds the window that the same calls make. -/
theorem window_makeAll : (makeAll calls).window = moveAll calls := by
  induction calls using List.reverseRecOn with
  | nil => rfl
  | append_singleton calls call ih => rw [makeAll_concat, moveAll_concat, window_make, ih]

/-- The window holds the first of the bytes pushed since the last reset. -/
theorem moveAll_eq :
    moveAll calls = ⟨(origin calls).toNat, (pushed calls).take maxHeaderLength⟩ := by
  induction calls using List.reverseRecOn with
  | nil => rfl
  | append_singleton calls call ih =>
    rw [moveAll_concat, ih]
    cases call with
    | reset offset => simp [move, HeaderWindow.openedAt]
    | push byte =>
      rw [origin_push, pushed_push, move, HeaderWindow.push?]
      by_cases hroom : (pushed calls).length < maxHeaderLength
      · have hfits : (pushed calls ++ [byte]).length ≤ maxHeaderLength := by
          rwa [List.length_append]
        rw [List.take_of_length_le (Nat.le_of_lt hroom), List.take_of_length_le hfits, if_pos hroom]
        rfl
      · have hle := Nat.le_of_not_lt hroom
        rw [List.take_append_of_le_length hle, if_neg (by rw [List.length_take]; omega)]
        rfl

/-- What came before a reset makes no difference to the window. -/
theorem moveAll_reset (before before' after : List HeaderCall) :
    moveAll (before ++ reset offset :: after) = moveAll (before' ++ reset offset :: after) := by
  simp [moveAll, move]

theorem origin_eq_zero_or_mem : origin calls = 0 ∨ reset (origin calls) ∈ calls := by
  induction calls using List.reverseRecOn with
  | nil => exact .inl rfl
  | append_singleton calls call ih =>
    cases call with
    | reset offset => simp
    | push byte => simpa using ih

end

/-- Where the window starts low enough, it is what the buffer presents. -/
theorem presents_makeAll {calls : List HeaderCall} (h : (moveAll calls).start ≤ 2 ^ 64 - 13) :
    (makeAll calls).Presents (moveAll calls) := by
  rw [← window_makeAll] at h ⊢
  refine HeaderBuffer.presents_window ?_
  have hmax : maxHeaderLength = 12 := rfl
  simp only [HeaderBuffer.window] at h
  unfold HeaderBuffer.Fits
  omega

/-- A buffer is the bytes pushed since the last reset, as many as there is room for, by their offsets.
It takes no byte exactly if it is full, and stays as it is then. An offset is held exactly if it lies
between the first byte and the end, as each of the three ways to ask for it says, and the byte there is
the first of those from there on. The window that the same calls make answers the same, and it is
presented also if other calls were made before a reset, so no byte from before it can be seen. -/
theorem keyed_by_offset (calls : List HeaderCall)
    (hresets : ∀ offset, reset offset ∈ calls → offset.toNat ≤ 2 ^ 64 - 13) :
    let b := makeAll calls
    let bytes := (pushed calls).take maxHeaderLength
    b.start = origin calls ∧ b.held = bytes ∧
      (∀ byte, ((b.push byte).1 = false ↔ bytes.length = maxHeaderLength) ∧
        ((b.push byte).1 = false → (b.push byte).2 = b)) ∧
      (∀ offset,
        let inside := b.start.toNat ≤ offset.toNat ∧ offset.toNat < b.start.toNat + b.length
        (b.contains offset = true ↔ inside) ∧ ((b.get? offset).isSome = true ↔ inside) ∧
          (b.sliceFrom offset ≠ [] ↔ inside) ∧ b.get? offset = (b.sliceFrom offset).head? ∧
          b.sliceFrom offset =
            if offset < b.start then [] else bytes.drop (offset.toNat - b.start.toNat)) ∧
      b.Presents (moveAll calls) ∧
      ∀ before offset after, calls = before ++ reset offset :: after → ∀ before',
        (makeAll (before' ++ reset offset :: after)).Presents (moveAll calls) := by
  have hstart : (moveAll calls).start ≤ 2 ^ 64 - 13 := by
    rw [moveAll_eq]
    rcases origin_eq_zero_or_mem calls with hzero | hmem
    · simp [hzero]
    · exact hresets _ hmem
  -- All but the cells is said of the window that the buffer presents.
  have hpresents := presents_makeAll hstart
  have horigin : (makeAll calls).start = origin calls :=
    UInt64.toNat_inj.mp (hpresents.start_eq.trans (congrArg HeaderWindow.start (moveAll_eq calls)))
  have hheld : (makeAll calls).held = (pushed calls).take maxHeaderLength :=
    hpresents.held_eq.trans (congrArg HeaderWindow.bytes (moveAll_eq calls))
  refine ⟨horigin, hheld, fun byte => ⟨?_, HeaderBuffer.eq_of_refused⟩, fun offset => ?_, hpresents, ?_⟩
  · rw [← hheld, HeaderBuffer.length_held]
    exact HeaderBuffer.refused_iff
  · have hcontains := hpresents.contains_iff offset
    refine ⟨hcontains, (hpresents.isSome_get?_iff offset).trans hcontains,
      (hpresents.sliceFrom_ne_nil_iff offset).trans hcontains, hpresents.get?_eq_head? offset, ?_⟩
    rw [← hheld, HeaderBuffer.sliceFrom_eq_drop]
  · rintro before offset after rfl before'
    rw [moveAll_reset offset before before'] at hstart ⊢
    exact presents_makeAll hstart

/-- More bytes than there is room for, then a reset to the last admissible offset and two bytes more: the
third cell still has its byte, but the offset after the two is not held. -/
theorem keyed_by_offset_of_stale_cells :
    let calls := List.replicate 13 (push 0xEC) ++ [reset 18446744073709551603, push 0x1A, push 0x45]
    let b := makeAll calls
    b.cells[2]? = some 0xEC ∧ b.held = [0x1A, 0x45] ∧
      b.contains 18446744073709551604 = true ∧ b.get? 18446744073709551604 = some 0x45 ∧
      ¬b.contains 18446744073709551605 = true ∧ b.sliceFrom 18446744073709551605 = [] ∧
      (makeAll [reset 18446744073709551603, push 0x1A, push 0x45]).Presents (moveAll calls) := by
  intro calls b
  have hresets : ∀ offset, reset offset ∈ calls → offset.toNat ≤ 2 ^ 64 - 13 := by
    intro offset hmem
    simp [calls] at hmem
    simp [hmem]
  obtain ⟨-, hheld, -, hoffsets, -, hunseen⟩ := keyed_by_offset calls hresets
  obtain ⟨hcontains, -, -, hget, -⟩ := hoffsets 18446744073709551604
  obtain ⟨hbeyond, -, hslice, -, -⟩ := hoffsets 18446744073709551605
  have hnot : ¬b.contains 18446744073709551605 = true := fun h => absurd (hbeyond.mp h).2 (by decide)
  refine ⟨by decide, hheld, hcontains.mpr (by decide), hget.trans (by decide), hnot, ?_,
    hunseen (List.replicate 13 (push 0xEC)) _ _ rfl []⟩
  by_contra hne
  exact hnot (hbeyond.mpr (hslice.mp hne))

end HeaderCall

end Ebml
