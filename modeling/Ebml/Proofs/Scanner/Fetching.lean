import Ebml.Proofs.Source.Handing
import Ebml.Proofs.Vint.Field

/-!
# Reading a header field

A field is read from the bytes that the header window holds already and from those the source gives
now. Whatever the source does, the bytes it handed out are in the window afterwards, and what came
of the field is what all its bytes so far decode to (`readField_reads`).
-/

namespace Ebml.Scanner

/-- The scanner with some more bytes in its header window. -/
def absorb (t : Scanner) (bytes : Bytes) : Scanner :=
  { t with
    window := ⟨t.window.start, t.window.bytes ++ bytes⟩
    consumed := t.consumed + bytes.length }

@[simp] theorem absorb_nil (t : Scanner) : t.absorb [] = t := by
  simp [absorb]

@[simp] theorem absorb_absorb (t : Scanner) (bytes more : Bytes) :
    (t.absorb bytes).absorb more = t.absorb (bytes ++ more) := by
  simp [absorb, Nat.add_assoc]

section

variable (t : Scanner) (bytes : Bytes)

@[simp] theorem phase_absorb : (t.absorb bytes).phase = t.phase := rfl

@[simp] theorem start_absorb : (t.absorb bytes).window.start = t.window.start := rfl

@[simp] theorem window_bytes_absorb :
    (t.absorb bytes).window.bytes = t.window.bytes ++ bytes := rfl

end

/-- What may come of reading a field of which `sofar` was there when `bytes` come: it is spoilt, it
lacks bytes, the source failed before all of them came, or it is complete. A field is spoilt by its
first byte, so none comes after that. -/
inductive FieldResult {α : Type} (limit : Nat) (tooWide : Nat → VintError) (value : Bytes → α)
    (start : Nat) (sofar bytes : Bytes) : Except ScanError (Option α) → Prop
  | spoilt {e : VintError} :
      splitField limit tooWide (sofar ++ bytes) = .error e →
        (bytes = [] ∨ sofar = [] ∧ bytes.length = 1) →
          FieldResult limit tooWide value start sofar bytes (.error (.header start e))
  | lacking :
      splitField limit tooWide (sofar ++ bytes) = .ok none →
        FieldResult limit tooWide value start sofar bytes (.ok none)
  | failing (e : IoError) :
      splitField limit tooWide (sofar ++ bytes) = .ok none →
        FieldResult limit tooWide value start sofar bytes (.error (.io e))
  | complete :
      IsField limit (sofar ++ bytes) →
        FieldResult limit tooWide value start sofar bytes (.ok (some (value (sofar ++ bytes))))

/-- If nothing else was there, the first byte may have come before or with the others. -/
theorem FieldResult.of_first {α : Type} {limit : Nat} {tooWide : Nat → VintError}
    {value : Bytes → α} {start : Nat} {first : UInt8} {bytes : Bytes}
    {outcome : Except ScanError (Option α)}
    (h : FieldResult limit tooWide value start [first] bytes outcome) :
    FieldResult limit tooWide value start [] (first :: bytes) outcome := by
  cases h with
  | spoilt herror hfirst =>
    obtain rfl := hfirst.resolve_right (by simp)
    exact .spoilt herror (.inr ⟨rfl, rfl⟩)
  | lacking hnone => exact .lacking hnone
  | failing e hnone => exact .failing e hnone
  | complete hfield => exact .complete hfield

section

variable {σ α : Type} [ByteSource σ] {t : Scanner} {s : σ}

/-- With room for all wanted bytes in the window, those that came are in it, and they are all of
them unless the answer says otherwise. -/
theorem fetch_takes {wanted : Nat} (hpos : 0 < wanted)
    (hroom : t.window.bytes.length + wanted ≤ maxHeaderLength) :
    ∃ bytes s', Hands s bytes s' ∧
      ((fetch wanted t s = ⟨.ok true, t.absorb bytes, s'⟩ ∧ bytes.length = wanted) ∨
        (fetch wanted t s = ⟨.ok false, t.absorb bytes, s'⟩ ∧ bytes.length < wanted) ∨
        ∃ e, fetch wanted t s = ⟨.error (.io e), t.absorb bytes, s'⟩ ∧ bytes.length < wanted) := by
  have hle := length_pull_le wanted s
  refine ⟨(pull wanted s).bytes, (pull wanted s).source, Hands.pull wanted s, ?_⟩
  have happend : t.window.append? (pull wanted s).bytes =
      some ⟨t.window.start, t.window.bytes ++ (pull wanted s).bytes⟩ := by
    rw [HeaderWindow.append?, if_pos (by omega)]
  unfold fetch
  simp only [happend]
  cases hfail : (pull wanted s).failure with
  | none =>
    by_cases hall : (pull wanted s).bytes.length = wanted
    · exact .inl ⟨by simp [hall, absorb], hall⟩
    · exact .inr (.inl ⟨by simp [hall, absorb], by omega⟩)
  | some e => exact .inr (.inr ⟨e, rfl, length_pull_lt hpos hfail⟩)

variable {limit : Nat} {tooWide : Nat → VintError} {value : Bytes → α}
  {decode : Bytes → Except VintError (Option α)} {front sofar : Bytes}

/-- The window's bytes from the field on. -/
theorem sliceFrom_front (hwindow : t.window.bytes = front ++ sofar) :
    t.window.sliceFrom (t.window.start + front.length) = sofar := by
  rw [HeaderWindow.sliceFrom, if_neg (by omega), hwindow]
  simp

theorem contains_front (hwindow : t.window.bytes = front ++ sofar) :
    t.window.contains (t.window.start + front.length) = !sofar.isEmpty := by
  simp only [HeaderWindow.contains, HeaderWindow.stop, hwindow, List.length_append]
  cases sofar with
  | nil => simp
  | cons b rest => simp

theorem get?_front {first : UInt8} {more : Bytes}
    (hwindow : t.window.bytes = front ++ first :: more) :
    t.window.get? (t.window.start + front.length) = some first := by
  rw [HeaderWindow.get?, contains_front hwindow, hwindow]
  simp

theorem absorb_front (hwindow : t.window.bytes = front ++ sofar) (bytes : Bytes) :
    (t.absorb bytes).window.bytes = front ++ (sofar ++ bytes) := by
  simp [absorb, hwindow]

/-- Completing a field of which some bytes are there, none of them behind it. -/
theorem completeField_reads
    (hdecode : ∀ bytes, decode bytes = (splitField limit tooWide bytes).map (Option.map value))
    (hroom : front.length + limit ≤ maxHeaderLength) (hwindow : t.window.bytes = front ++ sofar)
    (hne : sofar ≠ [])
    (hwithin : ∀ field, splitField limit tooWide sofar = .ok (some field) → field = sofar) :
    ∃ bytes outcome s', Hands s bytes s' ∧
      completeField decode (t.window.start + front.length) t s =
        ⟨outcome, t.absorb bytes, s'⟩ ∧
      FieldResult limit tooWide value t.window.start sofar bytes outcome := by
  unfold completeField
  rw [sliceFrom_front hwindow]
  rcases hsplit : splitField limit tooWide sofar with e | _ | field
  · simp only [hdecode, hsplit, Except.map]
    exact ⟨[], _, s, .refl s, by rw [absorb_nil], .spoilt (by simpa using hsplit) (.inl rfl)⟩
  · obtain ⟨first, more, rfl⟩ := List.exists_cons_of_ne_nil hne
    obtain ⟨hlimit, hshort⟩ := splitField_none hsplit
    rw [List.length_cons] at hshort
    have hlen : t.window.bytes.length = front.length + (more.length + 1) := by
      rw [hwindow, List.length_append, List.length_cons]
    obtain ⟨bytes, s', hhands, hfetch⟩ :=
      @fetch_takes σ _ t s (vintWidth first - (more.length + 1)) (by omega) (by omega)
    have hgrow : (more ++ bytes).length = more.length + bytes.length := List.length_append
    have hlack (hlt : bytes.length < vintWidth first - (more.length + 1)) :
        splitField limit tooWide (first :: (more ++ bytes)) = .ok none :=
      splitField_of_short hlimit (by omega)
    simp only [hdecode, hsplit, Except.map, Option.map_none, get?_front hwindow, List.length_cons]
    rcases hfetch with ⟨hfetch, hall⟩ | ⟨hfetch, hlt⟩ | ⟨e, hfetch, hlt⟩ <;> rw [hfetch]
    · -- The bytes wanted are those that the field lacked.
      have hfield : IsField limit (first :: more ++ bytes) :=
        ⟨by rw [List.cons_append, List.length_cons, hgrow]; omega,
          by rw [List.cons_append, List.length_cons, hgrow]; simp; omega⟩
      have hself : splitField limit tooWide (first :: more ++ bytes) =
          .ok (some (first :: more ++ bytes)) := by
        simpa using hfield.splitField_append []
      have hslice := sliceFrom_front (absorb_front hwindow bytes)
      rw [start_absorb] at hslice
      simp only [hslice, hself, Option.map_some]
      exact ⟨bytes, _, s', hhands, rfl, .complete hfield⟩
    · exact ⟨bytes, _, s', hhands, rfl, .lacking (hlack hlt)⟩
    · exact ⟨bytes, _, s', hhands, rfl, .failing e (hlack hlt)⟩
  · obtain rfl := hwithin field hsplit
    simp only [hdecode, hsplit, Except.map, Option.map_some]
    have hfield : IsField limit (field ++ []) := by
      rw [List.append_nil]
      exact (isField_of_splitField hsplit).1
    have hresult := @FieldResult.complete _ _ tooWide value t.window.start _ _ hfield
    rw [List.append_nil] at hresult
    exact ⟨[], _, s, .refl s, by rw [absorb_nil], hresult⟩

/-- Reading a field that is not complete yet. -/
theorem readField_reads
    (hdecode : ∀ bytes, decode bytes = (splitField limit tooWide bytes).map (Option.map value))
    (hpos : 0 < limit) (hroom : front.length + limit ≤ maxHeaderLength)
    (hwindow : t.window.bytes = front ++ sofar)
    (hopen : ∀ field, splitField limit tooWide sofar ≠ .ok (some field)) :
    ∃ bytes outcome s', Hands s bytes s' ∧
      readField decode (t.window.start + front.length) t s = ⟨outcome, t.absorb bytes, s'⟩ ∧
      FieldResult limit tooWide value t.window.start sofar bytes outcome := by
  unfold readField
  rw [contains_front hwindow]
  by_cases hempty : sofar = []
  · subst hempty
    have hlen : t.window.bytes.length = front.length := by simp [hwindow]
    obtain ⟨bytes, s', hhands, hfetch⟩ := @fetch_takes σ _ t s 1 Nat.one_pos (by omega)
    rw [if_neg (by simp)]
    rcases hfetch with ⟨hfetch, hall⟩ | ⟨hfetch, hlt⟩ | ⟨e, hfetch, hlt⟩ <;> rw [hfetch]
    · -- The first byte came: the rest of the field is read as if it had been there before.
      obtain ⟨first, rfl⟩ := List.length_eq_one_iff.mp hall
      have hsingle : ∀ field, splitField limit tooWide [first] = .ok (some field) →
          field = [first] := by
        intro field hsplit
        obtain ⟨hfield, rest, hrest⟩ := isField_of_splitField hsplit
        cases field with
        | nil => exact absurd rfl hfield.ne_nil
        | cons b more => simp_all
      obtain ⟨bytes, outcome, s'', hhands', hcomplete, hresult⟩ :=
        @completeField_reads σ α _ (t.absorb [first]) s' limit tooWide value decode front [first]
          hdecode hroom (absorb_front hwindow _) (by simp) hsingle
      rw [start_absorb, absorb_absorb] at hcomplete
      exact ⟨first :: bytes, outcome, s'', hhands.trans hhands', hcomplete, hresult.of_first⟩
    · obtain rfl := List.eq_nil_of_length_eq_zero (Nat.lt_one_iff.mp hlt)
      exact ⟨[], _, s', hhands, rfl, .lacking rfl⟩
    · obtain rfl := List.eq_nil_of_length_eq_zero (Nat.lt_one_iff.mp hlt)
      exact ⟨[], _, s', hhands, rfl, .failing e rfl⟩
  · rw [if_pos (by simpa using hempty)]
    exact completeField_reads hdecode hroom hwindow hempty
      fun field hsplit => absurd hsplit (hopen field)

end

end Ebml.Scanner
