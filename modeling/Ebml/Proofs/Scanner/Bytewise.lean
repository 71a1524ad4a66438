import Ebml.Proofs.Scanner.Forecast

/-!
# Scanning byte by byte

However many bytes a transition takes, it can be taken apart into moves that need no byte (`silent`)
and moves that take one (`take`). A move of the first kind, where there is one, goes before the next
byte is looked at, so from one scanner there is only one way through given bytes (`Bytewise.unique`).
This is why it does not matter in which pieces bytes arrive, and where a scan paused on its way.

The one thing that a failing source can change is when an element gets its number. So the moves are
those of scans in which the element at hand has none yet (`unnumbered`). Where a scan comes to rest,
what was read tells whether it has one (`eq_of_atRest`).
-/

namespace Ebml.Scanner

/-! ## Moves -/

/-- The same scan before the element at hand was given a number. -/
def unnumbered (t : Scanner) : Scanner :=
  { t with idNumber := none, given := t.nextIndex }

theorem unnumbered_of_idNumber {t : Scanner} (h : t.idNumber = none) : t.unnumbered = t := by
  rw [unnumbered, nextIndex_of_idNumber h, ← h]

theorem unnumbered_waiting (t : Scanner) (outcome : Except ScanError Progress) :
    (waiting outcome t).unnumbered = t.unnumbered := by
  rw [unnumbered, nextIndex_waiting]
  rfl

/-- The move of a scan that needs no byte, if there is one: its events and the scanner after it. -/
def silent (t : Scanner) : Option (List Event × Scanner) :=
  match t.phase with
  | .id =>
    match t.window.isEmpty && t.isExhausted, t.stack with
    | true, m :: rest => some ([.finish m.element (pathOf rest)], { t with stack := rest })
    | _, _ => none
  | .size .. => none
  | .resolve id size number =>
    match resolve id size number t with
    | (.ok (.moved events), t') => some (events, t')
    | _ => none
  | .content leaf stop =>
    if stop.any (· ≤ t.consumed) then some ([], { t with phase := .finished leaf }) else none
  | .finished leaf => some ((leaf.map (.finish · t.path)).toList, t.atBoundary)

/-- The move of a scan that takes the byte `b`. A field that is spoilt takes none. -/
def take (t : Scanner) (b : UInt8) : Option (List Event × Scanner) :=
  match t.phase with
  | .id =>
    match splitId t.window.bytes, splitId (t.window.bytes ++ [b]) with
    | .error _, _ => none
    | .ok _, .ok (some field) =>
      some ([], { t.absorb [b] with
        phase := .size (beNat field) field.length (some t.given)
        given := t.given + 1 })
    | .ok _, _ => some ([], t.absorb [b])
  | .size id idWidth number =>
    match splitSize (t.window.bytes.drop idWidth),
      splitSize (t.window.bytes.drop idWidth ++ [b]) with
    | .error _, _ => none
    | .ok _, .ok (some field) =>
      some ([], { t.absorb [b] with phase := .resolve id (.ofField field) number })
    | .ok _, _ => some ([], t.absorb [b])
  | .content leaf stop =>
    if stop.any (· ≤ t.consumed) then none
    else
      some ((leaf.map (.content · [b])).toList,
        { t with
          consumed := t.consumed + 1
          phase := if stop.any (· ≤ t.consumed + 1) then .finished leaf else .content leaf stop })
  | .resolve .. => none
  | .finished _ => none

/-- Moves one after the other, with the bytes that they take and the events that they report. -/
inductive Bytewise : Scanner → Bytes → List Event → Scanner → Prop
  | refl (t : Scanner) : Bytewise t [] [] t
  | silent {t t' t'' : Scanner} {told events : List Event} {bytes : Bytes} :
      t.silent = some (told, t') → Bytewise t' bytes events t'' →
        Bytewise t bytes (told ++ events) t''
  | take {t t' t'' : Scanner} {b : UInt8} {told events : List Event} {bytes : Bytes} :
      t.silent = none → t.take b = some (told, t') → Bytewise t' bytes events t'' →
        Bytewise t (b :: bytes) (told ++ events) t''

theorem Bytewise.trans {t t' t'' : Scanner} {bytes more : Bytes} {events later : List Event}
    (h : Bytewise t bytes events t') (h' : Bytewise t' more later t'') :
    Bytewise t (bytes ++ more) (events ++ later) t'' := by
  induction h with
  | refl => exact h'
  | silent hsilent _ ih =>
    rw [List.append_assoc]
    exact .silent hsilent (ih h')
  | take hsilent htake _ ih =>
    rw [List.append_assoc]
    exact .take hsilent htake (ih h')

/-- A scan rests if it has no move but one that takes a byte, and none for the next byte to come. -/
structure Rests (t : Scanner) (rest : Bytes) : Prop where
  silent_eq : t.silent = none
  take_eq : ∀ b ∈ rest.head?, t.take b = none

/-- There is only one way for a scan to come to rest. -/
theorem Bytewise.unique {t t₁ t₂ : Scanner} {bytes₁ bytes₂ rest₁ rest₂ : Bytes}
    {events₁ events₂ : List Event} (h₁ : Bytewise t bytes₁ events₁ t₁)
    (h₂ : Bytewise t bytes₂ events₂ t₂) (hrest₁ : t₁.Rests rest₁) (hrest₂ : t₂.Rests rest₂)
    (hsame : bytes₁ ++ rest₁ = bytes₂ ++ rest₂) : bytes₁ = bytes₂ ∧ events₁ = events₂ ∧ t₁ = t₂ := by
  -- Each step of the first way leaves the second no choice: it is silent only where no byte can be
  -- taken, and the next byte is the same for both.
  induction h₁ generalizing bytes₂ events₂ with
  | refl t =>
    cases h₂ with
    | refl => exact ⟨rfl, rfl, rfl⟩
    | silent hsilent _ => simp [hrest₁.silent_eq] at hsilent
    | @take _ _ _ b _ _ _ _ htake _ =>
      rw [List.nil_append] at hsame
      have hnone := hrest₁.take_eq b (by simp [hsame])
      simp [hnone] at htake
  | silent hsilent _ ih =>
    cases h₂ with
    | refl => simp [hrest₂.silent_eq] at hsilent
    | silent hsilent' h₂ =>
      obtain ⟨rfl, rfl⟩ := Prod.mk.inj (Option.some.inj (hsilent.symm.trans hsilent'))
      obtain ⟨hbytes, hevents, ht⟩ := ih h₂ hrest₁ hsame
      exact ⟨hbytes, by rw [hevents], ht⟩
    | take hnone _ _ => simp [hnone] at hsilent
  | @take t _ _ b _ bytes _ hnone htake _ ih =>
    cases h₂ with
    | refl =>
      rw [List.nil_append] at hsame
      have hno := hrest₂.take_eq b (by simp [← hsame])
      simp [hno] at htake
    | silent hsilent _ => simp [hnone] at hsilent
    | take _ htake' h₂ =>
      rw [List.cons_append, List.cons_append] at hsame
      obtain ⟨rfl, hmore⟩ := List.cons.inj hsame
      obtain ⟨rfl, rfl⟩ := Prod.mk.inj (Option.some.inj (htake.symm.trans htake'))
      obtain ⟨rfl, rfl, rfl⟩ := ih h₂ hrest₁ hmore
      exact ⟨rfl, rfl, rfl⟩

/-- A scan that rests does nothing without a byte. -/
theorem Bytewise.eq_of_rests {t t' : Scanner} {events : List Event} {rest : Bytes}
    (h : Bytewise t [] events t') (hrests : t.Rests rest) : events = [] ∧ t' = t := by
  cases h with
  | refl => exact ⟨rfl, rfl⟩
  | silent hsilent _ => simp [hrests.silent_eq] at hsilent

/-- Of two ways, one through all of the bytes and one through a front of them, one leads on from the
other. -/
theorem Bytewise.comparable {t t₁ t₂ : Scanner} {bytes more : Bytes} {events₁ events₂ : List Event}
    (h₁ : Bytewise t bytes events₁ t₁) (h₂ : Bytewise t (bytes ++ more) events₂ t₂) :
    (∃ later, events₂ = events₁ ++ later ∧ Bytewise t₁ more later t₂) ∨
      ∃ later, more = [] ∧ events₁ = events₂ ++ later ∧ Bytewise t₂ [] later t₁ := by
  induction h₁ generalizing events₂ with
  | refl t => exact .inl ⟨events₂, rfl, h₂⟩
  | @silent t _ _ told events bytes hsilent hrest ih =>
    generalize hall : bytes ++ more = all at h₂
    cases h₂ with
    | refl =>
      -- The second way stands where the first one moves on without a byte.
      obtain ⟨rfl, rfl⟩ := List.append_eq_nil_iff.mp hall
      exact .inr ⟨told ++ events, rfl, rfl, .silent hsilent hrest⟩
    | silent hsilent' h₂ =>
      obtain ⟨rfl, rfl⟩ := Prod.mk.inj (Option.some.inj (hsilent.symm.trans hsilent'))
      subst hall
      rcases ih h₂ with ⟨later, rfl, hlater⟩ | ⟨later, hmore, rfl, hlater⟩
      · exact .inl ⟨later, (List.append_assoc ..).symm, hlater⟩
      · exact .inr ⟨later, hmore, (List.append_assoc ..).symm, hlater⟩
    | take hnone _ _ => simp [hnone] at hsilent
  | @take t _ _ b told events bytes hnone htake hrest ih =>
    generalize hall : b :: bytes ++ more = all at h₂
    cases h₂ with
    | refl => simp at hall
    | silent hsilent _ => simp [hnone] at hsilent
    | take _ htake' h₂ =>
      obtain ⟨rfl, rfl⟩ := List.cons.inj hall
      obtain ⟨rfl, rfl⟩ := Prod.mk.inj (Option.some.inj (htake.symm.trans htake'))
      rcases ih h₂ with ⟨later, rfl, hlater⟩ | ⟨later, hmore, rfl, hlater⟩
      · exact .inl ⟨later, (List.append_assoc ..).symm, hlater⟩
      · exact .inr ⟨later, hmore, (List.append_assoc ..).symm, hlater⟩

/-- A move that needs no byte tells no data. -/
theorem not_content_of_silent {t t' : Scanner} {told : List Event} (h : t.silent = some (told, t'))
    (o : Occurrence) (chunk : Bytes) : .content o chunk ∉ told := by
  unfold silent at h
  split at h
  · split at h
    · obtain ⟨rfl, -⟩ := Prod.mk.inj (Option.some.inj h)
      simp
    · simp at h
  · simp at h
  · split at h
    · rename_i events _ hresolve
      obtain ⟨rfl, -⟩ := Prod.mk.inj (Option.some.inj h)
      unfold resolve start at hresolve
      grind
    · simp at h
  · split at h
    · obtain ⟨rfl, -⟩ := Prod.mk.inj (Option.some.inj h)
      simp
    · simp at h
  · rename_i leaf _
    obtain ⟨rfl, -⟩ := Prod.mk.inj (Option.some.inj h)
    cases leaf <;> simp

/-- Without a byte no data is told. -/
theorem Bytewise.not_content {t t' : Scanner} {events : List Event} (h : Bytewise t [] events t')
    (o : Occurrence) (chunk : Bytes) : .content o chunk ∉ events := by
  generalize hnil : ([] : Bytes) = bytes at h
  induction h with
  | refl => simp
  | silent hsilent _ ih =>
    rw [List.mem_append, not_or]
    exact ⟨not_content_of_silent hsilent o chunk, ih hnil⟩
  | take => simp at hnil

/-! ## Transitions taken apart -/

/-- Bytes that only go into the header window are taken one by one. -/
theorem bytewise_absorb {t : Scanner} {bytes : Bytes}
    (h : ∀ before b after, bytes = before ++ b :: after →
      (t.absorb before).silent = none ∧
        (t.absorb before).take b = some ([], t.absorb (before ++ [b]))) :
    Bytewise t bytes [] (t.absorb bytes) := by
  induction bytes generalizing t with
  | nil => rw [absorb_nil]; exact .refl t
  | cons b rest ih =>
    obtain ⟨hsilent, htake⟩ := h [] b rest rfl
    rw [absorb_nil, List.nil_append] at htake
    rw [absorb_nil] at hsilent
    have hrest := @ih (t.absorb [b]) fun before b' after heq => by
      have hnext := h (b :: before) b' after (by rw [heq, List.cons_append])
      rwa [absorb_absorb, absorb_absorb]
    rw [absorb_absorb] at hrest
    exact .take hsilent htake hrest

section

variable {t : Scanner} {bytes : Bytes}

/-- Inside an id no move goes without a byte. -/
theorem silent_of_id (hphase : t.phase = .id) (hfront : t.window.bytes = [] → t.isExhausted = false) :
    t.silent = none := by
  simp only [silent, hphase]
  split
  · rename_i hcond _
    simp only [HeaderWindow.isEmpty, Bool.and_eq_true, List.isEmpty_iff] at hcond
    simp [hfront hcond.1] at hcond
  · rfl

theorem silent_of_size {id width : Nat} {number : Option Nat}
    (hphase : t.phase = .size id width number) : t.silent = none := by
  simp only [silent, hphase]

theorem silent_of_content {leaf : Option Occurrence} {stop : Nat}
    (hphase : t.phase = .content leaf (some stop)) (hlt : t.consumed < stop) : t.silent = none := by
  simp [silent, hphase, hlt]

/-- A byte that does not make an id whole goes into the window. -/
theorem take_of_id {b : UInt8} {sofar : Option Bytes} (hphase : t.phase = .id)
    (hbefore : splitId t.window.bytes = .ok sofar)
    (hafter : ∀ field, splitId (t.window.bytes ++ [b]) ≠ .ok (some field)) :
    t.take b = some ([], t.absorb [b]) := by
  simp only [take, hphase, hbefore]

theorem take_of_size {b : UInt8} {sofar : Option Bytes} {id index : Nat} {idField part : Bytes}
    (hphase : t.phase = .size id idField.length (some index))
    (hwindow : t.window.bytes = idField ++ part)
    (hbefore : splitSize part = .ok sofar)
    (hafter : ∀ field, splitSize (part ++ [b]) ≠ .ok (some field)) :
    t.take b = some ([], t.absorb [b]) := by
  simp only [take, hphase, hwindow, List.drop_left, hbefore]

/-- The bytes of an id that lacks more are taken one by one. -/
theorem bytewise_id (hphase : t.phase = .id)
    (hfront : t.window.bytes = [] → t.isExhausted = false)
    (hnone : splitId (t.window.bytes ++ bytes) = .ok none) :
    Bytewise t bytes [] (t.absorb bytes) := by
  refine bytewise_absorb fun before b after heq => ?_
  rw [heq, ← List.singleton_append, ← List.append_assoc, ← List.append_assoc] at hnone
  have hlacks := splitField_front_of_none hnone
  refine ⟨silent_of_id hphase fun hnil => ?_, ?_⟩
  · obtain ⟨hempty, rfl⟩ := List.append_eq_nil_iff.mp hnil
    rw [absorb_nil]
    exact hfront hempty
  · rw [← absorb_absorb]
    refine take_of_id hphase (splitField_front_of_none hlacks) fun field hfield => ?_
    exact absurd (hlacks.symm.trans hfield) (by simp)

theorem bytewise_size {id index : Nat} {idField part : Bytes}
    (hphase : t.phase = .size id idField.length (some index))
    (hwindow : t.window.bytes = idField ++ part)
    (hnone : splitSize (part ++ bytes) = .ok none) : Bytewise t bytes [] (t.absorb bytes) := by
  refine bytewise_absorb fun before b after heq => ⟨silent_of_size hphase, ?_⟩
  rw [heq, ← List.singleton_append, ← List.append_assoc, ← List.append_assoc] at hnone
  have hlacks := splitField_front_of_none hnone
  rw [← absorb_absorb]
  refine take_of_size hphase (absorb_front hwindow before) (splitField_front_of_none hlacks)
    fun field hfield => ?_
  exact absurd (hlacks.symm.trans hfield) (by simp)

/-- The byte that makes an id whole starts the size. -/
theorem take_of_idField {b : UInt8} (hphase : t.phase = .id)
    (hfield : IsIdField (t.window.bytes ++ [b])) :
    t.take b = some ([], { t.absorb [b] with
      phase := .size (beNat (t.window.bytes ++ [b])) (t.window.bytes ++ [b]).length (some t.given)
      given := t.given + 1 }) := by
  have hbefore : splitId t.window.bytes = .ok none := hfield.splitField_front (by simp)
  have hafter : splitId (t.window.bytes ++ [b]) = .ok (some (t.window.bytes ++ [b])) := by
    simpa using splitId_append hfield []
  simp only [take, hphase, hbefore, hafter]

theorem take_of_sizeField {b : UInt8} {id index : Nat} {idField part : Bytes}
    (hphase : t.phase = .size id idField.length (some index))
    (hwindow : t.window.bytes = idField ++ part)
    (hfield : IsSizeField (part ++ [b])) :
    t.take b = some ([], { t.absorb [b] with
      phase := .resolve id (.ofField (part ++ [b])) (some index) }) := by
  have hbefore : splitSize part = .ok none := hfield.splitField_front (by simp)
  have hafter : splitSize (part ++ [b]) = .ok (some (part ++ [b])) := by
    simpa using splitSize_append hfield []
  simp only [take, hphase, hwindow, List.drop_left, hbefore, hafter]

/-- Data is taken byte by byte, and reported so. -/
theorem bytewise_content {leaf : Option Occurrence} {stop : Nat}
    (hphase : t.phase = .content leaf (some stop))
    (hne : bytes ≠ []) (hle : t.consumed + bytes.length ≤ stop) :
    Bytewise t bytes ((leaf.map (.content · bytes)).toList.flatMap Event.bytewise)
      { t with
        consumed := t.consumed + bytes.length
        phase := if stop ≤ t.consumed + bytes.length then .finished leaf
          else .content leaf (some stop) } := by
  induction bytes generalizing t with
  | nil => exact absurd rfl hne
  | cons b rest ih =>
    rw [List.length_cons] at hle
    have hlt : t.consumed < stop := by omega
    have hsilent := silent_of_content hphase hlt
    have htake : t.take b = some ((leaf.map (.content · [b])).toList, { t with
        consumed := t.consumed + 1
        phase := if stop ≤ t.consumed + 1 then .finished leaf else .content leaf (some stop) }) := by
      simp [take, hphase, hlt]
    -- The last byte may end the data. Before it the scan stays where it is, so the rest follows by
    -- induction.
    by_cases hrest : rest = []
    · subst hrest
      have hstep := Bytewise.take hsilent htake (.refl _)
      cases leaf <;> simpa [Event.bytewise, dataEvents] using hstep
    · have hmore := List.length_pos_iff.mpr hrest
      rw [if_neg (by omega)] at htake
      have hstep := Bytewise.take hsilent htake (ih rfl hrest (by dsimp only; omega))
      cases leaf <;> simpa [Event.bytewise, dataEvents, Nat.add_assoc, Nat.add_comm 1] using hstep

/-- One move that needs no byte. -/
theorem bytewise_of_silent {told : List Event} {t' : Scanner} (h : t.silent = some (told, t')) :
    Bytewise t [] told t' := by
  have hstep := Bytewise.silent h (.refl t')
  rwa [List.append_nil] at hstep

/-- One move that takes a byte. -/
theorem bytewise_of_take {b : UInt8} {told : List Event} {t' : Scanner} (hsilent : t.silent = none)
    (h : t.take b = some (told, t')) : Bytewise t [b] told t' := by
  have hstep := Bytewise.take hsilent h (.refl t')
  rwa [List.append_nil] at hstep

theorem silent_of_absorb_id (hphase : t.phase = .id)
    (hfront : t.window.bytes = [] → t.isExhausted = false) (bytes : Bytes) :
    (t.absorb bytes).silent = none := by
  refine silent_of_id hphase fun hnil => ?_
  obtain ⟨hempty, rfl⟩ := List.append_eq_nil_iff.mp hnil
  rw [absorb_nil]
  exact hfront hempty

/-- The bytes that make an id whole are taken one by one, and the last one starts the size. -/
theorem bytewise_idField (hphase : t.phase = .id)
    (hfront : t.window.bytes = [] → t.isExhausted = false) (hne : bytes ≠ [])
    (hfield : IsIdField (t.window.bytes ++ bytes)) :
    Bytewise t bytes [] { t.absorb bytes with
      phase :=
        .size (beNat (t.window.bytes ++ bytes)) (t.window.bytes ++ bytes).length (some t.given)
      given := t.given + 1 } := by
  obtain ⟨init, b, rfl⟩ : ∃ init b, bytes = init ++ [b] :=
    ⟨_, _, (List.dropLast_concat_getLast hne).symm⟩
  rw [← List.append_assoc] at hfield ⊢
  have hinit := bytewise_id hphase hfront (hfield.splitField_front (by simp))
  have hlast := bytewise_of_take (silent_of_absorb_id hphase hfront init)
    (take_of_idField hphase hfield)
  rw [absorb_absorb] at hlast
  exact hinit.trans hlast

theorem bytewise_sizeField {id index : Nat} {idField part : Bytes}
    (hphase : t.phase = .size id idField.length (some index))
    (hwindow : t.window.bytes = idField ++ part)
    (hne : bytes ≠ []) (hfield : IsSizeField (part ++ bytes)) :
    Bytewise t bytes [] { t.absorb bytes with
      phase := .resolve id (.ofField (part ++ bytes)) (some index) } := by
  obtain ⟨init, b, rfl⟩ : ∃ init b, bytes = init ++ [b] :=
    ⟨_, _, (List.dropLast_concat_getLast hne).symm⟩
  rw [← List.append_assoc] at hfield ⊢
  have hinit := bytewise_size hphase hwindow (hfield.splitField_front (by simp))
  have hphase' : (t.absorb init).phase = .size id idField.length (some index) := hphase
  have hlast := bytewise_of_take (silent_of_size hphase')
    (take_of_sizeField hphase' (absorb_front hwindow init) hfield)
  rw [absorb_absorb] at hlast
  exact hinit.trans hlast

/-- The byte that spoils a field is taken too, if it was not taken before. -/
theorem bytewise_idSpoilt {e : VintError} (hphase : t.phase = .id)
    (hfront : t.window.bytes = [] → t.isExhausted = false)
    (herror : splitId (t.window.bytes ++ bytes) = .error e)
    (hfirst : bytes = [] ∨ t.window.bytes = [] ∧ bytes.length = 1) :
    Bytewise t bytes [] (t.absorb bytes) := by
  rcases hfirst with rfl | ⟨hempty, hone⟩
  · rw [absorb_nil]
    exact .refl t
  · obtain ⟨b, rfl⟩ := List.length_eq_one_iff.mp hone
    have htake : t.take b = some ([], t.absorb [b]) :=
      take_of_id hphase (by rw [hempty]; exact splitField_nil) (by simp [herror])
    exact bytewise_of_take (silent_of_id hphase hfront) htake

theorem bytewise_sizeSpoilt {e : VintError} {id index : Nat} {idField part : Bytes}
    (hphase : t.phase = .size id idField.length (some index))
    (hwindow : t.window.bytes = idField ++ part) (herror : splitSize (part ++ bytes) = .error e)
    (hfirst : bytes = [] ∨ part = [] ∧ bytes.length = 1) :
    Bytewise t bytes [] (t.absorb bytes) := by
  rcases hfirst with rfl | ⟨rfl, hone⟩
  · rw [absorb_nil]
    exact .refl t
  · obtain ⟨b, rfl⟩ := List.length_eq_one_iff.mp hone
    have htake : t.take b = some ([], t.absorb [b]) :=
      take_of_size hphase hwindow splitField_nil fun field hfield =>
        absurd (herror.symm.trans hfield) (by simp)
    exact bytewise_of_take (silent_of_size hphase) htake

/-- At a boundary the innermost master ends if one is exhausted. -/
theorem silent_of_exhausted {m : OpenMaster} {rest : List OpenMaster} (hphase : t.phase = .id)
    (hempty : t.window.bytes = []) (hexhausted : t.isExhausted = true) (hstack : t.stack = m :: rest) :
    t.silent = some ([.finish m.element (pathOf rest)], { t with stack := rest }) := by
  simp [silent, hphase, HeaderWindow.isEmpty, hempty, hexhausted, hstack]

theorem silent_of_skip {id n : Nat} {number : Option Nat}
    (hphase : t.phase = .resolve id (.known n) number) (hnone : t.schema.get? id = none) :
    t.silent = some ([], { t with phase := .content none (some (t.window.stop + n)) }) := by
  simp only [silent, hphase, resolve, hnone]
  rfl

theorem silent_of_level {id : Nat} {number : Option Nat} {size : DataSize} {decl : ElementDecl}
    {m : OpenMaster} {rest : List OpenMaster} (hphase : t.phase = .resolve id size number)
    (hdecl : t.schema.get? id = some decl) (hknown : (size.isUnknown && !decl.isMaster) = false)
    (hstack : t.stack = m :: rest) (hlevel : t.closesByLevel decl m = true) :
    t.silent = some ([.finish m.element (pathOf rest)], { t with stack := rest }) := by
  simp [silent, hphase, resolve, hdecl, hknown, hstack, hlevel]

/-- An element that can start and closes no master starts. -/
theorem silent_of_enter {id index : Nat} {size : DataSize} {decl : ElementDecl}
    (hphase : t.phase = .resolve id size (some index)) (hdecl : t.schema.get? id = some decl)
    (hknown : (size.isUnknown && !decl.isMaster) = false)
    (hstay : ∀ m ∈ t.stack.head?, t.closesByLevel decl m = false) :
    t.silent = some ([.start ⟨decl, index⟩ size t.window.bytes t.path],
      t.enter decl size index) := by
  simp only [silent, hphase, resolve, start, hdecl, hknown]
  cases hstack : t.stack with
  | nil => simp
  | cons m rest => simp [hstay m (by simp [hstack])]

theorem silent_of_over {leaf : Option Occurrence} {stop : Nat}
    (hphase : t.phase = .content leaf (some stop)) (hover : stop ≤ t.consumed) :
    t.silent = some ([], { t with phase := .finished leaf }) := by
  simp [silent, hphase, hover]

theorem silent_of_finished {leaf : Option Occurrence} (hphase : t.phase = .finished leaf) :
    t.silent = some ((leaf.map (.finish · t.path)).toList, t.atBoundary) := by
  simp only [silent, hphase]

/-- Behind its id an element has its number for good. -/
theorem Coherent.unnumbered_eq (h : t.Coherent) (hphase : t.phase ≠ .id) : t.unnumbered = t := by
  apply unnumbered_of_idNumber
  unfold Coherent at h
  split at h
  · rename_i hid
    exact absurd hid hphase
  · exact h.2.1.1
  · exact h.2.1.1
  · exact h.1
  · exact h
  · exact h.elim
  · exact h.elim
  · exact h.elim

/-- Every transition can be taken apart into moves. -/
theorem Transition.bytewise {t' : Scanner} {outcome : Except ScanError Progress}
    (h : Transition t bytes outcome t') (hco : t.Coherent) :
    Bytewise t.unnumbered bytes ((reported outcome).flatMap Event.bytewise) t'.unnumbered := by
  cases h with
  | closeExhausted hphase hempty hexhausted hstack =>
    exact bytewise_of_silent (@silent_of_exhausted t.unnumbered _ _ hphase hempty hexhausted hstack)
  | idLacking hphase hfront hnone hwaits =>
    rw [reported_of_waits hwaits, unnumbered_waiting]
    exact @bytewise_id t.unnumbered _ hphase hfront hnone
  | idSpoilt hphase hfront herror hfirst =>
    exact @bytewise_idSpoilt t.unnumbered _ _ hphase hfront herror hfirst
  | idRead hphase hfront hfield =>
    refine @bytewise_idField t.unnumbered _ hphase hfront ?_ hfield
    rintro rfl
    -- The id was whole before.
    simp only [Coherent, hphase] at hco
    exact hco.2.1 _ (by simpa using splitId_append hfield [])
  | sizeLacking hphase hwindow hnone hwaits =>
    rw [reported_of_waits hwaits]
    exact @bytewise_size t.unnumbered _ _ _ _ _ hphase hwindow hnone
  | sizeSpoilt hphase hwindow herror hfirst =>
    exact @bytewise_sizeSpoilt t.unnumbered _ _ _ _ _ _ hphase hwindow herror hfirst
  | sizeRead hphase hwindow hfield =>
    refine @bytewise_sizeField t.unnumbered _ _ _ _ _ hphase hwindow ?_ hfield
    rintro rfl
    exact hco.size_open hphase hwindow _ (by simpa using splitSize_append hfield [])
  | skip hphase hnone => exact bytewise_of_silent (@silent_of_skip t.unnumbered _ _ _ hphase hnone)
  | refuseUnresolved => exact .refl _
  | refuseLeaf => exact .refl _
  | closeLevel hphase hdecl hknown hstack hlevel =>
    exact bytewise_of_silent
      (@silent_of_level t.unnumbered _ _ _ _ _ _ hphase hdecl hknown hstack hlevel)
  | enterMaster hphase hdecl hmaster hstay =>
    have hmove := silent_of_enter hphase hdecl (by simp [hmaster]) hstay
    rw [enter, if_pos hmaster] at hmove
    rw [hco.unnumbered_eq (by simp [hphase])]
    exact bytewise_of_silent hmove
  | enterLeaf hphase hdecl hleaf hstay =>
    have hmove := @silent_of_enter t.unnumbered _ _ _ _ hphase hdecl rfl hstay
    rw [enter, if_neg (by simp [hleaf])] at hmove
    exact bytewise_of_silent hmove
  | contentOver hphase hover =>
    exact bytewise_of_silent (@silent_of_over t.unnumbered _ _ hphase hover)
  | contentLacking _ _ hwaits =>
    rw [reported_of_waits hwaits]
    exact .refl _
  | contentRead hphase hne hle => exact @bytewise_content t.unnumbered _ _ _ hphase hne hle
  | @finish leaf hphase =>
    have hstep := bytewise_of_silent (silent_of_finished hphase)
    rw [hco.unnumbered_eq (by simp [hphase])]
    cases leaf <;> exact hstep

theorem Trail.bytewise {t' : Scanner} {events : List Event} (h : Trail t bytes events t')
    (hco : t.Coherent) :
    Bytewise t.unnumbered bytes (events.flatMap Event.bytewise) t'.unnumbered := by
  induction h with
  | refl t => exact .refl _
  | step hstep _ ih =>
    rw [List.flatMap_append]
    exact (hstep.bytewise hco).trans (ih (hstep.coherent hco))

/-! ## Coming to rest -/

/-- A scan that rests, its number settled: an element has one as soon as a byte of its id is held,
unless the id is spoilt. -/
structure AtRest (t : Scanner) (rest : Bytes) : Prop where
  rests : t.unnumbered.Rests rest
  numbered : t.phase = .id → t.window.bytes ≠ [] → splitId t.window.bytes = .ok none →
    t.idNumber.isSome

/-- A scan that lacks bytes is at rest at their end. -/
theorem Lacking.atRest (h : t.Lacking) : t.AtRest [] := by
  unfold Lacking at h
  split at h
  · rename_i hphase
    exact ⟨⟨@silent_of_id t.unnumbered hphase h.2.1, by simp⟩, fun _ hne _ => h.2.2 hne⟩
  · rename_i hphase
    exact ⟨⟨@silent_of_size t.unnumbered _ _ _ hphase, by simp⟩, fun hid => by simp [hphase] at hid⟩
  · rename_i hphase
    exact ⟨⟨@silent_of_content t.unnumbered _ _ hphase h, by simp⟩,
      fun hid => by simp [hphase] at hid⟩
  · exact h.elim

/-- A scan that failed for what it read is at rest whatever follows. -/
theorem Transition.atRest_of_error {t' : Scanner} {e : ScanError}
    (h : Transition t bytes (.error e) t') (hio : ∀ cause, e ≠ .io cause) (rest : Bytes) :
    t'.AtRest rest := by
  -- What was wrong is still there, so the scan takes no more bytes. In the phases that wait for
  -- bytes only the source can fail, which is left out here.
  cases h with
  | idLacking _ _ _ hwaits =>
    cases hwaits
    exact absurd rfl (hio _)
  | idSpoilt hphase hfront herror =>
    refine ⟨⟨@silent_of_absorb_id t.unnumbered hphase hfront bytes, fun b _ => ?_⟩,
      fun _ _ hnone => absurd (herror.symm.trans hnone) (by simp)⟩
    simp [take, unnumbered, hphase, herror]
  | sizeLacking _ _ _ hwaits =>
    cases hwaits
    exact absurd rfl (hio _)
  | sizeSpoilt hphase hwindow herror =>
    have hphase' : (t.absorb bytes).unnumbered.phase = _ := hphase
    have hwindow' : (t.absorb bytes).unnumbered.window.bytes = _ := absorb_front hwindow bytes
    refine ⟨⟨silent_of_size hphase', fun b _ => ?_⟩, fun hid => by simp [hphase] at hid⟩
    simp only [take, hphase', hwindow', List.drop_left, herror]
  | refuseUnresolved hphase hnone =>
    exact ⟨⟨by simp [silent, unnumbered, hphase, resolve, hnone, DataSize.isUnknown],
      fun b _ => by simp [take, unnumbered, hphase]⟩, fun hid => by simp [hphase] at hid⟩
  | refuseLeaf hphase hdecl hleaf =>
    exact ⟨⟨by simp [silent, unnumbered, hphase, resolve, hdecl, hleaf, DataSize.isUnknown],
      fun b _ => by simp [take, unnumbered, hphase]⟩, fun hid => by simp [hphase] at hid⟩
  | contentLacking _ _ hwaits =>
    cases hwaits
    exact absurd rfl (hio _)

/-- What has a number while its id is read has a part of the id held that is not spoilt. -/
theorem Coherent.held_of_idNumber (h : t.Coherent) {n : Nat} (hn : t.idNumber = some n) :
    t.phase = .id ∧ t.window.bytes ≠ [] ∧ splitId t.window.bytes = .ok none ∧ t.given = n + 1 := by
  have hphase : t.phase = .id := Classical.byContradiction fun hne => by
    have hnone : none = t.idNumber := congrArg Scanner.idNumber (h.unnumbered_eq hne)
    simp [hn] at hnone
  simp only [Coherent, hphase] at h
  obtain ⟨-, hopen, -, hheld⟩ := h
  obtain ⟨hne, hgiven⟩ := hheld.latest n hn
  refine ⟨hphase, hne, ?_, hgiven⟩
  rcases hsplit : splitId t.window.bytes with e | _ | field
  · simp [hheld.spoilt e hsplit] at hn
  · rfl
  · exact absurd hsplit (hopen field)

/-- At rest what was read tells whether the element at hand has a number. -/
theorem eq_of_atRest {t' : Scanner} {rest rest' : Bytes} (hco : t.Coherent) (hco' : t'.Coherent)
    (hrest : t.AtRest rest) (hrest' : t'.AtRest rest') (h : t.unnumbered = t'.unnumbered) : t = t' := by
  have hphase : t.phase = t'.phase := congrArg (·.phase) h
  have hwindow : t.window = t'.window := congrArg (·.window) h
  have hnext : t.nextIndex = t'.nextIndex := congrArg (·.given) h
  have hnumber : t.idNumber = t'.idNumber ∧ t.given = t'.given := by
    cases hn : t.idNumber with
    | none =>
      cases hn' : t'.idNumber with
      | none => exact ⟨rfl, by rwa [nextIndex_of_idNumber hn, nextIndex_of_idNumber hn'] at hnext⟩
      | some n' =>
        obtain ⟨hid, hne, hnone, -⟩ := hco'.held_of_idNumber hn'
        rw [← hphase] at hid
        rw [← hwindow] at hne hnone
        simpa [hn] using hrest.numbered hid hne hnone
    | some n =>
      obtain ⟨hid, hne, hnone, hgiven⟩ := hco.held_of_idNumber hn
      rw [hphase] at hid
      rw [hwindow] at hne hnone
      obtain ⟨n', hn'⟩ := Option.isSome_iff_exists.mp (hrest'.numbered hid hne hnone)
      obtain ⟨-, -, -, hgiven'⟩ := hco'.held_of_idNumber hn'
      obtain rfl : n = n' := by simpa [nextIndex, hn, hn'] using hnext
      exact ⟨hn'.symm, hgiven.trans hgiven'.symm⟩
  -- But for the number the two were the same anyway.
  cases t
  cases t'
  simp only [unnumbered, Scanner.mk.injEq] at h hnumber ⊢
  exact ⟨h.1, h.2.1, h.2.2.1, h.2.2.2.1, h.2.2.2.2.1, h.2.2.2.2.2.1, hnumber.2, hnumber.1,
    h.2.2.2.2.2.2.2.2⟩

end

end Ebml.Scanner
