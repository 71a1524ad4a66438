import Mathlib.Data.List.Forall2
import Ebml.Proofs.Document.Transcript
import Ebml.Proofs.Scanner.Session

/-!
# Documents with something in front

What follows in a document does not depend on how many bytes and elements came before. With one more
element in front, what starts behind it is counted one higher and lies further on by its length, and
masters that were open before stay what they were. Two such places (`Place.Moved`) have the same
turns, and so the same transcript but for numbers and offsets (`Place.Moved.transcript_eq`).
-/

namespace Ebml

/-! ## Numbers and offsets -/

/-- The element when one more comes before number `n`: it counts from there on. -/
def Occurrence.renumber (n : Nat) (o : Occurrence) : Occurrence :=
  if n ≤ o.index then { o with index := o.index + 1 } else o

namespace Occurrence

variable {n : Nat} {o o' : Occurrence}

theorem renumber_of_le (h : n ≤ o.index) : o.renumber n = ⟨o.decl, o.index + 1⟩ := if_pos h

theorem renumber_of_lt (h : o.index < n) : o.renumber n = o := if_neg (Nat.not_le_of_lt h)

theorem decl_renumber (n : Nat) (o : Occurrence) : (o.renumber n).decl = o.decl := by
  unfold renumber
  split <;> rfl

/-- Elements with different numbers keep different ones. -/
theorem index_renumber_inj :
    (o.renumber n).index = (o'.renumber n).index ↔ o.index = o'.index := by
  by_cases h : n ≤ o.index
  · rw [renumber_of_le h]
    by_cases h' : n ≤ o'.index
    · rw [renumber_of_le h']
      exact Nat.add_right_cancel_iff
    · rw [renumber_of_lt (by omega)]
      dsimp only
      omega
  · rw [@renumber_of_lt n o (by omega)]
    by_cases h' : n ≤ o'.index
    · rw [renumber_of_le h']
      dsimp only
      omega
    · rw [renumber_of_lt (by omega)]

end Occurrence

/-- The event when one more element comes before number `n`. -/
def Event.renumber (n : Nat) : Event → Event
  | start o size header path =>
    .start (o.renumber n) size header (path.map (Occurrence.renumber n))
  | content o chunk => .content (o.renumber n) chunk
  | finish o path => .finish (o.renumber n) (path.map (Occurrence.renumber n))

/-- The error when `d` more bytes come before it. -/
def ScanError.moveBy (d : Nat) : ScanError → ScanError
  | header offset e => .header (offset + d) e
  | unknownLengthLeaf id name offset => .unknownLengthLeaf id name (offset + d)
  | unknownLengthUnresolved id offset => .unknownLengthUnresolved id (offset + d)
  | invalidState detail offset => .invalidState detail (offset + d)
  | io e => .io e

/-- The events and the ending with an element of `d` bytes before number `n`. -/
def Transcript.move (n d : Nat) (r : Transcript) : Transcript :=
  ⟨r.events.map (Event.renumber n), r.ending.mapError (ScanError.moveBy d)⟩

theorem Transcript.move_after (n d : Nat) (earlier : List Event) (r : Transcript) :
    (r.after earlier).move n d = (r.move n d).after (earlier.map (Event.renumber n)) := by
  simp [after, move]

open Scanner (pathOf finishAll)

/-- The rest of a leaf is told with its new number. -/
theorem restOfLeaf_renumber (n : Nat) (o : Occurrence) (path : List Occurrence) (bytes : Bytes) :
    restOfLeaf (some (o.renumber n)) (path.map (Occurrence.renumber n)) bytes =
      (restOfLeaf (some o) path bytes).map (Event.renumber n) := by
  rw [restOfLeaf, restOfLeaf, List.map_append, dataEvents, dataEvents, List.map_map]
  rfl

/-! ## Places that were moved -/

/-- The same master further on: it ends where it did, if it has a known end. A master of unknown
length that was open before has not moved. -/
structure OpenMaster.Moved (n d : Nat) (m m' : OpenMaster) : Prop where
  element_eq : m'.element = m.element.renumber n
  stop_eq : m'.stop? = m.stop?.map (· + d)

/-- The same place with an element of `d` bytes before number `n`. -/
structure Place.Moved (n d : Nat) (p p' : Place) : Prop where
  stack : List.Forall₂ (OpenMaster.Moved n d) p.stack p'.stack
  offset_eq : p'.offset = p.offset + d
  index_eq : p'.index = p.index + 1
  rest_eq : p'.rest = p.rest
  le_index : n ≤ p.index

/-- The same turn with an element of `d` bytes before number `n`. -/
inductive Turn.Moved (n d : Nat) : Turn → Turn → Prop
  | fails (e : ScanError) : Moved n d (.fails e) (.fails (e.moveBy d))
  | ends : Moved n d .ends .ends
  | goes (events : List Event) {next next' : Place} :
      next.Moved n d next' → Moved n d (.goes events next) (.goes (events.map (Event.renumber n)) next')

section

variable {n d : Nat} {stack stack' : List OpenMaster}

theorem pathOf_moved (h : List.Forall₂ (OpenMaster.Moved n d) stack stack') :
    pathOf stack' = (pathOf stack).map (Occurrence.renumber n) := by
  induction h with
  | nil => rfl
  | cons hm _ ih =>
    rw [Scanner.pathOf_cons, Scanner.pathOf_cons, List.map_append, ih, hm.element_eq]
    rfl

theorem finishAll_moved (h : List.Forall₂ (OpenMaster.Moved n d) stack stack') :
    finishAll stack' = (finishAll stack).map (Event.renumber n) := by
  induction h with
  | nil => rfl
  | cons hm hrest ih =>
    rw [finishAll, finishAll, List.map_cons, ih, pathOf_moved hrest, hm.element_eq]
    rfl

/-- Offsets that grow alike compare alike. -/
theorem exhausted_moved (h : List.Forall₂ (OpenMaster.Moved n d) stack stack') (offset : Nat) :
    (stack'.any fun m => m.stop?.any (· ≤ offset + d)) =
      stack.any fun m => m.stop?.any (· ≤ offset) := by
  induction h with
  | nil => rfl
  | cons hm _ ih =>
    rw [List.any_cons, List.any_cons, ih, hm.stop_eq]
    congr 1
    rw [Option.any_map]
    simp

end

namespace Place.Moved

variable {n d : Nat} {p p' : Place} {schema : Schema} {decl : ElementDecl} {m m' : OpenMaster}

theorem isExhausted_eq (h : p.Moved n d p') : p'.isExhausted = p.isExhausted := by
  rw [isExhausted, h.offset_eq]
  exact exhausted_moved h.stack p.offset

theorem endsByLevel_eq (h : p.Moved n d p') (hm : m.Moved n d m') (decl : ElementDecl) :
    p'.endsByLevel decl m' = p.endsByLevel decl m := by
  rw [endsByLevel, endsByLevel, hm.element_eq, Occurrence.decl_renumber, hm.stop_eq, h.offset_eq,
    Option.any_map]
  simp

/-- The element that starts here counts one higher. -/
theorem element_eq (h : p.Moved n d p') (decl : ElementDecl) :
    (⟨decl, p'.index⟩ : Occurrence) = Occurrence.renumber n ⟨decl, p.index⟩ := by
  rw [Occurrence.renumber_of_le h.le_index, h.index_eq]

theorem skip (h : p.Moved n d p') (k : Nat) : (p.skip k).Moved n d (p'.skip k) where
  stack := h.stack
  offset_eq := by
    show p'.offset + k = p.offset + k + d
    rw [h.offset_eq, Nat.add_right_comm]
  index_eq := congrArg (· + 1) h.index_eq
  rest_eq := congrArg (List.drop k) h.rest_eq
  le_index := Nat.le_succ_of_le h.le_index

theorem leave {outer outer' : List OpenMaster} (h : p.Moved n d p')
    (houter : List.Forall₂ (OpenMaster.Moved n d) outer outer') :
    (p.leave outer).Moved n d (p'.leave outer') :=
  ⟨houter, h.offset_eq, h.index_eq, h.rest_eq, h.le_index⟩

theorem enter (h : p.Moved n d p') (decl : ElementDecl) (size : DataSize) (used : Nat) :
    (p.enter decl size used).Moved n d (p'.enter decl size used) := by
  have hskip := h.skip used
  refine ⟨.cons ⟨h.element_eq decl, ?_⟩ h.stack, hskip.offset_eq, hskip.index_eq, hskip.rest_eq,
    hskip.le_index⟩
  rw [OpenMaster.stop?, OpenMaster.stop?, Option.map_map]
  dsimp only
  rw [h.offset_eq]
  congr 1
  funext k
  simp only [Function.comp_apply]
  omega

/-! ### Turns -/

theorem begin (h : p.Moved n d p') (decl : ElementDecl) (size : DataSize) (used : Nat) :
    Turn.Moved n d (p.begin decl size used) (p'.begin decl size used) := by
  have hstart : Event.start ⟨decl, p'.index⟩ size (p'.rest.take used) (pathOf p'.stack) =
      (Event.start ⟨decl, p.index⟩ size (p.rest.take used) (pathOf p.stack)).renumber n := by
    rw [h.element_eq, h.rest_eq, pathOf_moved h.stack]
    rfl
  have henter := h.enter decl size used
  unfold Place.begin
  cases size with
  | unknown =>
    dsimp only
    rw [hstart]
    exact .goes [_] henter
  | known k =>
    dsimp only
    -- A leaf that is all there is passed with its data, which is renumbered with it.
    split
    · rw [hstart]
      exact .goes [_] henter
    · rw [hstart, h.element_eq, h.rest_eq, pathOf_moved h.stack, restOfLeaf_renumber]
      exact .goes (_ :: _) (h.skip (used + k))

theorem declared (h : p.Moved n d p') (decl : ElementDecl) (size : DataSize) (used : Nat) :
    Turn.Moved n d (p.declared decl size used) (p'.declared decl size used) := by
  have hbegin := h.begin decl size used
  have hleave := @leave n d p p'
  have hlevel := @endsByLevel_eq n d p p'
  have hstack := h.stack
  unfold Place.declared
  generalize p.stack = stack at *
  generalize p'.stack = stack' at *
  cases hstack with
  | nil => exact hbegin
  | cons hm hrest =>
    dsimp only
    rw [hlevel h hm]
    split
    · rw [hm.element_eq, pathOf_moved hrest]
      exact .goes [.finish _ _] (hleave h hrest)
    · exact hbegin

theorem follow (h : p.Moved n d p') (schema : Schema) (header : Header) (used : Nat) :
    Turn.Moved n d (p.follow schema header used) (p'.follow schema header used) := by
  unfold Place.follow
  rw [h.offset_eq]
  split
  · exact .fails _
  · exact .goes [] (h.skip _)
  · split
    · exact .fails _
    · exact h.declared _ _ used

theorem turn (h : p.Moved n d p') (schema : Schema) :
    Turn.Moved n d (p.turn schema) (p'.turn schema) := by
  have hsame := h.isExhausted_eq
  cases hexhausted : p.isExhausted with
  | true =>
    rw [hexhausted] at hsame
    -- At its end a master is left, in the moved place the one that it was moved to.
    obtain ⟨m, outer, hstack⟩ : ∃ m outer, p.stack = m :: outer := by
      apply List.exists_cons_of_ne_nil
      intro hnil
      simp [isExhausted, hnil] at hexhausted
    have hmoved := h.stack
    rw [hstack, List.forall₂_cons_left_iff] at hmoved
    obtain ⟨m', outer', hm, houter, hstack'⟩ := hmoved
    rw [turn_of_exhausted hstack hexhausted, turn_of_exhausted hstack' hsame, hm.element_eq,
      pathOf_moved houter]
    exact .goes [.finish _ _] (h.leave houter)
  | false =>
    rw [hexhausted] at hsame
    -- The same bytes follow in both places, so the same header is read.
    rw [turn_of_not_exhausted hexhausted, turn_of_not_exhausted hsame, h.rest_eq]
    split
    · rw [h.offset_eq]
      exact .fails _
    · exact .ends
    · exact h.follow schema _ _

/-! ### Transcripts -/

/-- What follows is the same but for numbers and offsets. -/
theorem transcript_eq (h : p.Moved n d p') (schema : Schema) :
    p'.transcript schema = (p.transcript schema).move n d := by
  -- The two places take their turns together, and each turn keeps them apart by as much as before.
  fun_induction Place.transcript schema p generalizing p' with
  | case1 p e hturn =>
    have hmoved := h.turn schema
    rw [hturn] at hmoved
    generalize hturn' : p'.turn schema = turn' at hmoved
    cases hmoved
    exact transcript_of_fails hturn'
  | case2 p hturn =>
    have hmoved := h.turn schema
    rw [hturn] at hmoved
    generalize hturn' : p'.turn schema = turn' at hmoved
    cases hmoved
    rw [transcript_of_ends hturn', finishAll_moved h.stack]
    rfl
  | case3 p events next hturn ih =>
    have hmoved := h.turn schema
    rw [hturn] at hmoved
    generalize hturn' : p'.turn schema = turn' at hmoved
    cases hmoved with
    | goes _ hnext => rw [transcript_of_goes hturn', ih hnext, Transcript.move_after]

end Place.Moved

/-! ## What starts in a transcript -/

theorem not_start_of_mem_restOfLeaf {o o' : Occurrence} {size : DataSize} {header bytes : Bytes}
    {path path' : List Occurrence} (h : .start o' size header path' ∈ restOfLeaf (some o) path bytes) :
    False := by
  rcases List.mem_append.mp h with hdata | hend
  · obtain ⟨b, -, heq⟩ := List.mem_map.mp hdata
    simp at heq
  · simp at hend

/-- Nothing that was passed before starts again. -/
theorem Place.le_of_mem_transcript {schema : Schema} {p : Place} {o : Occurrence} {size : DataSize}
    {header : Bytes} {path : List Occurrence}
    (h : .start o size header path ∈ (p.transcript schema).events) : p.index ≤ o.index := by
  -- Numbers are given in order, so the induction is over the turns, none of which lowers the
  -- number.
  fun_induction Place.transcript schema p with
  | case1 => simp at h
  | case2 p =>
    obtain ⟨_, _, heq⟩ := Scanner.finish_of_mem_finishAll h
    simp at heq
  | case3 p events next hturn ih =>
    rcases List.mem_append.mp h with hnow | hlater
    · cases goes_of_turn hturn with
      | leave => simp at hnow
      | skip => simp at hnow
      | enter => simp_all
      | leaf =>
        rcases List.mem_cons.mp hnow with heq | hrest
        · simp_all
        · exact (not_start_of_mem_restOfLeaf hrest).elim
    · have hle := ih hlater
      cases goes_of_turn hturn with
      | leave => exact hle
      | skip => exact Nat.le_of_succ_le hle
      | enter => exact Nat.le_of_succ_le hle
      | leaf => exact Nat.le_of_succ_le hle

end Ebml
