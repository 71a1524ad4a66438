import Ebml.Proofs.Vint.Field
import Ebml.Scanner

/-!
# Documents that are there as a whole

What a document says can be read off its bytes without a scanner: at every place the next header
decides what comes next (`Place.turn`), and taking turns to the end gives all events and how the
document ends (`Place.transcript`). Nothing here waits or pauses, no header comes in parts, and data
is told byte by byte, so there is only one way to tell it.
-/

namespace Ebml

/-! ## Telling data byte by byte -/

/-- The data of an element, each byte on its own. -/
def dataEvents (o : Occurrence) (bytes : Bytes) : List Event :=
  bytes.map fun b => .content o [b]

theorem dataEvents_append (o : Occurrence) (bytes more : Bytes) :
    dataEvents o (bytes ++ more) = dataEvents o bytes ++ dataEvents o more :=
  List.map_append

/-- An event, but data byte by byte. -/
def Event.bytewise : Event → List Event
  | content o chunk => dataEvents o chunk
  | event => [event]

/-- What is left to tell of an element without children: its data and its end. Elements outside the
schema are not told. -/
def restOfLeaf (leaf : Option Occurrence) (path : List Occurrence) (bytes : Bytes) : List Event :=
  match leaf with
  | none => []
  | some o => dataEvents o bytes ++ [.finish o path]

/-- A piece of the data can be told first. -/
theorem restOfLeaf_append (leaf : Option Occurrence) (path : List Occurrence) (bytes more : Bytes) :
    restOfLeaf leaf path (bytes ++ more) =
      (leaf.map (.content · bytes)).toList.flatMap Event.bytewise ++ restOfLeaf leaf path more := by
  cases leaf with
  | none => rfl
  | some o => simp [restOfLeaf, dataEvents_append, Event.bytewise]

/-- Behind the data only the end is left to tell. -/
theorem restOfLeaf_nil (leaf : Option Occurrence) (path : List Occurrence) :
    restOfLeaf leaf path [] = (leaf.map (.finish · path)).toList.flatMap Event.bytewise := by
  cases leaf <;> rfl

/-- The events of a document or of what is left of it, and how it ends. -/
structure Transcript where
  events : List Event
  ending : Except ScanError Unit

namespace Transcript

/-- The same with some events before it. -/
def after (earlier : List Event) (r : Transcript) : Transcript :=
  { r with events := earlier ++ r.events }

@[simp] theorem after_nil (r : Transcript) : r.after [] = r := rfl

theorem after_append (earlier more : List Event) (r : Transcript) :
    r.after (earlier ++ more) = (r.after more).after earlier := by
  simp [after]

end Transcript

open Scanner (pathOf finishAll)

/-! ## Places and turns -/

/-- A place between two elements: the open masters, the offset, the number of the next element, and
all bytes from there on. -/
structure Place where
  stack : List OpenMaster := []
  offset : Nat := 0
  index : Nat := 0
  rest : Bytes

/-- What comes next. -/
inductive Turn
  | fails (e : ScanError)
  | ends
  | goes (events : List Event) (next : Place)

namespace Place

/-- Whether an open master of known length ends here or ended before. -/
def isExhausted (p : Place) : Bool :=
  p.stack.any fun m => m.stop?.any (· ≤ p.offset)

/-- Whether an element of the given declaration, starting here, ends the master `m`. -/
def endsByLevel (p : Place) (decl : ElementDecl) (m : OpenMaster) : Bool :=
  !decl.isGlobal && decl.level ≤ m.element.decl.level && !m.stop?.any (p.offset < ·)

/-- The place behind an element of `n` bytes, or behind all bytes if there are fewer. -/
def skip (p : Place) (n : Nat) : Place :=
  { p with offset := p.offset + n, index := p.index + 1, rest := p.rest.drop n }

/-- The place inside a master that has a header of `used` bytes. -/
def enter (p : Place) (decl : ElementDecl) (size : DataSize) (used : Nat) : Place :=
  { p.skip used with stack := ⟨⟨decl, p.index⟩, p.offset + used, size⟩ :: p.stack }

/-- The innermost master ended. -/
def leave (p : Place) (outer : List OpenMaster) : Place :=
  { p with stack := outer }

/-- What comes of the element with the given header when nothing ends before it. -/
def begin (p : Place) (decl : ElementDecl) (size : DataSize) (used : Nat) : Turn :=
  let o : Occurrence := ⟨decl, p.index⟩
  let start := Event.start o size (p.rest.take used) (pathOf p.stack)
  match size with
  | .unknown => .goes [start] (p.enter decl size used)
  | .known n =>
    if decl.isMaster then .goes [start] (p.enter decl size used)
    else
      .goes (start :: restOfLeaf (some o) (pathOf p.stack) ((p.rest.drop used).take n))
        (p.skip (used + n))

/-- What comes of a declared element: it ends the innermost master or begins. -/
def declared (p : Place) (decl : ElementDecl) (size : DataSize) (used : Nat) : Turn :=
  match p.stack with
  | [] => p.begin decl size used
  | m :: outer =>
    if p.endsByLevel decl m then .goes [.finish m.element (pathOf outer)] (p.leave outer)
    else p.begin decl size used

/-- What comes of a header. -/
def follow (p : Place) (schema : Schema) (h : Header) (used : Nat) : Turn :=
  match schema.get? h.id, h.size with
  | none, .unknown => .fails (.unknownLengthUnresolved h.id p.offset)
  | none, .known n => .goes [] (p.skip (used + n))
  | some decl, size =>
    if size.isUnknown && !decl.isMaster then .fails (.unknownLengthLeaf h.id decl.name p.offset)
    else p.declared decl size used

/-- What comes next at a place. -/
def turn (p : Place) (schema : Schema) : Turn :=
  match p.isExhausted, p.stack with
  | true, m :: outer => .goes [.finish m.element (pathOf outer)] (p.leave outer)
  | _, _ =>
    match Header.decode p.rest with
    | .error e => .fails (.header p.offset e)
    | .ok none => .ends
    | .ok (some (h, used)) => p.follow schema h used

/-! ## Turns that go on -/

/-- What a turn that goes on tells and where it leads. -/
inductive Goes (p : Place) : List Event → Place → Prop
  | leave {m : OpenMaster} {outer : List OpenMaster} (hstack : p.stack = m :: outer) :
      Goes p [.finish m.element (pathOf outer)] (p.leave outer)
  /-- An element outside the schema. -/
  | skip {used : Nat} (n : Nat) (hpos : 0 < used) (hle : used ≤ p.rest.length) :
      Goes p [] (p.skip (used + n))
  | enter {decl : ElementDecl} {used : Nat} (size : DataSize) (hmaster : decl.isMaster = true)
      (hpos : 0 < used) (hle : used ≤ p.rest.length) :
      Goes p [.start ⟨decl, p.index⟩ size (p.rest.take used) (pathOf p.stack)]
        (p.enter decl size used)
  | leaf {decl : ElementDecl} {used : Nat} (n : Nat) (hleaf : decl.isMaster = false)
      (hpos : 0 < used) (hle : used ≤ p.rest.length) :
      Goes p
        (.start ⟨decl, p.index⟩ (.known n) (p.rest.take used) (pathOf p.stack) ::
          restOfLeaf (some ⟨decl, p.index⟩) (pathOf p.stack) ((p.rest.drop used).take n))
        (p.skip (used + n))

section

variable {p next : Place} {schema : Schema} {events : List Event}

theorem goes_of_begin {decl : ElementDecl} {size : DataSize} {used : Nat}
    (hknown : (size.isUnknown && !decl.isMaster) = false) (hpos : 0 < used)
    (hle : used ≤ p.rest.length) (h : p.begin decl size used = .goes events next) :
    p.Goes events next := by
  unfold begin at h
  cases size with
  | unknown =>
    obtain ⟨rfl, rfl⟩ := Turn.goes.inj h
    exact .enter .unknown (by simpa [DataSize.isUnknown] using hknown) hpos hle
  | known n =>
    dsimp only at h
    split at h
    · rename_i hmaster
      obtain ⟨rfl, rfl⟩ := Turn.goes.inj h
      exact .enter (.known n) hmaster hpos hle
    · rename_i hleaf
      obtain ⟨rfl, rfl⟩ := Turn.goes.inj h
      exact .leaf n (by simpa using hleaf) hpos hle

theorem goes_of_follow {header : Header} {used : Nat} (hpos : 0 < used)
    (hle : used ≤ p.rest.length) (h : p.follow schema header used = .goes events next) :
    p.Goes events next := by
  unfold follow at h
  split at h
  · simp at h
  · obtain ⟨rfl, rfl⟩ := Turn.goes.inj h
    exact .skip _ hpos hle
  · split at h
    · simp at h
    · rename_i hknown
      have hbegin := @goes_of_begin p next events _ _ _ (by simpa using hknown) hpos hle
      unfold declared at h
      split at h
      · exact hbegin h
      · rename_i m outer hstack
        split at h
        · obtain ⟨rfl, rfl⟩ := Turn.goes.inj h
          exact .leave hstack
        · exact hbegin h

theorem goes_of_turn (h : p.turn schema = .goes events next) : p.Goes events next := by
  unfold turn at h
  split at h
  · rename_i m outer _ hstack
    obtain ⟨rfl, rfl⟩ := Turn.goes.inj h
    exact .leave hstack
  · split at h
    · simp at h
    · simp at h
    · rename_i header used hdec
      obtain ⟨hpos, hle⟩ := Header.used_of_decode hdec
      exact goes_of_follow hpos hle h

/-- Fewer bytes are left, or as many and fewer masters open. -/
abbrev Nearer (q p : Place) : Prop :=
  Prod.Lex (· < ·) (· < ·) (q.rest.length, q.stack.length) (p.rest.length, p.stack.length)

theorem nearer_of_rest {q : Place} {n : Nat} (hrest : q.rest = p.rest.drop n) (hpos : 0 < n)
    (hne : 0 < p.rest.length) : Nearer q p := by
  apply Prod.Lex.left
  rw [hrest, List.length_drop]
  omega

/-- Every turn that goes on comes nearer to the end. -/
theorem nearer_of_turn (h : p.turn schema = .goes events next) : Nearer next p := by
  cases goes_of_turn h with
  | leave hstack =>
    apply Prod.Lex.right
    simp [hstack, Place.leave]
  | skip n hpos hle => exact nearer_of_rest rfl (Nat.add_pos_left hpos n) (by omega)
  | enter size hmaster hpos hle => exact nearer_of_rest rfl hpos (by omega)
  | leaf n hleaf hpos hle => exact nearer_of_rest rfl (Nat.add_pos_left hpos n) (by omega)

end

/-- All turns from a place to the end. -/
def transcript (schema : Schema) (p : Place) : Transcript :=
  match _h : p.turn schema with
  | .fails e => ⟨[], .error e⟩
  | .ends => ⟨finishAll p.stack, .ok ()⟩
  | .goes events next => (transcript schema next).after events
termination_by (p.rest.length, p.stack.length)
decreasing_by exact nearer_of_turn _h

/-! ## One turn of a transcript -/

section

variable {schema : Schema} {p next : Place}

theorem transcript_of_fails {e : ScanError} (h : p.turn schema = .fails e) :
    p.transcript schema = ⟨[], .error e⟩ := by
  rw [transcript]
  split <;> simp_all

theorem transcript_of_ends (h : p.turn schema = .ends) :
    p.transcript schema = ⟨finishAll p.stack, .ok ()⟩ := by
  rw [transcript]
  split <;> simp_all

theorem transcript_of_goes {events : List Event} (h : p.turn schema = .goes events next) :
    p.transcript schema = (next.transcript schema).after events := by
  rw [transcript]
  split <;> simp_all

/-- At the end of an open master the innermost one ends first. -/
theorem turn_of_exhausted {m : OpenMaster} {outer : List OpenMaster}
    (hstack : p.stack = m :: outer) (h : p.isExhausted = true) :
    p.turn schema = .goes [.finish m.element (pathOf outer)] (p.leave outer) := by
  rw [turn, h, hstack]

theorem transcript_of_exhausted {m : OpenMaster} {outer : List OpenMaster}
    (hstack : p.stack = m :: outer) (h : p.isExhausted = true) :
    p.transcript schema =
      ((p.leave outer).transcript schema).after [.finish m.element (pathOf outer)] :=
  transcript_of_goes (turn_of_exhausted hstack h)

theorem turn_of_not_exhausted (h : p.isExhausted = false) :
    p.turn schema =
      match Header.decode p.rest with
      | .error e => .fails (.header p.offset e)
      | .ok none => .ends
      | .ok (some (header, used)) => p.follow schema header used := by
  rw [turn, h]

theorem transcript_of_error {e : VintError} (h : p.isExhausted = false)
    (hdec : Header.decode p.rest = .error e) :
    p.transcript schema = ⟨[], .error (.header p.offset e)⟩ := by
  apply transcript_of_fails
  rw [turn_of_not_exhausted h, hdec]

theorem transcript_of_none (h : p.isExhausted = false) (hdec : Header.decode p.rest = .ok none) :
    p.transcript schema = ⟨finishAll p.stack, .ok ()⟩ := by
  apply transcript_of_ends
  rw [turn_of_not_exhausted h, hdec]

/-- Nothing is exhausted here and a header of `used` bytes comes next. -/
structure HasHeader (p : Place) (header : Header) (used : Nat) : Prop where
  not_exhausted : p.isExhausted = false
  decode_eq : Header.decode p.rest = .ok (some (header, used))

namespace HasHeader

variable {header : Header} {used : Nat} {decl : ElementDecl}

theorem turn_eq (h : p.HasHeader header used) : p.turn schema = p.follow schema header used := by
  rw [turn_of_not_exhausted h.not_exhausted, h.decode_eq]

theorem transcript_unresolved (h : p.HasHeader header used) (hnone : schema.get? header.id = none)
    (hsize : header.size = .unknown) :
    p.transcript schema = ⟨[], .error (.unknownLengthUnresolved header.id p.offset)⟩ := by
  apply transcript_of_fails
  rw [h.turn_eq, follow, hnone, hsize]

/-- An element outside the schema is passed over. -/
theorem transcript_skip {n : Nat} (h : p.HasHeader header used)
    (hnone : schema.get? header.id = none) (hsize : header.size = .known n) :
    p.transcript schema = (p.skip (used + n)).transcript schema := by
  have hturn : p.turn schema = .goes [] (p.skip (used + n)) := by
    rw [h.turn_eq, follow, hnone, hsize]
  rw [transcript_of_goes hturn, Transcript.after_nil]

theorem transcript_refuse (h : p.HasHeader header used) (hdecl : schema.get? header.id = some decl)
    (hsize : header.size = .unknown) (hleaf : decl.isMaster = false) :
    p.transcript schema = ⟨[], .error (.unknownLengthLeaf header.id decl.name p.offset)⟩ := by
  apply transcript_of_fails
  rw [h.turn_eq, follow, hdecl, hsize]
  simp [DataSize.isUnknown, hleaf]

theorem turn_declared (h : p.HasHeader header used) (hdecl : schema.get? header.id = some decl)
    (hknown : (header.size.isUnknown && !decl.isMaster) = false) :
    p.turn schema = p.declared decl header.size used := by
  rw [h.turn_eq, follow, hdecl]
  simp [hknown]

/-- An element that ends the innermost master is looked at again without that master. -/
theorem transcript_level {m : OpenMaster} {outer : List OpenMaster} (h : p.HasHeader header used)
    (hdecl : schema.get? header.id = some decl)
    (hknown : (header.size.isUnknown && !decl.isMaster) = false) (hstack : p.stack = m :: outer)
    (hlevel : p.endsByLevel decl m = true) :
    p.transcript schema =
      ((p.leave outer).transcript schema).after [.finish m.element (pathOf outer)] := by
  apply transcript_of_goes
  rw [h.turn_declared hdecl hknown, declared, hstack]
  simp [hlevel]

theorem declared_of_stay {size : DataSize} (hstay : ∀ m ∈ p.stack.head?, p.endsByLevel decl m = false) :
    p.declared decl size used = p.begin decl size used := by
  unfold declared
  split
  · rfl
  · rename_i m outer hstack
    simp [hstay m (by simp [hstack])]

/-- A master starts and what follows is inside it. -/
theorem transcript_master (h : p.HasHeader header used) (hdecl : schema.get? header.id = some decl)
    (hmaster : decl.isMaster = true)
    (hstay : ∀ m ∈ p.stack.head?, p.endsByLevel decl m = false) :
    p.transcript schema =
      ((p.enter decl header.size used).transcript schema).after
        [.start ⟨decl, p.index⟩ header.size (p.rest.take used) (pathOf p.stack)] := by
  apply transcript_of_goes
  rw [h.turn_declared hdecl (by simp [hmaster]), declared_of_stay hstay]
  cases header.size <;> simp [begin, hmaster]

/-- An element without children is told with all its data that there is. -/
theorem transcript_leaf {n : Nat} (h : p.HasHeader header used)
    (hdecl : schema.get? header.id = some decl) (hsize : header.size = .known n)
    (hleaf : decl.isMaster = false)
    (hstay : ∀ m ∈ p.stack.head?, p.endsByLevel decl m = false) :
    p.transcript schema =
      ((p.skip (used + n)).transcript schema).after
        (.start ⟨decl, p.index⟩ (.known n) (p.rest.take used) (pathOf p.stack) ::
          restOfLeaf (some ⟨decl, p.index⟩) (pathOf p.stack) ((p.rest.drop used).take n)) := by
  apply transcript_of_goes
  rw [h.turn_declared hdecl (by simp [hsize, DataSize.isUnknown]), declared_of_stay hstay, hsize]
  simp [begin, hleaf]

end HasHeader

/-- Without bytes left everything open ends, by size or because nothing follows. -/
theorem transcript_nil (hrest : p.rest = []) :
    p.transcript schema = ⟨finishAll p.stack, .ok ()⟩ := by
  generalize hn : p.stack.length = n
  induction n generalizing p with
  | zero =>
    have hstack := List.eq_nil_of_length_eq_zero hn
    apply transcript_of_none
    · simp [isExhausted, hstack]
    · rw [hrest]; rfl
  | succ n ih =>
    obtain ⟨m, outer, hstack⟩ := List.exists_cons_of_length_eq_add_one hn
    -- Exhausted masters end one by one, and the first that is not lets all others end at once.
    cases hexhausted : p.isExhausted with
    | false =>
      apply transcript_of_none hexhausted
      rw [hrest]; rfl
    | true =>
      have hleave : (p.leave outer).transcript schema = ⟨finishAll outer, .ok ()⟩ :=
        ih hrest (by simpa [hstack, leave] using hn)
      rw [transcript_of_exhausted hstack hexhausted, hleave, hstack]
      rfl

end

end Place

end Ebml
