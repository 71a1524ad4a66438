import Ebml.Event
import Ebml.HeaderWindow
import Ebml.Source

/-!
# Scanning a document

A scanner turns the bytes of a source into events, step by step. Between two steps all it knows is in
its state, so it can be left whenever the source has too few bytes or the caller has seen enough, and
taken up again as if nothing had happened.

A step either stalls, because the source has nothing for it, or moves on, reporting what happened.
Open masters form a stack, and three rules close them:

* by size: at an element boundary the bytes read reach the end of an open master of known length; it
  and everything inside it closes, innermost first, one master a step;
* by level: an element of the schema that is not global starts, its level is at most that of the
  innermost open master, and that master has no known length that covers it;
* at the end of input everything still open closes.
-/

namespace Ebml

/-- A master whose end has not been reported. -/
structure OpenMaster where
  element : Occurrence
  /-- The offset of its first child. -/
  contentStart : Nat
  size : DataSize
  deriving DecidableEq, Repr

/-- The offset at which an open master of known length ends. -/
def OpenMaster.stop? (m : OpenMaster) : Option Nat :=
  m.size.known?.map (m.contentStart + ·)

/-- Where in an element a scan is. -/
inductive Phase
  /-- At an element boundary, or inside an id. -/
  | id
  /-- After the id. The element should have a number by then. -/
  | size (id idWidth : Nat) (number : Option Nat)
  /-- After the header, before the element's start is reported. -/
  | resolve (id : Nat) (size : DataSize) (number : Option Nat)
  /-- Inside data, which should end somewhere. Data of elements outside the schema is skipped. -/
  | content (leaf : Option Occurrence) (stop : Option Nat)
  /-- After the data, before the element's end is reported. -/
  | finished (leaf : Option Occurrence)
  deriving DecidableEq, Repr

/-- The state of a scan. -/
structure Scanner where
  schema : Schema
  /-- Longest piece of data reported at once. -/
  maxChunk : Nat
  phase : Phase := .id
  /-- The open masters, innermost first. -/
  stack : List OpenMaster := []
  /-- The header being read. -/
  window : HeaderWindow := {}
  /-- How many bytes were taken from the source. -/
  consumed : Nat := 0
  /-- How many elements were given a number. -/
  given : Nat := 0
  /-- The number of the element whose id is being read, if it was given one. -/
  idNumber : Option Nat := none
  closed : Bool := false

/-- What a step did. -/
inductive Progress
  /-- The source has too few bytes. -/
  | stalled
  /-- The scan went on and reports these events. -/
  | moved (events : List Event)
  deriving DecidableEq, Repr

/-- A step's result, and scanner and source after it. -/
structure Stepped (σ : Type) where
  outcome : Except ScanError Progress
  scanner : Scanner
  source : σ

namespace Scanner

/-- How many masters are open. -/
def depth (t : Scanner) : Nat :=
  t.stack.length

/-- The elements of open masters, outermost first. -/
def pathOf (stack : List OpenMaster) : List Occurrence :=
  (stack.map OpenMaster.element).reverse

theorem pathOf_cons (m : OpenMaster) (outer : List OpenMaster) :
    pathOf (m :: outer) = pathOf outer ++ [m.element] := by
  simp [pathOf]

/-- The open masters' elements, outermost first. -/
def path (t : Scanner) : List Occurrence :=
  pathOf t.stack

/-- The scanner at the boundary before the next element, which has no number yet. -/
def atBoundary (t : Scanner) : Scanner :=
  { t with phase := .id, window := .openedAt t.consumed, idNumber := none }

/-! ## Numbers -/

/-- The number of the first element whose id was not read. -/
def nextIndex (t : Scanner) : Nat :=
  t.idNumber.getD t.given

/-- An element is given its number as soon as a byte of its id is held, and only once. -/
def number (t : Scanner) : Scanner :=
  let isNew := t.idNumber.isNone && !t.window.isEmpty
  { t with
    idNumber := if isNew then some t.given else t.idNumber
    given := if isNew then t.given + 1 else t.given }

@[simp] theorem nextIndex_number (t : Scanner) : t.number.nextIndex = t.nextIndex := by
  unfold nextIndex number
  cases t.idNumber <;> cases t.window.isEmpty <;> rfl

/-! ## Header fields -/

/-- Bytes taken from a source, the failure that cut them short if there was one, and the source. -/
structure Pulled (σ : Type) where
  bytes : Bytes
  failure : Option IoError
  source : σ

/-- Up to `n` bytes, one at a time. -/
def takeBytes {σ : Type} [ByteSource σ] : Nat → σ → Pulled σ
  | 0, s => ⟨[], none, s⟩
  | n + 1, s =>
    match ByteSource.readByte s with
    | (.error e, s') => ⟨[], some e, s'⟩
    | (.ok none, s') => ⟨[], none, s'⟩
    | (.ok (some b), s') =>
      let rest := takeBytes n s'
      ⟨b :: rest.bytes, rest.failure, rest.source⟩

/-- Up to `n` of the bytes that the source announces. -/
def pull {σ : Type} [ByteSource σ] (n : Nat) (s : σ) : Pulled σ :=
  match ByteSource.available s with
  | (.error e, s') => ⟨[], some e, s'⟩
  | (.ok ready, s') => takeBytes (min n ready) s'

/-- A result together with scanner and source after it. -/
structure Fetched (σ α : Type) where
  outcome : Except ScanError α
  scanner : Scanner
  source : σ

/-- Move `wanted` bytes into the header window. Whether they all came is the result; those that came
are kept even if the source then failed. -/
def fetch {σ : Type} [ByteSource σ] (wanted : Nat) (t : Scanner) (s : σ) : Fetched σ Bool :=
  let pulled := pull wanted s
  match t.window.append? pulled.bytes with
  | none =>
    ⟨.error (.invalidState "element header longer than 12 bytes" t.window.start), t, pulled.source⟩
  | some window =>
    let t' := { t with window := window, consumed := t.consumed + pulled.bytes.length }
    match pulled.failure with
    | some e => ⟨.error (.io e), t', pulled.source⟩
    | none => ⟨.ok (decide (pulled.bytes.length = wanted)), t', pulled.source⟩

/-- Decode the field whose first byte, at `offset`, is in the window, fetching the bytes it lacks. -/
def completeField {σ α : Type} [ByteSource σ] (decode : Bytes → Except VintError (Option α))
    (offset : Nat) (t : Scanner) (s : σ) : Fetched σ (Option α) :=
  match decode (t.window.sliceFrom offset) with
  | .error e => ⟨.error (.header t.window.start e), t, s⟩
  | .ok (some field) => ⟨.ok (some field), t, s⟩
  | .ok none =>
    match t.window.get? offset with
    | none =>
      ⟨.error (.invalidState "vint field has no buffered first byte" t.window.start), t, s⟩
    | some first =>
      match fetch (vintWidth first - (t.window.sliceFrom offset).length) t s with
      | ⟨.error e, t', s'⟩ => ⟨.error e, t', s'⟩
      | ⟨.ok false, t', s'⟩ => ⟨.ok none, t', s'⟩
      | ⟨.ok true, t', s'⟩ =>
        match decode (t'.window.sliceFrom offset) with
        | .error e => ⟨.error (.header t'.window.start e), t', s'⟩
        | .ok (some field) => ⟨.ok (some field), t', s'⟩
        | .ok none =>
          ⟨.error (.invalidState "vint incomplete after reading its full width" t'.window.start),
            t', s'⟩

/-- Decode the field at `offset`. There is no result until all its bytes are in the window. -/
def readField {σ α : Type} [ByteSource σ] (decode : Bytes → Except VintError (Option α))
    (offset : Nat) (t : Scanner) (s : σ) : Fetched σ (Option α) :=
  if t.window.contains offset then completeField decode offset t s
  else
    match fetch 1 t s with
    | ⟨.error e, t', s'⟩ => ⟨.error e, t', s'⟩
    | ⟨.ok false, t', s'⟩ => ⟨.ok none, t', s'⟩
    | ⟨.ok true, t', s'⟩ => completeField decode offset t' s'

/-! ## Closing masters -/

/-- Whether an open master of known length has no bytes left. -/
def isExhausted (t : Scanner) : Bool :=
  t.stack.any fun m => m.stop?.any (· ≤ t.consumed)

/-- Whether an element of the given declaration that starts here ends the master `m`. -/
def closesByLevel (t : Scanner) (decl : ElementDecl) (m : OpenMaster) : Bool :=
  !decl.isGlobal && decl.level ≤ m.element.decl.level && !m.stop?.any (t.window.start < ·)

/-! ## Steps -/

/-- At a boundary, close the innermost master if one is exhausted, and read an id otherwise. -/
def stepId {σ : Type} [ByteSource σ] (t : Scanner) (s : σ) : Stepped σ :=
  match t.window.isEmpty && t.isExhausted, t.stack with
  | true, m :: rest =>
    ⟨.ok (.moved [.finish m.element (pathOf rest)]), { t with stack := rest }, s⟩
  | _, _ =>
    match readField decodeId t.window.start t s with
    | ⟨.error e, t', s'⟩ => ⟨.error e, t', s'⟩
    | ⟨.ok none, t', s'⟩ => ⟨.ok .stalled, t'.number, s'⟩
    | ⟨.ok (some (id, width)), t', s'⟩ =>
      ⟨.ok (.moved []),
        { t'.number with phase := .size id width t'.number.idNumber, idNumber := none }, s'⟩

/-- Read a size. -/
def stepSize {σ : Type} [ByteSource σ] (id idWidth : Nat) (number : Option Nat) (t : Scanner)
    (s : σ) : Stepped σ :=
  match readField decodeSize (t.window.start + idWidth) t s with
  | ⟨.error e, t', s'⟩ => ⟨.error e, t', s'⟩
  | ⟨.ok none, t', s'⟩ => ⟨.ok .stalled, t', s'⟩
  | ⟨.ok (some (size, _)), t', s'⟩ =>
    ⟨.ok (.moved []), { t' with phase := .resolve id size number }, s'⟩

/-- Where the data of an element ends whose header is in the window, if the header says so. -/
def dataStop? (size : DataSize) (t : Scanner) : Option Nat :=
  size.known?.map (t.window.stop + ·)

/-- The scanner behind the start of a declared element. A master goes onto the stack. -/
def enter (decl : ElementDecl) (size : DataSize) (index : Nat) (t : Scanner) : Scanner :=
  let element : Occurrence := ⟨decl, index⟩
  if decl.isMaster then
    { t with stack := ⟨element, t.window.stop, size⟩ :: t.stack }.atBoundary
  else
    { t with phase := .content (some element) (t.dataStop? size) }

/-- Report the start of a declared element and start it, if it has a number. -/
def start (decl : ElementDecl) (size : DataSize) (number : Option Nat) (t : Scanner) :
    Except ScanError Progress × Scanner :=
  match number with
  | none => (.error (.invalidState "resolved element has no element count" t.window.start), t)
  | some index =>
    (.ok (.moved [.start ⟨decl, index⟩ size t.window.bytes t.path]), t.enter decl size index)

/-- With the header read, look up the element: skip it, refuse it, close a master by level, or
start it. -/
def resolve (id : Nat) (size : DataSize) (number : Option Nat) (t : Scanner) :
    Except ScanError Progress × Scanner :=
  match t.schema.get? id with
  | none =>
    if size.isUnknown then (.error (.unknownLengthUnresolved id t.window.start), t)
    else (.ok (.moved []), { t with phase := .content none (t.dataStop? size) })
  | some decl =>
    if size.isUnknown && !decl.isMaster then
      (.error (.unknownLengthLeaf id decl.name t.window.start), t)
    else
      match t.stack with
      | [] => t.start decl size number
      | m :: rest =>
        if t.closesByLevel decl m then
          (.ok (.moved [.finish m.element (pathOf rest)]), { t with stack := rest })
        else t.start decl size number

/-- Read or skip a piece of data that ends at `stop`. -/
def readContent {σ : Type} [ByteSource σ] (leaf : Option Occurrence) (stop : Nat) (t : Scanner)
    (s : σ) : Stepped σ :=
  if stop ≤ t.consumed then ⟨.ok (.moved []), { t with phase := .finished leaf }, s⟩
  else
    match ByteSource.available s with
    | (.error e, s') => ⟨.error (.io e), t, s'⟩
    | (.ok ready, s') =>
      let wanted := min (min (stop - t.consumed) t.maxChunk) ready
      if wanted = 0 then ⟨.ok .stalled, t, s'⟩
      else
        match ByteSource.readBytes wanted s' with
        | (.error e, s'') => ⟨.error (.io e), t, s''⟩
        | (.ok chunk, s'') =>
          if chunk.isEmpty then ⟨.ok .stalled, t, s''⟩
          else
            let consumed := t.consumed + chunk.length
            let phase := if stop ≤ consumed then .finished leaf else .content leaf (some stop)
            ⟨.ok (.moved (leaf.map (.content · chunk)).toList),
              { t with consumed := consumed, phase := phase }, s''⟩

/-- Read or skip a piece of an element's data, if it is known where that ends. -/
def stepContent {σ : Type} [ByteSource σ] (leaf : Option Occurrence) (stop : Option Nat)
    (t : Scanner) (s : σ) : Stepped σ :=
  match stop with
  | none =>
    ⟨.error (.invalidState "content phase without a known size" t.window.start), t, s⟩
  | some stop => readContent leaf stop t s

/-- Report the end of an element without children. -/
def finishLeaf (leaf : Option Occurrence) (t : Scanner) : Progress × Scanner :=
  (.moved (leaf.map (.finish · t.path)).toList, t.atBoundary)

/-- One step of a scan. -/
def step {σ : Type} [ByteSource σ] (t : Scanner) (s : σ) : Stepped σ :=
  match t.phase with
  | .id => stepId t s
  | .size id idWidth number => stepSize id idWidth number t s
  | .resolve id size number =>
    let (outcome, t') := resolve id size number t
    ⟨outcome, t', s⟩
  | .content leaf stop => stepContent leaf stop t s
  | .finished leaf =>
    let (progress, t') := finishLeaf leaf t
    ⟨.ok progress, t', s⟩

/-! ## The end of input -/

/-- The ends of open masters, innermost first. -/
def finishAll : List OpenMaster → List Event
  | [] => []
  | m :: rest => .finish m.element (pathOf rest) :: finishAll rest

/-- The element whose start but not its end was reported, if it is not a master. -/
def openLeaf? (t : Scanner) : Option Occurrence :=
  match t.phase with
  | .content leaf _ => leaf
  | .finished leaf => leaf
  | _ => none

/-- End the scan: everything open ends, and nothing happens afterwards. A header cut short is
dropped. -/
def close (t : Scanner) : List Event × Scanner :=
  if t.closed then ([], t)
  else
    ((t.openLeaf?.map (.finish · t.path)).toList ++ finishAll t.stack,
      { t with phase := .id, stack := [], closed := true })

end Scanner

end Ebml
