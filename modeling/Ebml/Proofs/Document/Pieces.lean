import Ebml.Event
import Ebml.Proofs.Vint.Field

/-!
# A byte string as a row of elements

Every byte string that a scan can get through is a row of elements, one after the other, and possibly
the beginning of one more header. Masters of the schema are pieces without content, since their
children are pieces of their own; every other element is a piece with all its data, whether the
schema has it or not. Only the last piece may lack some of its data.
-/

namespace Ebml

/-- A header and the data behind it. -/
structure Piece where
  header : Bytes
  content : Bytes := []
  deriving DecidableEq, Repr

namespace Piece

/-- The bytes of a piece. -/
def raw (p : Piece) : Bytes :=
  p.header ++ p.content

/-- The declaration of a piece, if the schema has its id. -/
def decl? (schema : Schema) (p : Piece) : Option ElementDecl :=
  match Header.decode p.header with
  | .ok (some (h, _)) => schema.get? h.id
  | _ => none

/-- The bytes of a piece of the schema, and none of any other. -/
def kept (schema : Schema) (p : Piece) : Bytes :=
  if (p.decl? schema).isSome then p.raw else []

/-- The header of a piece is complete, and `missing` is how much its data is shorter than declared.
Masters of the schema have no data of their own. -/
def Lacks (schema : Schema) (p : Piece) (missing : Nat) : Prop :=
  ∃ h, Header.decode p.header = .ok (some (h, p.header.length)) ∧
    if (schema.get? h.id).any ElementDecl.isMaster then p.content = [] ∧ missing = 0
    else h.size = .known (p.content.length + missing)

/-- The elements of the schema in a row of pieces, with their numbers and headers. -/
def starts (schema : Schema) (pieces : List Piece) : List (Occurrence × Bytes) :=
  pieces.zipIdx.filterMap fun (p, i) => (p.decl? schema).map fun decl => (⟨decl, i⟩, p.header)

variable {schema : Schema}

theorem decl?_of_decode {p : Piece} {h : Header} {used : Nat}
    (hdec : Header.decode p.header = .ok (some (h, used))) :
    p.decl? schema = schema.get? h.id := by
  simp [decl?, hdec]

/-- What a piece is, its header says. -/
theorem decl?_of_header (p : Piece) (content : Bytes) :
    (Piece.mk p.header content).decl? schema = p.decl? schema := rfl

/-- What starts is the piece with its number. -/
theorem exists_of_mem_starts {pieces : List Piece} {o : Occurrence} {header : Bytes}
    (h : (o, header) ∈ starts schema pieces) :
    ∃ p, pieces[o.index]? = some p ∧ p.header = header := by
  obtain ⟨⟨p, i⟩, hmem, heq⟩ := List.mem_filterMap.mp h
  obtain ⟨decl, -, heq⟩ := Option.map_eq_some_iff.mp heq
  obtain ⟨rfl, rfl⟩ := Prod.mk.inj heq
  exact ⟨p, List.mem_zipIdx_iff_getElem?.mp hmem, rfl⟩

theorem starts_append (pieces : List Piece) (p : Piece) :
    starts schema (pieces ++ [p]) =
      starts schema pieces ++
        ((p.decl? schema).map fun decl => (⟨decl, pieces.length⟩, p.header)).toList := by
  rw [starts, List.zipIdx_append, List.filterMap_append, starts]
  congr 1
  cases hdecl : p.decl? schema <;> simp [hdecl]

end Piece

/-- A byte string is a row of pieces and a rest that is no header. -/
structure Divides (schema : Schema) (pieces : List Piece) (tail input : Bytes) : Prop where
  joined : pieces.flatMap Piece.raw ++ tail = input
  /-- All pieces but the last are whole. -/
  whole : ∀ p ∈ pieces.dropLast, p.Lacks schema 0
  /-- The last is whole too, or the input ends inside its data. -/
  last : ∀ p ∈ pieces.getLast?, p.Lacks schema 0 ∨ tail = [] ∧ ∃ missing, p.Lacks schema missing
  /-- The rest is empty or ends inside a header. -/
  tail_incomplete : Header.decode tail = .ok none

/-! ## There is only one way to divide -/

/-- How long the data of a piece is to be, its header says. -/
theorem Piece.Lacks.length_eq {schema : Schema} {p q : Piece} {missing missing' : Nat}
    (hp : p.Lacks schema missing) (hq : q.Lacks schema missing') (hheader : p.header = q.header) :
    p.content.length + missing = q.content.length + missing' := by
  obtain ⟨h, hdec, hp⟩ := hp
  obtain ⟨h', hdec', hq⟩ := hq
  rw [hheader, hdec'] at hdec
  obtain rfl : h' = h := by simpa using hdec
  split at hp
  · rename_i hmaster
    rw [if_pos hmaster] at hq
    rw [hp.1, hp.2, hq.1, hq.2]
  · rename_i hmaster
    rw [if_neg hmaster, hp] at hq
    exact DataSize.known.inj hq

/-- Behind the header of a piece the input may go on as it likes. -/
theorem Piece.Lacks.decode_append {schema : Schema} {p : Piece} {missing : Nat}
    (hp : p.Lacks schema missing) (rest : Bytes) :
    ∃ h, Header.decode (p.raw ++ rest) = .ok (some (h, p.header.length)) := by
  obtain ⟨h, hdec, -⟩ := hp
  refine ⟨h, ?_⟩
  rw [raw, List.append_assoc]
  exact Header.decode_append hdec _

namespace Divides

variable {schema : Schema} {p : Piece} {pieces pieces' : List Piece} {tail tail' input : Bytes}

/-- The first piece is whole unless nothing follows, and what follows is divided too. -/
theorem uncons (h : Divides schema (p :: pieces) tail input) :
    ∃ missing rest, p.Lacks schema missing ∧ (missing = 0 ∨ rest = []) ∧ input = p.raw ++ rest ∧
      Divides schema pieces tail rest := by
  obtain ⟨hjoined, hwhole, hlast, htail⟩ := h
  cases pieces with
  | nil =>
    have hrest : Divides schema [] tail tail := ⟨rfl, by simp, by simp, htail⟩
    have hinput : input = p.raw ++ tail := by simpa using hjoined.symm
    rcases hlast p rfl with hp | ⟨hnil, missing, hp⟩
    · exact ⟨0, tail, hp, .inl rfl, hinput, hrest⟩
    · exact ⟨missing, tail, hp, .inr hnil, hinput, hrest⟩
  | cons q pieces =>
    rw [List.dropLast_cons_cons] at hwhole
    refine ⟨0, _, hwhole p List.mem_cons_self, .inl rfl, ?_, rfl,
      fun q hq => hwhole q (List.mem_cons_of_mem _ hq), ?_, htail⟩
    · rw [← hjoined, List.flatMap_cons, List.append_assoc]
    · rwa [List.getLast?_cons_cons] at hlast

/-- A byte string that starts with a piece is not the beginning of a header. -/
theorem ne_of_uncons (h : Divides schema (p :: pieces) tail input) :
    Header.decode input ≠ .ok none := by
  obtain ⟨_, rest, hp, -, rfl, -⟩ := h.uncons
  obtain ⟨_, hdec⟩ := hp.decode_append rest
  simp [hdec]

/-- The pieces of a byte string and the rest can be told from it. -/
theorem unique (h : Divides schema pieces tail input) (h' : Divides schema pieces' tail' input) :
    pieces = pieces' ∧ tail = tail' := by
  induction pieces generalizing pieces' input with
  | nil =>
    obtain rfl : tail = input := h.joined
    cases pieces' with
    | nil => exact ⟨rfl, h'.joined.symm⟩
    | cons p' pieces' => exact absurd h.tail_incomplete h'.ne_of_uncons
  | cons p pieces ih =>
    cases pieces' with
    | nil =>
      obtain rfl : tail' = input := h'.joined
      exact absurd h'.tail_incomplete h.ne_of_uncons
    | cons p' pieces' =>
      obtain ⟨missing, rest, hp, hend, rfl, hrest⟩ := h.uncons
      obtain ⟨missing', rest', hp', hend', hsame, hrest'⟩ := h'.uncons
      -- Both begin with the same header.
      obtain ⟨_, hdec⟩ := hp.decode_append rest
      obtain ⟨_, hdec'⟩ := hp'.decode_append rest'
      rw [hsame, hdec'] at hdec
      have hlength : p'.header.length = p.header.length := by simp_all
      rw [Piece.raw, Piece.raw, List.append_assoc, List.append_assoc] at hsame
      obtain ⟨hheader, hsame⟩ := List.append_inj hsame hlength.symm
      -- The data is as long as the header says or goes to the end, in both cases.
      have hsize := hp.length_eq hp' hheader
      have hbytes := congrArg List.length hsame
      rw [List.length_append, List.length_append] at hbytes
      have hend := hend.imp_right (congrArg List.length)
      have hend' := hend'.imp_right (congrArg List.length)
      have hlength' : p.content.length = p'.content.length := by
        simp only [List.length_nil] at hend hend'
        omega
      obtain ⟨hcontent, rfl⟩ := List.append_inj hsame hlength'
      obtain ⟨rfl, rfl⟩ := ih hrest hrest'
      obtain rfl : p = p' := by
        cases p
        cases p'
        simp_all
      exact ⟨rfl, rfl⟩

end Divides

/-! ## Callbacks that tell a row of pieces -/

namespace Event

/-- The element that starts and its header. -/
def start? : Event → Option (Occurrence × Bytes)
  | start element _ header _ => some (element, header)
  | _ => none

/-- The data of the element with the given number. -/
def dataOf (index : Nat) : Event → Bytes
  | content element chunk => if element.index = index then chunk else []
  | _ => []

/-- The bytes of the document that an event brings. -/
def raw : Event → Bytes
  | start _ _ header _ => header
  | content _ chunk => chunk
  | finish .. => []

end Event

/-- An element is one of a row of pieces. -/
def IsPiece (schema : Schema) (pieces : List Piece) (o : Occurrence) : Prop :=
  (pieces.map (Piece.decl? schema))[o.index]? = some (some o.decl)

/-- Events tell a row of pieces: what starts are the elements of the schema, each with its number and
its header, the data reported for a number is that of the piece, and no other piece is mentioned. -/
structure Tells (schema : Schema) (pieces : List Piece) (log : List Event) : Prop where
  starts : log.filterMap Event.start? = Piece.starts schema pieces
  data : ∀ i p, pieces[i]? = some p → (p.decl? schema).isSome → log.flatMap (Event.dataOf i) = p.content
  mentioned : ∀ e ∈ log, IsPiece schema pieces e.element
  raw : log.flatMap Event.raw = pieces.flatMap (Piece.kept schema)

namespace IsPiece

variable {schema : Schema} {pieces more : List Piece} {o : Occurrence}

theorem lt_length (h : IsPiece schema pieces o) : o.index < pieces.length := by
  rw [IsPiece, List.getElem?_eq_some_iff] at h
  obtain ⟨hlt, -⟩ := h
  simpa using hlt

theorem append (h : IsPiece schema pieces o) : IsPiece schema (pieces ++ more) o := by
  have hlt := h.lt_length
  rw [IsPiece, List.map_append, List.getElem?_append_left (by simpa using hlt)]
  exact h

theorem last {p : Piece} {decl : ElementDecl} (h : p.decl? schema = some decl) :
    IsPiece schema (pieces ++ [p]) ⟨decl, pieces.length⟩ := by
  simp [IsPiece, h]

/-- Which elements are pieces does not depend on their data. -/
theorem of_content {p : Piece} (content : Bytes) (h : IsPiece schema (pieces ++ [p]) o) :
    IsPiece schema (pieces ++ [⟨p.header, content⟩]) o := by
  simpa [IsPiece, Piece.decl?_of_header] using h

end IsPiece

namespace Tells

variable {schema : Schema} {pieces : List Piece} {log : List Event}

theorem nil : Tells schema [] [] :=
  ⟨rfl, by simp, by simp, rfl⟩

/-- Nothing was reported of pieces that are still to come. -/
theorem data_beyond (h : Tells schema pieces log) : log.flatMap (Event.dataOf pieces.length) = [] := by
  rw [List.flatMap_eq_nil_iff]
  intro e he
  have hlt := (h.mentioned e he).lt_length
  cases e with
  | content o chunk => exact if_neg (Nat.ne_of_lt hlt)
  | start => rfl
  | finish => rfl

/-- A piece outside the schema is not told. -/
theorem skip {p : Piece} (h : Tells schema pieces log) (hnone : p.decl? schema = none) :
    Tells schema (pieces ++ [p]) log where
  starts := by rw [Piece.starts_append, hnone, h.starts]; simp
  data := by
    intro i q hq hdecl
    rw [List.getElem?_append] at hq
    split at hq
    · exact h.data i q hq hdecl
    · obtain rfl : q = p := by
        rw [List.getElem?_singleton] at hq
        split at hq <;> simp_all
      rw [hnone] at hdecl
      simp at hdecl
  mentioned e he := (h.mentioned e he).append
  raw := by rw [List.flatMap_append, h.raw]; simp [Piece.kept, hnone]

/-- A piece of the schema is told by its start. -/
theorem start {header : Bytes} {decl : ElementDecl} {size : DataSize} {path : List Occurrence}
    (h : Tells schema pieces log) (hdecl : (Piece.mk header []).decl? schema = some decl) :
    Tells schema (pieces ++ [⟨header, []⟩])
      (log ++ [.start ⟨decl, pieces.length⟩ size header path]) where
  starts := by
    rw [List.filterMap_append, h.starts, Piece.starts_append, hdecl]
    rfl
  data := by
    intro i q hq hsome
    rw [List.flatMap_append, List.getElem?_append] at *
    split at hq
    · rw [h.data i q hq hsome]
      simp [Event.dataOf]
    · -- The new piece has no data yet, and none was told of its number.
      rename_i hge
      rw [List.getElem?_singleton] at hq
      split at hq
      · obtain rfl : i = pieces.length := by omega
        rw [h.data_beyond]
        obtain rfl := Option.some.inj hq
        rfl
      · simp at hq
  mentioned := by
    intro e he
    rw [List.mem_append, List.mem_singleton] at he
    rcases he with he | rfl
    · exact (h.mentioned e he).append
    · exact .last hdecl
  raw := by
    rw [List.flatMap_append, h.raw, List.flatMap_append]
    simp [Event.raw, Piece.kept, Piece.raw, hdecl]

/-- Ends tell nothing new. -/
theorem finish {o : Occurrence} {path : List Occurrence} (h : Tells schema pieces log)
    (hpiece : IsPiece schema pieces o) : Tells schema pieces (log ++ [.finish o path]) where
  starts := by rw [List.filterMap_append, h.starts]; simp [Event.start?]
  data := by
    intro i p hp hdecl
    rw [List.flatMap_append, h.data i p hp hdecl]
    simp [Event.dataOf]
  mentioned := by
    intro e he
    rw [List.mem_append, List.mem_singleton] at he
    rcases he with he | rfl
    · exact h.mentioned e he
    · exact hpiece
  raw := by rw [List.flatMap_append, h.raw]; simp [Event.raw]

/-- More data of the last piece is told if the schema has it. -/
theorem content {p : Piece} (chunk : Bytes) (h : Tells schema (pieces ++ [p]) log) :
    Tells schema (pieces ++ [⟨p.header, p.content ++ chunk⟩])
      (log ++ ((p.decl? schema).map fun decl => .content ⟨decl, pieces.length⟩ chunk).toList) where
  starts := by
    rw [List.filterMap_append, h.starts, Piece.starts_append, Piece.starts_append]
    cases hdecl : p.decl? schema <;> simp [Piece.decl?_of_header, hdecl, Event.start?]
  data := by
    intro i q hq hsome
    rw [List.flatMap_append]
    by_cases hlt : i < pieces.length
    · -- An earlier piece: its data was told before, and the chunk has another number.
      rw [List.getElem?_append_left hlt] at hq
      rw [h.data i q (by rwa [List.getElem?_append_left hlt]) hsome]
      cases p.decl? schema with
      | none => simp
      | some decl => simp [Event.dataOf, Nat.ne_of_gt hlt]
    · rw [List.getElem?_append_right (by omega), List.getElem?_singleton] at hq
      split at hq
      · obtain rfl := Option.some.inj hq
        obtain rfl : i = pieces.length := by omega
        rw [h.data pieces.length p (by simp) hsome]
        rw [Piece.decl?_of_header] at hsome
        obtain ⟨decl, hdecl⟩ := Option.isSome_iff_exists.mp hsome
        simp [hdecl, Event.dataOf]
      · simp at hq
  mentioned := by
    intro e he
    rw [List.mem_append] at he
    rcases he with he | he
    · exact (h.mentioned e he).of_content _
    · cases hdecl : p.decl? schema with
      | none => simp [hdecl] at he
      | some decl =>
        obtain rfl : e = .content ⟨decl, pieces.length⟩ chunk := by simpa [hdecl] using he
        exact .last hdecl
  raw := by
    have hraw := h.raw
    rw [List.flatMap_append, List.flatMap_singleton] at hraw
    rw [List.flatMap_append, hraw, List.flatMap_append, List.flatMap_singleton, List.append_assoc]
    congr 1
    cases hdecl : p.decl? schema with
    | none => simp [Piece.kept, Piece.decl?_of_header, hdecl]
    | some decl => simp [Piece.kept, Piece.raw, Piece.decl?_of_header, hdecl, Event.raw]

end Tells

end Ebml
