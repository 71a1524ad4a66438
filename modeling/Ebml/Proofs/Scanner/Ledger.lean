import Ebml.Proofs.Document.Pieces
import Ebml.Proofs.Scanner.Runs

/-!
# Byte accounting

Every byte that a scan took belongs to one piece of the document or to the header being read, and the
events so far tell these pieces. `Ledger t input log` says so of the bytes taken and the events
reported until `t`; each transition keeps it (`Transition.ledger`), so every trail does. When a scan
has stalled, the bytes taken divide into pieces and the beginning of a header (`Ledger.divides`).
-/

namespace Ebml.Scanner

/-- All pieces have all their data. -/
def Whole (schema : Schema) (pieces : List Piece) : Prop :=
  ∀ p ∈ pieces, p.Lacks schema 0

theorem Whole.append {schema : Schema} {pieces : List Piece} {p : Piece} (h : Whole schema pieces)
    (hp : p.Lacks schema 0) : Whole schema (pieces ++ [p]) := by
  intro q hq
  rw [List.mem_append, List.mem_singleton] at hq
  rcases hq with hq | rfl
  · exact h q hq
  · exact hp

/-- At a boundary and in a header, all pieces are whole and the header's bytes follow them. -/
structure BeforeStart (schema : Schema) (pieces : List Piece) (window : Bytes) (index : Nat)
    (input : Bytes) : Prop where
  whole : Whole schema pieces
  index_eq : index = pieces.length
  joined : pieces.flatMap Piece.raw ++ window = input

/-- Inside data, the last piece lacks what is still to come. -/
structure InsideData (schema : Schema) (pieces : List Piece) (p : Piece) (missing : Nat)
    (leaf : Option Occurrence) (nextIndex : Nat) (input : Bytes) : Prop where
  whole : Whole schema pieces
  lacks : p.Lacks schema missing
  leaf_eq : leaf = (p.decl? schema).map (⟨·, pieces.length⟩)
  index_eq : nextIndex = pieces.length + 1
  joined : (pieces ++ [p]).flatMap Piece.raw = input

/-- Behind data, all pieces are whole and nothing follows them. -/
structure BehindData (schema : Schema) (pieces : List Piece) (leaf : Option Occurrence)
    (nextIndex : Nat) (input : Bytes) : Prop where
  whole : Whole schema pieces
  leaf_mem : ∀ o ∈ leaf, IsPiece schema pieces o
  index_eq : nextIndex = pieces.length
  joined : pieces.flatMap Piece.raw = input

/-- How the bytes taken are made up of pieces, place by place. -/
def Holds (t : Scanner) (pieces : List Piece) (input : Bytes) : Prop :=
  match t.phase with
  | .id => BeforeStart t.schema pieces t.window.bytes t.nextIndex input
  | .size _ _ (some index) => BeforeStart t.schema pieces t.window.bytes index input
  | .resolve _ _ (some index) => BeforeStart t.schema pieces t.window.bytes index input
  | .content leaf (some stop) =>
    ∃ front p, pieces = front ++ [p] ∧
      InsideData t.schema front p (stop - t.consumed) leaf t.nextIndex input
  | .finished leaf => BehindData t.schema pieces leaf t.nextIndex input
  | _ => False

/-- The bytes taken are those of some pieces, the events so far tell them, and the open masters are
among them. -/
def Ledger (t : Scanner) (input : Bytes) (log : List Event) : Prop :=
  ∃ pieces, Tells t.schema pieces log ∧ (∀ m ∈ t.stack, IsPiece t.schema pieces m.element) ∧
    t.Holds pieces input

theorem ledger_of_begun {t : Scanner} (hphase : t.phase = .id) (hstack : t.stack = [])
    (hindex : t.nextIndex = 0) (hempty : t.window.bytes = []) : t.Ledger [] [] := by
  refine ⟨[], .nil, by simp [hstack], ?_⟩
  simp only [Holds, hphase]
  exact ⟨by simp [Whole], hindex, by simp [hempty]⟩

/-! ## From place to place -/

section

variable {schema : Schema} {pieces : List Piece} {bytes input : Bytes} {index nextIndex missing : Nat}
  {p : Piece} {leaf : Option Occurrence}

theorem BeforeStart.absorb {window : Bytes} (h : BeforeStart schema pieces window index input)
    (bytes : Bytes) : BeforeStart schema pieces (window ++ bytes) index (input ++ bytes) := by
  refine ⟨h.whole, h.index_eq, ?_⟩
  rw [← h.joined, List.append_assoc]

/-- A header that was read becomes a piece without data, which lacks all that was declared. -/
theorem BeforeStart.enter {header : Bytes} (h : BeforeStart schema pieces header index input)
    (hlacks : (Piece.mk header []).Lacks schema missing) (hnext : nextIndex = index + 1)
    (hleaf : leaf = ((Piece.mk header []).decl? schema).map (⟨·, pieces.length⟩)) :
    InsideData schema pieces ⟨header, []⟩ missing leaf nextIndex input := by
  refine ⟨h.whole, hlacks, hleaf, by rw [hnext, h.index_eq], ?_⟩
  rw [List.flatMap_append, List.flatMap_singleton, ← h.joined, Piece.raw, List.append_nil]

/-- Data that is complete makes a whole piece. -/
theorem InsideData.over (h : InsideData schema pieces p 0 leaf nextIndex input) :
    BehindData schema (pieces ++ [p]) leaf nextIndex input := by
  refine ⟨h.whole.append h.lacks, ?_, by simpa using h.index_eq, h.joined⟩
  intro o ho
  rw [h.leaf_eq] at ho
  cases hdecl : p.decl? schema with
  | none => simp [hdecl] at ho
  | some decl =>
    obtain rfl : o = ⟨decl, pieces.length⟩ := by simpa [hdecl, eq_comm] using ho
    exact .last hdecl

/-- A piece that lacks data gets some of it. -/
theorem InsideData.read (h : InsideData schema pieces p missing leaf nextIndex input)
    (hne : bytes ≠ []) (hle : bytes.length ≤ missing) :
    InsideData schema pieces ⟨p.header, p.content ++ bytes⟩ (missing - bytes.length) leaf nextIndex
      (input ++ bytes) := by
  have hpos := List.length_pos_iff.mpr hne
  refine ⟨h.whole, ?_, h.leaf_eq, h.index_eq, ?_⟩
  · obtain ⟨header, hdec, hsize⟩ := h.lacks
    refine ⟨header, hdec, ?_⟩
    split at hsize
    · omega
    · rename_i hmaster
      rw [if_neg hmaster, hsize, List.length_append]
      congr 1
      omega
  · rw [← h.joined]
    simp [Piece.raw]

theorem BehindData.boundary (h : BehindData schema pieces leaf nextIndex input) :
    BeforeStart schema pieces [] nextIndex input :=
  ⟨h.whole, h.index_eq, by rw [List.append_nil, h.joined]⟩

end

theorem holds_of_header {t : Scanner} {index : Nat} {pieces : List Piece} {input : Bytes}
    (h : t.headerIndex? = some index) :
    t.Holds pieces input ↔ BeforeStart t.schema pieces t.window.bytes index input := by
  unfold headerIndex? at h
  unfold Holds
  split at h
  · rename_i hphase
    obtain rfl := Option.some.inj h
    rw [hphase]
  · rename_i hphase
    rw [hphase, h]
  · rename_i hphase
    rw [hphase, h]
  · simp at h

/-- Bytes of a header follow the pieces. -/
theorem Ledger.readsOn {t t' : Scanner} {index : Nat} {bytes input : Bytes} {log : List Event}
    (hl : t.Ledger input log) (h : ReadsOn t index bytes t') : t'.Ledger (input ++ bytes) log := by
  obtain ⟨pieces, htells, hstack, hholds⟩ := hl
  rw [holds_of_header h.before] at hholds
  refine ⟨pieces, h.schema_eq ▸ htells, ?_, ?_⟩
  · rw [h.schema_eq, h.stack_eq]
    exact hstack
  · rw [holds_of_header h.behind, h.schema_eq, h.window_eq]
    exact hholds.absorb bytes

/-- Before an element starts its whole header is in the window. -/
theorem Coherent.header_of_resolve {t : Scanner} {id index : Nat} {size : DataSize}
    (h : t.Coherent) (hphase : t.phase = .resolve id size (some index)) :
    ∃ header, Header.decode t.window.bytes = .ok (some (header, t.window.bytes.length)) ∧
      header.id = id ∧ header.size = size ∧ t.Numbered index ∧
      t.window.stop = t.consumed := by
  simp only [Coherent, hphase] at h
  obtain ⟨hstop, hnumbered, -, idField, sizeField, hwindow, hid, hsize, rfl, rfl⟩ := h
  have hdec := Header.decode_fields hid hsize []
  rw [List.append_nil, ← hwindow] at hdec
  exact ⟨_, hdec, rfl, rfl, hnumbered, hstop⟩

/-- A piece that begins with a header of known length lacks all of its data. -/
theorem lacks_of_header {schema : Schema} {bytes : Bytes} {header : Header} {n : Nat}
    (hdec : Header.decode bytes = .ok (some (header, bytes.length)))
    (hsize : header.size = .known n)
    (hmaster : (schema.get? header.id).any ElementDecl.isMaster = false) :
    (Piece.mk bytes []).Lacks schema n := by
  refine ⟨header, hdec, ?_⟩
  rw [if_neg (by simp [hmaster]), hsize]
  simp

/-! ## Transitions -/

namespace Ledger

variable {t : Scanner} {input : Bytes} {log : List Event}

/-- Waiting for more of an id settles no more than its number. -/
theorem waiting (hl : t.Ledger input log) (hphase : t.phase = .id)
    (outcome : Except ScanError Progress) : (t.waiting outcome).Ledger input log := by
  obtain ⟨pieces, htells, hstack, hholds⟩ := hl
  have hphase' : (t.waiting outcome).phase = .id := hphase
  refine ⟨pieces, htells, hstack, ?_⟩
  simp only [Holds, hphase] at hholds
  simp only [Holds, hphase', nextIndex_waiting]
  exact hholds

/-- The end of the innermost master takes no byte, so it can be entered in front of any header. -/
theorem closes (hl : t.Ledger input log) {index : Nat} (hindex : t.headerIndex? = some index)
    {m : OpenMaster} {rest : List OpenMaster} (hopen : t.stack = m :: rest) :
    Ledger { t with stack := rest } input (log ++ [.finish m.element (pathOf rest)]) := by
  obtain ⟨pieces, htells, hstack, hholds⟩ := hl
  rw [hopen] at hstack
  refine ⟨pieces, htells.finish (hstack m (List.mem_cons_self ..)),
    fun m' hm' => hstack m' (List.mem_cons_of_mem _ hm'), ?_⟩
  rw [holds_of_header hindex] at hholds
  exact (holds_of_header (t := { t with stack := rest }) hindex).mpr hholds

/-- An element outside the schema is entered as a piece that no event tells. -/
theorem skips (hl : t.Ledger input log) (hco : t.Coherent) {id n index : Nat}
    (hphase : t.phase = .resolve id (.known n) (some index)) (hnone : t.schema.get? id = none) :
    Ledger { t with phase := .content none (some (t.window.stop + n)) } input log := by
  obtain ⟨pieces, htells, hstack, hholds⟩ := hl
  obtain ⟨header, hdec, rfl, hsize, hnumbered, hstop⟩ := hco.header_of_resolve hphase
  have hdecl : (Piece.mk t.window.bytes []).decl? t.schema = none := by
    rw [Piece.decl?_of_decode hdec, hnone]
  simp only [Holds, hphase] at hholds
  refine ⟨pieces ++ [⟨t.window.bytes, []⟩], htells.skip hdecl,
    fun m hm => (hstack m hm).append, pieces, ⟨t.window.bytes, []⟩, rfl, ?_⟩
  refine hholds.enter ?_ hnumbered.nextIndex_eq (by rw [hdecl]; rfl)
  rw [hstop, Nat.add_sub_cancel_left]
  exact lacks_of_header hdec hsize (by simp [hnone])

/-- The children of a master are pieces of their own, so its piece is whole at once. -/
theorem entersMaster (hl : t.Ledger input log) (hco : t.Coherent) {id index : Nat} {size : DataSize}
    {decl : ElementDecl} (hphase : t.phase = .resolve id size (some index))
    (hdecl : t.schema.get? id = some decl) (hmaster : decl.isMaster = true) :
    Ledger { t with stack := ⟨⟨decl, index⟩, t.window.stop, size⟩ :: t.stack }.atBoundary input
      (log ++ [.start ⟨decl, index⟩ size t.window.bytes t.path]) := by
  obtain ⟨pieces, htells, hstack, hholds⟩ := hl
  obtain ⟨header, hdec, rfl, rfl, hnumbered, -⟩ := hco.header_of_resolve hphase
  have hpiece : (Piece.mk t.window.bytes []).decl? t.schema = some decl := by
    rw [Piece.decl?_of_decode hdec, hdecl]
  have hlacks : (Piece.mk t.window.bytes []).Lacks t.schema 0 :=
    ⟨header, hdec, by simp [hdecl, hmaster]⟩
  simp only [Holds, hphase] at hholds
  obtain rfl := hholds.index_eq
  have hstart : Tells t.schema (pieces ++ [⟨t.window.bytes, []⟩])
      (log ++ [.start ⟨decl, pieces.length⟩ header.size t.window.bytes t.path]) :=
    htells.start hpiece
  refine ⟨pieces ++ [⟨t.window.bytes, []⟩], ?_, fun m hm => ?_, ?_⟩
  · exact hstart
  · rcases List.mem_cons.mp hm with rfl | hm
    · exact .last hpiece
    · exact (hstack m hm).append
  · exact (hholds.enter hlacks hnumbered.2 rfl).over.boundary

/-- A leaf is entered with its header, and lacks its data. -/
theorem entersLeaf (hl : t.Ledger input log) (hco : t.Coherent) {id n index : Nat}
    {decl : ElementDecl} (hphase : t.phase = .resolve id (.known n) (some index))
    (hdecl : t.schema.get? id = some decl) (hleaf : decl.isMaster = false) :
    Ledger { t with phase := .content (some ⟨decl, index⟩) (some (t.window.stop + n)) } input
      (log ++ [.start ⟨decl, index⟩ (.known n) t.window.bytes t.path]) := by
  obtain ⟨pieces, htells, hstack, hholds⟩ := hl
  obtain ⟨header, hdec, rfl, hsize, hnumbered, hstop⟩ := hco.header_of_resolve hphase
  have hpiece : (Piece.mk t.window.bytes []).decl? t.schema = some decl := by
    rw [Piece.decl?_of_decode hdec, hdecl]
  simp only [Holds, hphase] at hholds
  obtain rfl := hholds.index_eq
  refine ⟨pieces ++ [⟨t.window.bytes, []⟩], htells.start hpiece,
    fun m hm => (hstack m hm).append, pieces, ⟨t.window.bytes, []⟩, rfl, ?_⟩
  refine hholds.enter ?_ hnumbered.nextIndex_eq (by rw [hpiece]; rfl)
  rw [hstop, Nat.add_sub_cancel_left]
  exact lacks_of_header hdec hsize (by simp [hdecl, hleaf])

/-- Data goes to the last piece. With its last byte the scan leaves the element. -/
theorem reads (hl : t.Ledger input log) {leaf : Option Occurrence} {stop : Nat} {chunk : Bytes}
    (hphase : t.phase = .content leaf (some stop)) (hne : chunk ≠ [])
    (hle : t.consumed + chunk.length ≤ stop) :
    Ledger { t with
        consumed := t.consumed + chunk.length
        phase := if stop ≤ t.consumed + chunk.length then .finished leaf
          else .content leaf (some stop) }
      (input ++ chunk) (log ++ (leaf.map (.content · chunk)).toList) := by
  obtain ⟨pieces, htells, hstack, hholds⟩ := hl
  simp only [Holds, hphase] at hholds
  obtain ⟨front, p, rfl, hinside⟩ := hholds
  have hread := hinside.read hne (by omega)
  rw [Nat.sub_sub] at hread
  have hcontent := htells.content chunk
  refine ⟨front ++ [⟨p.header, p.content ++ chunk⟩], ?_, fun m hm => (hstack m hm).of_content _, ?_⟩
  · rw [hinside.leaf_eq, Option.map_map]
    exact hcontent
  · by_cases hover : stop ≤ t.consumed + chunk.length
    · rw [Nat.sub_eq_zero_of_le hover] at hread
      simp only [Holds, if_pos hover]
      exact hread.over
    · simp only [Holds, if_neg hover]
      exact ⟨front, _, rfl, hread⟩

/-- Behind its data an element is left, and its end is told if it has a declaration. -/
theorem finishes (hl : t.Ledger input log) (hco : t.Coherent) {leaf : Option Occurrence}
    (hphase : t.phase = .finished leaf) :
    t.atBoundary.Ledger input (log ++ (leaf.map (.finish · t.path)).toList) := by
  obtain ⟨pieces, htells, hstack, hholds⟩ := hl
  simp only [Coherent, hphase] at hco
  simp only [Holds, hphase] at hholds
  have hboundary := hholds.boundary
  rw [nextIndex_of_idNumber hco] at hboundary
  refine ⟨pieces, ?_, hstack, hboundary⟩
  cases leaf with
  | none =>
    show Tells t.schema pieces (log ++ [])
    rwa [List.append_nil]
  | some o => exact htells.finish (hholds.leaf_mem o rfl)

end Ledger

/-- A transition enters the bytes that it took and the events that it reported. -/
theorem Transition.ledger {t t' : Scanner} {bytes input : Bytes} {log : List Event}
    {outcome : Except ScanError Progress} (h : Transition t bytes outcome t') (hco : t.Coherent)
    (hl : t.Ledger input log) : t'.Ledger (input ++ bytes) (log ++ reported outcome) := by
  -- While a header is read nothing is told of its piece. A piece is entered when it starts or is
  -- skipped, and its data is entered as it comes.
  cases h with
  | closeExhausted hphase _ _ hopen =>
    rw [List.append_nil]
    exact hl.closes (headerIndex_of_id hphase) hopen
  | idLacking hphase _ _ hwaits =>
    rw [reported_of_waits hwaits, List.append_nil]
    exact (hl.readsOn (readsOn_absorb (headerIndex_of_id hphase) bytes)).waiting hphase _
  | idSpoilt hphase _ _ =>
    rw [reported_error, List.append_nil]
    exact hl.readsOn (readsOn_absorb (headerIndex_of_id hphase) bytes)
  | idRead hphase _ _ =>
    rw [reported_moved, List.append_nil]
    exact hl.readsOn ⟨headerIndex_of_id hphase, rfl, rfl, rfl, rfl⟩
  | sizeLacking hphase _ _ hwaits =>
    rw [reported_of_waits hwaits, List.append_nil]
    exact hl.readsOn (readsOn_absorb (headerIndex_of_size hphase) bytes)
  | sizeSpoilt hphase _ _ =>
    rw [reported_error, List.append_nil]
    exact hl.readsOn (readsOn_absorb (headerIndex_of_size hphase) bytes)
  | sizeRead hphase _ _ =>
    rw [reported_moved, List.append_nil]
    exact hl.readsOn ⟨headerIndex_of_size hphase, rfl, rfl, rfl, rfl⟩
  | skip hphase hnone =>
    rw [reported_moved, List.append_nil, List.append_nil]
    exact hl.skips hco hphase hnone
  | refuseUnresolved => rwa [reported_error, List.append_nil, List.append_nil]
  | refuseLeaf => rwa [reported_error, List.append_nil, List.append_nil]
  | closeLevel hphase _ _ hopen _ =>
    rw [List.append_nil]
    exact hl.closes (headerIndex_of_resolve hphase) hopen
  | enterMaster hphase hdecl hmaster _ =>
    rw [List.append_nil]
    exact hl.entersMaster hco hphase hdecl hmaster
  | enterLeaf hphase hdecl hleaf _ =>
    rw [List.append_nil]
    exact hl.entersLeaf hco hphase hdecl hleaf
  | contentOver hphase hover =>
    obtain ⟨pieces, htells, hstack, hholds⟩ := hl
    simp only [Holds, hphase] at hholds
    obtain ⟨front, p, rfl, hinside⟩ := hholds
    rw [Nat.sub_eq_zero_of_le hover] at hinside
    rw [reported_moved, List.append_nil, List.append_nil]
    exact ⟨front ++ [p], htells, hstack, hinside.over⟩
  | contentLacking _ _ hwaits => rwa [reported_of_waits hwaits, List.append_nil, List.append_nil]
  | contentRead hphase hne hle => exact hl.reads hphase hne hle
  | finish hphase =>
    rw [List.append_nil]
    exact hl.finishes hco hphase

theorem Trail.ledger {t t' : Scanner} {bytes input : Bytes} {events log : List Event}
    (h : Trail t bytes events t') (hco : t.Coherent) (hl : t.Ledger input log) :
    t'.Ledger (input ++ bytes) (log ++ events) := by
  induction h generalizing input log with
  | refl => rwa [List.append_nil, List.append_nil]
  | step hstep _ ih =>
    rw [← List.append_assoc, ← List.append_assoc]
    exact ih (hstep.coherent hco) (hstep.ledger hco hl)

/-! ## Stalled scans -/

/-- Whole pieces and the beginning of a header divide what was taken. -/
theorem BeforeStart.divides {schema : Schema} {pieces : List Piece} {window input : Bytes}
    {index : Nat} (h : BeforeStart schema pieces window index input)
    (hlacking : Header.decode window = .ok none) : Divides schema pieces window input where
  joined := h.joined
  whole p hp := h.whole p (List.dropLast_subset _ hp)
  last p hp := .inl (h.whole p (List.mem_of_getLast? hp))
  tail_incomplete := hlacking

/-- Whole pieces and one that lacks data divide what was taken. -/
theorem InsideData.divides {schema : Schema} {front : List Piece} {p : Piece} {missing : Nat}
    {leaf : Option Occurrence} {nextIndex : Nat} {input : Bytes}
    (h : InsideData schema front p missing leaf nextIndex input) :
    Divides schema (front ++ [p]) [] input := by
  refine ⟨?_, ?_, ?_, rfl⟩
  · rw [List.append_nil, h.joined]
  · rw [List.dropLast_concat]
    exact h.whole
  · intro q hq
    obtain rfl : p = q := by simpa using hq
    exact .inr ⟨rfl, _, h.lacks⟩

/-- When a scan lacks bytes, those taken divide into pieces that the events tell. -/
theorem Ledger.divides {t : Scanner} {input : Bytes} {log : List Event} (hl : t.Ledger input log)
    (h : t.Lacking) :
    ∃ pieces tail, Divides t.schema pieces tail input ∧ Tells t.schema pieces log := by
  obtain ⟨pieces, htells, -, hholds⟩ := hl
  refine ⟨pieces, ?_⟩
  unfold Lacking at h
  unfold Holds at hholds
  -- In a header the bytes of the window are the tail. In data the tail is empty and the last piece
  -- is cut.
  split at h
  · rename_i hphase
    rw [hphase] at hholds
    exact ⟨_, hholds.divides h.1, htells⟩
  · rename_i number hphase
    rw [hphase] at hholds
    cases number with
    | none => exact hholds.elim
    | some index => exact ⟨_, hholds.divides h, htells⟩
  · rename_i hphase
    rw [hphase] at hholds
    obtain ⟨front, p, rfl, hinside⟩ := hholds
    exact ⟨_, hinside.divides, htells⟩
  · exact h.elim

end Ebml.Scanner
