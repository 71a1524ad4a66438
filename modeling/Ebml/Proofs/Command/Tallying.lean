import Mathlib
import Ebml.Proofs.Command.Agreeing

/-!
# Statistics add up

The numbers of a document are counted in several ways, over all elements, by name and by track, and
what is shown of them agrees. A row for each name shares the elements out, so the rows together count
all of them and all their bytes (`Statistics.total_eq`). What the document has beyond that is outside
the schema or a header cut short (`Command.stats_adds_up`). The rows are told apart by their names and
in order, so they come out the same whatever order they went in (`Statistics.rows_of_perm`).
-/

namespace Ebml

open Reader (reading DrainEnd)

/-! ## Simple blocks and their name -/

namespace Collector

/-- What starts in the queue is a master. -/
def StartsMasters (c : Collector) : Prop :=
  ∀ o path size header, .start o path size header ∈ c.pending → o.decl.isMaster = true

theorem StartsMasters.enqueue {c : Collector} {e : Element} (h : c.StartsMasters)
    (he : e.isStart = true → e.occurrence.decl.isMaster = true) : (c.enqueue e).StartsMasters := by
  intro o path size header hmem
  rcases List.mem_append.mp hmem with hmem | hmem
  · exact h o path size header hmem
  · rw [← List.mem_singleton.mp hmem] at he
    exact he rfl

theorem StartsMasters.handle {c : Collector} (h : c.StartsMasters) (event : Event) :
    (handle event c).StartsMasters := by
  unfold Collector.handle
  split
  · split
    · exact h
    · split
      · rename_i hmaster
        exact h.enqueue fun _ => hmaster
      · exact h
  · split
    · split <;> exact h
    · exact h
  · split
    · exact h
    · split
      · exact h.enqueue fun hstart => by simp [Element.isStart] at hstart
      · split
        · split
          · exact h.enqueue fun hstart => by simp [Element.isStart] at hstart
          · exact h
        · exact h

theorem StartsMasters.deliverAll {c : Collector} (h : c.StartsMasters) (events : List Event) :
    (receiver.deliverAll events c).StartsMasters := by
  induction events generalizing c with
  | nil => exact h
  | cons event rest ih => exact ih (h.handle event)

end Collector

/-- What starts in a document is a master. -/
theorem Reader.isMaster_of_start_mem {c : ReaderConfig} {bytes : Bytes} {o : Occurrence}
    {path : Option (List Occurrence)} {size : DataSize} {header : Bytes}
    (h : .start o path size header ∈ (reading c bytes).1) : o.decl.isMaster = true := by
  have hfresh : (Collector.ofConfig c).StartsMasters := fun o path size header hmem => by
    simp [Collector.ofConfig] at hmem
  exact hfresh.deliverAll _ o path size header h

theorem Matroska.simpleBlock_of_name :
    ∀ d ∈ Matroska.schema.decls, d.name = "SimpleBlock" → d.id = Matroska.simpleBlockId := by
  have hall : Matroska.schema.decls.all
      (fun d => d.name != "SimpleBlock" || d.id == Matroska.simpleBlockId) = true := by cbv
  intro d hd hname
  have hone := List.all_eq_true.mp hall d hd
  rw [hname] at hone
  simpa using hone

/-- In the Matroska schema, what is named a simple block is one. -/
theorem Element.isSimpleBlock_iff {e : Element} (hdecl : e.occurrence.DeclaredIn Matroska.schema)
    (hfinish : e.isFinish = false)
    (hstart : ∀ o path size header, e = .start o path size header → o.decl.isMaster = true) :
    e.isSimpleBlock = true ↔ e.occurrence.decl.name = "SimpleBlock" := by
  have hblock : Matroska.schema.get? Matroska.simpleBlockId =
      some ⟨Matroska.simpleBlockId, "SimpleBlock", 2, .binary, false⟩ := by rfl
  have hid : e.occurrence.decl.name = "SimpleBlock" ↔
      e.occurrence.decl.id = Matroska.simpleBlockId := by
    refine ⟨Matroska.simpleBlock_of_name _ (List.mem_of_find?_eq_some hdecl), fun hid => ?_⟩
    rw [Occurrence.DeclaredIn, hid, hblock] at hdecl
    rw [← Option.some.inj hdecl]
  rw [hid]
  cases e with
  | start o path size header =>
    -- What starts is a master, and a simple block is declared as binary data.
    refine iff_of_false (by simp [isSimpleBlock]) fun hid => ?_
    have hmaster := hstart o path size header rfl
    rw [occurrence] at hid hdecl
    rw [Occurrence.DeclaredIn, hid, hblock] at hdecl
    rw [← Option.some.inj hdecl] at hmaster
    contradiction
  | finish o path => simp [isFinish] at hfinish
  | leaf l => simp [isSimpleBlock, occurrence]

/-! ## Rows -/

namespace NameCount

theorem foldl_add (rows : List NameCount) (start : NameCount) :
    rows.foldl add start = ⟨start.name, start.count + (rows.map NameCount.count).sum,
      start.bytes + (rows.map NameCount.bytes).sum⟩ := by
  induction rows generalizing start with
  | nil => rfl
  | cons row rest ih =>
    rw [List.foldl_cons, ih]
    simp [add, Nat.add_assoc]

theorem before_total (a b : NameCount) : (before a b || before b a) = true := by
  have hnames := String.le_total a.name b.name
  simp only [before, Bool.or_eq_true, decide_eq_true_eq]
  grind

theorem before_trans (a b c : NameCount) (hab : before a b = true) (hbc : before b c = true) :
    before a c = true := by
  simp only [before, decide_eq_true_eq] at hab hbc ⊢
  rcases hab with hab | ⟨hab, hnames⟩ <;> rcases hbc with hbc | ⟨hbc, hnames'⟩
  · exact .inl (hbc.trans hab)
  · exact .inl (hbc ▸ hab)
  · exact .inl (hab ▸ hbc)
  · exact .inr ⟨hab.trans hbc, String.le_trans hnames hnames'⟩

/-- Of two rows with different names just one comes first. -/
theorem name_eq_of_before {a b : NameCount} (hab : before a b = true) (hba : before b a = true) :
    a.name = b.name := by
  simp only [before, decide_eq_true_eq] at hab hba
  rcases hab with hab | ⟨hab, hnames⟩ <;> rcases hba with hba | ⟨hba, hnames'⟩
  · omega
  · omega
  · omega
  · exact String.le_antisymm hnames hnames'

end NameCount

namespace Statistics

/-! ## The table of names -/

variable (elements : List Element)

theorem names_eq : (ofElements elements).names = NameCount.rowsOf (parts elements) := by
  rw [ofElements_eq]
  rfl

theorem rows_perm : (ofElements elements).rows.Perm (NameCount.rowsOf (parts elements)) := by
  rw [rows, names_eq]
  exact List.mergeSort_perm _ _

theorem map_name_rowsOf (parts : List Element) :
    (NameCount.rowsOf parts).map NameCount.name = (parts.map nameOf).eraseDups :=
  (List.map_map ..).trans (List.map_id' _)

/-- Each name has one row. -/
theorem nodup_rows : ((ofElements elements).rows.map NameCount.name).Nodup := by
  rw [((rows_perm elements).map NameCount.name).nodup_iff, map_name_rowsOf]
  exact nodup_eraseDups _

/-- The names in the table are those of the elements. -/
theorem mem_rows_iff (name : String) :
    name ∈ (ofElements elements).rows.map NameCount.name ↔
      ∃ e ∈ elements, e.isFinish = false ∧ e.occurrence.decl.name = name := by
  rw [((rows_perm elements).map NameCount.name).mem_iff, map_name_rowsOf, List.mem_eraseDups]
  simp [parts, nameOf, and_assoc]

theorem eq_ofParts_of_mem {row : NameCount} (h : row ∈ (ofElements elements).rows) :
    row = NameCount.ofParts (parts elements) row.name := by
  obtain ⟨name, -, rfl⟩ := List.mem_map.mp ((rows_perm elements).mem_iff.mp h)
  rfl

theorem eq_of_name_eq {a b : NameCount} (ha : a ∈ (ofElements elements).rows)
    (hb : b ∈ (ofElements elements).rows) (h : a.name = b.name) : a = b := by
  rw [eq_ofParts_of_mem elements ha, eq_ofParts_of_mem elements hb, h]

theorem pairwise_before :
    (ofElements elements).rows.Pairwise fun a b => NameCount.before a b = true :=
  List.pairwise_mergeSort NameCount.before_trans NameCount.before_total _

/-- The order of the rows leaves no choice. -/
theorem pairwise_rows :
    (ofElements elements).rows.Pairwise fun a b =>
      b.bytes < a.bytes ∨ a.bytes = b.bytes ∧ a.name < b.name := by
  refine ((pairwise_before elements).and (List.pairwise_map.mp (nodup_rows elements))).imp ?_
  rintro a b ⟨hbefore, hne⟩
  rw [NameCount.before, decide_eq_true_eq] at hbefore
  exact hbefore.imp_right fun ⟨hbytes, hle⟩ => ⟨hbytes, lt_of_le_of_ne hle hne⟩

/-- The rows come out in the same order whatever order they went in. -/
theorem rows_of_perm {names : List NameCount} (h : names.Perm (ofElements elements).names) :
    names.mergeSort NameCount.before = (ofElements elements).rows := by
  have hperm : (names.mergeSort NameCount.before).Perm (ofElements elements).rows :=
    (List.mergeSort_perm names _).trans (h.trans (List.mergeSort_perm _ _).symm)
  refine hperm.eq_of_pairwise (fun a b ha hb hab hba => ?_)
    (List.pairwise_mergeSort NameCount.before_trans NameCount.before_total _)
    (pairwise_before elements)
  exact eq_of_name_eq elements (hperm.mem_iff.mp ha) hb (NameCount.name_eq_of_before hab hba)

/-- The order of the names in the map that counts them does not show. -/
theorem lines_of_perm {names : List NameCount} (h : names.Perm (ofElements elements).names)
    (file : String) (bytesRead : Nat) :
    ({ ofElements elements with names := names } : Statistics).lines file bytesRead =
      (ofElements elements).lines file bytesRead := by
  have hrows : ({ ofElements elements with names := names } : Statistics).rows =
      (ofElements elements).rows := rows_of_perm elements h
  rw [lines, lines, nameTable, nameTable, total, total, hrows]
  rfl

/-- What the rows share out is all there. -/
theorem sum_rows (weight : Element → Nat) :
    (((parts elements).map nameOf).eraseDups.map fun name =>
      (((parts elements).filter fun e => nameOf e = name).map weight).sum).sum =
        ((parts elements).map weight).sum :=
  sum_byKey nameOf weight (nodup_eraseDups _) fun _ he =>
    List.mem_eraseDups.mpr (List.mem_map_of_mem he)

/-- All rows together count all elements and all their bytes. -/
theorem total_eq :
    (ofElements elements).total =
      ⟨"Total", (parts elements).length, ((parts elements).flatMap Element.raw).length⟩ := by
  have hcount : ((ofElements elements).rows.map NameCount.count).sum = (parts elements).length := by
    rw [((rows_perm elements).map NameCount.count).sum_eq, NameCount.rowsOf, List.map_map]
    have hshares := sum_rows elements fun _ => 1
    simp only [List.map_const', List.sum_replicate, smul_eq_mul, Nat.mul_one] at hshares
    exact hshares
  have hbytes : ((ofElements elements).rows.map NameCount.bytes).sum =
      ((parts elements).flatMap Element.raw).length := by
    rw [((rows_perm elements).map NameCount.bytes).sum_eq, NameCount.rowsOf, List.map_map,
      List.length_flatMap, ← sum_rows elements fun e => e.raw.length]
    exact congrArg List.sum (List.map_congr_left fun name _ => List.length_flatMap)
  rw [total, NameCount.foldl_add, hcount, hbytes, Nat.zero_add, Nat.zero_add]

theorem parts_cons (e : Element) (rest : List Element) :
    parts (e :: rest) = if e.isFinish then parts rest else e :: parts rest := by
  rw [parts, List.filter_cons]
  cases e.isFinish <;> rfl

theorem length_parts (elements : List Element) : (parts elements).length =
    elements.countP Element.isStart + (elements.filterMap Element.leaf?).length := by
  induction elements with
  | nil => rfl
  | cons e rest ih =>
    rw [parts_cons, List.countP_cons, List.filterMap_cons]
    cases e with
    | start => exact (congrArg (· + 1) ih).trans (Nat.add_right_comm _ _ 1)
    | finish => exact ih
    | leaf => exact congrArg (· + 1) ih

/-- Ends of masters have no bytes. -/
theorem flatMap_raw_parts (elements : List Element) :
    (parts elements).flatMap Element.raw = elements.flatMap Element.raw := by
  induction elements with
  | nil => rfl
  | cons e rest ih =>
    rw [parts_cons, List.flatMap_cons, ← ih]
    cases e <;> rfl

/-! ## The row of the simple blocks -/

/-- What is named a simple block is the frames of all tracks and what is malformed. -/
theorem countP_simpleBlock
    (h : ∀ e ∈ elements, e.isFinish = false → (e.isSimpleBlock = true ↔ nameOf e = "SimpleBlock")) :
    (parts elements).countP (fun e => nameOf e = "SimpleBlock") =
      ((ofElements elements).tracks.map TrackCount.frames).sum +
        (ofElements elements).malformedFrames := by
  rw [sum_tracks_add, parts, List.countP_filter]
  refine List.countP_congr fun e he => ?_
  cases hfinish : e.isFinish with
  | true => cases e <;> simp [Element.isFinish] at hfinish; simp [Element.isSimpleBlock]
  | false => simp [h e he hfinish]

/-- A row counts the elements of its name. -/
theorem count_of_mem {row : NameCount} (h : row ∈ (ofElements elements).rows) :
    row.count = (parts elements).countP fun e => nameOf e = row.name := by
  rw [List.countP_eq_length_filter]
  exact congrArg NameCount.count (eq_ofParts_of_mem elements h)

/-- A name without a row has no elements. -/
theorem countP_of_no_row {name : String} (h : ∀ row ∈ (ofElements elements).rows, row.name ≠ name) :
    (parts elements).countP (fun e => nameOf e = name) = 0 := by
  refine List.countP_eq_zero.mpr fun e he hname => ?_
  obtain ⟨hmem, hfinish⟩ := List.mem_filter.mp he
  obtain ⟨row, hrow, hname'⟩ := List.mem_map.mp ((mem_rows_iff elements name).mpr
    ⟨e, hmem, by simpa using hfinish, of_decide_eq_true hname⟩)
  exact h row hrow hname'

end Statistics

/-! ## Bytes -/

/-- Pieces of the schema, the other pieces and the rest are all there is. -/
theorem Divides.length_eq {schema : Schema} {pieces : List Piece} {tail input : Bytes}
    (h : Divides schema pieces tail input) :
    (pieces.flatMap (Piece.kept schema)).length +
      ((pieces.filter fun p => (p.decl? schema).isNone).flatMap Piece.raw).length + tail.length =
        input.length := by
  have hpieces : (pieces.flatMap (Piece.kept schema)).length +
      ((pieces.filter fun p => (p.decl? schema).isNone).flatMap Piece.raw).length =
        (pieces.flatMap Piece.raw).length := by
    clear h
    -- A piece is among the elements with all its bytes, or it is one of those outside the schema.
    induction pieces with
    | nil => rfl
    | cons p rest ih =>
      cases hdecl : p.decl? schema with
      | none =>
        have hkept : p.kept schema = [] := by simp [Piece.kept, hdecl]
        rw [List.flatMap_cons, List.flatMap_cons, List.filter_cons_of_pos (by simp [hdecl]),
          List.flatMap_cons, hkept, List.nil_append, List.length_append, List.length_append]
        omega
      | some decl =>
        have hkept : p.kept schema = p.raw := by simp [Piece.kept, hdecl]
        rw [List.flatMap_cons, List.flatMap_cons, List.filter_cons_of_neg (by simp [hdecl]), hkept,
          List.length_append, List.length_append]
        omega
  rw [hpieces, ← h.joined, List.length_append]

namespace Command

open Statistics (parts nameOf)

/-- Where the standard input can be read to its end, its statistics add up. Below the rows stands a
row that counts the masters and leaves that were read, with all bytes of the input but those of
elements outside the schema and of a header cut short. The row of the simple blocks counts the frames
of all tracks and the malformed ones. Each name has one row, with what was read under it, and the rows
are in the one order that their bytes and names allow, whatever order they were counted in. -/
theorem stats_adds_up (i : InputOptions) (tree : FileTree) (standardInput : Stream)
    (hinput : i.isStandardInput = true) (hchunk : i.chunkSize ≤ StreamSource.largestBuffer)
    (hread : (i.drain standardInput).stop.error? = none) :
    let drained := i.drain standardInput
    let parts := drained.elements.filter fun e => !e.isFinish
    let masters := drained.elements.countP Element.isStart
    let leaves := (drained.elements.filterMap Element.leaf?).length
    let numbers := Statistics.ofElements drained.elements
    let rows := numbers.rows
    let tracks := numbers.tracks
    let malformed := numbers.malformedFrames
    let cells (name count bytes : String) : String :=
      " ".intercalate [Text.alignLeft 20 name, Text.alignRight 7 count, Text.alignRight 11 bytes]
    let rule := String.ofList (List.replicate 42 '─')
    let totalBytes := (parts.flatMap Element.raw).length
    (⟨i, .stats⟩ : Command).runIn tree standardInput =
        ⟨[s!"File:      {i.file}  ({drained.reader.bytesRead} bytes read)",
          s!"Elements:  {masters + leaves} total ({masters} containers, {leaves} leaves), " ++
            s!"max depth {numbers.maxDepth}",
          s!"Unknown-length containers: {numbers.unknownLength}"] ++
          (if malformed = 0 then [] else [s!"Malformed SimpleBlocks: {malformed}"]) ++ [""] ++
          ([cells "Element" "Count" "Bytes", rule] ++
            rows.map (fun row => cells row.name (toString row.count) (toString row.bytes)) ++
              [rule, cells "Total" (toString (masters + leaves)) (toString totalBytes)]) ++
          (if tracks = [] then []
           else ["", "Frames per track:"] ++ tracks.map fun t =>
            let cell (width n : Nat) : String := Text.alignRight width (toString n)
            s!"  track {Text.alignLeft 4 (toString t.track)} {cell 8 t.frames} frames " ++
              s!"{cell 6 t.keyFrames} key"), none⟩ ∧
      parts.length = masters + leaves ∧
      (∃ pieces tail, Divides Matroska.schema pieces tail (Stream.untilEmpty standardInput.answers) ∧
        drained.reader.bytesRead = (Stream.untilEmpty standardInput.answers).length ∧
        totalBytes +
          ((pieces.filter fun p => (p.decl? Matroska.schema).isNone).flatMap Piece.raw).length +
            tail.length = drained.reader.bytesRead) ∧
      (∀ row ∈ rows, row.name = "SimpleBlock" →
        row.count = (tracks.map TrackCount.frames).sum + malformed) ∧
      ((∀ row ∈ rows, row.name ≠ "SimpleBlock") →
        (tracks.map TrackCount.frames).sum + malformed = 0) ∧
      (rows.map NameCount.name).Nodup ∧
      (∀ name, name ∈ rows.map NameCount.name ↔
        ∃ e ∈ drained.elements, e.isFinish = false ∧ e.occurrence.decl.name = name) ∧
      (∀ row ∈ rows,
        let named := parts.filter fun e => e.occurrence.decl.name = row.name
        row.count = named.length ∧ row.bytes = (named.flatMap Element.raw).length) ∧
      (rows.Pairwise fun a b => b.bytes < a.bytes ∨ a.bytes = b.bytes ∧ a.name < b.name) ∧
      ∀ names : List NameCount, names.Perm numbers.names →
        ({ numbers with names := names } : Statistics).lines i.file drained.reader.bytesRead =
          ((⟨i, .stats⟩ : Command).runIn tree standardInput).output := by
  intro drained parts masters leaves numbers rows tracks malformed cells rule totalBytes
  obtain ⟨hfailures, hreading, hended, hbytes⟩ := InputOptions.drain_complete hread
  have hok : (reading (i.configure {}) (Stream.untilEmpty standardInput.answers)).2 = .ok () := by
    rw [hreading]
  have hnumbers : numbers = Statistics.ofDocument drained.elements := Statistics.ofElements_eq _
  have htotal : numbers.total = ⟨"Total", parts.length, totalBytes⟩ :=
    Statistics.total_eq drained.elements
  have hparts : parts.length = masters + leaves := Statistics.length_parts _
  have hrun : (⟨i, .stats⟩ : Command).runIn tree standardInput =
      ⟨numbers.lines i.file drained.reader.bytesRead, none⟩ := by
    rw [runIn_eq_runTask _ tree standardInput hinput hchunk]
    change stats i standardInput = _
    rw [stats, hended]
    rfl
  -- Names and ids tell simple blocks apart alike, as all elements are declared by the schema.
  have hblocks := Statistics.countP_simpleBlock drained.elements fun e he hfinish => by
    have hmem {e : Element} (he : e ∈ drained.elements) :
        e ∈ (reading (i.configure {}) (Stream.untilEmpty standardInput.answers)).1 := by
      rwa [hreading]
    refine Element.isSimpleBlock_iff (Reader.declared_of_mem_reading hok (hmem he) hfinish) hfinish ?_
    rintro o path size header rfl
    exact Reader.isMaster_of_start_mem (hmem he)
  refine ⟨?_, hparts, ?_, fun row hrow hname => ?_,
    fun hnone => ?_, Statistics.nodup_rows _, Statistics.mem_rows_iff _, fun row hrow => ?_,
    Statistics.pairwise_rows _, fun names hnames => ?_⟩
  · have hmasters : numbers.containers = masters := congrArg Statistics.containers hnumbers
    have hleaves : numbers.leaves = leaves := congrArg Statistics.leaves hnumbers
    rw [hrun, Statistics.lines, Statistics.summary, Statistics.nameTable, htotal, hparts, ← hmasters,
      ← hleaves, Statistics.trackTable]
    simp only [List.isEmpty_iff]
    rfl
  · -- The elements have the bytes of the pieces, and so has the row below them.
    obtain ⟨r, hthrough, hpending⟩ := Reader.exists_through hok
    obtain ⟨pieces, tail, hdivides, hraw⟩ := hthrough.accounts rfl hpending
    refine ⟨pieces, tail, hdivides, hbytes, ?_⟩
    have hlength := hdivides.length_eq
    rw [← hraw, hreading] at hlength
    have htotalBytes : totalBytes = (drained.elements.flatMap Element.raw).length :=
      congrArg List.length (Statistics.flatMap_raw_parts drained.elements)
    rw [htotalBytes, hbytes]
    exact hlength
  · rw [Statistics.count_of_mem _ hrow, hname]
    exact hblocks
  · exact hblocks.symm.trans (Statistics.countP_of_no_row _ hnone)
  · have hrow' := Statistics.eq_ofParts_of_mem _ hrow
    exact ⟨congrArg NameCount.count hrow', congrArg NameCount.bytes hrow'⟩
  · rw [hrun]
    exact Statistics.lines_of_perm _ hnames _ _

/-- A void element, one outside the schema, a frame, a simple block that is none, and a byte that could
begin a header. -/
def mixedBytes : Bytes :=
  [0xEC, 0x81, 7, 0x81, 0x81, 9, 0xA3, 0x84, 0x81, 0, 0, 0x80, 0xA3, 0x81, 0x81, 0x1A]

/-- Three elements are counted, with 12 of the 16 bytes. -/
theorem stats_adds_up_of_mixed :
    let i : InputOptions := { file := "-" }
    let drained := i.drain (.ofBytes mixedBytes)
    let outcome := (⟨i, .stats⟩ : Command).runIn ⟨.directory [], []⟩ (.ofBytes mixedBytes)
    i.chunkSize ≤ StreamSource.largestBuffer ∧ drained.stop.error? = none ∧
      (∃ pieces tail, Divides Matroska.schema pieces tail mixedBytes ∧
        12 + ((pieces.filter fun p => (p.decl? Matroska.schema).isNone).flatMap Piece.raw).length +
          tail.length = 16) ∧
      outcome =
        ⟨["File:      -  (16 bytes read)",
          "Elements:  3 total (0 containers, 3 leaves), max depth 0",
          "Unknown-length containers: 0", "Malformed SimpleBlocks: 1", "",
          "Element                Count       Bytes",
          "──────────────────────────────────────────",
          "SimpleBlock                2           9", "Void                       1           3",
          "──────────────────────────────────────────",
          "Total                      3          12", "", "Frames per track:",
          "  track 1           1 frames      1 key"], none⟩ := by
  intro i drained outcome
  obtain ⟨helements, hstop, -⟩ := @InputOptions.drain_spec (.ofBytes mixedBytes) i rfl
  have hends : (reading (i.configure {}) mixedBytes).2 = .ok () := by cbv
  have hread : drained.stop.error? = none :=
    (congrArg DrainEnd.error? hstop).trans
      (congrArg (fun ending => (DrainEnd.ofEnding ending).error?) hends)
  have hnumbers : Statistics.ofElements drained.elements =
      ⟨0, 3, 0, 0, 1, [⟨"Void", 1, 3⟩, ⟨"SimpleBlock", 2, 9⟩], [⟨1, 1, 1⟩]⟩ :=
    (congrArg Statistics.ofElements helements).trans (by cbv)
  obtain ⟨hout, -, ⟨pieces, tail, hdivides, hlength, hbytes⟩, -⟩ :=
    stats_adds_up i ⟨.directory [], []⟩ (.ofBytes mixedBytes) (by cbv) (by decide) hread
  have hsixteen : (i.drain (.ofBytes mixedBytes)).reader.bytesRead = 16 := hlength
  rw [hsixteen, helements] at hbytes
  rw [hsixteen, hnumbers, helements] at hout
  have htotal :
      (((reading (i.configure {}) (Stream.untilEmpty (Stream.ofBytes mixedBytes).answers)).1.filter
        fun e => !e.isFinish).flatMap Element.raw).length = 12 := by cbv
  rw [htotal] at hbytes
  exact ⟨by decide, hread, ⟨pieces, tail, hdivides, hbytes⟩, hout.trans (by cbv)⟩

end Command

end Ebml
