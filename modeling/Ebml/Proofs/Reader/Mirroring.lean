import Ebml.Proofs.Reader.Collecting
import Ebml.Proofs.Scanner.Ending
import Ebml.Proofs.Scanner.Ledger

/-!
# A collector mirrors its scan

A scan knows which masters are open and how much of a leaf is still to come, and a collector knows
nothing but the elements it queued and the leaf it collects. Without a filter the one can be read off
the other (`Mirrors`): the masters that were started and not ended are those on the stack, and a leaf
is collected just while the scan is inside one, with the data seen so far. Each transition keeps it
(`Transition.mirrors`), so every trail does.
-/

namespace Ebml

/-! ## What elements say of themselves -/

/-- Whether it is a leaf whose data the document cut short. -/
def Element.isTruncated : Element → Bool
  | leaf l => l.isTruncated
  | _ => false

/-- The open masters behind an element, innermost first, if those before it are `masters`. -/
def Element.turnOver (masters : List Occurrence) : Element → List Occurrence
  | start element .. => element :: masters
  | finish .. => masters.tail
  | leaf _ => masters

/-- The masters that start in a row of elements and do not end in it, innermost first. -/
def openAfter (elements : List Element) : List Occurrence :=
  elements.foldl Element.turnOver []

theorem openAfter_concat (elements : List Element) (e : Element) :
    openAfter (elements ++ [e]) = e.turnOver (openAfter elements) := by
  rw [openAfter, List.foldl_append]
  rfl

namespace Collector

/-- The ends of masters, innermost first, as a collector queues them. -/
def ends (c : Collector) : List Occurrence → List Element
  | [] => []
  | o :: outer => .finish o (c.capture outer.reverse) :: ends c outer

theorem ends_of_capture {c d : Collector} (h : d.capturePaths = c.capturePaths)
    (masters : List Occurrence) : d.ends masters = c.ends masters := by
  induction masters with
  | nil => rfl
  | cons o outer ih => rw [ends, ends, ih, capture, capture, h]

theorem isFinish_of_mem_ends {c : Collector} {masters : List Occurrence} {e : Element}
    (h : e ∈ c.ends masters) : e.isFinish = true := by
  induction masters with
  | nil => simp [ends] at h
  | cons o outer ih =>
    rcases List.mem_cons.mp h with rfl | h
    · rfl
    · exact ih h

/-- Masters that end at the end of input end one by one. -/
theorem deliverAll_finishAll {c : Collector} {stack : List OpenMaster} (hfilter : c.filter = none)
    (hmasters : ∀ m ∈ stack, m.element.decl.isMaster = true) :
    receiver.deliverAll (Scanner.finishAll stack) c =
      c.enqueueAll (c.ends (stack.map OpenMaster.element)) := by
  induction stack generalizing c with
  | nil => exact c.enqueueAll_nil.symm
  | cons m outer ih =>
    have hwants := wants_of_filter hfilter m.element.decl.id
    have hmaster := hmasters m List.mem_cons_self
    rw [Scanner.finishAll, deliverAll_cons, handle_finish_master hwants hmaster]
    let c' := c.enqueueAll [.finish m.element (c.capture (Scanner.pathOf outer))]
    calc receiver.deliverAll (Scanner.finishAll outer) c'
        = c'.enqueueAll (c'.ends (outer.map OpenMaster.element)) :=
          ih hfilter fun m' hm' => hmasters m' (List.mem_cons_of_mem _ hm')
      _ = c'.enqueueAll (c.ends (outer.map OpenMaster.element)) := by
          rw [@ends_of_capture c c' rfl]
      _ = c.enqueueAll (c.ends ((m :: outer).map OpenMaster.element)) := enqueueAll_append c _ _

end Collector

/-! ## The invariant -/

/-- How much of the current element's data is still to come. -/
def Scanner.missing (t : Scanner) : Nat :=
  match t.phase with
  | .content _ stop => stop.getD t.consumed - t.consumed
  | _ => 0

/-- A leaf has the header and the data that the events tell of it, and lacks what is still to come. -/
structure Collected (t : Scanner) (log : List Event) (k : Collector) (l : Leaf) : Prop where
  path_eq : l.path = k.capture t.path
  policy_eq : l.policy = k.policy
  size_eq : l.declaredSize = l.content.length + t.missing
  started : (l.element, l.header) ∈ log.filterMap Event.start?
  content_eq : l.content = log.flatMap (Event.dataOf l.element.index)

namespace Collected

variable {t t' : Scanner} {log : List Event} {k : Collector} {l : Leaf}

/-- Of a leaf that has started, of which nothing was told before, all data is still to come. -/
theorem begin {o : Occurrence} {n : Nat} {header : Bytes} (hstack : t'.stack = t.stack)
    (hmissing : t'.missing = n) (hnew : log.flatMap (Event.dataOf o.index) = []) :
    Collected t' (log ++ [.start o (.known n) header t.path]) k
      ⟨o, k.capture t.path, n, header, [], k.policy⟩ := by
  refine ⟨?_, rfl, ?_, ?_, ?_⟩
  · rw [Scanner.path, Scanner.path, hstack]
  · show n = 0 + t'.missing
    rw [hmissing, Nat.zero_add]
  · rw [List.filterMap_append]
    exact List.mem_append_right _ (List.mem_singleton_self _)
  · rw [List.flatMap_append, hnew]
    rfl

/-- A piece of the data comes to what there is. -/
theorem read {chunk : Bytes} (h : Collected t log k l) (hstack : t'.stack = t.stack)
    (hmissing : t.missing = chunk.length + t'.missing) :
    Collected t' (log ++ [.content l.element chunk]) k { l with content := l.content ++ chunk } := by
  refine ⟨?_, h.policy_eq, ?_, ?_, ?_⟩
  · rw [Scanner.path, hstack]
    exact h.path_eq
  · have hsize := h.size_eq
    show l.declaredSize = (l.content ++ chunk).length + t'.missing
    rw [List.length_append]
    omega
  · rw [List.filterMap_append]
    exact List.mem_append_left _ h.started
  · show l.content ++ chunk = (log ++ [_]).flatMap (Event.dataOf l.element.index)
    rw [List.flatMap_append, ← h.content_eq, List.flatMap_singleton]
    simp [Event.dataOf]

/-- A scan that stays where it is in the data keeps what was told of it. -/
theorem unmoved (h : Collected t log k l) (hstack : t'.stack = t.stack)
    (hmissing : t'.missing = t.missing) : Collected t' log k l := by
  refine ⟨?_, h.policy_eq, hmissing ▸ h.size_eq, h.started, h.content_eq⟩
  rw [h.path_eq, Scanner.path, Scanner.path, hstack]

/-- If the leaf is the last of the pieces that the events tell, it has the header and the data of that
piece. -/
theorem piece_eq {schema : Schema} {front : List Piece} {p : Piece} (h : Collected t log k l)
    (htells : Tells schema (front ++ [p]) log) (hindex : l.element.index = front.length)
    (hdecl : (p.decl? schema).isSome) : p = ⟨l.header, l.content⟩ := by
  have hp : (front ++ [p])[l.element.index]? = some p := by simp [hindex]
  obtain ⟨q, hq, hheader⟩ := Piece.exists_of_mem_starts (htells.starts ▸ h.started)
  obtain rfl : p = q := Option.some.inj (hp.symm.trans hq)
  have hcontent := htells.data _ p hp hdecl
  rw [← h.content_eq] at hcontent
  cases p
  simp_all

/-- Of a collector no more than its settings matter. -/
theorem of_settings {k' : Collector} (h : Collected t log k l)
    (hpaths : k'.capturePaths = k.capturePaths) (hpolicy : k'.policy = k.policy) :
    Collected t log k' l := by
  refine ⟨?_, h.policy_eq.trans hpolicy.symm, h.size_eq, h.started, h.content_eq⟩
  rw [h.path_eq, Collector.capture, Collector.capture, hpaths]

end Collected

/-- A collector without a filter knows of the events so far what the scan knows. -/
structure Mirrors (t : Scanner) (log : List Event) (k : Collector) : Prop where
  filter_eq : k.filter = none
  open_eq : openAfter k.pending = t.stack.map OpenMaster.element
  whole : ∀ e ∈ k.pending, e.isTruncated = false
  leaf_eq : k.collecting.map Leaf.element = t.openLeaf?
  collected : ∀ l ∈ k.collecting, Collected t log k l

theorem mirrors_ofConfig {c : ReaderConfig} (hfilter : c.filter = none) (t : Scanner)
    (hstack : t.stack = []) (hleaf : t.openLeaf? = none) : Mirrors t [] (.ofConfig c) where
  filter_eq := hfilter
  open_eq := by rw [hstack]; rfl
  whole e he := by simp [Collector.ofConfig] at he
  leaf_eq := hleaf.symm
  collected l hl := by simp [Collector.ofConfig] at hl

namespace Mirrors

variable {t t' : Scanner} {log : List Event} {k : Collector}

/-- Between leaves nothing is collected. -/
theorem idle (h : Mirrors t log k) (hleaf : t.openLeaf? = none) : k.collecting = none := by
  have heq := h.leaf_eq
  rw [hleaf] at heq
  simpa using heq

theorem exists_collecting {o : Occurrence} (h : Mirrors t log k) (hleaf : t.openLeaf? = some o) :
    ∃ l, k.collecting = some l ∧ l.element = o ∧ Collected t log k l := by
  have heq := h.leaf_eq
  rw [hleaf] at heq
  obtain ⟨l, hl, hsame⟩ := Option.map_eq_some_iff.mp heq
  exact ⟨l, hl, hsame, h.collected l hl⟩

theorem whole_concat (h : Mirrors t log k) {e : Element} (he : e.isTruncated = false) :
    ∀ e' ∈ k.pending ++ [e], e'.isTruncated = false := by
  intro e' he'
  rcases List.mem_append.mp he' with he' | he'
  · exact h.whole e' he'
  · rwa [List.mem_singleton.mp he']

/-- A move inside a header or of an element outside the schema changes nothing. -/
theorem unheard (h : Mirrors t log k) (hstack : t'.stack = t.stack) (hleaf : t.openLeaf? = none)
    (hleaf' : t'.openLeaf? = none) : Mirrors t' log k where
  filter_eq := h.filter_eq
  open_eq := hstack ▸ h.open_eq
  whole := h.whole
  leaf_eq := by rw [h.leaf_eq, hleaf, hleaf']
  collected l hl := by simp [h.idle hleaf] at hl

/-- Behind the last byte of its data a leaf is still collected. -/
theorem unmoved (h : Mirrors t log k) (hstack : t'.stack = t.stack)
    (hleaf : t'.openLeaf? = t.openLeaf?) (hmissing : t'.missing = t.missing) :
    Mirrors t' log k where
  filter_eq := h.filter_eq
  open_eq := hstack ▸ h.open_eq
  whole := h.whole
  leaf_eq := h.leaf_eq.trans hleaf.symm
  collected l hl := (h.collected l hl).unmoved hstack hmissing

/-- The innermost master ends. -/
theorem leave {m : OpenMaster} {outer : List OpenMaster} {path : List Occurrence}
    (h : Mirrors t log k) (hstack : t.stack = m :: outer) (hmaster : m.element.decl.isMaster = true)
    (hleaf : t.openLeaf? = none) (hstack' : t'.stack = outer) (hleaf' : t'.openLeaf? = none) :
    Mirrors t' (log ++ [.finish m.element path]) (Collector.handle (.finish m.element path) k) := by
  rw [Collector.handle_finish_master (Collector.wants_of_filter h.filter_eq _) hmaster]
  refine ⟨h.filter_eq, ?_, ?_, ?_, ?_⟩
  · show openAfter (k.pending ++ [_]) = _
    rw [openAfter_concat, h.open_eq, hstack, hstack']
    rfl
  · exact h.whole_concat rfl
  · exact h.leaf_eq.trans (hleaf.trans hleaf'.symm)
  · intro l hl
    simp [Collector.enqueue, h.idle hleaf] at hl

/-- A master starts. -/
theorem enter {m : OpenMaster} {size : DataSize} {header : Bytes} {path : List Occurrence}
    (h : Mirrors t log k) (hmaster : m.element.decl.isMaster = true) (hleaf : t.openLeaf? = none)
    (hstack' : t'.stack = m :: t.stack) (hleaf' : t'.openLeaf? = none) :
    Mirrors t' (log ++ [.start m.element size header path])
      (Collector.handle (.start m.element size header path) k) := by
  rw [Collector.handle_start_master (Collector.wants_of_filter h.filter_eq _) hmaster]
  refine ⟨h.filter_eq, ?_, ?_, ?_, ?_⟩
  · show openAfter (k.pending ++ [_]) = _
    rw [openAfter_concat, h.open_eq, hstack']
    rfl
  · exact h.whole_concat rfl
  · exact h.leaf_eq.trans (hleaf.trans hleaf'.symm)
  · intro l hl
    simp [Collector.enqueue, h.idle hleaf] at hl

/-- A leaf starts, of which nothing was told before. -/
theorem begin {o : Occurrence} {n : Nat} {header : Bytes} (h : Mirrors t log k)
    (hleaf : o.decl.isMaster = false) (hstack : t'.stack = t.stack)
    (hleaf' : t'.openLeaf? = some o) (hmissing : t'.missing = n)
    (hnew : log.flatMap (Event.dataOf o.index) = []) :
    Mirrors t' (log ++ [.start o (.known n) header t.path])
      (Collector.handle (.start o (.known n) header t.path) k) := by
  rw [Collector.handle_start_leaf (Collector.wants_of_filter h.filter_eq _) hleaf]
  refine ⟨h.filter_eq, hstack ▸ h.open_eq, h.whole, hleaf'.symm, ?_⟩
  intro l hl
  obtain rfl := Option.some.inj hl
  exact .begin hstack hmissing hnew

/-- A piece of a leaf's data goes to the leaf that is collected. -/
theorem read {o : Occurrence} {chunk : Bytes} (h : Mirrors t log k) (hleaf : t.openLeaf? = some o)
    (hstack : t'.stack = t.stack) (hleaf' : t'.openLeaf? = some o)
    (hmissing : t.missing = chunk.length + t'.missing) :
    Mirrors t' (log ++ [.content o chunk]) (Collector.handle (.content o chunk) k) := by
  obtain ⟨l, hl, rfl, hcollected⟩ := h.exists_collecting hleaf
  rw [Collector.handle_content_own hl rfl]
  refine ⟨h.filter_eq, hstack ▸ h.open_eq, h.whole, hleaf'.symm, ?_⟩
  intro l' hl'
  obtain rfl := Option.some.inj hl'
  exact (hcollected.read hstack hmissing).of_settings rfl rfl

/-- With all its data a leaf is queued. -/
theorem finish {o : Occurrence} {path : List Occurrence} (h : Mirrors t log k)
    (hleaf : t.openLeaf? = some o) (hkind : o.decl.isMaster = false) (hmissing : t.missing = 0)
    (hstack : t'.stack = t.stack) (hleaf' : t'.openLeaf? = none) :
    Mirrors t' (log ++ [.finish o path]) (Collector.handle (.finish o path) k) := by
  obtain ⟨l, hl, rfl, hcollected⟩ := h.exists_collecting hleaf
  rw [Collector.handle_finish_own (Collector.wants_of_filter h.filter_eq _) hkind hl rfl]
  refine ⟨h.filter_eq, ?_, ?_, hleaf'.symm, by simp⟩
  · show openAfter (k.pending ++ [_]) = _
    rw [openAfter_concat, h.open_eq, hstack]
    rfl
  · have hsize := hcollected.size_eq
    refine h.whole_concat ?_
    rw [Element.isTruncated, Leaf.isTruncated, decide_eq_false_iff_not]
    omega

end Mirrors

/-! ## Transitions -/

section

open Scanner

variable {t t' : Scanner} {log : List Event} {k : Collector}

theorem Scanner.openLeaf?_of_header {index : Nat} (h : t.headerIndex? = some index) :
    t.openLeaf? = none := by
  unfold headerIndex? at h
  unfold openLeaf?
  split at h <;> simp_all

/-- Data behind the end of which the scan is still has none missing. -/
theorem Scanner.missing_of_stop {leaf : Option Occurrence} {stop consumed : Nat} :
    missing { t with
      consumed := consumed
      phase := if stop ≤ consumed then .finished leaf else .content leaf (some stop) } =
        stop - consumed := by
  unfold missing
  by_cases hover : stop ≤ consumed
  · simp [hover]
  · simp [hover]

namespace Mirrors

/-- Nothing is reported of a header before its element starts. -/
theorem inHeader (h : Mirrors t log k) {outcome : Except ScanError Progress} {index : Nat}
    (hheader : t.headerIndex? = some index) (hnone : Scanner.reported outcome = [])
    (hstack : t'.stack = t.stack) (hleaf' : t'.openLeaf? = none) :
    Mirrors t' (log ++ Scanner.reported outcome)
      (Collector.receiver.deliverAll (Scanner.reported outcome) k) := by
  rw [hnone, List.append_nil]
  exact h.unheard hstack (openLeaf?_of_header hheader) hleaf'

/-- A master ends before a header. -/
theorem close (h : Mirrors t log k) (hk : t.Kinds) {index : Nat}
    (hheader : t.headerIndex? = some index) {m : OpenMaster} {outer : List OpenMaster}
    (hstack : t.stack = m :: outer) (path : List Occurrence) :
    Mirrors { t with stack := outer } (log ++ [.finish m.element path])
      (Collector.handle (.finish m.element path) k) :=
  h.leave hstack (hk.masters m (by rw [hstack]; exact List.mem_cons_self))
    (openLeaf?_of_header hheader) rfl (openLeaf?_of_header hheader)

/-- A leaf starts: all elements so far have other numbers, and all of its data is missing. -/
theorem enterLeaf (h : Mirrors t log k) (hco : t.Coherent) {input : Bytes}
    (hl : t.Ledger input log) {id n index : Nat} {decl : ElementDecl}
    (hphase : t.phase = .resolve id (.known n) (some index)) (hleaf : decl.isMaster = false) :
    Mirrors { t with phase := .content (some ⟨decl, index⟩) (some (t.window.stop + n)) }
      (log ++ [.start ⟨decl, index⟩ (.known n) t.window.bytes t.path])
      (Collector.handle (.start ⟨decl, index⟩ (.known n) t.window.bytes t.path) k) := by
  obtain ⟨pieces, htells, -, hholds⟩ := hl
  simp only [Holds, hphase] at hholds
  obtain rfl := hholds.index_eq
  simp only [Coherent, hphase] at hco
  refine h.begin hleaf rfl rfl ?_ htells.data_beyond
  show t.window.stop + n - t.consumed = n
  rw [hco.1, Nat.add_sub_cancel_left]

/-- Data of a leaf goes to what is collected of it, data of a skipped element nowhere. -/
theorem readData (h : Mirrors t log k) {leaf : Option Occurrence} {stop : Nat} {chunk : Bytes}
    (hphase : t.phase = .content leaf (some stop)) (hle : t.consumed + chunk.length ≤ stop) :
    Mirrors { t with
        consumed := t.consumed + chunk.length
        phase := if stop ≤ t.consumed + chunk.length then .finished leaf
          else .content leaf (some stop) }
      (log ++ (leaf.map (.content · chunk)).toList)
      (Collector.receiver.deliverAll (leaf.map (.content · chunk)).toList k) := by
  have hopen : t.openLeaf? = leaf := by simp [openLeaf?, hphase]
  have hopen' : openLeaf? { t with
      consumed := t.consumed + chunk.length
      phase := if stop ≤ t.consumed + chunk.length then .finished leaf
        else .content leaf (some stop) } = leaf := by
    by_cases hover : stop ≤ t.consumed + chunk.length <;> simp [openLeaf?, hover]
  cases leaf with
  | none =>
    rw [Option.map_none, Option.toList_none, List.append_nil]
    exact h.unheard rfl hopen hopen'
  | some o =>
    refine h.read hopen rfl hopen' ?_
    rw [missing_of_stop]
    simp only [missing, hphase, Option.getD_some]
    omega

/-- Behind its data a leaf is queued, and a skipped element is left. -/
theorem finishData (h : Mirrors t log k) (hk : t.Kinds) {leaf : Option Occurrence}
    (hphase : t.phase = .finished leaf) :
    Mirrors t.atBoundary (log ++ (leaf.map (.finish · t.path)).toList)
      (Collector.receiver.deliverAll (leaf.map (.finish · t.path)).toList k) := by
  have hopen : t.openLeaf? = leaf := by simp [openLeaf?, hphase]
  cases leaf with
  | none =>
    rw [Option.map_none, Option.toList_none, List.append_nil]
    exact h.unheard rfl hopen rfl
  | some o => exact h.finish hopen (hk.leaf o hopen) (by simp only [missing, hphase]) rfl rfl

end Mirrors

end

/-- A collector that hears what a transition reports mirrors the scanner after it. -/
theorem Scanner.Transition.mirrors {t t' : Scanner} {bytes input : Bytes} {log : List Event}
    {k : Collector} {outcome : Except ScanError Progress} (h : Transition t bytes outcome t')
    (hco : t.Coherent) (hk : t.Kinds) (hl : t.Ledger input log) (hm : Mirrors t log k) :
    Mirrors t' (log ++ reported outcome) (Collector.receiver.deliverAll (reported outcome) k) := by
  -- In a header nothing is collected. An end finds the master or the leaf it belongs to on top, and
  -- data the leaf that is open.
  cases h with
  | closeExhausted hphase _ _ hstack => exact hm.close hk (headerIndex_of_id hphase) hstack _
  | @idLacking bytes _ hphase _ _ hwaits =>
    have hphase' : (t.absorb bytes).phase = .id := hphase
    exact hm.inHeader (headerIndex_of_id hphase) (reported_of_waits hwaits) rfl
      (openLeaf?_of_header (headerIndex_of_id hphase'))
  | idSpoilt hphase =>
    exact hm.inHeader (headerIndex_of_id hphase) rfl rfl
      (openLeaf?_of_header (headerIndex_of_id hphase))
  | idRead hphase => exact hm.inHeader (headerIndex_of_id hphase) rfl rfl rfl
  | sizeLacking hphase _ _ hwaits =>
    exact hm.inHeader (headerIndex_of_size hphase) (reported_of_waits hwaits) rfl
      (openLeaf?_of_header (headerIndex_of_size hphase))
  | sizeSpoilt hphase =>
    exact hm.inHeader (headerIndex_of_size hphase) rfl rfl
      (openLeaf?_of_header (headerIndex_of_size hphase))
  | sizeRead hphase => exact hm.inHeader (headerIndex_of_size hphase) rfl rfl rfl
  | skip hphase => exact hm.inHeader (headerIndex_of_resolve hphase) rfl rfl rfl
  | refuseUnresolved hphase =>
    exact hm.inHeader (headerIndex_of_resolve hphase) rfl rfl
      (openLeaf?_of_header (headerIndex_of_resolve hphase))
  | refuseLeaf hphase =>
    exact hm.inHeader (headerIndex_of_resolve hphase) rfl rfl
      (openLeaf?_of_header (headerIndex_of_resolve hphase))
  | closeLevel hphase _ _ hstack => exact hm.close hk (headerIndex_of_resolve hphase) hstack _
  | @enterMaster _ index size decl hphase _ hmaster =>
    exact @Mirrors.enter _ _ _ _ ⟨⟨decl, index⟩, t.window.stop, size⟩ _ _ _ hm hmaster
      (openLeaf?_of_header (headerIndex_of_resolve hphase)) rfl rfl
  | enterLeaf hphase _ hleaf => exact hm.enterLeaf hco hl hphase hleaf
  | contentOver hphase hover =>
    rw [reported_moved, List.append_nil]
    refine hm.unmoved rfl (by simp [openLeaf?, hphase]) ?_
    simp only [missing, hphase, Option.getD_some]
    omega
  | contentLacking _ _ hwaits =>
    rw [reported_of_waits hwaits, List.append_nil]
    exact hm
  | contentRead hphase _ hle => exact hm.readData hphase hle
  | finish hphase => exact hm.finishData hk hphase

theorem Scanner.Trail.mirrors {t t' : Scanner} {bytes input : Bytes} {events log : List Event}
    {k : Collector} (h : Trail t bytes events t') (hco : t.Coherent) (hk : t.Kinds)
    (hl : t.Ledger input log) (hm : Mirrors t log k) :
    Mirrors t' (log ++ events) (Collector.receiver.deliverAll events k) := by
  induction h generalizing input log k with
  | refl => rwa [List.append_nil]
  | step hstep _ ih =>
    rw [← List.append_assoc, Receiver.deliverAll_append]
    exact ih (hstep.coherent hco) (hstep.kinds hk) (hstep.ledger hco hl) (hstep.mirrors hco hk hl hm)

/-! ## Closing -/

/-- Closing a scan adds the leaf that was collected, as far as it came, and the ends of the open
masters. -/
theorem Mirrors.deliverAll_close {t : Scanner} {log : List Event} {k : Collector}
    (h : Mirrors t log k) (hk : t.Kinds) (hopen : t.closed = false) :
    (Collector.receiver.deliverAll t.close.1 k).pending =
      k.pending ++ k.collecting.toList.map .leaf ++ k.ends (openAfter k.pending) := by
  rw [Scanner.close, if_neg (by simp [hopen]), Receiver.deliverAll_append, h.open_eq]
  cases hleaf : t.openLeaf? with
  | none =>
    show (Collector.receiver.deliverAll (Scanner.finishAll t.stack) k).pending = _
    rw [Collector.deliverAll_finishAll h.filter_eq hk.masters, h.idle hleaf]
    simp [Collector.enqueueAll]
  | some o =>
    obtain ⟨l, hl, rfl, -⟩ := h.exists_collecting hleaf
    let k' : Collector := { k.enqueue (.leaf l) with collecting := none }
    have hfinish : Collector.handle (.finish l.element t.path) k = k' :=
      Collector.handle_finish_own (Collector.wants_of_filter h.filter_eq _) (hk.leaf _ hleaf) hl rfl
    have hfilter : k'.filter = none := h.filter_eq
    have hends := @Collector.ends_of_capture k k' rfl (t.stack.map OpenMaster.element)
    show (Collector.receiver.deliverAll (Scanner.finishAll t.stack)
      (Collector.handle (.finish l.element t.path) k)).pending = _
    rw [hfinish, Collector.deliverAll_finishAll hfilter hk.masters, hl, hends]
    rfl

end Ebml
