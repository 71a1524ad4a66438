import Mathlib.Data.List.Basic
import Ebml.Proofs.Document.Pieces
import Ebml.Proofs.Reader.Collecting
import Ebml.Proofs.Scanner.Containing
import Ebml.Proofs.Scanner.Nesting
import Ebml.Recycler

/-!
# Losing events

Some of the events of a scan may never reach the collector. A leaf is handed out if its start and
its end are delivered, with the data that is delivered under its number (`Collector.completed`), and
no other leaf is.

The events of a scan are a row of tales: single events of masters, and leaves from start to end, no
two of the same number (`Session.exists_tales`). A tale of which events are lost may leave a leaf
behind that is never completed. The tales after it do not touch that leaf, having other numbers, so
what they come to does not depend on it (`Tale.comes`).
-/

namespace Ebml

/-! ## Leaves that are completed -/

namespace Event

/-- A start or an end of a master. -/
def ofMaster : Event → Bool
  | start o .. => o.decl.isMaster
  | content .. => false
  | finish o _ => o.decl.isMaster

/-- What the start of the given element told. -/
def startOf? (o : Occurrence) : Event → Option (DataSize × Bytes × List Occurrence)
  | start o' size header path => if o' = o then some (size, header, path) else none
  | _ => none

end Event

namespace Collector

/-- A leaf as a collector with these settings keeps it. -/
def leafOf (c : Collector) (o : Occurrence) (size : DataSize) (header : Bytes)
    (path : List Occurrence) (content : Bytes) : Leaf :=
  ⟨o, c.capture path, size.known?.getD 0, header, content, c.policy⟩

/-- The leaf that an event completes: the event is an end, the start was delivered as well, and the
data is all that was delivered under the number of the leaf. -/
def completed? (c : Collector) (delivered : List Event) : Event → Option Leaf
  | .finish o _ =>
    if c.wants o.decl.id && !o.decl.isMaster then
      (delivered.findSome? (Event.startOf? o)).map fun (size, header, path) =>
        c.leafOf o size header path (delivered.flatMap (Event.dataOf o.index))
    else none
  | _ => none

/-- The leaves completed by the delivered events, in the order of their ends. -/
def completed (c : Collector) (delivered : List Event) : List Leaf :=
  delivered.filterMap (c.completed? delivered)

variable (c : Collector)

/-- Whatever is about leaves is about other leaves on one side than on the other. -/
def Apart (events more : List Event) : Prop :=
  ∀ e ∈ events, ∀ e' ∈ more, e.ofMaster = false → e'.ofMaster = false →
    e.element.index ≠ e'.element.index

variable {events more : List Event}

theorem Apart.symm (h : Apart events more) : Apart more events :=
  fun e he e' he' hleaf hleaf' => (h e' he' e he hleaf' hleaf).symm

/-- Events that are apart from the end of a leaf tell nothing of it. -/
theorem silent_of_apart {o : Occurrence} {path : List Occurrence}
    (hmem : .finish o path ∈ events) (hleaf : o.decl.isMaster = false) (h : Apart events more) :
    more.findSome? (Event.startOf? o) = none ∧ more.flatMap (Event.dataOf o.index) = [] := by
  have hne (e' : Event) (he' : e' ∈ more) (hleaf' : e'.ofMaster = false) :
      o.index ≠ e'.element.index := h _ hmem e' he' hleaf hleaf'
  constructor
  · rw [List.findSome?_eq_none_iff]
    rintro (⟨o', size, header, path'⟩ | _ | _) he'
    · refine if_neg ?_
      rintro rfl
      exact hne _ he' hleaf rfl
    · rfl
    · rfl
  · rw [List.flatMap_eq_nil_iff]
    rintro (_ | ⟨o', chunk⟩ | _) he'
    · rfl
    · exact if_neg (hne _ he' rfl).symm
    · rfl

theorem completed?_append (h : Apart events more) {e : Event} (he : e ∈ events) :
    c.completed? (events ++ more) e = c.completed? events e ∧
      c.completed? (more ++ events) e = c.completed? events e := by
  cases e with
  | start => exact ⟨rfl, rfl⟩
  | content => exact ⟨rfl, rfl⟩
  | finish o path =>
    cases hleaf : o.decl.isMaster with
    | true => simp [completed?, hleaf]
    | false =>
      obtain ⟨hstart, hdata⟩ := silent_of_apart he hleaf h
      simp [completed?, List.findSome?_append, hstart, hdata]

/-- Events that are apart complete each what they complete alone. -/
theorem completed_append (h : Apart events more) :
    c.completed (events ++ more) = c.completed events ++ c.completed more := by
  rw [completed, List.filterMap_append]
  congr 1
  · exact List.filterMap_congr fun e he => (c.completed?_append h he).1
  · exact List.filterMap_congr fun e he => (c.completed?_append h.symm he).2

/-- Nothing is completed without an end. -/
theorem filterMap_completed? (delivered : List Event) (h : ∀ o path, .finish o path ∉ events) :
    events.filterMap (c.completed? delivered) = [] := by
  rw [List.filterMap_eq_nil_iff]
  rintro (_ | _ | ⟨o, path⟩) he
  · rfl
  · rfl
  · exact absurd he (h o path)

theorem completed_of_unfinished (h : ∀ o path, .finish o path ∉ events) : c.completed events = [] :=
  c.filterMap_completed? events h

/-- The first end completes its leaf, if any. -/
theorem completed_concat (h : ∀ o path, .finish o path ∉ events) (o : Occurrence)
    (path : List Occurrence) :
    c.completed (events ++ [.finish o path]) =
      (c.completed? (events ++ [.finish o path]) (.finish o path)).toList := by
  rw [completed, List.filterMap_append, c.filterMap_completed? _ h]
  cases hanswer : c.completed? (events ++ [.finish o path]) (.finish o path) <;> simp [hanswer]

end Collector

/-! ## Tales -/

/-- A single event of a master, or a leaf from start to end. -/
inductive Tale
  | master (event : Event) (h : event.ofMaster = true)
  | leaf (o : Occurrence) (h : o.decl.isMaster = false) (size : DataSize) (header : Bytes)
    (path : List Occurrence) (chunks : List Bytes)

namespace Tale

def events : Tale → List Event
  | master event _ => [event]
  | leaf o _ size header path chunks =>
    .start o size header path :: (chunks.map (.content o) ++ [.finish o path])

/-- The number of a leaf. -/
def number? : Tale → Option Nat
  | master .. => none
  | leaf o .. => some o.index

/-- An event of a tale is one of a master, or it has the number of the tale. -/
theorem number_of_mem {tale : Tale} {e : Event} (he : e ∈ tale.events)
    (hleaf : e.ofMaster = false) : tale.number? = some e.element.index := by
  cases tale with
  | master event h =>
    obtain rfl := List.mem_singleton.mp he
    rw [h] at hleaf
    cases hleaf
  | leaf o h size header path chunks =>
    rcases List.mem_cons.mp he with rfl | he
    · rfl
    · rcases List.mem_append.mp he with he | he
      · obtain ⟨chunk, -, rfl⟩ := List.mem_map.mp he
        rfl
      · obtain rfl := List.mem_singleton.mp he
        rfl

/-- The numbers of the leaves are among those of all starts. -/
theorem numbers_sublist (tales : List Tale) :
    (tales.filterMap number?).Sublist
      (((tales.flatMap events).filterMap Event.start?).map fun s => s.1.index) := by
  induction tales with
  | nil => exact .slnil
  | cons tale rest ih =>
    rw [List.flatMap_cons, List.filterMap_append, List.map_append]
    cases tale with
    | master => exact ih.trans (List.sublist_append_right _ _)
    | leaf => exact (ih.trans (List.sublist_append_right _ _)).cons_cons _

end Tale

/-- Well-nested events are a row of tales. -/
theorem Nested.exists_tales {path : List Occurrence} {log : List Event} (h : Nested path log) :
    ∃ tales : List Tale, log = tales.flatMap Tale.events := by
  induction h with
  | nil => exact ⟨[], rfl⟩
  | @leaf path o size header chunks later hleaf _ ih =>
    obtain ⟨tales, rfl⟩ := ih
    exact ⟨.leaf o hleaf size header path chunks :: tales, by simp [Tale.events]⟩
  | @master path o size header inner later hmaster _ _ ihinner ihlater =>
    obtain ⟨inside, rfl⟩ := ihinner
    obtain ⟨after, rfl⟩ := ihlater
    exact ⟨.master (.start o size header path) hmaster ::
      (inside ++ .master (.finish o path) hmaster :: after), by simp [Tale.events]⟩

namespace Scanner

/-- Closing completes what a sound scanner has open. -/
theorem Sound.completes_close {t : Scanner} (h : t.Sound) : Completes t t.close.1 := by
  cases hclosed : t.closed with
  | true =>
    rw [Sound, if_pos hclosed] at h
    rw [close_of_closed hclosed, Completes, openLeaf?, h.1, h.2]
    exact .nil
  | false => simpa using Scanner.completes_close hclosed Nested.nil

/-- In a session every start has a greater number than those before. -/
theorem Session.starts_pairwise {schema : Schema} {maxChunk : Nat} {log : List Event} {t : Scanner}
    (h : Session (fresh schema maxChunk) log t) :
    (log.filterMap Event.start?).Pairwise fun s s' => s.1.index < s'.1.index := by
  obtain ⟨moments, hcourse, rfl⟩ := h.course
  have hordered := (hcourse.ordered (sound_fresh _ _) (bounded_fresh _ _)).pairwise
  rw [List.filterMap_map, List.pairwise_filterMap]
  refine hordered.imp fun {m m'} hprecedes s hs s' hs' => ?_
  have hstarts (m : Moment) (s : Occurrence × Bytes) (hs : m.event.start? = some s) :
      m.Starts s.1 := by
    cases hevent : m.event with
    | start o size header path =>
      rw [hevent] at hs
      obtain rfl := Option.some.inj hs
      exact ⟨size, header, path, hevent⟩
    | content => simp [hevent, Event.start?] at hs
    | finish => simp [hevent, Event.start?] at hs
  exact hprecedes.index_lt _ (hstarts m s hs) _ (hstarts m' s' hs')

/-- The events of a session, and what is to come if it is closed now, are a row of tales that all
have other numbers. -/
theorem Session.exists_tales {schema : Schema} {maxChunk : Nat} {log : List Event} {t : Scanner}
    (h : Session (fresh schema maxChunk) log t) :
    ∃ tales : List Tale, log ++ t.close.1 = tales.flatMap Tale.events ∧
      (tales.filterMap Tale.number?).Nodup := by
  have hfresh := sound_fresh schema maxChunk
  have hnested : Nested [] (log ++ t.close.1) :=
    h.completes hfresh (h.sound hfresh).completes_close
  obtain ⟨tales, htales⟩ := hnested.exists_tales
  refine ⟨tales, htales, ?_⟩
  have hstarts := h.close.starts_pairwise
  rw [htales] at hstarts
  exact (Tale.numbers_sublist tales).nodup ((List.pairwise_map.mpr hstarts).imp Nat.ne_of_lt)

end Scanner

/-! ## Tales of which events are lost -/

namespace Collector

/-- No leaf of these numbers is being collected. -/
def Clear (c : Collector) (numbers : List Nat) : Prop :=
  ∀ l ∈ c.collecting, l.element.index ∉ numbers

/-- What delivered events of the given numbers come to: the leaves that they complete. What is
collected behind them was collected before or has one of the numbers. -/
def Comes (c : Collector) (numbers : List Nat) (delivered : List Event) : Prop :=
  ∃ elements collecting,
    receiver.deliverAll delivered c = { c.enqueueAll elements with collecting := collecting } ∧
      elements.filterMap Element.leaf? = c.completed delivered ∧
      ∀ l ∈ collecting, l ∈ c.collecting ∨ l.element.index ∈ numbers

variable {c : Collector} {numbers : List Nat} {delivered : List Event}

/-- Where nothing changes, nothing is completed. -/
theorem comes_of_same (hsame : receiver.deliverAll delivered c = c)
    (hcompleted : c.completed delivered = []) : c.Comes numbers delivered :=
  ⟨[], c.collecting, by rw [hsame, enqueueAll_nil], hcompleted.symm, fun _ hl => .inl hl⟩

theorem comes_nil : c.Comes numbers [] :=
  comes_of_same rfl rfl

/-- An event of a master adds no leaf. -/
theorem comes_master {e : Event} (h : e.ofMaster = true) : c.Comes numbers [e] := by
  cases e with
  | start o size header path =>
    cases hw : c.wants o.decl.id with
    | false => exact comes_of_same (handle_start_unwanted hw) rfl
    | true =>
      exact ⟨[.start o (c.capture path) size header], c.collecting, handle_start_master hw h, rfl,
        fun _ hl => .inl hl⟩
  | content => cases h
  | finish o path =>
    have hmaster : o.decl.isMaster = true := h
    have hcompleted : c.completed [.finish o path] = [] := by simp [completed, completed?, hmaster]
    cases hw : c.wants o.decl.id with
    | false => exact comes_of_same (handle_finish_unwanted hw) hcompleted
    | true =>
      exact ⟨[.finish o (c.capture path)], c.collecting, handle_finish_master hw h,
        hcompleted.symm, fun _ hl => .inl hl⟩

section

variable {o : Occurrence} (hclear : c.Clear [o.index])

include hclear

/-- Data of a leaf that is not collected is dropped. -/
theorem deliverAll_content_of_clear (chunks : List Bytes) :
    receiver.deliverAll (chunks.map (.content o)) c = c := by
  have hcontent (chunk : Bytes) : handle (.content o chunk) c = c := by
    cases hc : c.collecting with
    | none => exact handle_content_none hc
    | some l => exact handle_content_other hc fun heq => hclear l hc (by simp [heq])
  induction chunks with
  | nil => rfl
  | cons chunk rest ih => rw [List.map_cons, deliverAll_cons, hcontent, ih]

/-- So is its end. -/
theorem handle_finish_of_clear (hleaf : o.decl.isMaster = false) (path : List Occurrence) :
    handle (.finish o path) c = c := by
  cases hc : c.collecting with
  | none => exact handle_finish_none hc hleaf
  | some l => exact handle_finish_other hleaf hc fun heq => hclear l hc (by simp [heq])

end

theorem flatMap_dataOf_content (o : Occurrence) (chunks : List Bytes) :
    (chunks.map (Event.content o)).flatMap (Event.dataOf o.index) = chunks.flatten := by
  induction chunks with
  | nil => rfl
  | cons chunk rest ih => simp [Event.dataOf, ih]

section

variable {o : Occurrence} (hleaf : o.decl.isMaster = false) (size : DataSize) (header : Bytes)
  (path : List Occurrence) (chunks : List Bytes)

include hleaf

/-- The start of a leaf that is wanted, and some data of it. -/
theorem deliverAll_begun (hw : c.wants o.decl.id = true) :
    receiver.deliverAll (.start o size header path :: chunks.map (.content o)) c =
      { c with collecting := some (c.leafOf o size header path chunks.flatten) } := by
  have hcontent := @deliverAll_content
    { c with collecting := some (c.leafOf o size header path []) } _ rfl chunks
  rw [deliverAll_cons, handle_start_leaf hw hleaf]
  exact hcontent

/-- A leaf whose end is lost is not completed, but may stay where leaves are collected. -/
theorem comes_begun (hclear : c.Clear [o.index]) :
    c.Comes [o.index] (.start o size header path :: chunks.map (.content o)) := by
  have hcompleted : c.completed (.start o size header path :: chunks.map (.content o)) = [] :=
    c.completed_of_unfinished (by simp)
  cases hw : c.wants o.decl.id with
  | false =>
    refine comes_of_same ?_ hcompleted
    rw [deliverAll_cons, handle_start_unwanted hw, deliverAll_content_of_clear hclear]
  | true =>
    refine ⟨[], some (c.leafOf o size header path chunks.flatten), ?_, hcompleted.symm, ?_⟩
    · rw [deliverAll_begun hleaf size header path chunks hw, enqueueAll_nil]
    · rintro l hl
      obtain rfl := Option.some.inj hl
      exact .inr (List.mem_singleton.mpr rfl)

/-- A leaf whose start is lost comes to nothing. -/
theorem comes_headless (hclear : c.Clear [o.index]) :
    c.Comes [o.index] (chunks.map (.content o) ++ [.finish o path]) := by
  refine comes_of_same ?_ ?_
  · rw [Receiver.deliverAll_append, deliverAll_content_of_clear hclear]
    exact handle_finish_of_clear hclear hleaf path
  · rw [c.completed_concat (by simp)]
    simp [completed?, Event.startOf?, Function.comp_def]

/-- A leaf of which no more than data is lost is completed by its end. -/
theorem comes_finished (hclear : c.Clear [o.index]) :
    c.Comes [o.index]
      (.start o size header path :: (chunks.map (.content o) ++ [.finish o path])) := by
  have hunfinished (o' : Occurrence) (path' : List Occurrence) :
      Event.finish o' path' ∉ .start o size header path :: chunks.map (.content o) := by simp
  have hcompleted := c.completed_concat hunfinished o path
  rw [List.cons_append] at hcompleted
  cases hw : c.wants o.decl.id with
  | false =>
    refine comes_of_same ?_ ?_
    · rw [deliverAll_cons, handle_start_unwanted hw, Receiver.deliverAll_append,
        deliverAll_content_of_clear hclear]
      exact handle_finish_unwanted hw
    · simp [hcompleted, completed?, hw]
  | true =>
    refine ⟨[.leaf (c.leafOf o size header path chunks.flatten)], none, ?_, ?_, by simp⟩
    · rw [← List.cons_append, Receiver.deliverAll_append,
        deliverAll_begun hleaf size header path chunks hw]
      exact handle_finish_own hw hleaf rfl rfl
    · simp [hcompleted, completed?, hw, hleaf, Event.startOf?, Event.dataOf,
        flatMap_dataOf_content, Element.leaf?]

end

end Collector

/-- A tale of which events are lost comes to the leaves that are completed all the same. -/
theorem Tale.comes {tale : Tale} {delivered : List Event} {c : Collector}
    (h : delivered.Sublist tale.events) (hclear : c.Clear tale.number?.toList) :
    c.Comes tale.number?.toList delivered := by
  cases tale with
  | master event hmaster =>
    rcases List.sublist_singleton.mp h with rfl | rfl
    · exact Collector.comes_nil
    · exact Collector.comes_master hmaster
  | leaf o hleaf size header path chunks =>
    -- What is left of the data between start and end is data.
    have hcut (left : List Event)
        (hleft : left.Sublist (chunks.map (.content o) ++ [.finish o path])) :
        ∃ chunks' : List Bytes, left = chunks'.map (.content o) ∨
          left = chunks'.map (.content o) ++ [.finish o path] := by
      obtain ⟨data, last, rfl, hdata, hlast⟩ := List.sublist_append_iff.mp hleft
      obtain ⟨chunks', -, rfl⟩ := List.sublist_map_iff.mp hdata
      rcases List.sublist_singleton.mp hlast with rfl | rfl
      · exact ⟨chunks', .inl (List.append_nil _)⟩
      · exact ⟨chunks', .inr rfl⟩
    rcases List.sublist_cons_iff.mp h with hleft | ⟨left, rfl, hleft⟩
    · obtain ⟨chunks', rfl | rfl⟩ := hcut delivered hleft
      · exact Collector.comes_of_same (Collector.deliverAll_content_of_clear hclear chunks')
          (c.completed_of_unfinished (by simp))
      · exact Collector.comes_headless hleaf path chunks' hclear
    · obtain ⟨chunks', rfl | rfl⟩ := hcut left hleft
      · exact Collector.comes_begun hleaf size header path chunks' hclear
      · exact Collector.comes_finished hleaf size header path chunks' hclear

namespace Collector

variable {c : Collector}

/-- What comes of events can be followed by what comes of others that are apart from them. -/
theorem Comes.append {numbers more : List Nat} {delivered later : List Event}
    (h : c.Comes numbers delivered) (hlater : (receiver.deliverAll delivered c).Comes more later)
    (hapart : Apart delivered later) : c.Comes (numbers ++ more) (delivered ++ later) := by
  obtain ⟨elements, collecting, hdeliver, hleaves, hcollecting⟩ := h
  rw [hdeliver] at hlater
  obtain ⟨elements', collecting', hdeliver', hleaves', hcollecting'⟩ := hlater
  refine ⟨elements ++ elements', collecting', ?_, ?_, fun l hl => ?_⟩
  · rw [Receiver.deliverAll_append, hdeliver, hdeliver']
    simp [enqueueAll]
  · rw [List.filterMap_append, hleaves, hleaves', c.completed_append hapart]
    rfl
  · rcases hcollecting' l hl with hl | hl
    · exact (hcollecting l hl).imp id (List.mem_append_left _)
    · exact .inr (List.mem_append_right _ hl)

/-- A row of tales of which events are lost comes to the leaves that are completed all the same. -/
theorem comes_of_tales {tales : List Tale} {delivered : List Event}
    (h : delivered.Sublist (tales.flatMap Tale.events))
    (hnodup : (tales.filterMap Tale.number?).Nodup)
    (hclear : c.Clear (tales.filterMap Tale.number?)) :
    c.Comes (tales.filterMap Tale.number?) delivered := by
  induction tales generalizing delivered c with
  | nil =>
    obtain rfl := List.sublist_nil.mp h
    exact comes_nil
  | cons tale rest ih =>
    rw [List.flatMap_cons] at h
    obtain ⟨first, later, rfl, hfirst, hlater⟩ := List.sublist_append_iff.mp h
    have hnumbers : (tale :: rest).filterMap Tale.number? =
        tale.number?.toList ++ rest.filterMap Tale.number? := by
      cases hnumber : tale.number? <;> simp [hnumber]
    rw [hnumbers] at hnodup hclear ⊢
    obtain ⟨-, hrest, hdisjoint⟩ := List.nodup_append.mp hnodup
    have hcomes := tale.comes (c := c) hfirst fun l hl hmem =>
      hclear l hl (List.mem_append_left _ hmem)
    refine hcomes.append (ih hlater hrest ?_) ?_
    · -- What is still collected has a number of this tale or of before, and none of the others.
      obtain ⟨elements, collecting, hdeliver, -, hcollecting⟩ := hcomes
      rw [hdeliver]
      intro l hl hmem
      rcases hcollecting l hl with hl | hl
      · exact hclear l hl (List.mem_append_right _ hmem)
      · exact hdisjoint _ hl _ hmem rfl
    · -- Two leaves that do not belong together have different numbers.
      intro e he e' he' hleaf hleaf'
      have hown := tale.number_of_mem (hfirst.subset he) hleaf
      obtain ⟨tale', htale', hmem'⟩ := List.mem_flatMap.mp (hlater.subset he')
      have hother := tale'.number_of_mem hmem' hleaf'
      exact hdisjoint _ (by simp [hown]) _ (List.mem_filterMap.mpr ⟨tale', htale', hother⟩)

end Collector

/-! ## Handing out in between -/

namespace Recycler

/-- What is done with a recycler: it is told an event, or asked for an element. -/
inductive Call
  | tell (event : Event)
  | ask

/-- The event that is told, if any. -/
def Call.event? : Call → Option Event
  | tell event => some event
  | ask => none

/-- The elements handed out by calls one after the other, and the recycler afterwards. -/
def serve (r : Recycler) : List Call → List Element × Recycler
  | [] => ([], r)
  | .tell event :: rest => (r.handle event).serve rest
  | .ask :: rest => (r.pop.1.toList ++ (r.pop.2.serve rest).1, (r.pop.2.serve rest).2)

/-- The first of the elements waiting is handed out, and the data of a leaf stays in the buffer. -/
theorem pop_of_cons {r : Recycler} {e : Element} {rest : List Element}
    (h : r.collector.pending = e :: rest) :
    r.pop = (some e, ⟨{ r.collector with pending := rest },
      (e.leaf?.map Leaf.content).getD r.buffer⟩) := by
  cases e <;> simp [pop, Collector.pop, h, Element.leaf?]

/-- Where no element waits, none is handed out. -/
theorem pop_of_nil {r : Recycler} (h : r.collector.pending = []) : r.pop = (none, r) := by
  obtain ⟨⟨capturePaths, filter, policy, pending, collecting⟩, buffer⟩ := r
  obtain rfl : pending = [] := h
  rfl

theorem serve_append (r : Recycler) (calls more : List Call) :
    (r.serve (calls ++ more)).1 = (r.serve calls).1 ++ ((r.serve calls).2.serve more).1 := by
  induction calls generalizing r with
  | nil => rfl
  | cons call rest ih =>
    cases call with
    | tell event => exact ih (r.handle event)
    | ask => exact (congrArg (_ ++ ·) (ih r.pop.2)).trans (List.append_assoc ..).symm

/-- Whoever asks often enough is handed all that waits, in order. -/
theorem serve_asks {r : Recycler} {asks : Nat} (h : r.collector.pending.length ≤ asks) :
    (r.serve (List.replicate asks .ask)).1 = r.collector.pending := by
  induction asks generalizing r with
  | zero => exact (List.eq_nil_of_length_eq_zero (Nat.le_zero.mp h)).symm
  | succ asks ih =>
    rw [List.replicate_succ, serve]
    cases hpending : r.collector.pending with
    | nil =>
      rw [pop_of_nil hpending, ih (by simp [hpending]), hpending]
      rfl
    | cons e rest =>
      rw [hpending, List.length_cons] at h
      rw [pop_of_cons hpending]
      exact congrArg (e :: ·) (ih (Nat.le_of_succ_le_succ h))

/-- An element that was handed out was waiting before all others. -/
theorem behind_pop (r : Recycler) :
    r.collector = r.pop.2.collector.behind r.pop.1.toList := by
  rw [pop_fst, collector_pop, Collector.pop, Collector.behind]
  obtain ⟨⟨capturePaths, filter, policy, pending, collecting⟩, buffer⟩ := r
  cases pending <;> rfl

/-- Whenever elements are handed out, and whatever is in the buffer: those handed out and those
waiting are what comes of the events. -/
theorem deliverAll_serve (calls : List Call) (r : Recycler) :
    Collector.receiver.deliverAll (calls.filterMap Call.event?) r.collector =
      (r.serve calls).2.collector.behind (r.serve calls).1 := by
  induction calls generalizing r with
  | nil => rfl
  | cons call rest ih =>
    cases call with
    | tell event =>
      have hrest := ih (r.handle event)
      rw [collector_handle] at hrest
      exact hrest
    | ask =>
      have hrest := ih r.pop.2
      rw [r.behind_pop]
      show Collector.receiver.deliverAll (rest.filterMap Call.event?) _ = _
      rw [Collector.deliverAll_behind, hrest, serve]
      simp [Collector.behind]

end Recycler

/-- Of the events of a session any may be lost, and elements may be handed out at any time. Whoever
then asks for all that still waits has been handed the leaves completed by the delivered events: no
other, in the order of their ends, each with what its start told and all data that was delivered under
its number. Neither data of other elements nor what the buffer held before is among it. Each time the
first element waiting is handed out, with its data left in the buffer, and handing elements out early
changes nothing. -/
theorem leaves_of_delivered {schema : Schema} {maxChunk : Nat} {log : List Event} {t : Scanner}
    (h : Scanner.Session (Scanner.fresh schema maxChunk) log t) (c : ReaderConfig) (buffer : Bytes)
    {calls : List Recycler.Call} (hlost : (calls.filterMap Recycler.Call.event?).Sublist log) :
    let delivered := calls.filterMap Recycler.Call.event?
    let unused : Recycler := ⟨.ofConfig c, buffer⟩
    let served := unused.serve calls
    let waiting := served.2.collector.pending
    (∀ asks, waiting.length ≤ asks →
      (unused.serve (calls ++ List.replicate asks .ask)).1.filterMap Element.leaf? =
        Collector.completed (.ofConfig c) delivered) ∧
      (∀ e rest, waiting = e :: rest →
        served.2.pop = (some e, ⟨{ served.2.collector with pending := rest },
          (e.leaf?.map Leaf.content).getD served.2.buffer⟩)) ∧
      (waiting = [] → served.2.pop = (none, served.2)) ∧
      Collector.receiver.deliverAll delivered (.ofConfig c) =
        served.2.collector.behind served.1 := by
  intro delivered unused served waiting
  have hserved : Collector.receiver.deliverAll delivered (.ofConfig c) =
      served.2.collector.behind served.1 := unused.deliverAll_serve calls
  obtain ⟨tales, htales, hnodup⟩ := h.exists_tales
  have hsub : delivered.Sublist (tales.flatMap Tale.events) := by
    rw [← htales]
    exact hlost.trans (List.sublist_append_left _ _)
  -- Nothing is collected to begin with.
  have hclear : (Collector.ofConfig c).Clear (tales.filterMap Tale.number?) := by
    simp [Collector.Clear, Collector.ofConfig]
  obtain ⟨elements, collecting, hdeliver, hleaves, -⟩ :=
    Collector.comes_of_tales hsub hnodup hclear
  refine ⟨fun asks hasks => ?_, fun _ _ => Recycler.pop_of_cons, Recycler.pop_of_nil, hserved⟩
  rw [Recycler.serve_append, Recycler.serve_asks hasks, ← hleaves]
  rw [hserved] at hdeliver
  exact congrArg (fun d => d.pending.filterMap Element.leaf?) hdeliver

/-- One of the void elements of a document, by its number. -/
def voidElement (index : Nat) : Occurrence :=
  ⟨⟨0xEC, "Void", -1, .binary, false⟩, index⟩

/-- Of four void elements the first loses its end, the second its start, and the third the first
byte of its data. In between an element is handed out. -/
def lossyCalls : List Recycler.Call :=
  [.tell (.start (voidElement 0) (.known 2) [0xEC, 0x82] []), .tell (.content (voidElement 0) [1]),
    .tell (.content (voidElement 1) [3]), .tell (.finish (voidElement 1) []),
    .tell (.start (voidElement 2) (.known 2) [0xEC, 0x82] []), .tell (.content (voidElement 2) [5]),
    .tell (.finish (voidElement 2) []), .ask,
    .tell (.start (voidElement 3) (.known 1) [0xEC, 0x81] []), .tell (.content (voidElement 3) [6]),
    .tell (.finish (voidElement 3) [])]

/-- The third and the fourth come out, with the data that was delivered. -/
theorem leaves_of_lossyCalls :
    let p := Scanner.parse Collector.receiver.watched (Scanner.fresh Matroska.schema 1)
      (PushSource.ofBytes [0xEC, 0x82, 1, 2, 0xEC, 0x81, 3, 0xEC, 0x82, 4, 5, 0xEC, 0x81, 6])
      { state := .ofConfig { filter := some [] } }
    let unused : Recycler := ⟨.ofConfig {}, [9]⟩
    (lossyCalls.filterMap Recycler.Call.event?).isSublist p.receiver.callbacks = true ∧
      (unused.serve lossyCalls).2.collector.pending.length = 1 ∧
      (unused.serve (lossyCalls ++ [.ask])).1.filterMap Element.leaf? =
        [⟨voidElement 2, some [], 2, [0xEC, 0x82], [5], .lenient⟩,
          ⟨voidElement 3, some [], 1, [0xEC, 0x81], [6], .lenient⟩] :=
  have hlost := by cbv
  have hwaiting := by cbv
  ⟨hlost, hwaiting, ((leaves_of_delivered (.parse _ _ _ .begin) {} [9]
    (List.isSublist_iff_sublist.mp hlost)).1 1 (Nat.le_of_eq hwaiting)).trans (by cbv)⟩

end Ebml
