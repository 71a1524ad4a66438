import Mathlib
import Ebml.Proofs.Reader.Mixing
import Ebml.Proofs.Reader.Queueing
import Ebml.Proofs.Reader.Tracking

/-!
# Nothing is read ahead

When a reader hands out an element it has taken the bytes up to where the element shows, and the rest
is still in its source (`nothing_read_ahead`). What waits in an open reader was brought by the very
last transition of its scan (`Brings`), so the bytes taken end where that transition ended (`EndsAt`):
behind the header of what starts, behind the data of a leaf, behind all that is inside a master that
ends by its length, and behind the header of the element that ends a master by its level. What waits
in a closed reader was open when the scan lacked more bytes and was closed (`Emptied`): masters, and a
leaf that is cut off. Every use of a reader keeps to this (`Prompt`).
-/

namespace Ebml

namespace Collector

/-- What waits after the start of an element and did not wait before is the start of a master. -/
theorem eq_of_start {k : Collector} {o : Occurrence} {size : DataSize} {header : Bytes}
    {path : List Occurrence} {e : Element}
    (h : (handle (.start o size header path) k).pending = k.pending ++ [e]) :
    o.decl.isMaster = true ∧ e = .start o (k.capture path) size header := by
  cases hwants : k.wants o.decl.id with
  | false => simp [handle_start_unwanted hwants] at h
  | true =>
    cases hmaster : o.decl.isMaster with
    | false => simp [handle_start_leaf hwants hmaster] at h
    | true =>
      rw [handle_start_master hwants hmaster] at h
      exact ⟨rfl, (List.singleton_inj.mp (List.append_cancel_left h)).symm⟩

/-- Data makes nothing wait. -/
theorem pending_handle_content (k : Collector) (o : Occurrence) (chunk : Bytes) :
    (handle (.content o chunk) k).pending = k.pending := by
  cases hl : k.collecting with
  | none => rw [handle_content_none hl]
  | some l =>
    by_cases hindex : l.element.index = o.index
    · rw [handle_content_own hl hindex]
    · rw [handle_content_other hl hindex]

/-- What waits after the end of a master and did not wait before is that end. -/
theorem eq_of_finish_master {k : Collector} {o : Occurrence} {path : List Occurrence} {e : Element}
    (hmaster : o.decl.isMaster = true) (h : (handle (.finish o path) k).pending = k.pending ++ [e]) :
    e = .finish o (k.capture path) := by
  cases hwants : k.wants o.decl.id with
  | false => simp [handle_finish_unwanted hwants] at h
  | true =>
    rw [handle_finish_master hwants hmaster] at h
    exact (List.singleton_inj.mp (List.append_cancel_left h)).symm

end Collector

namespace Reader

open Scanner (Trail Transition Whole EndRule)

/-! ## Where elements show -/

/-- The last transition of a scan that took these bytes brought the element. -/
def Brings (c : ReaderConfig) (bytes : Bytes) (t : Scanner) (e : Element) : Prop :=
  ∃ before log t₀ more event, bytes = before ++ more ∧ Trail (beginning c) before log t₀ ∧
    Transition t₀ more (.ok (.moved [event])) t ∧
    let k := Collector.receiver.deliverAll log (.ofConfig c)
    (Collector.handle event k).pending = k.pending ++ [e]

/-- The bytes end where an element shows that a scan has just reported. They begin with whole pieces,
as many as the number of an element says that starts or is a leaf. What starts shows with its header,
and a leaf that was not cut off with its data. If a master ends, then the bytes led the scan to where
that master was still open. There it ends by size behind whole pieces only, or by level behind the
header of the element that is about to start, or else the scan lacked more bytes and was closed. -/
def EndsAt (c : ReaderConfig) (bytes : Bytes) (t : Scanner) : Element → Prop
  | .start o _ _ header =>
    ∃ pieces, Whole c.schema (pieces ++ [⟨header, []⟩]) ∧ o.index = pieces.length ∧
      bytes = pieces.flatMap Piece.raw ++ header
  | .leaf l => l.isTruncated = false →
    ∃ pieces, Whole c.schema (pieces ++ [⟨l.header, l.content⟩]) ∧ l.element.index = pieces.length ∧
      bytes = pieces.flatMap Piece.raw ++ l.header ++ l.content
  | .finish o _ => ∃ before log m, Trail (beginning c) bytes log before ∧ m.element = o ∧
    ((∃ pieces, before = { t with stack := m :: t.stack } ∧ Whole c.schema pieces ∧
      (EndRule.size.Applies before m t.stack ∧ bytes = pieces.flatMap Piece.raw ∨
        EndRule.level.Applies before m t.stack ∧
          ∃ header h, Header.decode header = .ok (some (h, header.length)) ∧
            t.phase = .resolve h.id h.size (some pieces.length) ∧
            bytes = pieces.flatMap Piece.raw ++ header)) ∨
      before.Lacking ∧ t = before.close.2 ∧ m ∈ before.stack)

variable {c : ReaderConfig} {bytes input : Bytes} {t : Scanner} {e : Element}

/-- Where a trail from the beginning arrived: the scan, and a collector of what it reported. -/
structure Arrived (c : ReaderConfig) (bytes : Bytes) (log : List Event) (t : Scanner) (k : Collector) :
    Prop where
  trail : Trail (beginning c) bytes log t
  coherent : t.Coherent
  kinds : t.Kinds
  ledger : t.Ledger bytes log
  tracking : Tracking t log k

theorem arrived_of_trail {log : List Event} (h : Trail (beginning c) bytes log t) :
    Arrived c bytes log t (Collector.receiver.deliverAll log (.ofConfig c)) := by
  have hcoherent : (beginning c).Coherent := Scanner.coherent_fresh _ _
  have hkinds : (beginning c).Kinds := Scanner.kinds_fresh _ _
  have hbegun : (beginning c).Ledger [] [] := Scanner.ledger_of_begun rfl rfl rfl rfl
  exact ⟨h, h.coherent hcoherent, h.kinds hkinds, h.ledger hcoherent hbegun,
    h.tracking hcoherent hkinds hbegun (.of_idle rfl)⟩

namespace Arrived

variable {log : List Event} {k : Collector}

theorem closed_eq (h : Arrived c bytes log t k) : t.closed = false :=
  h.trail.frame.closed_eq

theorem schema_eq (h : Arrived c bytes log t k) : t.schema = c.schema :=
  h.trail.frame.schema_eq

/-- In a header the bytes before it are those of whole pieces, one for each number given so far. -/
theorem beforeStart (h : Arrived c bytes log t k) {index : Nat}
    (hheader : t.headerIndex? = some index) :
    ∃ pieces, Scanner.BeforeStart c.schema pieces t.window.bytes index bytes := by
  obtain ⟨pieces, -, -, hholds⟩ := h.ledger
  rw [Scanner.holds_of_header hheader, h.schema_eq] at hholds
  exact ⟨pieces, hholds⟩

section

variable {m : OpenMaster} {outer : List OpenMaster}

/-- What shows with the end of a master is that end. -/
theorem eq_of_finish (h : Arrived c bytes log t k) (hstack : t.stack = m :: outer)
    {path : List Occurrence}
    (hpending : (Collector.handle (.finish m.element path) k).pending = k.pending ++ [e]) :
    e = .finish m.element (k.capture path) :=
  Collector.eq_of_finish_master (h.kinds.masters m (by rw [hstack]; exact List.mem_cons_self)) hpending

/-- A master that is exhausted ends behind whole pieces. -/
theorem endsAt_exhausted (h : Arrived c bytes log t k) (hphase : t.phase = .id)
    (hempty : t.window.bytes = []) (hexhausted : t.isExhausted = true) (hstack : t.stack = m :: outer)
    (path : Option (List Occurrence)) :
    EndsAt c bytes { t with stack := outer } (.finish m.element path) := by
  obtain ⟨pieces, hbefore⟩ := h.beforeStart (Scanner.headerIndex_of_id hphase)
  have hjoined := hbefore.joined
  rw [hempty, List.append_nil] at hjoined
  exact ⟨t, log, m, h.trail, rfl, .inl ⟨pieces, by rw [← hstack], hbefore.whole, .inl
    ⟨⟨h.closed_eq, ⟨hphase, hempty⟩, (Scanner.isExhausted_iff hstack).mp hexhausted⟩, hjoined.symm⟩⟩⟩

/-- A master that ends by level does so behind the header of what is about to start. -/
theorem endsAt_level (h : Arrived c bytes log t k) {id index : Nat} {size : DataSize}
    {decl : ElementDecl} (hphase : t.phase = .resolve id size (some index))
    (hdecl : t.schema.get? id = some decl) (hknown : (size.isUnknown && !decl.isMaster) = false)
    (hstack : t.stack = m :: outer) (hlevel : t.closesByLevel decl m = true)
    (path : Option (List Occurrence)) :
    EndsAt c bytes { t with stack := outer } (.finish m.element path) := by
  obtain ⟨pieces, hbefore⟩ := h.beforeStart (Scanner.headerIndex_of_resolve hphase)
  have happlies :=
    Scanner.applies_of_closesByLevel h.coherent h.closed_eq hphase hdecl hknown hstack hlevel
  obtain ⟨header, hdec, rfl, rfl, -, -⟩ := h.coherent.header_of_resolve hphase
  obtain rfl := hbefore.index_eq
  exact ⟨t, log, m, h.trail, rfl, .inl ⟨pieces, by rw [← hstack], hbefore.whole, .inr
    ⟨happlies, t.window.bytes, header, hdec, hphase, hbefore.joined.symm⟩⟩⟩

end

/-- A master that starts shows with its header, which is a piece of its own. -/
theorem endsAt_start (h : Arrived c bytes log t k) {id index : Nat} {size : DataSize}
    {decl : ElementDecl} (hphase : t.phase = .resolve id size (some index))
    (hdecl : t.schema.get? id = some decl) (hmaster : decl.isMaster = true) (t' : Scanner)
    (path : Option (List Occurrence)) :
    EndsAt c bytes t' (.start ⟨decl, index⟩ path size t.window.bytes) := by
  obtain ⟨pieces, hbefore⟩ := h.beforeStart (Scanner.headerIndex_of_resolve hphase)
  obtain ⟨header, hdec, rfl, -, -, -⟩ := h.coherent.header_of_resolve hphase
  refine ⟨pieces, hbefore.whole.append ⟨header, hdec, ?_⟩, hbefore.index_eq, hbefore.joined.symm⟩
  rw [if_pos (by simp [← h.schema_eq, hdecl, hmaster])]
  exact ⟨rfl, rfl⟩

/-- A leaf shows with its data. It is the latest element, so it is the last of the pieces. -/
theorem endsAt_leaf (h : Arrived c bytes log t k) {l : Leaf}
    (hphase : t.phase = .finished (some l.element))
    (hl : k.collecting = some l) (t' : Scanner) : EndsAt c bytes t' (.leaf l) := by
  have htracks := h.tracking l hl
  obtain ⟨pieces, htells, -, hholds⟩ := h.ledger
  simp only [Scanner.Holds, hphase] at hholds
  rw [h.schema_eq] at htells hholds
  obtain ⟨front, p, rfl⟩ : ∃ front p, pieces = front ++ [p] := by
    refine (List.eq_nil_or_concat' pieces).resolve_left ?_
    rintro rfl
    simpa [htracks.latest] using hholds.index_eq
  have hindex : l.element.index = front.length := by
    simpa [htracks.latest] using hholds.index_eq
  have hpiece : IsPiece c.schema (front ++ [p]) l.element := hholds.leaf_mem _ rfl
  have hdecl : p.decl? c.schema = some l.element.decl := by
    simpa [IsPiece, hindex] using hpiece
  obtain rfl := htracks.piece_eq htells hindex (by simp [hdecl])
  refine fun _ => ⟨front, hholds.whole, hindex, ?_⟩
  rw [← hholds.joined]
  simp [Piece.raw]

end Arrived

/-- An element that the last transition brought shows where the bytes end. -/
theorem Brings.endsAt (h : Brings c bytes t e) : EndsAt c bytes t e := by
  obtain ⟨before, log, t₀, more, event, rfl, htrail, hstep, hpending⟩ := h
  have harrived := arrived_of_trail htrail
  generalize Collector.receiver.deliverAll log (.ofConfig c) = k at hpending harrived
  generalize houtcome : (Except.ok (Progress.moved [event]) : Except ScanError Progress) =
    outcome at hstep
  -- Of the transitions that report something, those into a leaf and inside its data queue nothing.
  cases hstep with
  | closeExhausted hphase hempty hexhausted hstack =>
    obtain rfl : event = _ := by simpa using houtcome
    obtain rfl := harrived.eq_of_finish hstack hpending
    rw [List.append_nil]
    exact harrived.endsAt_exhausted hphase hempty hexhausted hstack _
  | closeLevel hphase hdecl hknown hstack hlevel =>
    obtain rfl : event = _ := by simpa using houtcome
    obtain rfl := harrived.eq_of_finish hstack hpending
    rw [List.append_nil]
    exact harrived.endsAt_level hphase hdecl hknown hstack hlevel _
  | enterMaster hphase hdecl hmaster =>
    obtain rfl : event = _ := by simpa using houtcome
    obtain ⟨-, rfl⟩ := Collector.eq_of_start hpending
    rw [List.append_nil]
    exact harrived.endsAt_start hphase hdecl hmaster _ _
  | enterLeaf _ _ hleaf =>
    obtain rfl : event = _ := by simpa using houtcome
    obtain ⟨hmaster, -⟩ := Collector.eq_of_start hpending
    simp [hleaf] at hmaster
  | @contentRead leaf =>
    cases leaf with
    | none => simp at houtcome
    | some o =>
      obtain rfl : event = .content o more := by simpa using houtcome
      simp [Collector.pending_handle_content] at hpending
  | @finish leaf hphase =>
    cases leaf with
    | none => simp at houtcome
    | some o =>
      obtain rfl : event = .finish o t₀.path := by simpa using houtcome
      have hleaf : t₀.openLeaf? = some o := by simp [Scanner.openLeaf?, hphase]
      rcases harrived.tracking.finish hleaf (harrived.kinds.leaf o hleaf) t₀.path with
        ⟨-, hsame⟩ | ⟨l, hl, rfl, hqueued⟩
      · simp [hsame] at hpending
      · simp only [hqueued, Collector.enqueue] at hpending
        obtain rfl : Element.leaf l = e := List.singleton_inj.mp (List.append_cancel_left hpending)
        rw [List.append_nil]
        exact harrived.endsAt_leaf hphase hl _
  | idLacking _ _ _ hwaits => cases hwaits <;> simp at houtcome
  | sizeLacking _ _ _ hwaits => cases hwaits <;> simp at houtcome
  | contentLacking _ _ hwaits => cases hwaits <;> simp at houtcome
  | _ => simp at houtcome

/-! ## What closing leaves -/

/-- What waits are ends of these masters and a leaf that was cut off. -/
def Leftover (masters : List OpenMaster) (k : Collector) : Prop :=
  ∀ e ∈ k.pending, e.isTruncated = true ∨ ∃ m ∈ masters, ∃ path, e = .finish m.element path

/-- The bytes led a scan to where it lacked more of them, and there it was closed. What waits was open
before. -/
def Emptied (c : ReaderConfig) (bytes : Bytes) (t : Scanner) (k : Collector) : Prop :=
  ∃ before log, Trail (beginning c) bytes log before ∧ before.Lacking ∧ t = before.close.2 ∧
    Leftover before.stack k

theorem Emptied.endsAt {k : Collector} (h : Emptied c bytes t k) (he : e ∈ k.pending) :
    EndsAt c bytes t e := by
  obtain ⟨before, log, htrail, hlacking, hclose, hleft⟩ := h
  rcases hleft e he with hcut | ⟨m, hm, path, rfl⟩
  · cases e with
    | start => simp [Element.isTruncated] at hcut
    | finish => simp [Element.isTruncated] at hcut
    | leaf l =>
      intro hwhole
      simp [Element.isTruncated, hwhole] at hcut
  · exact ⟨before, log, m, htrail, rfl, .inr ⟨hlacking, hclose, hm⟩⟩

theorem Emptied.mono {k k' : Collector} (h : Emptied c bytes t k)
    (hsub : ∀ e ∈ k'.pending, e ∈ k.pending) : Emptied c bytes t k' := by
  obtain ⟨before, log, htrail, hlacking, hclose, hleft⟩ := h
  exact ⟨before, log, htrail, hlacking, hclose, fun e he => hleft e (hsub e he)⟩

theorem Leftover.enqueue {masters : List OpenMaster} {k : Collector} (h : Leftover masters k)
    (he : e.isTruncated = true ∨ ∃ m ∈ masters, ∃ path, e = .finish m.element path) :
    Leftover masters (k.enqueue e) := by
  intro e' he'
  rcases List.mem_append.mp he' with he' | he'
  · exact h e' he'
  · rwa [List.mem_singleton.mp he']

theorem Leftover.finishAll {masters stack : List OpenMaster} {k : Collector}
    (h : Leftover masters k) (hopen : ∀ m ∈ stack, m ∈ masters)
    (hmasters : ∀ m ∈ masters, m.element.decl.isMaster = true) :
    Leftover masters (Collector.receiver.deliverAll (Scanner.finishAll stack) k) := by
  induction stack generalizing k with
  | nil => exact h
  | cons m outer ih =>
    have hm : m ∈ masters := hopen m List.mem_cons_self
    rw [Scanner.finishAll, Collector.deliverAll_cons]
    refine ih ?_ fun m' hm' => hopen m' (List.mem_cons_of_mem _ hm')
    cases hwants : k.wants m.element.decl.id with
    | false => rwa [Collector.handle_finish_unwanted hwants]
    | true =>
      rw [Collector.handle_finish_master hwants (hmasters m hm)]
      exact h.enqueue (.inr ⟨m, hm, _, rfl⟩)

/-- Closing a scan that lacks bytes leaves no other elements waiting. -/
theorem leftover_close {log : List Event} {k : Collector} (htracking : Tracking t log k)
    (hk : t.Kinds) (hlacking : t.Lacking) (hidle : k.pending = []) :
    Leftover t.stack (Collector.receiver.deliverAll t.close.1 k) := by
  have hnone : Leftover t.stack k := by simp [Leftover, hidle]
  unfold Scanner.close
  split
  · exact hnone
  · rw [Receiver.deliverAll_append]
    refine Leftover.finishAll ?_ (fun _ hm => hm) hk.masters
    cases hleaf : t.openLeaf? with
    | none => exact hnone
    | some o =>
      show Leftover t.stack (Collector.handle (.finish o t.path) k)
      rcases htracking.finish hleaf (hk.leaf o hleaf) t.path with ⟨-, hsame⟩ | ⟨l, hl, rfl, hqueued⟩
      · rwa [hsame]
      · rw [hqueued]
        refine hnone.enqueue (.inl ?_)
        have hsize := (htracking l hl).size_eq
        -- A scan that lacks bytes while a leaf is open lacks data of that leaf.
        have hmissing : 0 < t.missing := by
          unfold Scanner.openLeaf? at hleaf
          unfold Scanner.Lacking at hlacking
          split at hleaf
          · rename_i leaf stop hphase
            cases stop with
            | none => simp [hphase] at hlacking
            | some stop =>
              simp only [hphase] at hlacking
              simp only [Scanner.missing, hphase, Option.getD_some]
              omega
          · rename_i hphase
            simp [hphase] at hlacking
          · simp at hleaf
        rw [Element.isTruncated, Leaf.isTruncated, decide_eq_true_iff]
        omega

/-! ## Readers in use -/

/-- A scan that stops at an element took last of all a transition that brought it, and nothing waited
before. -/
theorem scan_pauses {σ : Type} [FiniteSource σ] {r : Reader σ} (hco : r.scanner.Coherent)
    (hopen : r.scanner.closed = false) (hidle : r.collector.hasPending = false)
    (hpending : r.scan.2.collector.hasPending = true) :
    ∃ bytes log t₀ s₀ more event e, Hands r.source bytes s₀ ∧ Trail r.scanner bytes log t₀ ∧
      (Collector.receiver.deliverAll log r.collector).pending = [] ∧ Hands s₀ more r.scan.2.source ∧
      Transition t₀ more (.ok (.moved [event])) r.scan.2.scanner ∧
      r.scan.2.collector = Collector.handle event (Collector.receiver.deliverAll log r.collector) ∧
      r.scan.2.collector.pending = [e] := by
  rw [scan_eq_run hopen] at hpending ⊢
  obtain ⟨bytes, log, t₀, s₀, more, event, hhands, htrail, hwilling, hhands', hstep, hheard⟩ :=
    Scanner.run_pauses (r := Collector.receiver) (fun _ => rfl) r.source hco
      (by simpa [Collector.receiver] using hidle) (by simpa [Collector.receiver] using hpending)
  generalize Scanner.run Collector.receiver r.scanner r.source r.collector = p at *
  have hnone : (Collector.receiver.deliverAll log r.collector).pending = [] := by
    simpa [Collector.receiver, Collector.hasPending] using hwilling
  -- The last event brought no more than one element.
  have hle := Collector.length_pending_handle_le event (Collector.receiver.deliverAll log r.collector)
  change p.receiver = Collector.handle event _ at hheard
  rw [← hheard, hnone, List.length_nil, Nat.zero_add] at hle
  have hpos : 0 < p.receiver.pending.length := by
    simpa [Collector.hasPending, List.length_pos_iff] using hpending
  obtain ⟨e, hone⟩ := List.length_eq_one_iff.mp (Nat.le_antisymm hle hpos)
  exact ⟨bytes, log, t₀, s₀, more, event, e, hhands, htrail, hnone, hhands', hstep, hheard, hone⟩

variable {taken : List Element} {r r' : Reader PushSource}

/-- The bytes that a reader under way took and those that its source holds are the input. -/
theorem UnderWay.accounts (h : UnderWay c input taken r) :
    r.bytesRead + r.source.buffer.length = input.length ∧ input.drop r.bytesRead = r.source.buffer := by
  obtain ⟨bytes, log, htrail, rfl, -⟩ := h
  have hread : r.bytesRead = bytes.length := htrail.frame.consumed_eq.trans (Nat.zero_add _)
  rw [hread]
  exact ⟨List.length_append.symm, List.drop_left⟩

/-- What waits in an open reader was brought by the last transition. A closed reader took all of the
input, and what waits in it comes of closing. -/
structure Prompt (c : ReaderConfig) (input : Bytes) (taken : List Element) (r : Reader PushSource) :
    Prop extends Kept c input taken r where
  brought : r.scanner.closed = false → ∀ e ∈ r.collector.pending,
    r.collector.pending = [e] ∧ Brings c (input.take r.bytesRead) r.scanner e
  left : r.scanner.closed = true → r.source.buffer = [] ∧ Emptied c input r.scanner r.collector

namespace Prompt

theorem of_idle (h : UnderWay c input taken r) (hpending : r.collector.hasPending = false) :
    Prompt c input taken r := by
  have hnone : r.collector.pending = [] := by simpa [Collector.hasPending] using hpending
  exact ⟨h.kept, by simp [hnone], fun hclosed => by simp [h.closed_eq] at hclosed⟩

/-- Scanning stops where an element shows. -/
theorem scan (h : UnderWay c input taken r) (hidle : r.collector.hasPending = false) :
    Prompt c input taken r.scan.2 := by
  obtain ⟨hunder, -, -⟩ := h.scan
  cases hpending : r.scan.2.collector.hasPending with
  | false => exact of_idle hunder hpending
  | true =>
    refine ⟨hunder.kept, fun _ e he => ?_, fun hclosed => by simp [hunder.closed_eq] at hclosed⟩
    obtain ⟨bytes, log, t₀, s₀, more, event, e', hhands, htrail, hnone, hhands', hstep, hheard, hone⟩ :=
      scan_pauses h.coherent h.closed_eq hidle hpending
    obtain rfl : e = e' := by simpa [hone] using he
    generalize r.scan.2 = r' at hhands' hstep hheard hone ⊢
    obtain ⟨before, log₀, hbefore, rfl, hcollected⟩ := h
    refine ⟨hone, before ++ bytes, log₀ ++ log, t₀, more, event, ?_, hbefore.trans htrail, hstep, ?_⟩
    · -- The bytes taken up to here are a front of the input.
      obtain ⟨hbuffer, -⟩ := PushSource.buffer_of_hands hhands
      obtain ⟨hbuffer', -⟩ := PushSource.buffer_of_hands hhands'
      have hread : r'.scanner.consumed = (before ++ bytes ++ more).length := by
        have hconsumed := (hbefore.trans htrail).frame.consumed_eq
        have hconsumed' := hstep.frame.consumed_eq
        have hzero : (beginning c).consumed = 0 := rfl
        rw [List.length_append]
        omega
      show (before ++ r.source.buffer).take r'.scanner.consumed = _
      rw [hbuffer, hbuffer', hread]
      simp only [← List.append_assoc]
      exact List.take_left
    · -- What the collector was told before left nothing waiting but what was handed out.
      have htold : Collector.receiver.deliverAll (log₀ ++ log) (.ofConfig c) =
          (Collector.receiver.deliverAll log r.collector).behind taken := by
        rw [Receiver.deliverAll_append, hcollected, Collector.deliverAll_behind]
      dsimp only
      rw [htold, Collector.handle_behind, ← hheard]
      simp [Collector.behind, hone, hnone]

theorem push (h : Prompt c input taken r) (chunk : Bytes) :
    Prompt c (input ++ if r.source.finished then [] else chunk) taken (r.push chunk) := by
  refine ⟨h.toKept.push chunk, fun hopen e he => ?_, fun hclosed => ?_⟩
  · obtain ⟨hone, hbrings⟩ := h.brought hopen e he
    have hread := (h.stands.underWay hopen).accounts.1
    refine ⟨hone, ?_⟩
    show Brings c ((input ++ _).take r.bytesRead) r.scanner e
    rwa [List.take_append_of_le_length (by omega)]
  · have hfinished := h.finished_of_closed hclosed
    have hsame : r.push chunk = r := by simp [Reader.push, PushSource.push, hfinished]
    simp only [hsame, hfinished, if_true, List.append_nil]
    exact h.left hclosed

theorem finish (h : Prompt c input taken r) : Prompt c input taken r.finish :=
  ⟨h.toKept.finish, h.brought, h.left⟩

/-- Closing a reader that used up its source leaves ends and a leaf that was cut off. -/
theorem close (h : UnderWay c input taken r) (hfinished : r.source.finished = true)
    (hidle : r.collector.hasPending = false) (hbuffer : r.source.buffer = [])
    (hlacking : r.scanner.Lacking) : Prompt c input taken r.close := by
  have hthrough := h.close hbuffer hlacking
  obtain ⟨bytes, log, htrail, rfl, hcollected⟩ := h
  rw [hbuffer, List.append_nil] at hthrough ⊢
  have htracking := htrail.tracking (Scanner.coherent_fresh _ _) (Scanner.kinds_fresh _ _)
    (Scanner.ledger_of_begun rfl rfl rfl rfl) (k := .ofConfig c) (.of_idle rfl)
  rw [hcollected] at htracking
  refine ⟨⟨.inr hthrough, fun _ => hfinished⟩, fun hopen => ?_, fun _ =>
    ⟨hbuffer, r.scanner, log, htrail, hlacking, rfl, ?_⟩⟩
  · simp [hthrough.closed_eq] at hopen
  · exact leftover_close htracking.of_behind (htrail.kinds (Scanner.kinds_fresh _ _)) hlacking
      (by simpa [Collector.hasPending] using hidle)

theorem mayHaveNext (h : Prompt c input taken r) : Prompt c input taken r.mayHaveNext.2 := by
  unfold Reader.mayHaveNext
  split
  · exact h
  rename_i hidle
  split
  · exact h
  rename_i hopen
  rw [Bool.not_eq_true] at hidle hopen
  have hunder := h.stands.underWay hopen
  rw [eof_pushed]
  cases hfinished : r.source.finished with
  | false => exact h
  | true =>
    -- The source has no more to come, so the reader scans and then closes the scan.
    have hscan : Prompt c input taken r.scan.2 := .scan hunder hidle
    obtain ⟨hunder', hfinished', hend⟩ := hunder.scan
    dsimp only
    generalize r.scan = scanned at *
    obtain ⟨outcome, r'⟩ := scanned
    cases outcome with
    | error e => exact hscan
    | ok u =>
      dsimp only at hend hunder' hfinished' hscan ⊢
      cases hidle' : r'.collector.hasPending with
      | true => exact hscan
      | false =>
        obtain ⟨hbuffer, hlacking⟩ := hend.resolve_left (by simp [hidle'])
        exact .close hunder' (hfinished'.trans hfinished) hidle' hbuffer hlacking

/-- What is handed out shows where the bytes taken end. -/
theorem pop {rest : List Element} (h : Prompt c input taken r)
    (hpending : r.collector.pending = e :: rest) :
    Prompt c input (taken ++ [e]) r.pop.2 ∧
      EndsAt c (input.take r.pop.2.bytesRead) r.pop.2.scanner e := by
  have hmem : e ∈ r.collector.pending := by simp [hpending]
  have hpop : r.pop.2.collector.pending = rest := by simp [Reader.pop, Collector.pop, hpending]
  cases hclosed : r.scanner.closed with
  | false =>
    -- An open reader stopped where the element was brought, and nothing else waits.
    obtain ⟨hone, hbrings⟩ := h.brought hclosed e hmem
    obtain rfl : rest = [] := by simpa [hpending] using hone
    refine ⟨⟨⟨h.stands.pop hpending, h.finished_of_closed⟩, by simp [hpop], fun hclosed' => ?_⟩,
      hbrings.endsAt⟩
    exact absurd (hclosed.symm.trans hclosed') (by simp)
  | true =>
    -- A closed one took all of the input, and what waits was open at its end.
    obtain ⟨hbuffer, hleft⟩ := h.left hclosed
    have htook : input.take r.pop.2.bytesRead = input :=
      List.take_of_length_le (h.stands.through hclosed).bytesRead_eq.ge
    rw [htook]
    refine ⟨⟨⟨h.stands.pop hpending, h.finished_of_closed⟩, fun hopen => ?_, fun _ =>
      ⟨hbuffer, hleft.mono fun e' he' => ?_⟩⟩, hleft.endsAt hmem⟩
    · exact absurd (hclosed.symm.trans hopen) (by simp)
    · rw [hpending]
      exact List.mem_cons_of_mem _ (hpop ▸ he')

theorem next? (h : Prompt c input taken r) :
    Prompt c input (taken ++ handed r.next?.1) r.next?.2 ∧
      ∀ e, r.next?.1 = .ok (some e) →
        EndsAt c (input.take r.next?.2.bytesRead) r.next?.2.scanner e := by
  cases hidle : r.collector.hasPending with
  | true =>
    obtain ⟨e, rest, hpending⟩ := exists_pending hidle
    rw [next?_of_pending hpending]
    obtain ⟨hprompt, hshows⟩ := h.pop hpending
    refine ⟨hprompt, fun e' he' => ?_⟩
    obtain rfl := Option.some.inj (Except.ok.inj he')
    exact hshows
  | false =>
    -- A closed scan is left alone, and any other one stops where an element shows.
    have hscan : Prompt c input taken r.scan.2 := by
      cases hopen : r.scanner.closed with
      | true => rwa [scan_eq_self hopen]
      | false => exact .scan (h.stands.underWay hopen) hidle
    rw [Reader.next?, if_neg (by simp [hidle])]
    generalize r.scan = scanned at hscan ⊢
    obtain ⟨outcome, r'⟩ := scanned
    cases outcome with
    | error e => exact ⟨by simpa [handed] using hscan, by simp⟩
    | ok u =>
      dsimp only at hscan ⊢
      cases hidle' : r'.collector.hasPending with
      | false =>
        rw [pop_of_not_pending hidle']
        exact ⟨by simpa [handed] using hscan, by simp⟩
      | true =>
        obtain ⟨e, rest, hpending⟩ := exists_pending hidle'
        obtain ⟨hprompt, hshows⟩ := hscan.pop hpending
        rw [pop_fst hpending]
        refine ⟨hprompt, fun e' he' => ?_⟩
        obtain rfl := Option.some.inj (Except.ok.inj he')
        exact hshows

theorem of_mayHaveNext {answer : Except ScanError Bool} (h : Prompt c input taken r)
    (hm : r.mayHaveNext = (answer, r')) : Prompt c input taken r' := by
  have hprompt := h.mayHaveNext
  rwa [hm] at hprompt

theorem of_next {answer : Except ScanError (Option Element)} (h : Prompt c input taken r)
    (hn : r.next? = (answer, r')) : Prompt c input (taken ++ handed answer) r' := by
  have hprompt := h.next?.1
  rwa [hn] at hprompt

theorem visits {ν ε : Type} {v : Visitor ν ε} {state : ν} {elements : List Element}
    {a : Applied PushSource ν ε} (hvisits : Visits v r state elements a)
    (h : Prompt c input taken r) : Prompt c input (taken ++ elements) a.reader := by
  induction hvisits generalizing taken with
  | done =>
    rw [List.append_nil]
    exact h
  | unanswered _ hm =>
    rw [List.append_nil]
    exact h.of_mayHaveNext hm
  | ended _ hm =>
    rw [List.append_nil]
    exact h.of_mayHaveNext hm
  | unread _ hm hn => exact (h.of_mayHaveNext hm).of_next hn
  | refused _ hm hn => exact (h.of_mayHaveNext hm).of_next hn
  | shown _ hm hn _ _ ih =>
    have hmore := ih ((h.of_mayHaveNext hm).of_next hn)
    rwa [handed, List.append_assoc, List.singleton_append] at hmore
  | dry _ hm hn => exact (h.of_mayHaveNext hm).of_next hn
  | again _ hm hn _ _ ih =>
    have hmore := ih ((h.of_mayHaveNext hm).of_next hn)
    rwa [show handed (.ok none) = [] from rfl, List.append_nil] at hmore

end Prompt

/-- Every use leaves a reader prompt. -/
theorem Usage.prompt (h : Usage c input taken r) : Prompt c input taken r := by
  induction h with
  | begin => exact .of_idle (underWay_ofSource c) rfl
  | push chunk _ ih => exact ih.push chunk
  | finish _ ih => exact ih.finish
  | mayHaveNext _ ih => exact ih.mayHaveNext
  | next? _ ih => exact ih.next?.1
  | apply v state _ ih => exact .visits (visits_shown v _ state) ih

/-- Where a reader stands all bytes of the input are taken or in the source. -/
theorem Prompt.accounts (h : Prompt c input taken r) :
    r.bytesRead + r.source.buffer.length = input.length ∧
      input.drop r.bytesRead = r.source.buffer := by
  rcases h.stands with hunder | hthrough
  · exact hunder.accounts
  · obtain ⟨hbuffer, -⟩ := h.left hthrough.closed_eq
    rw [hthrough.bytesRead_eq, hbuffer, List.drop_length]
    exact ⟨rfl, rfl⟩

/-- No use of a reader takes a byte too many: the bytes taken and those that the source holds are the
bytes pushed, and whenever an element is handed out the bytes taken end where it shows. -/
theorem nothing_read_ahead (c : ReaderConfig) (h : Usage c input taken r) :
    r.bytesRead + r.source.buffer.length = input.length ∧
      input.drop r.bytesRead = r.source.buffer ∧
      ∀ e, r.next?.1 = .ok (some e) →
        EndsAt c (input.take r.next?.2.bytesRead) r.next?.2.scanner e :=
  ⟨h.prompt.accounts.1, h.prompt.accounts.2, h.prompt.next?.2⟩

/-- A cluster with a timestamp in it and the header of one more cluster. -/
def twoClusters : Bytes :=
  [0x1F, 0x43, 0xB6, 0x75, 0x83, 0xE7, 0x81, 7, 0x1F, 0x43, 0xB6, 0x75, 0x80]

/-- A reader of them that has handed out the first start and the timestamp. -/
def insideCluster : Reader PushSource :=
  ((ofSource {} {}).push twoClusters).next?.2.next?.2

/-- The first cluster ends behind its eighth byte, before any byte of the second is taken. -/
theorem nothing_read_ahead_of_two_clusters :
    let ended := insideCluster.next?
    let first : Element := .finish ⟨⟨0x1F43B675, "Cluster", 1, .master, false⟩, 0⟩ (some [])
    ended.1 = .ok (some first) ∧ ended.2.bytesRead = 8 ∧ twoClusters.drop 8 = ended.2.source.buffer ∧
      EndsAt {} (twoClusters.take 8) ended.2.scanner first := by
  have husage : Usage {} twoClusters _ insideCluster := (Usage.begin.push twoClusters).next?.next?
  have hfirst : insideCluster.next?.1 =
      .ok (some (.finish ⟨⟨0x1F43B675, "Cluster", 1, .master, false⟩, 0⟩ (some []))) := by cbv
  have hread : insideCluster.next?.2.bytesRead = 8 := by cbv
  obtain ⟨-, -, hends⟩ := nothing_read_ahead {} husage
  obtain ⟨-, hrest, -⟩ := nothing_read_ahead {} husage.next?
  have hshown := hends _ hfirst
  rw [hread] at hrest hshown
  exact ⟨hfirst, hread, hrest, hshown⟩

end Reader

end Ebml
