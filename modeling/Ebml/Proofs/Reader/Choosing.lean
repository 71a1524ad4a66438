import Ebml.Proofs.Reader.Pinpointing
import Ebml.Proofs.Reader.Projecting

/-!
# Choices on the way

What collectors make of a whole document is a choice among the same elements. So is what they have
made of it anywhere on the way: a collector goes along with one that leaves nothing out (`Chosen`),
and each transition of the scan keeps them together (`Transition.chosen`). Hence all settings choose
among the same elements behind each front of a document (`made_eq_choice`). What is made without any
data is without data, too (`Blank.deliverAll`).
-/

namespace Ebml

open Scanner (Trail Transition)

namespace Collector

/-- A leaf with its path if paths are kept. -/
def strip (k : Collector) (l : Leaf) : Leaf :=
  { l with path := if k.capturePaths then l.path else none }

/-- What a collector has is its choice of what `full` has, which leaves nothing out. -/
structure Chosen (k full : Collector) : Prop where
  filter_eq : full.filter = none
  paths_eq : full.capturePaths = true
  policy_eq : k.policy = full.policy
  pending_eq : k.pending = k.choice full.pending
  collecting_eq : k.collecting =
    (full.collecting.filter fun l => k.wants l.element.decl.id).map k.strip

namespace Chosen

variable {k full : Collector} {o : Occurrence}

/-- One more element waits, if it is wanted. -/
theorem enqueue (h : Chosen k full) {e : Element} (hwants : k.wants e.occurrence.decl.id = true) :
    Chosen (k.enqueue (k.present e)) (full.enqueue e) :=
  ⟨h.filter_eq, h.paths_eq, h.policy_eq, by
    show k.pending ++ [k.present e] = k.choice (full.pending ++ [e])
    rw [choice_append, choice_of_wanted hwants, ← h.pending_eq], h.collecting_eq⟩

theorem pass (h : Chosen k full) {e : Element} (hwants : k.wants e.occurrence.decl.id = false) :
    Chosen k (full.enqueue e) :=
  ⟨h.filter_eq, h.paths_eq, h.policy_eq, by
    show k.pending = k.choice (full.pending ++ [e])
    rw [choice_append, choice_of_unwanted hwants, List.append_nil, ← h.pending_eq], h.collecting_eq⟩

theorem capture_eq (h : Chosen k full) (path : List Occurrence) : full.capture path = some path :=
  if_pos h.paths_eq

theorem start_master (h : Chosen k full) (hmaster : o.decl.isMaster = true) (size : DataSize)
    (header : Bytes) (path : List Occurrence) :
    Chosen (handle (.start o size header path) k) (handle (.start o size header path) full) := by
  rw [handle_start_master (wants_of_filter h.filter_eq _) hmaster, h.capture_eq]
  cases hwants : k.wants o.decl.id with
  | false =>
    rw [handle_start_unwanted hwants]
    exact h.pass hwants
  | true =>
    rw [handle_start_master hwants hmaster, ← present_start]
    exact h.enqueue hwants

theorem finish_master (h : Chosen k full) (hmaster : o.decl.isMaster = true)
    (path : List Occurrence) :
    Chosen (handle (.finish o path) k) (handle (.finish o path) full) := by
  rw [handle_finish_master (wants_of_filter h.filter_eq _) hmaster, h.capture_eq]
  cases hwants : k.wants o.decl.id with
  | false =>
    rw [handle_finish_unwanted hwants]
    exact h.pass hwants
  | true =>
    rw [handle_finish_master hwants hmaster, ← present_finish]
    exact h.enqueue hwants

/-- Where no leaf is collected, a leaf that starts is, if it is wanted. -/
theorem start_leaf (h : Chosen k full) (hidle : full.collecting = none)
    (hleaf : o.decl.isMaster = false) (size : DataSize) (header : Bytes) (path : List Occurrence) :
    Chosen (handle (.start o size header path) k) (handle (.start o size header path) full) := by
  rw [handle_start_leaf (wants_of_filter h.filter_eq _) hleaf, h.capture_eq]
  cases hwants : k.wants o.decl.id with
  | false =>
    rw [handle_start_unwanted hwants]
    refine ⟨h.filter_eq, h.paths_eq, h.policy_eq, h.pending_eq, ?_⟩
    rw [h.collecting_eq, hidle]
    simp [Option.filter, hwants]
  | true =>
    rw [handle_start_leaf hwants hleaf]
    refine ⟨h.filter_eq, h.paths_eq, h.policy_eq, h.pending_eq, ?_⟩
    change some _ = (Option.filter (fun l => k.wants l.element.decl.id) (some _)).map k.strip
    rw [Option.filter_some, if_pos hwants, ← h.policy_eq]
    rfl

/-- Data goes to the same leaf, if that is wanted. -/
theorem content (h : Chosen k full) (o : Occurrence) (chunk : Bytes) :
    Chosen (handle (.content o chunk) k) (handle (.content o chunk) full) := by
  have hcollecting := h.collecting_eq
  cases hl : full.collecting with
  | none =>
    rw [hl] at hcollecting
    rw [handle_content_none hl, handle_content_none hcollecting]
    exact h
  | some l =>
    rw [hl, Option.filter_some] at hcollecting
    -- Both collectors compare with the same number, if the leaf is wanted.
    by_cases hindex : l.element.index = o.index
    · rw [handle_content_own hl hindex]
      cases hwants : k.wants l.element.decl.id with
      | false =>
        rw [if_neg (by simp [hwants])] at hcollecting
        rw [handle_content_none hcollecting]
        refine ⟨h.filter_eq, h.paths_eq, h.policy_eq, h.pending_eq, hcollecting.trans ?_⟩
        simp [Option.filter, hwants]
      | true =>
        rw [if_pos hwants] at hcollecting
        rw [handle_content_own hcollecting hindex]
        refine ⟨h.filter_eq, h.paths_eq, h.policy_eq, h.pending_eq, ?_⟩
        change some _ = (Option.filter (fun l => k.wants l.element.decl.id) (some _)).map k.strip
        rw [Option.filter_some, if_pos hwants]
        rfl
    · rw [handle_content_other hl hindex]
      cases hwants : k.wants l.element.decl.id with
      | false =>
        rw [if_neg (by simp [hwants])] at hcollecting
        rwa [handle_content_none hcollecting]
      | true =>
        rw [if_pos hwants] at hcollecting
        rwa [handle_content_other hcollecting hindex]

/-- The leaf that is collected ends. -/
theorem finish_leaf (h : Chosen k full) {l : Leaf} (hl : full.collecting = some l)
    (hleaf : l.element.decl.isMaster = false) (path : List Occurrence) :
    Chosen (handle (.finish l.element path) k)
      { full.enqueue (.leaf l) with collecting := none } := by
  have hcollecting := h.collecting_eq
  rw [hl, Option.filter_some] at hcollecting
  cases hwants : k.wants l.element.decl.id with
  | false =>
    rw [if_neg (by simp [hwants])] at hcollecting
    rw [handle_finish_unwanted hwants]
    obtain ⟨hfilter, hpaths, hpolicy, hpending, -⟩ := @Chosen.pass k full h (.leaf l) hwants
    exact ⟨hfilter, hpaths, hpolicy, hpending, hcollecting⟩
  | true =>
    rw [if_pos hwants] at hcollecting
    rw [handle_finish_own hwants hleaf hcollecting rfl]
    obtain ⟨hfilter, hpaths, hpolicy, hpending, -⟩ := @Chosen.enqueue k full h (.leaf l) hwants
    refine ⟨hfilter, hpaths, hpolicy, ?_, rfl⟩
    have hpresent : Element.leaf (k.strip l) = k.present (.leaf l) := by
      unfold strip present
      split <;> rfl
    rw [hpresent]
    exact hpending

end Chosen

end Collector

/-! ## Along a trail -/

namespace Scanner

open Collector (Chosen)

/-- A transition keeps a collector with the one that leaves nothing out. -/
theorem Transition.chosen {t t' : Scanner} {bytes : Bytes} {log : List Event} {k full : Collector}
    {outcome : Except ScanError Progress} (h : Transition t bytes outcome t') (hk : t.Kinds)
    (ht : Tracking t log full) (hchosen : Chosen k full) :
    Chosen (Collector.receiver.deliverAll (reported outcome) k)
      (Collector.receiver.deliverAll (reported outcome) full) := by
  -- Of the transitions only those that report something concern a collector.
  cases h with
  | closeExhausted _ _ _ hstack =>
    exact hchosen.finish_master (hk.masters _ (by rw [hstack]; exact List.mem_cons_self)) _
  | closeLevel _ _ _ hstack =>
    exact hchosen.finish_master (hk.masters _ (by rw [hstack]; exact List.mem_cons_self)) _
  | enterMaster _ _ hmaster => exact hchosen.start_master hmaster _ _ _
  | enterLeaf hphase _ hleaf =>
    exact hchosen.start_leaf (ht.idle (by simp [openLeaf?, hphase])) hleaf _ _ _
  | @contentRead leaf =>
    cases leaf with
    | none => exact hchosen
    | some o => exact hchosen.content o bytes
  | @finish leaf hphase =>
    cases leaf with
    | none => exact hchosen
    | some o =>
      have hopen : t.openLeaf? = some o := by simp [openLeaf?, hphase]
      have hleaf := hk.leaf o hopen
      change Chosen (Collector.handle (.finish o t.path) k)
        (Collector.handle (.finish o t.path) full)
      -- Either the leaf that ends is being collected, with all its data, or no leaf is.
      rcases ht.finish hopen hleaf t.path with ⟨hidle, hsame⟩ | ⟨l, hl, rfl, hqueued⟩
      · have hnone := hchosen.collecting_eq
        rw [hidle] at hnone
        cases hwants : k.wants o.decl.id with
        | false => rwa [hsame, Collector.handle_finish_unwanted hwants]
        | true => rwa [hsame, Collector.handle_finish_none hnone hleaf]
      · rw [hqueued]
        exact hchosen.finish_leaf hl hleaf t.path
  | idLacking _ _ _ hwaits => rwa [reported_of_waits hwaits]
  | sizeLacking _ _ _ hwaits => rwa [reported_of_waits hwaits]
  | contentLacking _ _ hwaits => rwa [reported_of_waits hwaits]
  | _ => exact hchosen

theorem Trail.chosen {t t' : Scanner} {bytes input : Bytes} {events log : List Event}
    {k full : Collector} (h : Trail t bytes events t') (hco : t.Coherent) (hk : t.Kinds)
    (hl : t.Ledger input log) (ht : Tracking t log full) (hchosen : Chosen k full) :
    Chosen (Collector.receiver.deliverAll events k) (Collector.receiver.deliverAll events full) := by
  induction h generalizing input log k full with
  | refl => exact hchosen
  | step hstep _ ih =>
    rw [Receiver.deliverAll_append, Receiver.deliverAll_append]
    exact ih (hstep.coherent hco) (hstep.kinds hk) (hstep.ledger hco hl)
      (hstep.tracking hco hk hl ht) (hstep.chosen hk ht hchosen)

end Scanner

/-! ## What was made -/

namespace Reader

/-- The elements that a reader makes of these events. -/
def made (c : ReaderConfig) (log : List Event) : List Element :=
  (Collector.receiver.deliverAll log (.ofConfig c)).pending

theorem made_bytewise (c : ReaderConfig) (log : List Event) :
    made c (log.flatMap Event.bytewise) = made c log := by
  rw [made, Collector.deliverAll_bytewise]
  rfl

/-- What the next events add to what waits does not depend on what waits already. -/
theorem pending_deliverAll (events : List Event) (k : Collector) :
    (Collector.receiver.deliverAll events k).pending =
      k.pending ++ (Collector.receiver.deliverAll events { k with pending := [] }).pending := by
  have hbehind := Collector.deliverAll_behind events k.pending { k with pending := [] }
  have hsame : Collector.behind k.pending { k with pending := [] } = k := by
    simp [Collector.behind]
  rw [hsame] at hbehind
  rw [hbehind]
  rfl

theorem made_append (c : ReaderConfig) (log later : List Event) :
    ∃ more, made c (log ++ later) = made c log ++ more := by
  rw [made, Receiver.deliverAll_append, pending_deliverAll]
  exact ⟨_, rfl⟩

/-- The configuration that leaves nothing out. -/
def plain (c : ReaderConfig) : ReaderConfig :=
  { c with capturePaths := true, filter := none }

/-- Behind each front of a document all settings choose among the same elements. -/
theorem made_eq_choice {c : ReaderConfig} {bytes : Bytes} {log : List Event} {t : Scanner}
    (h : Trail (beginning c) bytes log t) :
    made c log = (Collector.ofConfig c).choice (made (plain c) log) := by
  have hbegun : Collector.Chosen (.ofConfig c) (.ofConfig (plain c)) := ⟨rfl, rfl, rfl, rfl, rfl⟩
  have hchosen := h.chosen (Scanner.coherent_fresh _ _) (Scanner.kinds_fresh _ _)
    (Scanner.ledger_of_begun rfl rfl rfl rfl) (.of_idle rfl) hbegun
  obtain ⟨_, _, hkeeps⟩ := Collector.deliverAll_keeps log (.ofConfig c)
  have hpending := hchosen.pending_eq
  rw [hkeeps] at hpending
  rw [made, hkeeps]
  exact hpending

/-- A reader without a list of ids leaves no element out. -/
theorem length_made {c : ReaderConfig} {bytes : Bytes} {log : List Event} {t : Scanner}
    (hall : c.filter = none) (h : Trail (beginning c) bytes log t) :
    (made c log).length = (made (plain c) log).length := by
  rw [made_eq_choice h, Collector.choice, List.length_map, List.filter_eq_self.mpr]
  exact fun e _ => Collector.wants_of_filter hall _

end Reader

/-! ## Without data -/

namespace Collector

/-- Neither the leaf that is collected nor one that waits has any data. -/
structure Blank (k : Collector) : Prop where
  collecting : ∀ l ∈ k.collecting, l.content = []
  pending : ∀ l, .leaf l ∈ k.pending → l.content = []

namespace Blank

variable {k : Collector}

theorem enqueue (h : Blank k) {e : Element} (he : ∀ l, e = .leaf l → l.content = []) :
    Blank (k.enqueue e) := by
  refine ⟨h.collecting, fun l hl => ?_⟩
  rcases List.mem_append.mp hl with hl | hl
  · exact h.pending l hl
  · exact he l (List.mem_singleton.mp hl).symm

theorem handle (h : Blank k) {event : Event} (hquiet : ∀ o chunk, event ≠ .content o chunk) :
    Blank (handle event k) := by
  cases event with
  | content o chunk => exact absurd rfl (hquiet o chunk)
  | start o size header path =>
    cases hwants : k.wants o.decl.id with
    | false => rwa [handle_start_unwanted hwants]
    | true =>
      cases hmaster : o.decl.isMaster with
      | true =>
        rw [handle_start_master hwants hmaster]
        exact h.enqueue (by simp)
      | false =>
        rw [handle_start_leaf hwants hmaster]
        exact ⟨by simp, h.pending⟩
  | finish o path =>
    cases hwants : k.wants o.decl.id with
    | false => rwa [handle_finish_unwanted hwants]
    | true =>
      cases hmaster : o.decl.isMaster with
      | true =>
        rw [handle_finish_master hwants hmaster]
        exact h.enqueue (by simp)
      | false =>
        cases hl : k.collecting with
        | none => rwa [handle_finish_none hl hmaster]
        | some l =>
          -- Only the leaf being collected can come to wait, and it has no data yet.
          by_cases hindex : l.element.index = o.index
          · rw [handle_finish_own hwants hmaster hl hindex]
            have hqueued : Blank (k.enqueue (.leaf l)) :=
              h.enqueue fun _ heq => Element.leaf.inj heq ▸ h.collecting l hl
            exact ⟨by simp, hqueued.pending⟩
          · rwa [handle_finish_other hmaster hl hindex]

theorem deliverAll (h : Blank k) {events : List Event}
    (hquiet : ∀ o chunk, .content o chunk ∉ events) : Blank (receiver.deliverAll events k) := by
  induction events generalizing k with
  | nil => exact h
  | cons event rest ih =>
    refine ih (h.handle fun o chunk heq => hquiet o chunk (heq ▸ List.mem_cons_self)) ?_
    exact fun o chunk hmem => hquiet o chunk (List.mem_cons_of_mem _ hmem)

end Blank

end Collector

end Ebml
