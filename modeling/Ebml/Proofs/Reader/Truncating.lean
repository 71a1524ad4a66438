import Ebml.Proofs.Reader.Projecting
import Ebml.Proofs.Reader.Settling

/-!
# Documents that are cut short

What a reader hands out of the front of a document it also hands out of the whole. Where the front
ends, the end of input adds no more than it must: the leaf whose data was cut off, if there is one
(`CutOff`), and the end of every master that is open (`truncation`). What cannot be read in the front
cannot be read in the whole either.
-/

namespace Ebml

/-! ## Leaves that are cut off -/

/-- The input ends behind `front` and the header of a leaf, and `missing` bytes before the end of the
leaf's data. There `masters` are open, innermost first. -/
structure CutBehind (c : ReaderConfig) (input : Bytes) (masters : List Occurrence)
    (front : List Piece) (missing : Nat) (l : Leaf) : Prop where
  divides : Divides c.schema (front ++ [⟨l.header, l.content⟩]) [] input
  lacks : Piece.Lacks c.schema ⟨l.header, l.content⟩ missing
  missing_pos : 0 < missing
  decl_eq : Piece.decl? c.schema ⟨l.header, l.content⟩ = some l.element.decl
  not_master : l.element.decl.isMaster = false
  index_eq : l.element.index = front.length
  size_eq : l.declaredSize = l.content.length + missing
  path_eq : l.path = (Collector.ofConfig c).capture masters.reverse
  policy_eq : l.policy = c.policy

/-- The input ends inside the data of a leaf, of which this much is there. -/
def CutOff (c : ReaderConfig) (input : Bytes) (masters : List Occurrence) (l : Leaf) : Prop :=
  ∃ front missing, CutBehind c input masters front missing l

variable {c : ReaderConfig} {input : Bytes} {masters : List Occurrence} {l l' : Leaf}

theorem CutOff.isTruncated (h : CutOff c input masters l) : l.isTruncated = true := by
  obtain ⟨front, missing, hcut⟩ := h
  have hsize := hcut.size_eq
  have hpos := hcut.missing_pos
  rw [Leaf.isTruncated, decide_eq_true_iff]
  omega

/-- An input ends inside one leaf at most. -/
theorem CutOff.unique (h : CutOff c input masters l) (h' : CutOff c input masters l') : l = l' := by
  obtain ⟨front, missing, hcut⟩ := h
  obtain ⟨front', missing', hcut'⟩ := h'
  -- An input divides into pieces in one way, so the last piece is the same and with it the header
  -- and the data there is.
  obtain ⟨hpieces, -⟩ := hcut.divides.unique hcut'.divides
  obtain ⟨rfl, hlast⟩ := List.append_inj' hpieces rfl
  obtain ⟨hheader, hcontent⟩ : l.header = l'.header ∧ l.content = l'.content := by
    simpa using hlast
  have hlength := hcut.lacks.length_eq hcut'.lacks hheader
  have hsize : l.declaredSize = l'.declaredSize := by
    rw [hcut.size_eq, hcut'.size_eq]
    exact hlength
  have hdecl : l.element.decl = l'.element.decl := by
    have hsame := hcut.decl_eq
    rw [hheader, hcontent, hcut'.decl_eq] at hsame
    exact (Option.some.inj hsame).symm
  have hindex := hcut.index_eq.trans hcut'.index_eq.symm
  have hpath := hcut.path_eq.trans hcut'.path_eq.symm
  have hpolicy := hcut.policy_eq.trans hcut'.policy_eq.symm
  obtain ⟨⟨_, _⟩, _⟩ := l
  obtain ⟨⟨_, _⟩, _⟩ := l'
  simp_all

namespace Reader

variable {taken : List Element} {r : Reader PushSource}

/-- The leaf that a settled reader is collecting is cut off where its input ends. -/
theorem Settled.cutOff (h : Settled c input taken r) (hfilter : c.filter = none)
    (hcollecting : r.collector.collecting = some l) : CutOff c input (openAfter taken) l := by
  obtain ⟨log, hledger, hmirrors⟩ := h.mirrors hfilter
  have hcollected := hmirrors.collected l hcollecting
  have hopen := hmirrors.open_eq
  have hleaf : r.scanner.openLeaf? = some l.element := by
    rw [← hmirrors.leaf_eq]
    exact congrArg (Option.map Leaf.element) hcollecting
  have hkind := h.kinds.leaf _ hleaf
  have hlacking := h.dry.lacking
  obtain ⟨pieces, htells, -, hholds⟩ := hledger
  rw [h.schema_eq] at htells
  unfold Scanner.Holds at hholds
  unfold Scanner.openLeaf? at hleaf
  unfold Scanner.Lacking at hlacking
  split at hleaf
  · rename_i leaf stop hphase
    subst hleaf
    obtain ⟨stop, rfl⟩ := h.underWay.coherent.stop_of_content hphase
    simp only [hphase] at hlacking hholds
    obtain ⟨front, p, rfl, hinside⟩ := hholds
    rw [h.schema_eq] at hinside
    -- The last piece has the declaration, the header and the data of the leaf.
    obtain ⟨decl, hdecl, helement⟩ := Option.map_eq_some_iff.mp hinside.leaf_eq.symm
    have hindex : l.element.index = front.length := by rw [← helement]
    obtain rfl := hcollected.piece_eq htells hindex (by simp [hdecl])
    refine ⟨front, r.scanner.missing, hinside.divides, ?_, ?_, ?_, hkind, hindex,
      hcollected.size_eq, ?_, ?_⟩
    · simpa [Scanner.missing, hphase] using hinside.lacks
    · simp only [Scanner.missing, hphase, Option.getD_some]
      omega
    · rw [hdecl, ← helement]
    · rw [hcollected.path_eq, hopen]
      rfl
    · exact hcollected.policy_eq
  · rename_i leaf hphase
    simp [hphase] at hlacking
  · simp at hleaf

/-- Where only whole pieces were taken none lacks data. -/
theorem not_divides_of_whole {schema : Schema} {pieces front : List Piece} {p : Piece}
    {window : Bytes} {index missing : Nat}
    (h : Scanner.BeforeStart schema pieces window index input)
    (hlacking : Header.decode window = .ok none) (hdivides : Divides schema (front ++ [p]) [] input)
    (hlacks : p.Lacks schema missing) (hpos : 0 < missing) : False := by
  obtain ⟨rfl, -⟩ := (h.divides hlacking).unique hdivides
  have hwhole := h.whole p (by simp)
  have hlength := hwhole.length_eq hlacks rfl
  omega

/-- Where the input ends inside a leaf, that leaf is being collected. -/
theorem Settled.collecting_of_cutOff (h : Settled c input taken r) (hfilter : c.filter = none)
    (hcut : CutOff c input (openAfter taken) l) : r.collector.collecting = some l := by
  obtain ⟨log, hledger, hmirrors⟩ := h.mirrors hfilter
  obtain ⟨front, missing, hbehind⟩ := id hcut
  have hlacking := h.dry.lacking
  obtain ⟨pieces, -, -, hholds⟩ := hledger
  unfold Scanner.Holds at hholds
  unfold Scanner.Lacking at hlacking
  rw [h.schema_eq] at hholds
  split at hholds <;> rename_i hphase <;> first | exact hholds.elim | simp only [hphase] at hlacking
  · exact (not_divides_of_whole hholds hlacking.1 hbehind.divides hbehind.lacks
      hbehind.missing_pos).elim
  · exact (not_divides_of_whole hholds hlacking hbehind.divides hbehind.lacks
      hbehind.missing_pos).elim
  · obtain ⟨front', p, rfl, hinside⟩ := hholds
    obtain ⟨hpieces, -⟩ := hinside.divides.unique hbehind.divides
    obtain ⟨-, hlast⟩ := List.append_inj' hpieces rfl
    have hdecl : p.decl? c.schema = some l.element.decl := by
      rw [List.singleton_inj.mp hlast]
      exact hbehind.decl_eq
    have hleaf := hinside.leaf_eq
    rw [hdecl] at hleaf
    -- Some leaf is collected, and it is cut off here as well.
    obtain ⟨l', hl', -, -⟩ := hmirrors.exists_collecting (o := ⟨l.element.decl, front'.length⟩)
      (by simp [Scanner.openLeaf?, hphase, hleaf])
    have hsame := (h.cutOff hfilter hl').unique hcut
    rw [← hsame]
    exact hl'

/-! ## The end of input -/

/-- The input ended inside a leaf, or only ends follow the elements that were handed out. -/
theorem feedAll_of_ok (c : ReaderConfig) (chunks : List Bytes) (hfilter : c.filter = none)
    (hok : ((ofSource c {}).feed chunks).outcome = .ok ()) :
    let front := ((ofSource c {}).feed chunks).elements
    (∀ e ∈ front, e.isTruncated = false) ∧
      ∃ cut : Option Leaf,
        ((ofSource c {}).feedAll chunks).elements =
            front ++ cut.toList.map .leaf ++ (Collector.ofConfig c).ends (openAfter front) ∧
          ∀ l, cut = some l ↔ CutOff c chunks.flatten (openAfter front) l := by
  have hsettled := feed_ofSource c chunks
  rw [hok] at hsettled
  obtain ⟨helements, -⟩ := feedAll_of_fed hok
  generalize (ofSource c {}).feed chunks = fed at *
  obtain ⟨log, -, hmirrors⟩ := hsettled.mirrors hfilter
  refine ⟨hmirrors.whole, fed.reader.collector.collecting, ?_, fun l =>
    ⟨hsettled.cutOff hfilter, hsettled.collecting_of_cutOff hfilter⟩⟩
  have hclose := hmirrors.deliverAll_close hsettled.kinds hsettled.underWay.closed_eq
  let k : Collector := { Collector.ofConfig c with
    pending := fed.elements, collecting := fed.reader.collector.collecting }
  have hends := @Collector.ends_of_capture (.ofConfig c) k rfl (openAfter fed.elements)
  rw [helements, hsettled.behind_eq, hclose]
  exact congrArg _ hends

/-- What cannot be read in the front of a document cannot be read in the whole. -/
theorem feedAll_of_error {c : ReaderConfig} {chunks chunks' : List Bytes} {rest : Bytes} {e : ScanError}
    (hjoined : chunks'.flatten = chunks.flatten ++ rest)
    (herror : ((ofSource c {}).feedAll chunks).outcome = .error e) :
    ((ofSource c {}).feedAll chunks').elements = ((ofSource c {}).feedAll chunks).elements ∧
      ((ofSource c {}).feedAll chunks').outcome = .error e := by
  have hspec := feedAll_spec c chunks
  rw [herror] at hspec
  have hwhole := (feedAll_eq_reading c chunks').1
  rw [hjoined, reading_of_failed (hspec.append rest)] at hwhole
  exact Prod.mk.inj hwhole

/-- Feeding the front of a document hands out a front of its elements. -/
theorem feed_front {c : ReaderConfig} {chunks chunks' : List Bytes} {rest : Bytes}
    (hjoined : chunks'.flatten = chunks.flatten ++ rest)
    (hok : ((ofSource c {}).feed chunks).outcome = .ok ()) :
    ((ofSource c {}).feed chunks).elements <+: ((ofSource c {}).feed chunks').elements := by
  have hsame : (chunks ++ [rest]).flatten = chunks'.flatten := by simp [hjoined]
  rw [← (feed_chunking c hsame).1, feed_append _ _ _ hok]
  exact List.prefix_append _ _

/-- All that a reader hands out before it fails is whole. -/
theorem Failed.whole {e : ScanError} (h : Failed c input taken e) (hfilter : c.filter = none) :
    ∀ e ∈ taken, e.isTruncated = false := by
  obtain ⟨bytes, rest, log, t, htrail, -, -, rfl⟩ := h
  have hledger := Scanner.ledger_of_begun (t := beginning c) rfl rfl rfl rfl
  exact (htrail.mirrors (Scanner.coherent_fresh _ _) (Scanner.kinds_fresh _ _) hledger
    (mirrors_ofConfig hfilter _ rfl rfl)).whole

/-! ## Truncated leaves -/

/-- Behind a truncated leaf there are ends only. -/
def OnlyEndsFollow (elements : List Element) : Prop :=
  elements.Pairwise fun e e' => e.isTruncated = true → e'.isFinish = true

theorem isTruncated_of_isFinish {e : Element} (h : e.isFinish = true) : e.isTruncated = false := by
  cases e with
  | finish => rfl
  | start => simp [Element.isFinish] at h
  | leaf l => simp [Element.isFinish] at h

theorem onlyEndsFollow_of_whole {elements : List Element}
    (h : ∀ e ∈ elements, e.isTruncated = false) : OnlyEndsFollow elements := by
  refine List.Pairwise.imp_of_mem ?_ (List.pairwise_of_forall (R := fun _ _ => True) fun _ _ => trivial)
  intro e e' he _ _ htruncated
  simp [h e he] at htruncated

/-- If only ends follow a truncated leaf there is one at most. -/
theorem OnlyEndsFollow.countP_le {elements : List Element} (h : OnlyEndsFollow elements) :
    elements.countP Element.isTruncated ≤ 1 := by
  induction elements with
  | nil => exact Nat.zero_le 1
  | cons e rest ih =>
    obtain ⟨hfirst, hrest⟩ := List.pairwise_cons.mp h
    by_cases htruncated : e.isTruncated = true
    · have hnone : rest.countP Element.isTruncated = 0 := by
        rw [List.countP_eq_zero]
        intro e' he'
        simp [isTruncated_of_isFinish (hfirst e' he' htruncated)]
      rw [List.countP_cons_of_pos htruncated, hnone]
    · rw [List.countP_cons_of_neg htruncated]
      exact ih hrest

/-- Whole elements, perhaps one more leaf, and ends. -/
theorem onlyEndsFollow_of_cut {front ends : List Element} (cut : Option Leaf)
    (hfront : ∀ e ∈ front, e.isTruncated = false) (hends : ∀ e ∈ ends, e.isFinish = true) :
    OnlyEndsFollow (front ++ cut.toList.map .leaf ++ ends) := by
  rw [OnlyEndsFollow, List.append_assoc, List.pairwise_append, List.pairwise_append]
  refine ⟨onlyEndsFollow_of_whole hfront, ⟨?_, ?_, ?_⟩, ?_⟩
  · cases cut <;> simp
  · exact onlyEndsFollow_of_whole fun e he => isTruncated_of_isFinish (hends e he)
  · intro _ _ e he _
    exact hends e he
  · intro e he _ _ htruncated
    simp [hfront e he] at htruncated

theorem onlyEndsFollow_unfiltered {c : ReaderConfig} (hfilter : c.filter = none)
    (chunks : List Bytes) : OnlyEndsFollow ((ofSource c {}).feedAll chunks).elements := by
  cases hfed : ((ofSource c {}).feed chunks).outcome with
  | ok u =>
    obtain ⟨hwhole, cut, helements, -⟩ := feedAll_of_ok c chunks hfilter hfed
    rw [helements]
    exact onlyEndsFollow_of_cut cut hwhole fun e he => Collector.isFinish_of_mem_ends he
  | error e =>
    have hspec := feed_ofSource c chunks
    rw [hfed] at hspec
    have helements : ((ofSource c {}).feedAll chunks).elements =
        ((ofSource c {}).feed chunks).elements := by
      simp only [feedAll, hfed]
    rw [helements]
    exact onlyEndsFollow_of_whole (hspec.whole hfilter)

/-- A list of ids leaves elements out and changes none. -/
theorem onlyEndsFollow (c : ReaderConfig) (chunks : List Bytes) :
    OnlyEndsFollow ((ofSource c {}).feedAll chunks).elements := by
  cases hfilter : c.filter with
  | none => exact onlyEndsFollow_unfiltered hfilter chunks
  | some ids =>
    have hsame : c = { c with filter := some ids } := by
      cases c
      simp_all
    have hchosen := (settings_project c ids chunks chunks rfl).1.elements_eq
    have hall := @onlyEndsFollow_unfiltered { c with filter := none } rfl chunks
    rw [hsame, hchosen]
    exact List.Pairwise.filter _ hall

/-! ## Truncation -/

/-- A front of a document is read like the whole. If it can be read, then the elements that it brings
before the end of input are a front of those of the whole; behind them comes a leaf exactly if the
front ends inside its data, with the data that is there, and it is the only element that is truncated;
then all open masters end, innermost first. If the front cannot be read, the whole gives the same
elements and the same error. And whatever is read, with or without a list of ids, at most one leaf is
truncated and only ends follow it. -/
theorem truncation (c : ReaderConfig) {chunks chunks' : List Bytes} {rest : Bytes}
    (hjoined : chunks'.flatten = chunks.flatten ++ rest) :
    let short := (ofSource c {}).feedAll chunks
    let whole := (ofSource c {}).feedAll chunks'
    let front := ((ofSource c {}).feed chunks).elements
    (c.filter = none → short.outcome = .ok () →
      front <+: ((ofSource c {}).feed chunks').elements ∧
        ∃ cut : Option Leaf,
          short.elements =
              front ++ cut.toList.map .leaf ++ (Collector.ofConfig c).ends (openAfter front) ∧
            (∀ l, cut = some l ↔ CutOff c chunks.flatten (openAfter front) l) ∧
            ∀ e ∈ short.elements, e.isTruncated = true ↔ ∃ l, cut = some l ∧ e = .leaf l) ∧
      (∀ e, short.outcome = .error e →
        whole.elements = short.elements ∧ whole.outcome = .error e) ∧
      short.elements.countP Element.isTruncated ≤ 1 ∧ OnlyEndsFollow short.elements := by
  intro short whole front
  have hfollow : OnlyEndsFollow short.elements := onlyEndsFollow c chunks
  refine ⟨fun hfilter hok => ?_, fun e herror => feedAll_of_error hjoined herror,
    hfollow.countP_le, hfollow⟩
  have hfed : ((ofSource c {}).feed chunks).outcome = .ok () := by
    cases hfed : ((ofSource c {}).feed chunks).outcome with
    | ok u => rfl
    | error e =>
      have hfailed : short.outcome = .error e := by simp only [short, feedAll, hfed]
      simp [hok] at hfailed
  obtain ⟨hwhole, cut, helements, hcut⟩ := feedAll_of_ok c chunks hfilter hfed
  refine ⟨feed_front hjoined hfed, cut, helements, hcut, fun e he => ⟨fun htruncated => ?_, ?_⟩⟩
  · -- What was handed out before is whole, and what ends has no data.
    rw [helements, List.append_assoc, List.mem_append, List.mem_append] at he
    rcases he with he | he | he
    · simp [hwhole e he] at htruncated
    · simpa [eq_comm] using he
    · simp [isTruncated_of_isFinish (Collector.isFinish_of_mem_ends he)] at htruncated
  · rintro ⟨l, hl, rfl⟩
    exact ((hcut l).mp hl).isTruncated

/-- A live cluster with the first of two bytes of a timestamp. -/
def cutTimestamp : Bytes :=
  [0x18, 0x53, 0x80, 0x67, 0xFF, 0x1F, 0x43, 0xB6, 0x75, 0xFF, 0xE7, 0x82, 5]

/-- The front ends inside the timestamp, which comes behind the starts of the two masters. The whole
goes on with a byte that begins no id, and fails as it does when one more byte follows. -/
theorem truncation_of_cut_timestamp :
    let short := (ofSource {} {}).feedAll (cut [1] cutTimestamp)
    let front := ((ofSource {} {}).feed (cut [1] cutTimestamp)).elements
    let whole := (ofSource {} {}).feedAll [cutTimestamp, [6, 0]]
    let more := (ofSource {} {}).feedAll [cutTimestamp, [6, 0], [7]]
    short.elements.map (fun e => (e.occurrence.index, e.isTruncated)) =
        [(0, false), (1, false), (2, true), (1, false), (0, false)] ∧
      front <+: ((ofSource {} {}).feed [cutTimestamp, [6, 0]]).elements ∧
      (∃ l, CutOff {} cutTimestamp (openAfter front) l ∧
        short.elements = front ++ [.leaf l] ++ (Collector.ofConfig {}).ends (openAfter front)) ∧
      short.elements.countP Element.isTruncated ≤ 1 ∧
      whole.outcome = .error (.header 14 (.idTooWide 9)) ∧ more.elements = whole.elements ∧
      more.outcome = .error (.header 14 (.idTooWide 9)) := by
  have htold : (reading {} cutTimestamp).1.map (fun e => (e.occurrence.index, e.isTruncated)) =
      [(0, false), (1, false), (2, true), (1, false), (0, false)] := by cbv
  have hends : (reading {} cutTimestamp).2 = .ok () := by cbv
  have hspoilt : (reading {} (cutTimestamp ++ [6, 0])).2 = .error (.header 14 (.idTooWide 9)) := by cbv
  have hshort := (feedAll_eq_reading {} (cut [1] cutTimestamp)).1
  have hwhole := (feedAll_eq_reading {} [cutTimestamp, [6, 0]]).1
  rw [flatten_cut] at hshort
  rw [← hshort] at htold hends
  rw [show [cutTimestamp, [6, 0]].flatten = cutTimestamp ++ [6, 0] from rfl] at hwhole
  rw [← hwhole] at hspoilt
  have hjoined : [cutTimestamp, [6, 0]].flatten = (cut [1] cutTimestamp).flatten ++ [6, 0] := by
    rw [flatten_cut]
    rfl
  obtain ⟨hread, -, hone, -⟩ := truncation {} hjoined
  obtain ⟨hfront, cut?, helements, hcut, htruncated⟩ := hread rfl hends
  obtain ⟨-, hfailed, -, -⟩ := @truncation {} [cutTimestamp, [6, 0]] [cutTimestamp, [6, 0], [7]] [7] rfl
  obtain ⟨hsame, herror⟩ := hfailed _ hspoilt
  -- One element is truncated, so the front ends inside it.
  obtain ⟨e, he, hcutoff⟩ : ∃ e ∈ ((ofSource {} {}).feedAll (cut [1] cutTimestamp)).elements,
      e.isTruncated = true := by
    have hmem : (2, true) ∈ ((ofSource {} {}).feedAll (cut [1] cutTimestamp)).elements.map
        (fun e => (e.occurrence.index, e.isTruncated)) := by
      rw [htold]
      decide
    obtain ⟨e, he, heq⟩ := List.mem_map.mp hmem
    exact ⟨e, he, (Prod.mk.inj heq).2⟩
  obtain ⟨l, rfl, -⟩ := (htruncated e he).mp hcutoff
  have hl := (hcut l).mp rfl
  rw [flatten_cut] at hl
  exact ⟨htold, hfront, ⟨l, hl, helements⟩, hone, hspoilt, hsame, herror⟩

end Reader

end Ebml
