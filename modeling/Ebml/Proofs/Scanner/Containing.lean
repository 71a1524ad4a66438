import Ebml.Proofs.Scanner.Bounds

/-!
# What lies inside a master

A master of known length says where it ends, but a scanner looks at that end only between elements.
So an element that starts inside a master may run past its end, with its header, its data or its
declared length (`master_overrun`); nothing starts inside the master after it.

The moments of a course come in the order of their bytes (`Moment.Precedes`): what one hands over lies
before what a later one does. Together with what is open when an element starts this says which bytes
can lie outside of its masters (`only_last_overruns`).
-/

namespace Ebml.Scanner

/-! ## The bytes of a moment -/

/-- The callback is the start of an element. -/
def Moment.Starts (m : Moment) (o : Occurrence) : Prop :=
  ∃ size header path, m.event = .start o size header path

/-- Where the bytes that a callback hands over lie: the offset of the first and the offset after the
last. -/
def Moment.range? (m : Moment) : Option (Nat × Nat) :=
  match m.event with
  | .start _ _ header _ =>
    some (m.scanner.window.start, m.scanner.window.start + header.length)
  | .content _ chunk => some (m.scanner.consumed, m.scanner.consumed + chunk.length)
  | .finish .. => none

/-- The offset before which nothing is handed over any more. -/
def front (t : Scanner) : Nat :=
  match t.phase with
  | .content .. => t.consumed
  | .finished .. => t.consumed
  | _ => t.window.start

theorem Bounded.front_le {t : Scanner} (h : t.Bounded) : t.front ≤ t.consumed := by
  unfold front
  split
  · exact Nat.le_refl _
  · exact Nat.le_refl _
  · exact h.start_le

/-! ## Scanners go on -/

/-- A scanner went on: it came nearer to the end of the input, and no number is given twice. -/
structure Onward (t t' : Scanner) : Prop where
  front_le : t.front ≤ t'.front
  nextIndex_le : t.nextIndex ≤ t'.nextIndex
  header : ∀ n, t'.headerIndex? = some n → t.headerIndex? = some n ∨ t.nextIndex ≤ n
  leaf : ∀ l, t'.openLeaf? = some l → t.openLeaf? = some l ∨ t.headerIndex? = some l.index

/-- In the same phase nothing but the front can change. -/
theorem onward_of_phase {t t' : Scanner} (hfront : t.front ≤ t'.front) (hphase : t'.phase = t.phase)
    (hnext : t'.nextIndex = t.nextIndex) : Onward t t' where
  front_le := hfront
  nextIndex_le := Nat.le_of_eq hnext.symm
  header n hn := .inl (by simpa only [headerIndex?, hphase, hnext] using hn)
  leaf l hl := .inl (by simpa only [openLeaf?, hphase] using hl)

/-- Behind its data or its header a scanner is at a boundary, with a number to give. -/
theorem onward_atBoundary {t : Scanner} (hb : t.Bounded) (hnumber : t.idNumber = none)
    {stack : List OpenMaster} : Onward t { t with stack := stack }.atBoundary := by
  have hnext : t.nextIndex = t.given := nextIndex_of_idNumber hnumber
  exact ⟨hb.front_le, Nat.le_of_eq hnext,
    fun n hn => .inr (Nat.le_of_eq (hnext.trans (Option.some.inj hn))),
    fun _ hl => by simp [openLeaf?, atBoundary] at hl⟩

theorem Transition.onward {t t' : Scanner} {bytes : Bytes} {outcome : Except ScanError Progress}
    (h : Transition t bytes outcome t') (hco : t.Coherent)
    (hb : t.Bounded) : Onward t t' := by
  have hfront := hb.front_le
  -- The front moves when a header is complete, with the data, and when the scan comes to the next
  -- boundary.
  cases h with
  | closeExhausted => exact onward_of_phase (Nat.le_refl _) rfl rfl
  | idLacking hphase =>
    exact onward_of_phase (by simp [front, waiting, hphase]) rfl (nextIndex_waiting _ _)
  | idSpoilt hphase => exact onward_of_phase (by simp [front, hphase]) rfl rfl
  | idRead hphase =>
    exact ⟨by simp [front, hphase], Nat.le_succ _, fun n hn => .inr (Nat.le_of_eq (Option.some.inj hn)),
      fun _ hl => by simp [openLeaf?] at hl⟩
  | sizeLacking hphase => exact onward_of_phase (by simp [front, hphase]) rfl rfl
  | sizeSpoilt hphase => exact onward_of_phase (by simp [front, hphase]) rfl rfl
  | sizeRead hphase =>
    refine ⟨by simp [front, hphase], Nat.le_refl _, fun n hn => .inl ?_,
      fun _ hl => by simp [openLeaf?] at hl⟩
    simpa [headerIndex?, hphase] using hn
  | skip =>
    exact ⟨hfront, Nat.le_refl _, fun n hn => by simp [headerIndex?] at hn,
      fun _ hl => by simp [openLeaf?] at hl⟩
  | refuseUnresolved => exact onward_of_phase (Nat.le_refl _) rfl rfl
  | refuseLeaf => exact onward_of_phase (Nat.le_refl _) rfl rfl
  | closeLevel => exact onward_of_phase (Nat.le_refl _) rfl rfl
  | enterMaster hphase =>
    simp only [Coherent, hphase] at hco
    exact onward_atBoundary hb hco.2.1.1
  | enterLeaf hphase =>
    refine ⟨hfront, Nat.le_refl _, fun n hn => by simp [headerIndex?] at hn, fun l hl => .inr ?_⟩
    obtain rfl := Option.some.inj hl
    simp [headerIndex?, hphase]
  | contentOver hphase =>
    exact ⟨by simp [front, hphase], Nat.le_refl _, fun n hn => by simp [headerIndex?] at hn,
      fun l hl => .inl (by simpa [openLeaf?, hphase] using hl)⟩
  | contentLacking => exact onward_of_phase (Nat.le_refl _) rfl rfl
  | @contentRead leaf stop _ hphase =>
    by_cases hover : stop ≤ t.consumed + bytes.length
    all_goals
      refine ⟨by simp [front, hphase, hover], Nat.le_refl _, fun n hn => ?_, fun l hl => .inl ?_⟩
      · simp [headerIndex?, hover] at hn
      · simpa [openLeaf?, hphase, hover] using hl
  | finish hphase =>
    simp only [Coherent, hphase] at hco
    exact onward_atBoundary hb hco

/-! ## The order of moments -/

/-- What a moment handed over lies behind the scanner, and so does the number of what it started. -/
structure Moment.Past (m : Moment) (t : Scanner) : Prop where
  beyond_le : ∀ first beyond, m.range? = some (first, beyond) → beyond ≤ t.front
  lt_nextIndex : ∀ o, m.Starts o → o.index < t.nextIndex
  lt_header : ∀ o, m.Starts o → ∀ n, t.headerIndex? = some n → o.index < n
  le_leaf : ∀ o, m.Starts o → ∀ l, t.openLeaf? = some l → o.index ≤ l.index

theorem Moment.Past.onward {m : Moment} {t t' : Scanner} (h : m.Past t) (ht : Onward t t') :
    m.Past t' where
  beyond_le first beyond hrange := Nat.le_trans (h.beyond_le first beyond hrange) ht.front_le
  lt_nextIndex o ho := Nat.lt_of_lt_of_le (h.lt_nextIndex o ho) ht.nextIndex_le
  lt_header o ho n hn := by
    rcases ht.header n hn with hn | hle
    · exact h.lt_header o ho n hn
    · exact Nat.lt_of_lt_of_le (h.lt_nextIndex o ho) hle
  le_leaf o ho l hl := by
    rcases ht.leaf l hl with hl | hn
    · exact h.le_leaf o ho l hl
    · exact Nat.le_of_lt (h.lt_header o ho l.index hn)

/-- One moment comes before another: so do its bytes, and elements have numbers in the order in which
they start. -/
structure Moment.Precedes (m m' : Moment) : Prop where
  beyond_le : ∀ first beyond, m.range? = some (first, beyond) →
    ∀ first' beyond', m'.range? = some (first', beyond') → beyond ≤ first'
  index_lt : ∀ o, m.Starts o → ∀ o', m'.Starts o' → o.index < o'.index
  index_le : ∀ o, m.Starts o → ∀ o' chunk, m'.event = .content o' chunk → o.index ≤ o'.index

/-- The callbacks that an open scanner can make, with the scanner behind each. -/
inductive Callback (t : Scanner) : Event → Scanner → Prop
  | start {id index : Nat} {size : DataSize} {decl : ElementDecl} {t' : Scanner} :
      t.phase = .resolve id size (some index) → t.Covered → t.window.stop = t.consumed →
        t'.front = t.consumed → t'.nextIndex = index + 1 →
          (∀ n, t'.headerIndex? = some n → n = index + 1) →
            (∀ l, t'.openLeaf? = some l → l.index = index) →
              Callback t (.start ⟨decl, index⟩ size t.window.bytes t.path) t'
  | content {o : Occurrence} {stop : Nat} {chunk : Bytes} {t' : Scanner} :
      t.phase = .content (some o) (some stop) → t'.front = t.consumed + chunk.length →
        Callback t (.content o chunk) t'
  | finish (o : Occurrence) (path : List Occurrence) (t' : Scanner) :
      Callback t (.finish o path) t'

theorem not_starts_content {t : Scanner} {o o' : Occurrence} {chunk : Bytes} :
    ¬Moment.Starts ⟨t, .content o chunk⟩ o' := by
  rintro ⟨size, header, path, heq⟩
  cases heq

theorem not_starts_finish {t : Scanner} {o o' : Occurrence} {path : List Occurrence} :
    ¬Moment.Starts ⟨t, .finish o path⟩ o' := by
  rintro ⟨size, header, path, heq⟩
  cases heq

theorem eq_of_starts {t : Scanner} {o o' : Occurrence} {size : DataSize} {header : Bytes}
    {path : List Occurrence} (h : Moment.Starts ⟨t, .start o size header path⟩ o') : o' = o := by
  obtain ⟨_, _, _, heq⟩ := h
  exact (Event.start.inj heq).1.symm

/-- What a transition reports is a callback. -/
theorem Transition.callback {t t' : Scanner} {bytes : Bytes} {outcome : Except ScanError Progress}
    {e : Event} (h : Transition t bytes outcome t') (hco : t.Coherent) (he : e ∈ reported outcome) :
    Callback t e t' := by
  -- Of the transitions only those that end a master, start an element, or bring data or the end of
  -- a leaf report something.
  cases h with
  | closeExhausted =>
    obtain rfl := List.mem_singleton.mp he
    exact .finish _ _ _
  | idLacking _ _ _ hwaits => simp [reported_of_waits hwaits] at he
  | idSpoilt => simp at he
  | idRead => simp at he
  | sizeLacking _ _ _ hwaits => simp [reported_of_waits hwaits] at he
  | sizeSpoilt => simp at he
  | sizeRead => simp at he
  | skip => simp at he
  | refuseUnresolved => simp at he
  | refuseLeaf => simp at he
  | closeLevel =>
    obtain rfl := List.mem_singleton.mp he
    exact .finish _ _ _
  | enterMaster hphase =>
    obtain rfl := List.mem_singleton.mp he
    simp only [Coherent, hphase] at hco
    exact .start hphase hco.2.2.1 hco.1 rfl hco.2.1.2
      (fun n hn => (Option.some.inj hn).symm.trans hco.2.1.2)
      fun l hl => by simp [openLeaf?, atBoundary] at hl
  | enterLeaf hphase =>
    obtain rfl := List.mem_singleton.mp he
    simp only [Coherent, hphase] at hco
    exact .start hphase hco.2.2.1 hco.1 rfl hco.2.1.nextIndex_eq
      (fun n hn => by simp [headerIndex?] at hn) fun l hl => by rw [← Option.some.inj hl]
  | contentOver => simp at he
  | contentLacking _ _ hwaits => simp [reported_of_waits hwaits] at he
  | @contentRead leaf stop _ hphase =>
    cases leaf with
    | none => simp at he
    | some o =>
      obtain rfl := List.mem_singleton.mp he
      refine .content hphase ?_
      by_cases hover : stop ≤ t.consumed + bytes.length <;> simp [front, hover]
  | @finish leaf =>
    cases leaf with
    | none => simp at he
    | some o =>
      obtain rfl := List.mem_singleton.mp he
      exact .finish _ _ _

/-- An end hands over nothing and starts nothing, so it may come anywhere. -/
theorem precedes_of_finish {m m' : Moment} {o : Occurrence} {path : List Occurrence}
    (h : m'.event = .finish o path) : m.Precedes m' := by
  refine ⟨fun _ _ _ _ _ hrange => ?_, fun _ _ _ hstarts => ?_, fun _ _ _ _ heq => ?_⟩
  · simp [Moment.range?, h] at hrange
  · obtain ⟨_, _, _, heq⟩ := hstarts
    simp [h] at heq
  · simp [h] at heq

/-- A callback comes after everything that lies behind its scanner. -/
theorem Callback.precedes {t t' : Scanner} {e : Event} {m : Moment} (h : Callback t e t')
    (hm : m.Past t) : m.Precedes ⟨t, e⟩ := by
  cases h with
  | start hphase =>
    refine ⟨fun first beyond hrange first' beyond' hrange' => ?_, fun o ho o' ho' => ?_,
      fun _ _ _ _ heq => by cases heq⟩
    · obtain ⟨rfl, -⟩ := Prod.mk.inj (Option.some.inj hrange')
      simpa [front, hphase] using hm.beyond_le first beyond hrange
    · rw [eq_of_starts ho']
      exact hm.lt_header o ho _ (by simp [headerIndex?, hphase])
  | content hphase =>
    refine ⟨fun first beyond hrange first' beyond' hrange' => ?_,
      fun _ _ _ ho' => absurd ho' not_starts_content, fun o ho o' chunk' heq => ?_⟩
    · obtain ⟨rfl, -⟩ := Prod.mk.inj (Option.some.inj hrange')
      simpa [front, hphase] using hm.beyond_le first beyond hrange
    · obtain ⟨rfl, -⟩ := Event.content.inj heq
      exact hm.le_leaf o ho _ (by simp [openLeaf?, hphase])
  | finish => exact precedes_of_finish rfl

/-- A callback lies behind the scanner that follows it. -/
theorem Callback.past {t t' : Scanner} {e : Event} (h : Callback t e t') :
    Moment.Past ⟨t, e⟩ t' := by
  -- Only a start has a number and bytes of its own to compare. For data the front has moved, and
  -- for an end nothing is claimed.
  cases h with
  | @start id index size decl _ hphase _ hstop hfront hnext hheader hleaf =>
    refine ⟨fun first beyond hrange => ?_, fun o ho => ?_, fun o ho n hn => ?_, fun o ho l hl => ?_⟩
    · obtain ⟨-, rfl⟩ := Prod.mk.inj (Option.some.inj hrange)
      rw [hfront, ← hstop]
      exact Nat.le_refl _
    · rw [eq_of_starts ho, hnext]
      exact Nat.lt_succ_self index
    · rw [eq_of_starts ho, hheader n hn]
      exact Nat.lt_succ_self index
    · rw [eq_of_starts ho, hleaf l hl]
  | content hphase hfront =>
    refine ⟨fun first beyond hrange => ?_, fun _ ho => absurd ho not_starts_content,
      fun _ ho => absurd ho not_starts_content, fun _ ho => absurd ho not_starts_content⟩
    obtain ⟨-, rfl⟩ := Prod.mk.inj (Option.some.inj hrange)
    exact Nat.le_of_eq hfront.symm
  | finish o path =>
    exact ⟨fun _ _ hrange => by simp [Moment.range?] at hrange,
      fun _ ho => absurd ho not_starts_finish, fun _ ho => absurd ho not_starts_finish,
      fun _ ho => absurd ho not_starts_finish⟩

/-! ## Courses are ordered -/

/-- Where an element starts, its path is what is open, and everything open covers its first byte. -/
def Moment.Placed (m : Moment) : Prop :=
  ∀ o size header path, m.event = .start o size header path →
    path = pathOf m.scanner.stack ∧ m.scanner.Covered ∧ m.scanner.Bounded

/-- The moments of a course are in order, and if the scan is open they all lie behind it. -/
structure Ordered (moments : List Moment) (t : Scanner) : Prop where
  placed : ∀ m ∈ moments, m.Placed
  pairwise : moments.Pairwise Moment.Precedes
  past : t.closed = false → ∀ m ∈ moments, m.Past t

theorem placed_of_finish {m : Moment} {o : Occurrence} {path : List Occurrence}
    (h : m.event = .finish o path) : m.Placed := by
  intro o' size header path' hstart
  simp [h] at hstart

theorem Callback.placed {t t' : Scanner} {e : Event} (h : Callback t e t') (hb : t.Bounded) :
    Moment.Placed ⟨t, e⟩ := by
  cases h with
  | start _ hcovered =>
    intro o size header path heq
    obtain ⟨-, -, -, rfl⟩ := Event.start.inj heq
    exact ⟨rfl, hcovered, hb⟩
  | content =>
    intro o size header path heq
    cases heq
  | finish => exact placed_of_finish rfl

/-- A step reports at most one event, so there is nothing to order. -/
theorem pairwise_reported {σ : Type} [ByteSource σ] (t : Scanner) (s : σ) :
    ((reported (step t s).outcome).map (Moment.mk t)).Pairwise Moment.Precedes := by
  obtain hnone | ⟨event, hone⟩ := reported_step_cases t s
  · rw [hnone]
    exact .nil
  · rw [hone]
    exact List.pairwise_singleton _ _

/-- Closing reports nothing but ends. -/
theorem finish_of_mem_closing {t : Scanner} {m : Moment} (h : m ∈ t.closing) :
    ∃ o path, m.event = .finish o path := by
  apply finish_of_mem_close (t := t)
  rw [← events_closing]
  exact List.mem_map_of_mem h

theorem Course.ordered {start t : Scanner} {moments : List Moment} (h : Course start moments t)
    (hsound : start.Sound) (hstart : start.Bounded) : Ordered moments t := by
  induction h with
  | begin => exact ⟨by simp, .nil, by simp⟩
  | @step σ _ s moments t hopen hcourse ih =>
    have hco := (hcourse.sound hsound).coherent hopen
    have hb := hcourse.bounded hsound hstart
    obtain ⟨bytes, -, htransition⟩ := @step_transition σ _ t s hco
    have hnew : ∀ m ∈ (reported (Scanner.step t s).outcome).map (Moment.mk t),
        Callback t m.event (Scanner.step t s).scanner ∧ m = ⟨t, m.event⟩ := by
      intro m hm
      obtain ⟨e, he, rfl⟩ := List.mem_map.mp hm
      exact ⟨htransition.callback hco he, rfl⟩
    refine ⟨fun m hm => ?_, List.pairwise_append.mpr ⟨ih.pairwise, @pairwise_reported σ _ t s, ?_⟩,
      fun _ m hm => ?_⟩
    · rcases List.mem_append.mp hm with hm | hm
      · exact ih.placed m hm
      · rw [(hnew m hm).2]
        exact (hnew m hm).1.placed hb
    · intro m hm m' hm'
      rw [(hnew m' hm').2]
      exact (hnew m' hm').1.precedes (ih.past hopen m hm)
    · rcases List.mem_append.mp hm with hm | hm
      · exact (ih.past hopen m hm).onward (htransition.onward hco hb)
      · rw [(hnew m hm).2]
        exact (hnew m hm).1.past
  | @close moments t hcourse ih =>
    -- Only ends are added, and nothing follows them.
    have hends : ∀ m ∈ t.closing, ∃ o path, m.event = .finish o path :=
      fun m hm => finish_of_mem_closing hm
    refine ⟨fun m hm => ?_, List.pairwise_append.mpr ⟨ih.pairwise, ?_, fun m hm m' hm' => ?_⟩,
      fun hopen => ?_⟩
    · rcases List.mem_append.mp hm with hm | hm
      · exact ih.placed m hm
      · obtain ⟨o, path, heq⟩ := hends m hm
        exact placed_of_finish heq
    · refine List.pairwise_of_forall_mem_list fun m hm m' hm' => ?_
      obtain ⟨o, path, heq⟩ := hends m' hm'
      exact precedes_of_finish heq
    · obtain ⟨o, path, heq⟩ := hends m' hm'
      exact precedes_of_finish heq
    · simp [closed_close] at hopen

/-! ## Bytes outside of a master -/

/-- Whatever an element hands over comes before anything that starts after it. -/
theorem precedes_of_own {m d n : Moment} {later : List Moment} {o o' : Occurrence}
    (h : (m :: later).Pairwise Moment.Precedes) (hm : m.Starts o) (hd : d ∈ m :: later)
    (helement : d.event.element = o) (hrange : d.range? ≠ none) (hn : n ∈ later) (hn' : n.Starts o') :
    d.Precedes n := by
  obtain ⟨hbehind, hlater⟩ := List.pairwise_cons.mp h
  have hnumber := (hbehind n hn).index_lt o hm o' hn'
  rcases List.mem_cons.mp hd with rfl | hd
  · exact hbehind n hn
  · cases hevent : d.event with
    | finish => simp [Moment.range?, hevent] at hrange
    | start o'' size header path =>
      -- A second start of the element would have a greater number.
      obtain rfl : o'' = o := by rw [← helement, hevent, Event.element]
      exact absurd ((hbehind d hd).index_lt _ hm _ ⟨_, _, _, hevent⟩) (Nat.lt_irrefl _)
    | content o'' chunk =>
      obtain rfl : o'' = o := by rw [← helement, hevent, Event.element]
      have hne : d ≠ n := by
        rintro rfl
        obtain ⟨_, _, _, heq⟩ := hn'
        simp [hevent] at heq
      have hordered : later.Pairwise fun a b => a.Precedes b ∨ b.Precedes a := hlater.imp Or.inl
      have : Std.Symm fun a b : Moment => a.Precedes b ∨ b.Precedes a := ⟨fun _ _ => Or.symm⟩
      rcases hordered.forall hd hn hne with hbefore | hafter
      · exact hbefore
      · exact absurd (hafter.index_le o' hn' _ chunk hevent) (by omega)

/-- What lies inside a master of known length. The path of an element names what is open where it
starts. All its bytes lie behind the start of every master on its path, and its first one lies before
the master's end. So do all the bytes of its header and its data, unless it is the last element that
starts inside the master. -/
theorem only_last_overruns {schema : Schema} {maxChunk : Nat} {before later : List Moment}
    {m : Moment} {t : Scanner} {o : Occurrence} {size : DataSize} {header : Bytes}
    {path : List Occurrence} (h : Course (fresh schema maxChunk) (before ++ m :: later) t)
    (hstart : m.event = .start o size header path) :
    path = pathOf m.scanner.stack ∧
      ∀ c ∈ m.scanner.stack, ∀ stop, c.stop? = some stop →
        (c.contentStart ≤ m.scanner.window.start ∧ m.scanner.window.start < stop) ∧
        ∀ d ∈ m :: later, d.event.element = o →
          ∀ first beyond, d.range? = some (first, beyond) →
            c.contentStart ≤ first ∧
              ((∃ n ∈ later, (∃ o', n.Starts o') ∧ c ∈ n.scanner.stack) → beyond ≤ stop) := by
  obtain ⟨hplaced, hpairwise, -⟩ := h.ordered (sound_fresh _ _) (bounded_fresh _ _)
  have hwhole := (List.pairwise_append.mp hpairwise).2.1
  obtain ⟨hpath, hcovered, hbounded⟩ := hplaced m (by simp) o size header path hstart
  refine ⟨hpath, fun c hc stop hstop => ⟨⟨hbounded.contentStart_le c hc, hcovered c hc stop hstop⟩, ?_⟩⟩
  intro d hd helement first beyond hrange
  have hown : m.range? = some (m.scanner.window.start, m.scanner.window.start + header.length) := by
    simp [Moment.range?, hstart]
  constructor
  · have hle := hbounded.contentStart_le c hc
    rcases List.mem_cons.mp hd with rfl | hd
    · obtain ⟨rfl, -⟩ := Prod.mk.inj (Option.some.inj (hrange.symm.trans hown))
      exact hle
    · have hfirst := ((List.pairwise_cons.mp hwhole).1 d hd).beyond_le _ _ hown _ _ hrange
      omega
  · -- Something else starts inside the master later on. It starts before the master's end, and all
    -- that belongs to the element lies in front of it.
    rintro ⟨n, hn, ⟨o', size', header', path', hstart'⟩, hopen⟩
    obtain ⟨-, hcovered', -⟩ := hplaced n (by simp [hn]) o' size' header' path' hstart'
    have hlt := hcovered' c hopen stop hstop
    have hrange' : n.range? =
        some (n.scanner.window.start, n.scanner.window.start + header'.length) := by
      simp [Moment.range?, hstart']
    have hprecedes := precedes_of_own hwhole ⟨_, _, _, hstart⟩ hd helement (by simp [hrange]) hn
      ⟨_, _, _, hstart'⟩
    have hle := hprecedes.beyond_le _ _ hrange _ _ hrange'
    omega

/-- The callbacks of the first steps of a scan, with the scanners that make them. -/
def momentsOf (t : Scanner) (s : PushSource) : Nat → List Moment
  | 0 => []
  | n + 1 =>
    (reported (step t s).outcome).map (Moment.mk t) ++
      momentsOf (step t s).scanner (step t s).source n

theorem Course.momentsOf {start t : Scanner} {moments : List Moment} (h : Course start moments t)
    (hopen : t.closed = false) (s : PushSource) (n : Nat) :
    ∃ t', Course start (moments ++ t.momentsOf s n) t' := by
  induction n generalizing moments t s with
  | zero => exact ⟨t, by rwa [Scanner.momentsOf, List.append_nil]⟩
  | succ n ih =>
    have hopen' := (step_accounts t s).closed_eq.trans hopen
    obtain ⟨t', h'⟩ := ih (h.step s hopen) hopen' (Scanner.step t s).source
    exact ⟨t', by rwa [Scanner.momentsOf, ← List.append_assoc]⟩

/-- A header element that declares six bytes. Inside it starts another one that declares a hundred,
and inside that a void element of one byte. -/
def overrunning : Bytes :=
  [0x1A, 0x45, 0xDF, 0xA3, 0x86, 0x1A, 0x45, 0xDF, 0xA3, 0xE4, 0xEC, 0x81, 0x1A]

/-- The callbacks of its scan. -/
def overrunningMoments : List Moment :=
  (fresh Matroska.schema 16).momentsOf (.ofBytes overrunning) 16

theorem course_overrunning : ∃ t, Course (fresh Matroska.schema 16) overrunningMoments t := by
  have hbegin : Course (fresh Matroska.schema 16) [] (fresh Matroska.schema 16) := .begin
  exact hbegin.momentsOf rfl (.ofBytes overrunning) 16

/-- Its outer and its inner header element, and its void element. -/
def overrunningOuter : OpenMaster := ⟨⟨⟨0x1A45DFA3, "EBML", 0, .master, false⟩, 0⟩, 5, .known 6⟩

def overrunningInner : OpenMaster := ⟨⟨⟨0x1A45DFA3, "EBML", 0, .master, false⟩, 1⟩, 10, .known 100⟩

def overrunningVoid : Occurrence := ⟨⟨0xEC, "Void", -1, .binary, false⟩, 2⟩

theorem overrunning_callbacks :
    overrunningMoments.map (fun m => (m.event, m.range?, m.scanner.stack)) =
      [(.start overrunningOuter.element (.known 6) [0x1A, 0x45, 0xDF, 0xA3, 0x86] [], some (0, 5), []),
        (.start overrunningInner.element (.known 100) [0x1A, 0x45, 0xDF, 0xA3, 0xE4]
          [overrunningOuter.element], some (5, 10), [overrunningOuter]),
        (.start overrunningVoid (.known 1) [0xEC, 0x81]
          [overrunningOuter.element, overrunningInner.element], some (10, 12),
          [overrunningInner, overrunningOuter]),
        (.content overrunningVoid [0x1A], some (12, 13), [overrunningInner, overrunningOuter]),
        (.finish overrunningVoid [overrunningOuter.element, overrunningInner.element], none,
          [overrunningInner, overrunningOuter]),
        (.finish overrunningInner.element [overrunningOuter.element], none,
          [overrunningInner, overrunningOuter]),
        (.finish overrunningOuter.element [], none, [overrunningOuter])] := by
  cbv

theorem exists_overrunning {e : Event} {range : Option (Nat × Nat)} {stack : List OpenMaster}
    (h : (e, range, stack) ∈ overrunningMoments.map fun m => (m.event, m.range?, m.scanner.stack)) :
    ∃ m ∈ overrunningMoments, m.event = e ∧ m.range? = range ∧ m.scanner.stack = stack := by
  obtain ⟨m, hm, heq⟩ := List.mem_map.mp h
  obtain ⟨hevent, hrest⟩ := Prod.mk.inj heq
  obtain ⟨hrange, hstack⟩ := Prod.mk.inj hrest
  exact ⟨m, hm, hevent, hrange, hstack⟩

/-- What an element hands over need not lie inside the masters on its path, and neither need what it
declares. The outer header element ends at 11. Inside it the inner one declares bytes up to 110, the
header of the void element takes the bytes from 10 to 12, and its data comes behind. -/
theorem master_overrun :
    (∃ moments t, Course (fresh Matroska.schema 16) moments t ∧
      ∃ m ∈ moments, m.Starts overrunningInner.element ∧ overrunningOuter ∈ m.scanner.stack ∧
        overrunningOuter.stop? = some 11 ∧ overrunningInner.stop? = some 110) ∧
      ¬∀ moments t, Course (fresh Matroska.schema 16) moments t →
        ∀ m ∈ moments, ∀ c ∈ m.scanner.stack, ∀ stop, c.stop? = some stop →
          ∀ first beyond, m.range? = some (first, beyond) → c.contentStart ≤ first ∧ beyond ≤ stop := by
  obtain ⟨t, hcourse⟩ := course_overrunning
  constructor
  · obtain ⟨m, hm, hevent, -, hstack⟩ := exists_overrunning (by
      rw [overrunning_callbacks]
      exact .tail _ (.head _))
    exact ⟨_, t, hcourse, m, hm, ⟨_, _, _, hevent⟩, by simp [hstack], rfl, rfl⟩
  · intro hinside
    obtain ⟨m, hm, -, hrange, hstack⟩ := exists_overrunning (by
      rw [overrunning_callbacks]
      exact .tail _ (.tail _ (.head _)))
    have hend := hinside _ t hcourse m hm overrunningOuter (by simp [hstack]) 11 rfl _ _ hrange
    omega

/-- The header of the inner element lies inside the outer one, since the void element starts there
too. -/
theorem only_last_overruns_of_overrunning :
    ∃ before m later t, Course (fresh Matroska.schema 16) (before ++ m :: later) t ∧
      m.event = .start overrunningInner.element (.known 100) [0x1A, 0x45, 0xDF, 0xA3, 0xE4]
        [overrunningOuter.element] ∧
      overrunningOuter ∈ m.scanner.stack ∧ overrunningOuter.stop? = some 11 ∧
      m.range? = some (5, 10) ∧ overrunningOuter.contentStart ≤ 5 ∧ 10 ≤ 11 := by
  obtain ⟨t, hcourse⟩ := course_overrunning
  obtain ⟨outer, rest, hsplit, -, hrest⟩ := List.map_eq_cons_iff.mp overrunning_callbacks
  obtain ⟨inner, later, rfl, hinner, hlater⟩ := List.map_eq_cons_iff.mp hrest
  obtain ⟨void, more, rfl, hvoid, -⟩ := List.map_eq_cons_iff.mp hlater
  simp only [Prod.mk.injEq] at hinner hvoid
  obtain ⟨hevent, hrange, hstack⟩ := hinner
  rw [hsplit, ← List.singleton_append] at hcourse
  obtain ⟨-, hinside⟩ := only_last_overruns hcourse hevent
  obtain ⟨-, hbytes⟩ := hinside overrunningOuter (by simp [hstack]) 11 rfl
  obtain ⟨hfirst, hbeyond⟩ := hbytes inner (by simp) (by simp [hevent, Event.element]) 5 10 hrange
  refine ⟨[outer], inner, _, t, hcourse, hevent, by simp [hstack], rfl, hrange, hfirst, ?_⟩
  exact hbeyond ⟨void, by simp, ⟨_, _, _, _, hvoid.1⟩, by simp [hvoid.2.2]⟩

end Ebml.Scanner
