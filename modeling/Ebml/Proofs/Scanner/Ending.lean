import Mathlib
import Ebml.Collector
import Ebml.Proofs.Scanner.Session
import Ebml.Scanner.Progress
import Ebml.Source.Push

/-!
# When masters end

A course is a use of a scanner in which every callback is kept together with the scanner that was
about to make it, so the moment at which a master ended can be looked at. What a caller sees of a
session comes of a course (`Session.course`).

Three rules end masters (`EndRule`). Whenever the end of a master is reported exactly one of them
applies to it, and while one of the first two applies to the innermost master nothing else can happen
next (`masters_end_by_rule`). The rules exclude each other because no open master ends before the
first byte of a header that was begun: when an element has its header read, a master of known length
still covers it.
-/

namespace Ebml.Scanner

/-! ## Courses -/

/-- A callback and the scanner that was about to make it. -/
structure Moment where
  scanner : Scanner
  event : Event

/-- A scanner on the way to its end: it counts as closed, and the masters of `stack` are still open. -/
def closingAt (t : Scanner) (stack : List OpenMaster) : Scanner :=
  { t with phase := .id, stack := stack, closed := true }

/-- The masters of a stack end while the scan closes, innermost first. -/
def closingMasters (t : Scanner) : List OpenMaster → List Moment
  | [] => []
  | m :: outer =>
    ⟨t.closingAt (m :: outer), .finish m.element (pathOf outer)⟩ :: closingMasters t outer

/-- What happens while the scan closes. -/
def closing (t : Scanner) : List Moment :=
  if t.closed then []
  else
    (t.openLeaf?.map fun o => ⟨t.closingAt t.stack, .finish o t.path⟩).toList ++
      t.closingMasters t.stack

theorem events_closingMasters (t : Scanner) (stack : List OpenMaster) :
    (t.closingMasters stack).map Moment.event = finishAll stack := by
  induction stack with
  | nil => rfl
  | cons m outer ih => rw [closingMasters, finishAll, List.map_cons, ih]

theorem events_closing (t : Scanner) : t.closing.map Moment.event = t.close.1 := by
  unfold closing close
  split
  · rfl
  · rw [List.map_append, events_closingMasters]
    cases t.openLeaf? <;> rfl

/-- Steps over any sources and closings, one after the other, with the moments of all callbacks. -/
inductive Course (start : Scanner) : List Moment → Scanner → Prop
  | begin : Course start [] start
  | step {σ : Type} [ByteSource σ] (s : σ) {moments : List Moment} {t : Scanner} :
      t.closed = false → Course start moments t →
        Course start (moments ++ (reported (Scanner.step t s).outcome).map (Moment.mk t))
          (Scanner.step t s).scanner
  | close {moments : List Moment} {t : Scanner} :
      Course start moments t → Course start (moments ++ t.closing) t.close.2

/-- A run is a course, and the receiver hears what happens in it. -/
theorem Course.run {start : Scanner} {σ κ : Type} [FiniteSource σ] (r : Receiver κ)
    {moments : List Moment} (t : Scanner) (s : σ) (w : Watch κ) (h : Course start moments t)
    (hopen : t.closed = false) :
    ∃ more, Course start (moments ++ more) (run r.watched t s w).scanner ∧
      (run r.watched t s w).receiver.callbacks = w.callbacks ++ more.map Moment.event := by
  -- The record of what was heard only grows, so the induction is over the course so far.
  fun_induction Scanner.run r.watched t s w generalizing moments with
  | case1 t s w w' hpoll =>
    have hcallbacks := callbacks_poll r w
    rw [hpoll] at hcallbacks
    exact ⟨[], by rwa [List.append_nil], by simpa using hcallbacks⟩
  | case2 t s w w' hpoll e t' s' hstep =>
    have hcallbacks := callbacks_poll r w
    have hcourse := h.step s hopen
    rw [hpoll] at hcallbacks
    rw [hstep] at hcourse
    exact ⟨[], hcourse, by simpa using hcallbacks⟩
  | case3 t s w w' hpoll t' s' hstep =>
    have hcallbacks := callbacks_poll r w
    have hcourse := h.step s hopen
    rw [hpoll] at hcallbacks
    rw [hstep] at hcourse
    exact ⟨[], hcourse, by simpa using hcallbacks⟩
  | case4 t s w w' hpoll events t' s' hstep ih =>
    have hcallbacks := callbacks_poll r w
    have hcourse := h.step s hopen
    have hclosed := (step_accounts t s).closed_eq
    rw [hpoll] at hcallbacks
    rw [hstep] at hcourse hclosed
    obtain ⟨more, hmore, hheard⟩ := ih hcourse (hclosed.trans hopen)
    refine ⟨events.map (Moment.mk t) ++ more, by rwa [← List.append_assoc], ?_⟩
    have hevents : (events.map (Moment.mk t)).map Moment.event = events :=
      (List.map_map ..).trans (List.map_id' _)
    rw [hheard, callbacks_deliverAll, hcallbacks, List.map_append, hevents, List.append_assoc]

/-- Every session comes of a course. -/
theorem Session.course {start t : Scanner} {log : List Event} (h : Session start log t) :
    ∃ moments, Course start moments t ∧ moments.map Moment.event = log := by
  induction h with
  | begin => exact ⟨[], .begin, rfl⟩
  | @parse σ κ _ r s k log t _ ih =>
    obtain ⟨moments, hcourse, rfl⟩ := ih
    cases hclosed : t.closed with
    | true =>
      rw [parse_of_closed _ _ _ hclosed]
      exact ⟨moments, hcourse, by simp⟩
    | false =>
      rw [Scanner.parse, if_neg (by simp [hclosed])]
      obtain ⟨more, hmore, hheard⟩ := hcourse.run r t s ⟨k, [], true⟩ hclosed
      exact ⟨moments ++ more, hmore, by rw [hheard, List.map_append]; rfl⟩
  | @close log t _ ih =>
    obtain ⟨moments, hcourse, rfl⟩ := ih
    exact ⟨moments ++ t.closing, hcourse.close, by rw [List.map_append, events_closing]⟩

/-! ## What is open -/

/-- Masters are on the stack and the element that is inside its data is none. -/
structure Kinds (t : Scanner) : Prop where
  masters : ∀ m ∈ t.stack, m.element.decl.isMaster = true
  leaf : ∀ o ∈ t.openLeaf?, o.decl.isMaster = false

theorem kinds_fresh (schema : Schema) (maxChunk : Nat) : (fresh schema maxChunk).Kinds :=
  ⟨by simp [fresh], by simp [fresh, openLeaf?]⟩

theorem Kinds.close {t : Scanner} (h : t.Kinds) : t.close.2.Kinds := by
  unfold Scanner.close
  split
  · exact h
  · exact ⟨by simp, by simp [openLeaf?]⟩

/-- Without a new element nothing but masters can be left. -/
theorem Kinds.of_shrinks {t t' : Scanner} (h : t.Kinds) (hstack : ∀ m ∈ t'.stack, m ∈ t.stack)
    (hleaf : ∀ o ∈ t'.openLeaf?, o ∈ t.openLeaf?) : t'.Kinds :=
  ⟨fun m hm => h.masters m (hstack m hm), fun o ho => h.leaf o (hleaf o ho)⟩

theorem Kinds.absorb {t : Scanner} (h : t.Kinds) (bytes : Bytes) : (t.absorb bytes).Kinds :=
  ⟨h.masters, h.leaf⟩

theorem Kinds.waiting {t : Scanner} (h : t.Kinds) (outcome : Except ScanError Progress) :
    (t.waiting outcome).Kinds :=
  ⟨h.masters, h.leaf⟩

theorem Transition.kinds {t t' : Scanner} {bytes : Bytes} {outcome : Except ScanError Progress}
    (h : Transition t bytes outcome t') (hk : t.Kinds) : t'.Kinds := by
  -- Only the start of an element opens something, and then its kind was just looked at.
  cases h with
  | closeExhausted hphase _ _ hstack =>
    exact hk.of_shrinks (fun m hm => by rw [hstack]; exact List.mem_cons_of_mem _ hm)
      (by simp [openLeaf?])
  | idLacking => exact (hk.absorb bytes).waiting _
  | idSpoilt => exact hk.absorb bytes
  | idRead => exact hk.of_shrinks (fun m hm => hm) (by simp [openLeaf?])
  | sizeLacking => exact hk.absorb bytes
  | sizeSpoilt => exact hk.absorb bytes
  | sizeRead => exact hk.of_shrinks (fun m hm => hm) (by simp [openLeaf?])
  | skip => exact hk.of_shrinks (fun m hm => hm) (by simp [openLeaf?])
  | refuseUnresolved => exact hk
  | refuseLeaf => exact hk
  | closeLevel hphase _ _ hstack =>
    exact hk.of_shrinks (fun m hm => by rw [hstack]; exact List.mem_cons_of_mem _ hm)
      (by simp [openLeaf?])
  | enterMaster hphase _ hmaster =>
    refine ⟨fun m hm => ?_, by simp [openLeaf?, atBoundary]⟩
    rcases List.mem_cons.mp hm with rfl | hm
    · exact hmaster
    · exact hk.masters m hm
  | enterLeaf hphase _ hleaf =>
    refine ⟨hk.masters, fun o ho => ?_⟩
    obtain rfl := Option.some.inj ho
    exact hleaf
  | contentOver hphase => exact hk.of_shrinks (fun m hm => hm) (by simp [openLeaf?, hphase])
  | contentLacking => exact hk
  | @contentRead leaf stop _ hphase =>
    refine hk.of_shrinks (fun m hm => hm) ?_
    by_cases hover : stop ≤ t.consumed + bytes.length <;> simp [openLeaf?, hphase, hover]
  | finish => exact hk.of_shrinks (fun m hm => hm) (by simp [openLeaf?, atBoundary])

theorem Trail.kinds {t t' : Scanner} {bytes : Bytes} {events : List Event}
    (h : Trail t bytes events t') (hk : t.Kinds) : t'.Kinds := by
  induction h with
  | refl => exact hk
  | step hstep _ ih => exact ih (hstep.kinds hk)

theorem Course.sound {start t : Scanner} {moments : List Moment} (h : Course start moments t)
    (hstart : start.Sound) : t.Sound := by
  induction h with
  | begin => exact hstart
  | @step σ _ s _ t hopen _ ih =>
    obtain ⟨_, -, htransition⟩ := @step_transition σ _ t s (ih.coherent hopen)
    apply (htransition.coherent (ih.coherent hopen)).sound
    rw [htransition.frame.closed_eq, hopen]
  | close _ ih => exact sound_close ih

theorem Course.kinds {start t : Scanner} {moments : List Moment} (h : Course start moments t)
    (hsound : start.Sound) (hstart : start.Kinds) : t.Kinds := by
  induction h with
  | begin => exact hstart
  | @step σ _ s _ t hopen hcourse ih =>
    obtain ⟨_, -, htransition⟩ := @step_transition σ _ t s ((hcourse.sound hsound).coherent hopen)
    exact htransition.kinds ih
  | close _ ih => exact ih.close

/-! ## Rules -/

/-- Between two elements: no element is inside its data, skipped ones included, and no byte of the
next header was read. -/
def BetweenElements (t : Scanner) : Prop :=
  t.phase = .id ∧ t.window.bytes = []

/-- The header of a declared element that can start was read, and its start was not reported. -/
def AboutToStart (t : Scanner) (decl : ElementDecl) : Prop :=
  ∃ id size index, t.phase = .resolve id size (some index) ∧ t.schema.get? id = some decl ∧
    (size = .unknown → decl.isMaster = true)

/-- An open master has a known length, and as many bytes were read as it has. -/
def Exhausted (t : Scanner) (m : OpenMaster) : Prop :=
  ∃ stop, m.stop? = some stop ∧ stop ≤ t.consumed

/-- Why an open master ends. -/
inductive EndRule
  | size
  | level
  | close
  deriving DecidableEq, Repr

/-- A rule ends the innermost master `m`, around which the masters `outer` are open. -/
def EndRule.Applies (t : Scanner) (m : OpenMaster) (outer : List OpenMaster) : EndRule → Prop
  | size => t.closed = false ∧ t.BetweenElements ∧ ∃ c ∈ m :: outer, t.Exhausted c
  | level =>
    t.closed = false ∧ m.size = .unknown ∧
      ∃ decl, t.AboutToStart decl ∧ decl.isGlobal = false ∧ decl.level ≤ m.element.decl.level
  | close => t.closed = true

/-- No two rules apply at once. -/
theorem EndRule.Applies.unique {t : Scanner} {m : OpenMaster} {outer : List OpenMaster}
    {rule rule' : EndRule} (h : rule.Applies t m outer) (h' : rule'.Applies t m outer) :
    rule' = rule := by
  -- Size and level differ in the phase, and both want an open scan.
  have hphase : BetweenElements t → ∀ decl, ¬AboutToStart t decl := by
    rintro ⟨hid, -⟩ decl ⟨id, size, index, hresolve, -⟩
    simp [hid] at hresolve
  cases rule <;> cases rule' <;> simp only [EndRule.Applies] at h h'
  · rfl
  · obtain ⟨-, -, decl, hstart, -⟩ := h'
    exact absurd hstart (hphase h.2.1 decl)
  · simp [h'] at h
  · obtain ⟨-, -, decl, hstart, -⟩ := h
    exact absurd hstart (hphase h'.2.1 decl)
  · rfl
  · simp [h'] at h
  · simp [h] at h'
  · simp [h] at h'
  · rfl

theorem isExhausted_iff {t : Scanner} {m : OpenMaster} {outer : List OpenMaster}
    (hstack : t.stack = m :: outer) :
    t.isExhausted = true ↔ ∃ c ∈ m :: outer, t.Exhausted c := by
  simp only [isExhausted, hstack, List.any_eq_true, Exhausted]
  refine exists_congr fun c => and_congr_right fun _ => ?_
  cases c.stop? <;> simp

theorem stop_of_unknown {m : OpenMaster} (h : m.size = .unknown) : m.stop? = none := by
  simp [OpenMaster.stop?, h, DataSize.known?]

theorem size_of_stop {m : OpenMaster} (h : m.stop? = none) : m.size = .unknown := by
  cases hsize : m.size with
  | unknown => rfl
  | known n => simp [OpenMaster.stop?, hsize, DataSize.known?] at h

/-- A master that is closed by level has no known length, since it would still cover the element. -/
theorem size_of_closesByLevel {t : Scanner} {decl : ElementDecl} {m : OpenMaster}
    (hcovered : t.Covered) (hmem : m ∈ t.stack) (h : t.closesByLevel decl m = true) :
    m.size = .unknown := by
  apply size_of_stop
  cases hstop : m.stop? with
  | none => rfl
  | some stop =>
    have hlt := hcovered m hmem stop hstop
    simp [closesByLevel, hstop, hlt] at h

/-! ## Ends follow the rules -/

/-- The element is the innermost open master, and exactly one rule ends it. -/
def EndsByRule (t : Scanner) (o : Occurrence) (path : List Occurrence) : Prop :=
  ∃ m outer, t.stack = m :: outer ∧ m.element = o ∧ path = pathOf outer ∧
    ∃ rule : EndRule, rule.Applies t m outer ∧ ∀ rule', rule'.Applies t m outer → rule' = rule

theorem endsByRule_of_applies {t : Scanner} {m : OpenMaster} {outer : List OpenMaster}
    (hstack : t.stack = m :: outer) (rule : EndRule) (h : rule.Applies t m outer) :
    t.EndsByRule m.element (pathOf outer) :=
  ⟨m, outer, hstack, rfl, rfl, rule, h, fun _ h' => h.unique h'⟩

/-- An element that starts and closes the innermost master by its level does so by the rule. -/
theorem applies_of_closesByLevel {t : Scanner} {id index : Nat} {size : DataSize}
    {decl : ElementDecl} {m : OpenMaster} {outer : List OpenMaster} (hco : t.Coherent)
    (hopen : t.closed = false) (hphase : t.phase = .resolve id size (some index))
    (hdecl : t.schema.get? id = some decl) (hknown : (size.isUnknown && !decl.isMaster) = false)
    (hstack : t.stack = m :: outer) (hlevel : t.closesByLevel decl m = true) :
    EndRule.level.Applies t m outer := by
  have hcovered : t.Covered := by
    simp only [Coherent, hphase] at hco
    exact hco.2.2.1
  have hsize := size_of_closesByLevel hcovered (by rw [hstack]; exact List.mem_cons_self) hlevel
  simp only [closesByLevel, Bool.and_eq_true, Bool.not_eq_true', decide_eq_true_eq] at hlevel
  refine ⟨hopen, hsize, decl, ⟨id, size, index, hphase, hdecl, fun hunknown => ?_⟩, hlevel.1.1,
    hlevel.1.2⟩
  simpa [hunknown, DataSize.isUnknown] using hknown

/-- A step that ends a master does so by size or by level. -/
theorem Transition.endsByRule {t t' : Scanner} {bytes : Bytes}
    {outcome : Except ScanError Progress} {o : Occurrence} {path : List Occurrence}
    (h : Transition t bytes outcome t') (hco : t.Coherent) (hk : t.Kinds)
    (hopen : t.closed = false) (hend : Event.finish o path ∈ reported outcome)
    (hmaster : o.decl.isMaster = true) : t.EndsByRule o path := by
  cases h with
  | closeExhausted hphase hempty hexhausted hstack =>
    obtain ⟨rfl, rfl⟩ : o = _ ∧ path = _ := by simpa using hend
    exact endsByRule_of_applies hstack .size
      ⟨hopen, ⟨hphase, hempty⟩, (isExhausted_iff hstack).mp hexhausted⟩
  | idLacking _ _ _ hwaits => simp [reported_of_waits hwaits] at hend
  | idSpoilt => simp at hend
  | idRead => simp at hend
  | sizeLacking _ _ _ hwaits => simp [reported_of_waits hwaits] at hend
  | sizeSpoilt => simp at hend
  | sizeRead => simp at hend
  | skip => simp at hend
  | refuseUnresolved => simp at hend
  | refuseLeaf => simp at hend
  | closeLevel hphase hdecl hknown hstack hlevel =>
    obtain ⟨rfl, rfl⟩ : o = _ ∧ path = _ := by simpa using hend
    exact endsByRule_of_applies hstack .level
      (applies_of_closesByLevel hco hopen hphase hdecl hknown hstack hlevel)
  | enterMaster => simp at hend
  | enterLeaf => simp at hend
  | contentOver => simp at hend
  | contentLacking _ _ hwaits => simp [reported_of_waits hwaits] at hend
  | @contentRead leaf => cases leaf <;> simp at hend
  | @finish leaf hphase =>
    -- What ends here is a leaf, not a master.
    cases leaf with
    | none => simp at hend
    | some l =>
      obtain ⟨rfl, -⟩ : o = l ∧ path = _ := by simpa using hend
      have hleaf := hk.leaf o (by simp [openLeaf?, hphase])
      simp [hleaf] at hmaster

theorem endsByRule_of_closing {t : Scanner} {c : Moment} {o : Occurrence}
    {path : List Occurrence} (hk : t.Kinds) (hmem : c ∈ t.closing) (hend : c.event = .finish o path)
    (hmaster : o.decl.isMaster = true) : c.scanner.EndsByRule o path := by
  -- Closing ends the open masters from the inside out, each by the rule for closing.
  have hmasters : ∀ stack, c ∈ t.closingMasters stack → c.scanner.EndsByRule o path := by
    intro stack hc
    induction stack with
    | nil => simp [closingMasters] at hc
    | cons m outer ih =>
      rcases List.mem_cons.mp hc with rfl | hc
      · obtain ⟨rfl, rfl⟩ := Event.finish.inj hend
        exact endsByRule_of_applies rfl .close rfl
      · exact ih hc
  unfold closing at hmem
  split at hmem
  · simp at hmem
  · rcases List.mem_append.mp hmem with hleaf | hstack
    · cases hopen : t.openLeaf? with
      | none => simp [hopen] at hleaf
      | some l =>
        obtain rfl : c = ⟨t.closingAt t.stack, .finish l t.path⟩ := by simpa [hopen] using hleaf
        obtain ⟨rfl, -⟩ := Event.finish.inj hend
        simp [hk.leaf l hopen] at hmaster
    · exact hmasters _ hstack

/-- In every course the masters that end do so by exactly one rule. -/
theorem Course.endsByRule {start t : Scanner} {moments : List Moment} (h : Course start moments t)
    (hsound : start.Sound) (hstart : start.Kinds) {c : Moment} (hmem : c ∈ moments)
    {o : Occurrence} {path : List Occurrence} (hend : c.event = .finish o path)
    (hmaster : o.decl.isMaster = true) : c.scanner.EndsByRule o path := by
  induction h with
  | begin => simp at hmem
  | @step σ _ s moments t hopen hcourse ih =>
    rcases List.mem_append.mp hmem with hmem | hmem
    · exact ih hmem
    · have hco := (hcourse.sound hsound).coherent hopen
      obtain ⟨_, -, htransition⟩ := @step_transition σ _ t s hco
      obtain ⟨event, hevent, rfl⟩ := List.mem_map.mp hmem
      obtain rfl : event = .finish o path := hend
      exact htransition.endsByRule hco (hcourse.kinds hsound hstart) hopen hevent hmaster
  | @close moments t hcourse ih =>
    rcases List.mem_append.mp hmem with hmem | hmem
    · exact ih hmem
    · exact endsByRule_of_closing (hcourse.kinds hsound hstart) hmem hend hmaster

/-! ## Rules are followed at once -/

/-- While a master is to end by size or by level, every step ends it and takes nothing. -/
theorem step_of_applies {σ : Type} [FiniteSource σ] {t : Scanner} {m : OpenMaster}
    {outer : List OpenMaster} (hstack : t.stack = m :: outer)
    (h : EndRule.size.Applies t m outer ∨ EndRule.level.Applies t m outer) (s : σ) :
    step t s =
      ⟨.ok (.moved [.finish m.element (pathOf outer)]), { t with stack := outer }, s⟩ := by
  rcases h with ⟨-, ⟨hphase, hempty⟩, hexhausted⟩ |
    ⟨-, hsize, decl, ⟨id, size, index, hphase, hdecl, hknown⟩, hglobal, hlevel⟩
  · have hany := (isExhausted_iff hstack).mpr hexhausted
    simp [step, hphase, stepId, HeaderWindow.isEmpty, hempty, hany, hstack]
  · have hleaf : (size.isUnknown && !decl.isMaster) = false := by
      cases size with
      | known n => rfl
      | unknown => simp [hknown rfl]
    have hcloses : t.closesByLevel decl m = true := by
      simp [closesByLevel, hglobal, hlevel, stop_of_unknown hsize]
    simp [step, hphase, resolve, hdecl, hleaf, hstack, hcloses]

/-- A willing receiver gets the event of the next step, and parsing goes on from there. -/
theorem parse_of_step {σ κ : Type} [FiniteSource σ] {r : Receiver κ} {t t' : Scanner} {s s' : σ}
    {k : κ} {event : Event} (hopen : t.closed = false) (hclosed : t'.closed = false)
    (hwilling : (r.poll k).1 = true) (hstep : step t s = ⟨.ok (.moved [event]), t', s'⟩) :
    parse r t s k = parse r t' s' (r.handle event (r.poll k).2) := by
  have hpoll : r.poll k = (true, (r.poll k).2) := by rw [← hwilling]
  rw [parse, if_neg (by simp [hopen]), parse, if_neg (by simp [hclosed]), run, hpoll]
  dsimp only
  split <;> rename_i heq <;> rw [hstep] at heq <;> simp at heq
  obtain ⟨rfl, rfl, rfl⟩ := heq
  rfl

/-- Apart from closing, a master of known length ends between two elements, none ends where a global
element is about to start, and one of unknown length does not end by itself between two elements. -/
theorem EndsByRule.particulars {t : Scanner} {m : OpenMaster} {outer : List OpenMaster}
    (h : t.EndsByRule m.element (pathOf outer)) (hstack : t.stack = m :: outer)
    (hopen : t.closed = false) :
    (m.size ≠ .unknown → t.BetweenElements) ∧
      (∀ decl, t.AboutToStart decl → decl.isGlobal = false) ∧
      (m.size = .unknown → t.BetweenElements → ∃ m' ∈ outer, t.Exhausted m') := by
  obtain ⟨m', outer', hstack', -, -, rule, happlies, -⟩ := h
  obtain ⟨rfl, rfl⟩ := List.cons.inj (hstack.symm.trans hstack')
  cases rule with
  | size =>
    obtain ⟨-, hbetween, c, hc, hexhausted⟩ := happlies
    refine ⟨fun _ => hbetween, ?_, fun hsize _ => ?_⟩
    · rintro decl ⟨id, size, index, hphase, -⟩
      simp [hbetween.1] at hphase
    · -- The master itself has no end that could have been reached.
      rcases List.mem_cons.mp hc with rfl | hc
      · obtain ⟨stop, hstop, -⟩ := hexhausted
        simp [stop_of_unknown hsize] at hstop
      · exact ⟨c, hc, hexhausted⟩
  | level =>
    obtain ⟨-, hsize, decl, ⟨id, size, index, hphase, hdecl, -⟩, hglobal, -⟩ := happlies
    refine ⟨fun h => absurd hsize h, ?_, ?_⟩
    · rintro decl' ⟨id', size', index', hphase', hdecl', -⟩
      obtain ⟨rfl, -, -⟩ := Phase.resolve.inj (hphase.symm.trans hphase')
      obtain rfl := Option.some.inj (hdecl.symm.trans hdecl')
      exact hglobal
    · rintro - ⟨hid, -⟩
      simp [hid] at hphase
  | close => simp [EndRule.Applies, hopen] at happlies

/-- When masters end. What a session reports comes of a course. In a course every end of a master is
due to exactly one rule: at a boundary it or a master around it is exhausted, an element that is not
global and not deeper is about to start inside it although its own length is unknown, or the scan
closes. While one of the first two rules applies, the end is the next callback of a receiver that is
willing, on the same source. In particular masters of known length do not end by level nor anything
by a global element, and a master of unknown length ends by size only with one around it. -/
theorem masters_end_by_rule (schema : Schema) (maxChunk : Nat) :
    (∀ log t, Session (fresh schema maxChunk) log t →
      ∃ moments, Course (fresh schema maxChunk) moments t ∧ moments.map Moment.event = log) ∧
    ∀ moments t, Course (fresh schema maxChunk) moments t →
      (∀ c ∈ moments, ∀ o path, c.event = .finish o path → o.decl.isMaster = true →
        c.scanner.EndsByRule o path) ∧
      (∀ m outer, t.stack = m :: outer →
        EndRule.size.Applies t m outer ∨ EndRule.level.Applies t m outer →
          ∀ (σ κ : Type) [FiniteSource σ] (r : Receiver κ) (s : σ) (k : κ), (r.poll k).1 = true →
            parse r t s k =
              parse r { t with stack := outer } s
                (r.handle (.finish m.element (pathOf outer)) (r.poll k).2)) ∧
      ∀ c ∈ moments, ∀ m outer, c.scanner.stack = m :: outer →
        c.event = .finish m.element (pathOf outer) → m.element.decl.isMaster = true →
          c.scanner.closed = false →
          (m.size ≠ .unknown → c.scanner.BetweenElements) ∧
          (∀ decl, c.scanner.AboutToStart decl → decl.isGlobal = false) ∧
          (m.size = .unknown → c.scanner.BetweenElements → ∃ m' ∈ outer, c.scanner.Exhausted m') := by
  have hsound := sound_fresh schema maxChunk
  have hkinds := kinds_fresh schema maxChunk
  refine ⟨fun log t h => h.course, fun moments t hcourse => ⟨?_, ?_, ?_⟩⟩
  · intro c hc o path hend hmaster
    exact hcourse.endsByRule hsound hkinds hc hend hmaster
  · intro m outer hstack happlies σ κ _ r s k hwilling
    have hopen : t.closed = false := by
      rcases happlies with h | h
      · exact h.1
      · exact h.1
    exact parse_of_step hopen hopen hwilling (step_of_applies hstack happlies s)
  · intro c hc m outer hstack hend hmaster hopen
    exact (hcourse.endsByRule hsound hkinds hc hend hmaster).particulars hstack hopen

/-- The steps of a scan of a document that is nothing but an empty header element. -/
def emptyHeader : Nat → Stepped PushSource
  | 0 => ⟨.ok .stalled, fresh Matroska.schema 1, .ofBytes [0x1A, 0x45, 0xDF, 0xA3, 0x80]⟩
  | n + 1 => step (emptyHeader n).scanner (emptyHeader n).source

theorem closed_emptyHeader (n : Nat) : (emptyHeader n).scanner.closed = false := by
  induction n with
  | zero => rfl
  | succ n ih => exact (step_accounts _ _).closed_eq.trans ih

theorem course_emptyHeader (n : Nat) :
    ∃ moments, Course (fresh Matroska.schema 1) moments (emptyHeader n).scanner := by
  induction n with
  | zero => exact ⟨[], .begin⟩
  | succ n ih =>
    obtain ⟨moments, hcourse⟩ := ih
    exact ⟨_, hcourse.step (emptyHeader n).source (closed_emptyHeader n)⟩

/-- The third step starts the header element, which is exhausted then, and the fourth ends it. -/
theorem masters_end_by_rule_of_empty_header :
    let t := (emptyHeader 3).scanner
    let m : OpenMaster := ⟨⟨⟨0x1A45DFA3, "EBML", 0, .master, false⟩, 0⟩, 5, .known 0⟩
    let quiet := Collector.ofConfig { filter := some [] }
    let p := parse Collector.receiver.watched (emptyHeader 0).scanner (emptyHeader 0).source
      { state := quiet }
    t.stack = [m] ∧ t.BetweenElements ∧ t.EndsByRule m.element [] ∧
      parse Collector.receiver t (emptyHeader 3).source quiet =
        parse Collector.receiver { t with stack := [] } (emptyHeader 3).source
          (Collector.handle (.finish m.element []) quiet) ∧
      p.receiver.callbacks.length = 2 ∧
      ∃ moments, Course (emptyHeader 0).scanner moments p.scanner ∧
        moments.map Moment.event = p.receiver.callbacks := by
  have hstack : (emptyHeader 3).scanner.stack =
      [⟨⟨⟨0x1A45DFA3, "EBML", 0, .master, false⟩, 0⟩, 5, .known 0⟩] := by cbv
  have hphase : (emptyHeader 3).scanner.phase = .id := by cbv
  have hempty : (emptyHeader 3).scanner.window.bytes = [] := by cbv
  have hexhausted : (emptyHeader 3).scanner.isExhausted = true := by cbv
  have houtcome : (emptyHeader 4).outcome =
      .ok (.moved [.finish ⟨⟨0x1A45DFA3, "EBML", 0, .master, false⟩, 0⟩ []]) := by cbv
  have hlength : (parse Collector.receiver.watched (emptyHeader 0).scanner (emptyHeader 0).source
      { state := Collector.ofConfig { filter := some [] } }).receiver.callbacks.length = 2 := by cbv
  obtain ⟨hsessions, hcourses⟩ := masters_end_by_rule Matroska.schema 1
  obtain ⟨moments, hthree⟩ := course_emptyHeader 3
  have hfour := hthree.step (emptyHeader 3).source (closed_emptyHeader 3)
  have happlies : EndRule.size.Applies (emptyHeader 3).scanner _ [] :=
    ⟨closed_emptyHeader 3, ⟨hphase, hempty⟩, (isExhausted_iff hstack).mp hexhausted⟩
  refine ⟨hstack, ⟨hphase, hempty⟩, ?_, ?_, hlength, ?_⟩
  · refine (hcourses _ _ hfour).1 ⟨(emptyHeader 3).scanner, .finish _ []⟩ ?_ _ _ rfl rfl
    apply List.mem_append_right
    rw [show step (emptyHeader 3).scanner (emptyHeader 3).source = emptyHeader 4 from rfl, houtcome]
    exact List.mem_singleton_self _
  · exact (hcourses _ _ hthree).2.1 _ _ hstack (.inl happlies) _ _ Collector.receiver _ _ rfl
  · exact hsessions _ _ (.parse _ _ _ .begin)

end Ebml.Scanner
