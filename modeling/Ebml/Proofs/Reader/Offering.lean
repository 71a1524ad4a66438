import Ebml.Proofs.Reader.Chunking
import Ebml.Reader.Apply

/-!
# What a reader offers

In a visit the visitor decides when to stop and nothing else: a round of the reader (`round`) goes
without it. So a reader has a row of elements to offer and an ending behind them (`offered`), and a
visit shows the visitor a front of that row (`apply_eq_showAll`). This holds of every source, also of
one that fails: the failure is the ending then. What a visit did not show is still on offer when it
was the visitor that broke it off (`offered_of_broken`). A reader whose source can be read to its end
offers what is left of the elements of its input (`Assured.reading_eq_offered`).
-/

namespace Ebml

/-! ## Visits as folds -/

namespace Visitor

variable {ν ε : Type} {v : Visitor ν ε} {state : ν}

/-- A visitor is shown elements until it is done or fails. One that is shown them all hears how they
end. -/
def showAll (v : Visitor ν ε) :
    List Element → Except ScanError Unit → ν → Except (Reader.ApplyError ε) Unit × ν
  | [], ending, state =>
    if v.isDone state then (.ok (), state) else (ending.mapError .scan, state)
  | e :: rest, ending, state =>
    if v.isDone state then (.ok (), state)
    else
      match v.visit e state with
      | (.error failure, state') => (.error (.visitor failure), state')
      | (.ok (), state') => showAll v rest ending state'

/-- The elements that a visitor is shown, the last one perhaps being one on which it fails. -/
def front (v : Visitor ν ε) : List Element → ν → List Element
  | [], _ => []
  | e :: rest, state =>
    if v.isDone state then []
    else
      match v.visit e state with
      | (.error _, _) => [e]
      | (.ok (), state') => e :: front v rest state'

theorem showAll_of_isDone (h : v.isDone state = true) (elements : List Element)
    (ending : Except ScanError Unit) : v.showAll elements ending state = (.ok (), state) := by
  cases elements <;> simp [showAll, h]

theorem showAll_of_error {e : Element} {failure : ε} {state' : ν} (hopen : v.isDone state = false)
    (hvisit : v.visit e state = (.error failure, state')) (rest : List Element)
    (ending : Except ScanError Unit) :
    v.showAll (e :: rest) ending state = (.error (.visitor failure), state') := by
  rw [showAll, hopen, hvisit]
  rfl

theorem showAll_of_ok {e : Element} {state' : ν} (hopen : v.isDone state = false)
    (hvisit : v.visit e state = (.ok (), state')) (rest : List Element)
    (ending : Except ScanError Unit) :
    v.showAll (e :: rest) ending state = v.showAll rest ending state' := by
  rw [showAll, hopen, hvisit]
  rfl

theorem front_of_isDone (h : v.isDone state = true) (elements : List Element) :
    v.front elements state = [] := by
  cases elements <;> simp [front, h]

end Visitor

namespace Reader

/-! ## Rounds -/

/-- What a round comes to. -/
inductive Round (σ : Type)
  /-- There are no more rounds. -/
  | stop (outcome : Except ScanError Unit) (r : Reader σ)
  /-- There is an element to show. -/
  | element (e : Element) (r : Reader σ)
  /-- There is none, but another round may bring one. -/
  | again (r : Reader σ)

/-- The part of a round that the visitor has no part in. -/
def round {σ : Type} [FiniteSource σ] (r : Reader σ) : Round σ :=
  match r.mayHaveNext with
  | (.error e, r₁) => .stop (.error e) r₁
  | (.ok false, r₁) => .stop (.ok ()) r₁
  | (.ok true, r₁) =>
    match r₁.progress with
    | (.error e, r₂) => .stop (.error e) r₂
    | (.ok before, r₂) =>
      match r₂.next? with
      | (.error e, r₃) => .stop (.error e) r₃
      | (.ok (some element), r₃) => .element element r₃
      | (.ok none, r₃) =>
        match r₃.progress with
        | (.error e, r₄) => .stop (.error e) r₄
        | (.ok after, r₄) =>
          if after ≠ before then .again r₄
          else
            match ByteSource.eof r₄.source with
            | (.error e, source) => .stop (.error (.io e)) { r₄ with source := source }
            | (.ok false, source) => .stop (.ok ()) { r₄ with source := source }
            | (.ok true, source) => .again { r₄ with source := source }

/-- The reader after a round. -/
def Round.reader {σ : Type} : Round σ → Reader σ
  | .stop _ r => r
  | .element _ r => r
  | .again r => r

/-- The reader after some rounds. -/
def rounds {σ : Type} [FiniteSource σ] (r : Reader σ) : Nat → Reader σ
  | 0 => r
  | n + 1 => (r.rounds n).round.reader

section

variable {σ : Type} [SteadySource σ] {ν ε : Type} (v : Visitor ν ε) (r : Reader σ) (state : ν)

/-- A visit goes round by round. -/
theorem apply_eq_round :
    apply v r state =
      if v.isDone state then ⟨.ok (), r, state⟩
      else
        match r.round with
        | .stop outcome r' => ⟨outcome.mapError .scan, r', state⟩
        | .element e r' =>
          match v.visit e state with
          | (.error failure, state') => ⟨.error (.visitor failure), r', state'⟩
          | (.ok (), state') => apply v r' state'
        | .again r' => apply v r' state := by
  fun_cases apply v r state <;> simp_all [round] <;> rfl

/-- A round that is not the last brings the reader nearer to its end. -/
theorem round_nearer :
    match r.round with
    | .stop .. => True
    | .element _ r' => Nearer r' r
    | .again r' => Nearer r' r := by
  fun_cases round r with
  | case5 r₁ hm before r₂ hb element r₃ hn => exact nearer_of_element hm hb hn
  | case7 r₁ hm before r₂ hb r₃ hn after r₄ ha hne => exact nearer_of_changed hm hb hn ha hne
  | case10 r₁ hm before r₂ hb r₃ hn after r₄ ha hsame source he =>
    exact nearer_of_eof hm hb hn ha he
  | _ => trivial

end

/-! ## Offers -/

section

variable {σ : Type} [SteadySource σ]

/-- The elements that a reader shows to a visitor that takes them all, and how they end. -/
def offered (r : Reader σ) : List Element × Except ScanError Unit :=
  match _h : r.round with
  | .stop outcome _ => ([], outcome)
  | .element e r' =>
    let rest := offered r'
    (e :: rest.1, rest.2)
  | .again r' => offered r'
termination_by r.measure
decreasing_by
  · have hnearer := round_nearer r
    rwa [_h] at hnearer
  · have hnearer := round_nearer r
    rwa [_h] at hnearer

section

variable {r r' : Reader σ}

theorem offered_of_stop {outcome : Except ScanError Unit} (h : r.round = .stop outcome r') :
    offered r = ([], outcome) := by
  rw [offered]
  split <;> simp_all

theorem offered_of_element {e : Element} (h : r.round = .element e r') :
    offered r = (e :: (offered r').1, (offered r').2) := by
  rw [offered]
  split <;> simp_all

theorem offered_of_again (h : r.round = .again r') : offered r = offered r' := by
  rw [offered]
  split <;> simp_all

end

variable {ν ε : Type} (v : Visitor ν ε) (r : Reader σ) (state : ν)

/-- A visit shows the visitor what the reader has to offer. -/
theorem apply_eq_showAll :
    ((apply v r state).outcome, (apply v r state).visitor) =
      v.showAll (offered r).1 (offered r).2 state := by
  -- A round that hands out an element is a step of both, and one that does not is none of either.
  induction r using offered.induct generalizing state with
  | case1 r outcome r' hround =>
    rw [apply_eq_round, offered_of_stop hround, hround, Visitor.showAll]
    split <;> rfl
  | case2 r e r' hround ih =>
    rw [apply_eq_round, offered_of_element hround, hround, Visitor.showAll]
    split
    · rfl
    · dsimp only
      split
      · rfl
      · exact ih _
  | case3 r r' hround ih =>
    rw [apply_eq_round, offered_of_again hround, hround]
    split
    · rename_i hdone
      exact (Visitor.showAll_of_isDone hdone _ _).symm
    · exact ih _

/-- What was shown and what is on offer afterwards is what was on offer before, if it was the visitor
that broke the visit off. -/
theorem offered_of_broken
    (h : v.isDone (apply v r state).visitor = true ∨
      ∃ failure, (apply v r state).outcome = .error (.visitor failure)) :
    let after := offered (apply v r state).reader
    offered r = (v.front (offered r).1 state ++ after.1, after.2) := by
  -- A visit and an offer go through the same rounds, so the induction is over these.
  induction r using offered.induct generalizing state with
  | case1 r outcome r' hround =>
    rw [apply_eq_round, hround] at h ⊢
    split at h
    · rename_i hdone
      rw [if_pos hdone, offered_of_stop hround]
      rfl
    · rename_i hdone
      obtain h | ⟨failure, h⟩ := h
      · exact absurd h hdone
      · cases outcome <;> nomatch h
  | case2 r e r' hround ih =>
    rw [apply_eq_round, hround] at h ⊢
    split at h
    · rename_i hdone
      rw [if_pos hdone, offered_of_element hround, Visitor.front, if_pos hdone]
      rfl
    · rename_i hdone
      rw [if_neg hdone, offered_of_element hround, Visitor.front, if_neg hdone]
      dsimp only at h ⊢
      split at h
      · rfl
      · exact congrArg (fun p => (e :: p.1, p.2)) (ih _ h)
  | case3 r r' hround ih =>
    rw [apply_eq_round, hround] at h ⊢
    split at h
    · rename_i hdone
      rw [if_pos hdone, Visitor.front_of_isDone hdone]
      rfl
    · rename_i hdone
      rw [if_neg hdone, offered_of_again hround]
      exact ih _ h

end

/-! ## Sources that can be read to their end -/

section

open AnnouncingSource (held)

variable {σ : Type} [SteadySource σ] [AnnouncingSource σ] [YieldingSource σ]
  {c : ReaderConfig} {input : Bytes} {taken : List Element} {r r' : Reader σ}

/-- What is asked of the source without taking bytes leaves a reader assured. -/
theorem Assured.moved {s : σ} (h : Assured c input taken r) (hhands : Hands r.source [] s) :
    Assured c input taken { r with source := s } ∧
      (Supplied r → Supplied { r with source := s }) := by
  obtain ⟨rest, hyields, hstands⟩ := h
  obtain ⟨⟨rest', hrest, hyields'⟩, hheld⟩ := YieldingSource.hands hyields hhands
  obtain rfl : rest = rest' := hrest
  refine ⟨⟨rest, hyields', hstands⟩, fun hsupplied => ?_⟩
  exact hsupplied.imp_right (.imp_right fun hne hnil => hheld hne hnil rfl)

/-- Asking for the progress leaves a reader assured. -/
theorem Assured.of_progress {p : Nat × Nat} (h : Assured c input taken r)
    (hp : r.progress = (.ok p, r')) :
    Assured c input taken r' ∧ (Supplied r → Supplied r') := by
  rw [(progress_eq hp).1]
  exact h.moved (Hands.refl _).available

/-- The progress of an assured reader can be told. -/
theorem Assured.progress_ne_error (h : Assured c input taken r) (e : ScanError) :
    r.progress.1 ≠ .error e := by
  obtain ⟨rest, hyields, -⟩ := h
  obtain ⟨n, hok⟩ := YieldingSource.available_ok hyields
  unfold Reader.progress
  split <;> simp_all

/-- A reader that hands out nothing and shows no progress has come to its end. -/
theorem Assured.spent_of_same {before after : Nat × Nat} {r₁ r₂ r₃ : Reader σ}
    (h : Assured c input taken r) (hsupplied : Supplied r) (hb : r.progress = (.ok before, r₁))
    (hn : r₁.next? = (.ok none, r₂)) (ha : r₂.progress = (.ok after, r₃)) (hsame : after = before) :
    Spent r₂ := by
  obtain ⟨h₁, hsupplied₁⟩ := h.of_progress hb
  have hnext := h₁.next? (hsupplied₁ hsupplied)
  rw [hn] at hnext
  have hunread : ¬r₁.bytesRead < r₂.bytesRead := by
    obtain ⟨rfl, -, hbefore⟩ := progress_eq hb
    obtain ⟨-, -, hafter⟩ := progress_eq ha
    rw [← hafter, hsame, hbefore]
    exact Nat.lt_irrefl _
  have hclosed := hnext.2.resolve_left hunread
  -- The scan was closed before it was asked, so it brought nothing.
  obtain ⟨hpending, rfl⟩ := next?_none hn
  have hclosed₁ : r₁.scanner.closed = true := (scan_accounts r₁).closed_eq.symm.trans hclosed
  rw [scan_eq_self hclosed₁]
  exact ⟨hpending, hclosed₁⟩

/-- A reader that has come to its end has handed out all there is. -/
theorem Assured.reading_of_spent (h : Assured c input taken r) (hspent : Spent r) :
    reading c input = (taken, .ok ()) := by
  obtain ⟨rest, -, hstands⟩ := h
  exact reading_of_through (hstands.through hspent.closed_eq) hspent.hasPending_eq

/-- What a round of an assured reader comes to. -/
theorem Assured.round_spec (h : Assured c input taken r) :
    match r.round with
    | .stop outcome _ => reading c input = (taken, outcome)
    | .element e r' => Assured c input (taken ++ [e]) r'
    | .again r' => Assured c input taken r' := by
  -- The calls of a round, one after the other, each keep the reader assured.
  have hmay {r₁ : Reader σ} (hm : r.mayHaveNext = (.ok true, r₁)) :
      Assured c input taken r₁ ∧ Supplied r₁ := by
    have hspec := h.mayHaveNext
    rwa [hm] at hspec
  have hnext {before : Nat × Nat} {r₁ r₂ : Reader σ} (hm : r.mayHaveNext = (.ok true, r₁))
      (hb : r₁.progress = (.ok before, r₂)) :
      match r₂.next? with
      | (.error e, _) => reading c input = (taken, .error e)
      | (.ok none, r₃) => Assured c input taken r₃
      | (.ok (some e), r₃) => Assured c input (taken ++ [e]) r₃ := by
    obtain ⟨h₁, hsupplied⟩ := hmay hm
    obtain ⟨h₂, hsupplied₂⟩ := h₁.of_progress hb
    have hspec := h₂.next? (hsupplied₂ hsupplied)
    generalize r₂.next? = answer at hspec ⊢
    obtain ⟨outcome, r₃⟩ := answer
    match outcome with
    | .error e => exact reading_of_failed hspec.2.2
    | .ok none => exact hspec.1
    | .ok (some e) => exact hspec
  fun_cases Reader.round r with
  | case1 e r₁ hm =>
    have hspec := h.mayHaveNext
    rw [hm] at hspec
    exact reading_of_failed hspec.2.2
  | case2 r₁ hm =>
    have hspec := h.mayHaveNext
    rw [hm] at hspec
    obtain ⟨hspent, rest, hthrough⟩ := hspec
    exact reading_of_through hthrough hspent.hasPending_eq
  | case3 r₁ hm e r₂ hb => exact absurd (congrArg Prod.fst hb) ((hmay hm).1.progress_ne_error e)
  | case4 r₁ hm before r₂ hb e r₃ hn =>
    have hspec := hnext hm hb
    rwa [hn] at hspec
  | case5 r₁ hm before r₂ hb e r₃ hn =>
    have hspec := hnext hm hb
    rwa [hn] at hspec
  | case6 r₁ hm before r₂ hb r₃ hn e r₄ ha =>
    have hspec := hnext hm hb
    rw [hn] at hspec
    exact absurd (congrArg Prod.fst ha) (hspec.progress_ne_error e)
  | case7 r₁ hm before r₂ hb r₃ hn after r₄ ha hne =>
    have hspec := hnext hm hb
    rw [hn] at hspec
    exact (hspec.of_progress ha).1
  | case8 r₁ hm before r₂ hb r₃ hn after r₄ ha hsame e source he =>
    have hspec := hnext hm hb
    rw [hn] at hspec
    obtain ⟨rest, hyields, -⟩ := (hspec.of_progress ha).1
    have heof := YieldingSource.eof_spec hyields
    rw [he] at heof
    exact heof.elim
  | case9 r₁ hm before r₂ hb r₃ hn after r₄ ha hsame source he =>
    have hspec := hnext hm hb
    rw [hn] at hspec
    obtain ⟨h₁, hsupplied⟩ := hmay hm
    -- Nothing was handed out and no byte came, so the reader was through before.
    exact hspec.reading_of_spent (h₁.spent_of_same hsupplied hb hn ha (Decidable.not_not.mp hsame))
  | case10 r₁ hm before r₂ hb r₃ hn after r₄ ha hsame source he =>
    have hspec := hnext hm hb
    rw [hn] at hspec
    have hhands := (Hands.refl r₄.source).eof
    rw [he] at hhands
    exact ((hspec.of_progress ha).1.moved hhands).1

/-- An assured reader offers what is left of the elements of its input. -/
theorem Assured.reading_eq_offered (h : Assured c input taken r) :
    reading c input = (taken ++ (offered r).1, (offered r).2) := by
  induction r using offered.induct generalizing taken with
  | case1 r outcome r' hround =>
    have hspec := h.round_spec
    rw [hround] at hspec
    rw [offered_of_stop hround, List.append_nil, hspec]
  | case2 r e r' hround ih =>
    have hspec := h.round_spec
    rw [hround] at hspec
    rw [offered_of_element hround, ih hspec, List.append_assoc]
    rfl
  | case3 r r' hround ih =>
    have hspec := h.round_spec
    rw [hround] at hspec
    rw [offered_of_again hround]
    exact ih hspec

end

/-- A reader of a document that is there as a whole offers its elements. -/
theorem offered_ofBytes (c : ReaderConfig) (bytes : Bytes) :
    offered (ofSource c (PushSource.ofBytes bytes)) = reading c bytes :=
  (assured_iff.mpr ⟨rfl, .inl ⟨[], [], .refl _, rfl, rfl⟩⟩ :
    Assured c bytes [] _).reading_eq_offered.symm

end Reader

end Ebml
