import Mathlib
import Ebml.Proofs.Reader.Mixing
import Ebml.Proofs.Reader.Offering

/-!
# Visitors that share a visit

A reader can be shown to several visitors at once. As long as none of them fails, each comes to what
it would have come to alone, and the reader hands out as much as the visitor asks for that alone asks
for the most. The first visitor that fails breaks the visit off for all of them: those in front of it
have seen the element, but for the ones that were done, and those behind it have not. What the reader
has behind that element is left for the next visit (`composite_shares`).
-/

namespace Ebml

namespace Visitor

variable {ν ε : Type}

/-! ## Visitors alone -/

/-- Whether a visitor takes whatever it is shown. -/
def NeverFails (v : Visitor ν ε) : Prop :=
  ∀ e state, (v.visit e state).1 = .ok ()

/-- Whether a visitor that is shown `elements` takes all of them, or those until it is done. -/
def Takes (elements : List Element) (child : Visitor ν ε × ν) : Prop :=
  (child.1.showAll elements (.ok ()) child.2).1 = .ok ()

/-- A visitor in the state in which being shown `elements` leaves it. -/
def alone (elements : List Element) (child : Visitor ν ε × ν) : Visitor ν ε × ν :=
  (child.1, (child.1.showAll elements (.ok ()) child.2).2)

/-- A visitor after an element, which it sees unless it is done. -/
def after (e : Element) (child : Visitor ν ε × ν) : Visitor ν ε × ν :=
  (child.1, if child.1.isDone child.2 then child.2 else (child.1.visit e child.2).2)

section

variable {v : Visitor ν ε} {state : ν} {child : Visitor ν ε × ν}

theorem takes_of_isDone (h : child.1.isDone child.2 = true) (elements : List Element) :
    Takes elements child := by
  rw [Takes, showAll_of_isDone h]

/-- A visitor that is done is left as it is. -/
theorem alone_of_isDone (h : child.1.isDone child.2 = true) (elements : List Element) :
    alone elements child = child := by
  rw [alone, showAll_of_isDone h]

theorem after_of_isDone (h : child.1.isDone child.2 = true) (e : Element) :
    after e child = child := by
  rw [after, if_pos h]

theorem showAll_nil (v : Visitor ν ε) (state : ν) :
    v.showAll [] (.ok ()) state = (.ok (), state) := by
  rw [showAll]
  split <;> rfl

theorem takes_nil (child : Visitor ν ε × ν) : Takes [] child := by
  rw [Takes, showAll_nil]

theorem alone_nil (child : Visitor ν ε × ν) : alone [] child = child := by
  rw [alone, showAll_nil]

theorem takes_singleton {e : Element} :
    Takes [e] child ↔
      (child.1.isDone child.2 = false → (child.1.visit e child.2).1 = .ok ()) := by
  obtain ⟨v, state⟩ := child
  cases hdone : v.isDone state with
  | true => simp [takes_of_isDone, hdone]
  | false =>
    rw [Takes, showAll, hdone]
    rcases hvisit : v.visit e state with ⟨_ | _, state'⟩ <;> simp [showAll_nil]

theorem alone_singleton (e : Element) (child : Visitor ν ε × ν) :
    alone [e] child = after e child := by
  obtain ⟨v, state⟩ := child
  cases hdone : v.isDone state with
  | true => simp [alone_of_isDone, after, hdone]
  | false =>
    rw [alone, after, showAll, hdone]
    rcases hvisit : v.visit e state with ⟨_ | _, state'⟩ <;> simp [showAll_nil]

/-- A row of elements is shown one part after the other. -/
theorem showAll_append {first : List Element} (h : Takes first child) (second : List Element)
    (ending : Except ScanError Unit) :
    child.1.showAll (first ++ second) ending child.2 =
      child.1.showAll second ending (alone first child).2 := by
  obtain ⟨v, state⟩ := child
  induction first generalizing state with
  | nil => rw [alone_nil, List.nil_append]
  | cons e rest ih =>
    simp only [Takes, alone, showAll, List.cons_append] at h ih ⊢
    split
    · rename_i hdone
      exact (showAll_of_isDone hdone second ending).symm
    · rename_i hdone
      rw [if_neg hdone] at h
      split
      · rename_i hvisit
        simp [hvisit] at h
      · rename_i state' hvisit
        rw [hvisit] at h
        exact ih state' h

/-- A visitor that takes the first of some elements takes them all just if it takes the others
then. -/
theorem takes_cons {e : Element} {rest : List Element} :
    Takes (e :: rest) child ↔ Takes [e] child ∧ Takes rest (after e child) := by
  by_cases hfirst : Takes [e] child
  · rw [← List.singleton_append, Takes, showAll_append hfirst, alone_singleton]
    exact (and_iff_right hfirst).symm
  · obtain ⟨v, state⟩ := child
    refine iff_of_false (fun h => ?_) (fun h => hfirst h.1)
    rw [takes_singleton, Classical.not_imp] at hfirst
    rcases hvisit : v.visit e state with ⟨_ | _, state'⟩ <;>
      simp_all [Takes, showAll]

theorem alone_cons {e : Element} (h : Takes [e] child) (rest : List Element) :
    alone (e :: rest) child = alone rest (after e child) := by
  rw [← List.singleton_append, alone, showAll_append h, alone_singleton]
  rfl

theorem front_cons {e : Element} (h : Takes [e] child) (rest : List Element) :
    child.1.front (e :: rest) child.2 =
      if child.1.isDone child.2 then [] else e :: child.1.front rest (after e child).2 := by
  obtain ⟨v, state⟩ := child
  rw [takes_singleton] at h
  cases hdone : v.isDone state with
  | true => simp [front, hdone]
  | false =>
    rcases hvisit : v.visit e state with ⟨_ | _, state'⟩ <;> simp_all [front, after]

theorem NeverFails.takes (h : child.1.NeverFails) (elements : List Element) :
    Takes elements child := by
  induction elements generalizing child with
  | nil => exact takes_nil child
  | cons e rest ih =>
    exact takes_cons.mpr ⟨takes_singleton.mpr fun _ => h e child.2, ih h⟩

/-- A visitor that fails takes some elements and refuses the next one. -/
theorem exists_refused {failure : ε} {elements : List Element} {ending : Except ScanError Unit}
    (h : (v.showAll elements ending state).1 = .error (.visitor failure)) :
    ∃ shown e rest, elements = shown ++ e :: rest ∧ Takes shown (v, state) ∧
      v.front elements state = shown ++ [e] ∧ v.isDone (alone shown (v, state)).2 = false ∧
        v.visit e (alone shown (v, state)).2 =
          (.error failure, (v.showAll elements ending state).2) := by
  induction elements generalizing state with
  | nil =>
    rw [showAll] at h
    split at h
    · simp at h
    · cases ending <;> simp [Except.mapError] at h
  | cons e rest ih =>
    cases hdone : v.isDone state with
    | true => simp [showAll, hdone] at h
    | false =>
      rcases hvisit : v.visit e state with ⟨failure' | _, state'⟩
      · obtain rfl : failure' = failure := by simpa [showAll, hdone, hvisit] using h
        refine ⟨[], e, rest, rfl, takes_nil _, ?_, ?_, ?_⟩
        · simp [front, hdone, hvisit]
        · rwa [alone_nil]
        · simp [alone_nil, showAll, hdone, hvisit]
      · -- The visitor takes this one, so the one it fails on is further on.
        have hfirst : Takes [e] (v, state) := takes_singleton.mpr fun _ => by simp [hvisit]
        have hafter : after e (v, state) = (v, state') := by simp [after, hdone, hvisit]
        have hrest : v.showAll (e :: rest) ending state = v.showAll rest ending state' := by
          simp [showAll, hdone, hvisit]
        rw [hrest] at h ⊢
        obtain ⟨shown, e', rest', rfl, htakes, hfront, hopen, hrefuses⟩ := ih h
        refine ⟨e :: shown, e', rest', rfl, takes_cons.mpr ⟨hfirst, hafter ▸ htakes⟩, ?_, ?_, ?_⟩
        · simpa [front, hdone, hvisit] using hfront
        · rwa [alone_cons hfirst, hafter]
        · rwa [alone_cons hfirst, hafter]

/-- How the elements end does not show in the state of the visitor. -/
theorem showAll_snd (v : Visitor ν ε) (elements : List Element) (ending : Except ScanError Unit)
    (state : ν) : (v.showAll elements ending state).2 = (alone elements (v, state)).2 := by
  induction elements generalizing state with
  | nil => simp only [alone, showAll]; split <;> rfl
  | cons e rest ih =>
    simp only [alone, showAll] at ih ⊢
    split
    · rfl
    · split
      · rfl
      · exact ih _

/-- What the record of a visitor holds. -/
theorem showAll_watched (v : Visitor ν ε) (elements : List Element)
    (ending : Except ScanError Unit) (state : ν) (earlier : List Element) :
    v.watched.showAll elements ending ⟨state, earlier⟩ =
      ((v.showAll elements ending state).1,
        ⟨(v.showAll elements ending state).2, earlier ++ v.front elements state⟩) := by
  induction elements generalizing state earlier with
  | nil => cases hdone : v.isDone state <;> simp [showAll, front, watched, hdone]
  | cons e rest ih =>
    cases hdone : v.isDone state with
    | true => simp [showAll, front, watched, hdone]
    | false =>
      rcases hvisit : v.visit e state with ⟨_ | _, state'⟩
      · simp [showAll, front, watched, hdone, hvisit]
      · have hrest := ih state' (earlier ++ [e])
        simp only [watched] at hrest
        simp [showAll, front, watched, hdone, hvisit, hrest]

end

/-! ## Visitors together -/

/-- How visitors come out of an element on which one of them fails with `failure`: those in front of
it see the element unless they are done, and those behind it stay as they are. -/
inductive Refused (e : Element) (failure : ε) :
    List (Visitor ν ε × ν) → List (Visitor ν ε × ν) → Prop
  | intro {front behind : List (Visitor ν ε × ν)} {v : Visitor ν ε} {state state' : ν} :
      (∀ child ∈ front, child.1.isDone child.2 = false → (child.1.visit e child.2).1 = .ok ()) →
        v.isDone state = false → v.visit e state = (.error failure, state') →
          Refused e failure (front ++ (v, state) :: behind)
            (front.map (after e) ++ (v, state') :: behind)

section

variable {children : List (Visitor ν ε × ν)}

theorem isDone_composite :
    composite.isDone children = true ↔ ∀ child ∈ children, child.1.isDone child.2 = true :=
  List.all_eq_true

theorem Refused.cons {e : Element} {failure : ε} {child : Visitor ν ε × ν}
    {left : List (Visitor ν ε × ν)} (h : Refused e failure children left)
    (hchild : Takes [e] child) :
    Refused e failure (child :: children) (after e child :: left) := by
  obtain ⟨hfront, hdone, hvisit⟩ := h
  exact .intro (List.forall_mem_cons.mpr ⟨takes_singleton.mp hchild, hfront⟩) hdone hvisit

/-- What comes of an element that is shown to each visitor. -/
def EachVisited (e : Element) (children : List (Visitor ν ε × ν)) :
    Except ε Unit × List (Visitor ν ε × ν) → Prop
  | (.ok (), left) => left = children.map (after e) ∧ ∀ child ∈ children, Takes [e] child
  | (.error failure, left) => Refused e failure children left

theorem EachVisited.cons {e : Element} {child : Visitor ν ε × ν}
    {shown : Except ε Unit × List (Visitor ν ε × ν)} (h : EachVisited e children shown)
    (hchild : Takes [e] child) :
    EachVisited e (child :: children) (shown.1, after e child :: shown.2) := by
  obtain ⟨_ | u, left⟩ := shown
  · exact Refused.cons h hchild
  · obtain ⟨rfl, htakes⟩ := h
    exact ⟨rfl, List.forall_mem_cons.mpr ⟨hchild, htakes⟩⟩

/-- One element is shown to each visitor, up to the first that fails. -/
theorem visitEach_spec (e : Element) (children : List (Visitor ν ε × ν)) :
    EachVisited e children (visitEach e children) := by
  -- A visitor that is done or takes the element goes in front of whatever the others come to.
  induction children with
  | nil => exact ⟨rfl, by simp⟩
  | cons child rest ih =>
    obtain ⟨v, state⟩ := child
    cases hdone : v.isDone state with
    | true =>
      have hfirst : Takes [e] (v, state) := takes_of_isDone hdone [e]
      have hcons := ih.cons hfirst
      simpa [visitEach, after, hdone] using hcons
    | false =>
      rcases hvisit : v.visit e state with ⟨failure | _, state'⟩
      · have hrefused : Refused e failure ([] ++ (v, state) :: rest)
            (([] : List _).map (after e) ++ (v, state') :: rest) :=
          .intro (by simp) hdone hvisit
        simpa [visitEach, hdone, hvisit, EachVisited] using hrefused
      · have hfirst : Takes [e] (v, state) := takes_singleton.mpr fun _ => by simp [hvisit]
        have hcons := ih.cons hfirst
        simpa [visitEach, after, hdone, hvisit] using hcons

/-- Several visitors take an element just if each of them does, and they all see it then. -/
theorem after_composite (e : Element) (children : List (Visitor ν ε × ν)) :
    (Takes [e] (composite, children) ↔ ∀ child ∈ children, Takes [e] child) ∧
      (Takes [e] (composite, children) →
        after e (composite, children) = (composite, children.map (after e))) := by
  cases hdone : composite.isDone children with
  | true =>
    have heach := isDone_composite.mp hdone
    refine ⟨iff_of_true (takes_of_isDone hdone [e])
      fun child hchild => takes_of_isDone (heach child hchild) [e], fun _ => ?_⟩
    rw [after_of_isDone hdone, List.map_congr_left fun child hchild =>
      after_of_isDone (heach child hchild) e, List.map_id']
  | false =>
    have hspec := visitEach_spec e children
    rw [takes_singleton, after, hdone]
    change EachVisited e children (composite.visit e children) at hspec
    rcases hvisit : composite.visit e children with ⟨failure | _, left⟩ <;> rw [hvisit] at hspec
    · refine ⟨iff_of_false (by simp) fun heach => ?_, fun h => absurd (h rfl) (by simp)⟩
      obtain ⟨-, hopen, hrefuses⟩ := hspec
      rename_i v state state'
      have hchild := takes_singleton.mp (heach (v, state) (by simp)) hopen
      simp [hrefuses] at hchild
    · obtain ⟨rfl, heach⟩ := hspec
      exact ⟨iff_of_true (fun _ => rfl) heach, fun _ => rfl⟩

/-- Several visitors take what each of them takes. -/
theorem takes_composite {elements : List Element} :
    Takes elements (composite, children) ↔ ∀ child ∈ children, Takes elements child := by
  induction elements generalizing children with
  | nil => exact iff_of_true (takes_nil _) fun child _ => takes_nil child
  | cons e rest ih =>
    simp only [@takes_cons _ _ _ e rest]
    rw [forall₂_and, ← (after_composite e children).1]
    refine and_congr_right fun hfirst => ?_
    rw [(after_composite e children).2 hfirst, ih, List.forall_mem_map]

/-- What several visitors take leaves each as it would have left it alone. -/
theorem alone_composite {elements : List Element} (h : Takes elements (composite, children)) :
    alone elements (composite, children) = (composite, children.map (alone elements)) := by
  induction elements generalizing children with
  | nil => rw [alone_nil, List.map_id'' alone_nil]
  | cons e rest ih =>
    obtain ⟨hfirst, hrest⟩ := takes_cons.mp h
    rw [(after_composite e children).2 hfirst] at hrest
    rw [alone_cons hfirst, (after_composite e children).2 hfirst, ih hrest, List.map_map]
    refine congrArg _ (List.map_congr_left fun child hchild => ?_)
    exact (alone_cons ((after_composite e children).1.mp hfirst child hchild) rest).symm

/-- Several visitors are shown as many elements as the one of them that alone is shown the most. -/
theorem front_composite_le_iff {elements : List Element} (h : Takes elements (composite, children))
    (n : Nat) :
    (composite.front elements children).length ≤ n ↔
      ∀ child ∈ children, (child.1.front elements child.2).length ≤ n := by
  induction elements generalizing children n with
  | nil => simp [front]
  | cons e rest ih =>
    obtain ⟨hfirst, hrest⟩ := takes_cons.mp h
    obtain ⟨heach, hafter⟩ := after_composite e children
    rw [hafter hfirst] at hrest
    have hfront : composite.front (e :: rest) children = _ := front_cons hfirst rest
    rw [hfront, hafter hfirst]
    cases hdone : composite.isDone children with
    | true =>
      refine iff_of_true (by simp) fun child hchild => ?_
      rw [front_of_isDone (isDone_composite.mp hdone child hchild)]
      exact Nat.zero_le n
    | false =>
      have hone {child : Visitor ν ε × ν} (hchild : child ∈ children) :=
        front_cons (heach.mp hfirst child hchild) rest
      rw [if_neg Bool.false_ne_true, List.length_cons]
      cases n with
      | zero =>
        -- Some visitor is not done, and this one is shown the first element.
        refine iff_of_false (Nat.not_succ_le_zero _) fun hall => ?_
        have hover : composite.isDone children = true := isDone_composite.mpr fun child hchild => by
          by_contra hopen
          simpa [hone hchild, hopen] using hall child hchild
        exact Bool.false_ne_true (hdone.symm.trans hover)
      | succ n =>
        rw [Nat.succ_le_succ_iff, ih hrest, List.forall_mem_map]
        refine forall₂_congr fun child hchild => ?_
        rw [hone hchild]
        split
        · rename_i hdone
          rw [after_of_isDone hdone, front_of_isDone hdone]
          simp
        · rw [List.length_cons, Nat.succ_le_succ_iff]
          rfl

theorem foldr_max_le {α : Type} (f : α → Nat) (l : List α) (n : Nat) :
    (l.map f).foldr max 0 ≤ n ↔ ∀ a ∈ l, f a ≤ n := by
  induction l with
  | nil => simp
  | cons a l ih => simp [ih]

theorem length_front_composite {elements : List Element}
    (h : Takes elements (composite, children)) :
    (composite.front elements children).length =
      (children.map fun child => (child.1.front elements child.2).length).foldr max 0 :=
  eq_of_forall_ge_iff fun n => (front_composite_le_iff h n).trans (foldr_max_le _ children n).symm

end

end Visitor

/-! ## Visits -/

namespace Reader

open Visitor

section

variable {σ : Type} [SteadySource σ] {ν ε : Type}

theorem apply_watched (v : Visitor ν ε) (r : Reader σ) (state : ν) :
    (apply v.watched r { state := state }).visitor.elements = v.front (offered r).1 state := by
  have hwatched := congrArg Prod.snd (apply_eq_showAll v.watched r { state := state })
  rw [showAll_watched] at hwatched
  exact congrArg Shown.elements hwatched

theorem apply_visitor (v : Visitor ν ε) (r : Reader σ) (state : ν) :
    (apply v r state).visitor = (alone (offered r).1 (v, state)).2 :=
  (congrArg Prod.snd (apply_eq_showAll v r state)).trans (showAll_snd v _ _ _)

/-- Visitors that never fail come out of a shared visit as out of a visit of their own, and as many
elements are handed out as to the one that takes the most. If a visitor fails, then all of them were
shown the elements in front of the one it fails on; that element is seen by the visitors in front of
it that are not done, and not by those behind it, and the reader has all behind that element still to
offer. -/
theorem composite_shares (children : List (Visitor ν ε × ν)) (r : Reader σ) :
    let visit := apply composite r children
    let handedOut := (apply composite.watched r { state := children }).visitor.elements
    ((∀ child ∈ children, child.1.NeverFails) →
      visit.visitor = children.map (fun child => (child.1, (apply child.1 r child.2).visitor)) ∧
        handedOut.length = (children.map fun child =>
          (apply child.1.watched r { state := child.2 }).visitor.elements.length).foldr max 0) ∧
    ∀ failure, visit.outcome = .error (.visitor failure) →
      ∃ shown e, handedOut = shown ++ [e] ∧ (∀ child ∈ children, Takes shown child) ∧
        Refused e failure (children.map (alone shown)) visit.visitor ∧
          offered r = (shown ++ e :: (offered visit.reader).1, (offered visit.reader).2) := by
  intro visit handedOut
  -- A visit is a walk over what the reader has to offer, so all is said of such walks.
  have houtcome : visit.outcome = _ := congrArg Prod.fst (apply_eq_showAll composite r children)
  have hvisitor : visit.visitor = _ := congrArg Prod.snd (apply_eq_showAll composite r children)
  have hhanded : handedOut = composite.front (offered r).1 children :=
    apply_watched composite r children
  refine ⟨fun hnever => ?_, fun failure hfailure => ?_⟩
  · have htakes : Takes (offered r).1 (composite, children) :=
      takes_composite.mpr fun child hchild => (hnever child hchild).takes _
    refine ⟨?_, ?_⟩
    · rw [hvisitor, showAll_snd, alone_composite htakes]
      exact List.map_congr_left fun child _ =>
        congrArg (Prod.mk child.1) (apply_visitor child.1 r child.2).symm
    · rw [hhanded, length_front_composite htakes]
      exact congrArg _ (List.map_congr_left fun child _ =>
        congrArg List.length (apply_watched child.1 r child.2).symm)
  · obtain ⟨shown, e, rest, hoffered, htakes, hfront, hopen, hvisit⟩ :=
      exists_refused (houtcome.symm.trans hfailure)
    rw [alone_composite htakes] at hopen hvisit
    rw [← hvisitor] at hvisit
    have hspec : EachVisited e (children.map (alone shown))
        (composite.visit e (children.map (alone shown))) := visitEach_spec e _
    rw [hvisit] at hspec
    have hbroken := offered_of_broken composite r children (.inr ⟨failure, hfailure⟩)
    rw [hfront] at hbroken
    refine ⟨shown, e, hhanded.trans hfront, takes_composite.mp htakes, hspec, ?_⟩
    rw [hbroken, List.append_assoc]
    rfl

end

/-- A visitor that remembers the numbers of the elements it saw. It is done after `most` of them and
fails if it saw `refused` before. -/
def numbering (most refused : Option Nat) : Visitor (List Nat) Unit where
  visit e seen :=
    (if refused = some seen.length then .error () else .ok (), seen ++ [e.occurrence.index])
  isDone seen := most.any (· ≤ seen.length)

/-- A visitor that is done does not see the element on which one behind it fails. -/
theorem composite_skips_done :
    let r := ofSource {} (PushSource.ofBytes [0xEC, 0x81, 7, 0xEC, 0x81, 8])
    let visit := apply composite r [(numbering (some 1) none, []), (numbering none (some 1), [])]
    visit.outcome = .error (.visitor ()) ∧ visit.visitor.map Prod.snd = [[0], [0, 1]] := by
  intro r visit
  have hvisit : (visit.outcome, visit.visitor) = _ := apply_eq_showAll composite r _
  obtain ⟨houtcome, hvisitor⟩ := Prod.mk.inj hvisit
  rw [houtcome, hvisitor, offered_ofBytes]
  constructor
  · cbv
  · cbv

theorem neverFails_numbering (most : Option Nat) : (numbering most none).NeverFails :=
  fun e seen => by simp [numbering]

/-- Of three visitors the first is done after one of two elements and the second fails on the other.
Two visitors that do not fail come to what each comes to alone. -/
theorem composite_shares_two_voids :
    let r := ofSource {} (PushSource.ofBytes [0xEC, 0x81, 7, 0xEC, 0x81, 8])
    let once := (numbering (some 1) none, [])
    let picky := (numbering none (some 1), [])
    let tireless := (numbering none none, [])
    let broken := apply composite r [once, picky, tireless]
    let whole := apply composite r [once, tireless]
    (∃ shown e, (∀ child ∈ [once, picky, tireless], Takes shown child) ∧
      Refused e () ([once, picky, tireless].map (alone shown)) broken.visitor ∧
        offered r = (shown ++ e :: (offered broken.reader).1, (offered broken.reader).2)) ∧
    whole.visitor = [(once.1, [0]), (tireless.1, [0, 1])] ∧
    (apply composite.watched r { state := [once, tireless] }).visitor.elements.length = 2 := by
  intro r once picky tireless broken whole
  have hbroken : (broken.outcome, broken.visitor) = _ := apply_eq_showAll composite r _
  have houtcome : broken.outcome = .error (.visitor ()) := by
    rw [(Prod.mk.inj hbroken).1, offered_ofBytes]
    cbv
  obtain ⟨shown, e, -, htakes, hrefused, hoffered⟩ :=
    (composite_shares [once, picky, tireless] r).2 () houtcome
  have hnever : ∀ child ∈ [once, tireless], child.1.NeverFails := by
    simp [once, tireless, neverFails_numbering]
  obtain ⟨hstates, hcount⟩ := (composite_shares [once, tireless] r).1 hnever
  refine ⟨⟨shown, e, htakes, hrefused, hoffered⟩, hstates.trans ?_, hcount.trans ?_⟩
  · have honce : (alone (reading {} [0xEC, 0x81, 7, 0xEC, 0x81, 8]).1 once).2 = [0] := by cbv
    have htireless : (alone (reading {} [0xEC, 0x81, 7, 0xEC, 0x81, 8]).1 tireless).2 = [0, 1] := by
      cbv
    simp only [List.map, apply_visitor, offered_ofBytes, r]
    rw [honce, htireless]
  · simp only [List.map, apply_watched, offered_ofBytes, r]
    cbv

end Reader

end Ebml
