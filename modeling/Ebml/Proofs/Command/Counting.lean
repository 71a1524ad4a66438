import Mathlib
import Ebml.Command

/-!
# Counting element by element

A check and statistics keep counts while a document is read, and know of an element only what they
have counted before. What they end with is what can be counted in the document as a whole
(`Validation.ofElements_eq`, `Statistics.ofElements_eq`). For statistics the rows of the names are in
the order in which the names first occur, and those of the tracks in ascending order; either way one
more element changes or adds the one row of its key (`NameCount.tally_map`, `TrackCount.tally_map`).
-/

namespace Ebml

theorem filterMap_concat {α β : Type} (f : α → Option β) (xs : List α) (x : α) :
    (xs ++ [x]).filterMap f = xs.filterMap f ++ (f x).toList := by
  cases h : f x <;> simp [h]

/-! ## Checks -/

namespace Validation

/-- What is wrong with the data of a leaf that is all there. -/
def fault? (l : Leaf) : Option (Occurrence × ValueError) :=
  if l.isTruncated then none
  else
    match l.value with
    | .ok _ => none
    | .error e => some (l.element, e)

/-- The findings about a document as a whole. -/
def ofDocument (elements : List Element) : Validation :=
  let leaves := elements.filterMap Element.leaf?
  { elements := elements.countP Element.isStart + leaves.length
    containers := elements.countP Element.isStart
    leaves := leaves.length
    truncated := leaves.countP Leaf.isTruncated
    faults := leaves.filterMap fault? }

theorem ofDocument_concat (elements : List Element) (e : Element) :
    ofDocument (elements ++ [e]) = (ofDocument elements).see e := by
  simp only [ofDocument, filterMap_concat, List.countP_append, List.countP_singleton]
  cases e with
  | start => simp [see, Element.leaf?, Element.isStart, Nat.add_right_comm]
  | finish => simp [see, Element.leaf?, Element.isStart]
  | leaf l =>
    cases htruncated : l.isTruncated with
    | true => simp [see, seeLeaf, fault?, Element.leaf?, Element.isStart, htruncated, Nat.add_assoc]
    | false =>
      cases hvalue : l.value <;>
        simp [see, seeLeaf, fault?, Element.leaf?, Element.isStart, htruncated, hvalue,
          Nat.add_assoc]

/-- A check finds element by element what there is to find in the document. -/
theorem ofElements_eq (elements : List Element) : ofElements elements = ofDocument elements := by
  induction elements using List.reverseRecOn with
  | nil => rfl
  | append_singleton rest e ih =>
    rw [ofDocument_concat, ← ih, ofElements, ofElements, List.foldl_concat]

end Validation

/-! ## Rows of names -/

/-- The name that an element is counted under. -/
def Statistics.nameOf (e : Element) : String :=
  e.occurrence.decl.name

open Statistics (nameOf)

theorem nodup_eraseDups {α : Type} [DecidableEq α] (xs : List α) : xs.eraseDups.Nodup := by
  induction hn : xs.length using Nat.strong_induction_on generalizing xs with
  | _ n ih =>
    cases xs with
    | nil => simp
    | cons x rest =>
      rw [List.eraseDups_cons, List.nodup_cons, List.mem_eraseDups]
      refine ⟨by simp, ih _ ?_ _ rfl⟩
      have := List.length_filter_le (fun y => !y == x) rest
      rw [List.length_cons] at hn
      omega

theorem eraseDups_concat {α : Type} [DecidableEq α] (xs : List α) (x : α) :
    (xs ++ [x]).eraseDups = if x ∈ xs.eraseDups then xs.eraseDups else xs.eraseDups ++ [x] := by
  have hone : [x].eraseDups = [x] := by simp [List.eraseDups_cons]
  rw [List.eraseDups_append, List.removeAll]
  by_cases hx : x ∈ xs <;> simp [hx, hone]

namespace NameCount

/-- The count of a name among `parts`. -/
def ofParts (parts : List Element) (name : String) : NameCount :=
  let named := parts.filter fun e => nameOf e = name
  ⟨name, named.length, (named.flatMap Element.raw).length⟩

theorem ofParts_concat (parts : List Element) (e : Element) (name : String) :
    ofParts (parts ++ [e]) name =
      if nameOf e = name then
        ⟨name, (ofParts parts name).count + 1, (ofParts parts name).bytes + e.raw.length⟩
      else ofParts parts name := by
  by_cases hname : nameOf e = name <;> simp [ofParts, hname]

theorem ofParts_eq_of_absent {parts : List Element} {name : String}
    (h : ∀ e ∈ parts, nameOf e ≠ name) : ofParts parts name = ⟨name, 0, 0⟩ := by
  have hnone : (parts.filter fun e => nameOf e = name) = [] :=
    List.filter_eq_nil_iff.mpr fun e he => by simpa using h e he
  simp [ofParts, hnone]

/-- One more element changes the row of its name, or adds one behind the others. -/
theorem tally_map {parts : List Element} (e : Element) {names : List String} (hnodup : names.Nodup)
    (habsent : nameOf e ∉ names → ∀ p ∈ parts, nameOf p ≠ nameOf e) :
    tally (nameOf e) e.raw.length (names.map (ofParts parts)) =
      (if nameOf e ∈ names then names else names ++ [nameOf e]).map (ofParts (parts ++ [e])) := by
  induction names with
  | nil =>
    rw [if_neg List.not_mem_nil, List.nil_append, List.map_singleton, ofParts_concat, if_pos rfl,
      ofParts_eq_of_absent (habsent List.not_mem_nil)]
    simp [tally]
  | cons name rest ih =>
    obtain ⟨hname, hrest⟩ := List.nodup_cons.mp hnodup
    by_cases hown : name = nameOf e
    · subst hown
      -- The name stands here, so further on it does not, and those rows are as before.
      have hothers : rest.map (ofParts (parts ++ [e])) = rest.map (ofParts parts) :=
        List.map_congr_left fun other hother => by
          rw [ofParts_concat, if_neg]
          rintro rfl
          exact hname hother
      rw [if_pos List.mem_cons_self, List.map_cons, List.map_cons, hothers, ofParts_concat,
        if_pos rfl, tally]
      exact if_pos rfl
    · -- This row belongs to another name. It stays, and the others are as the induction says.
      have hmem : nameOf e ∈ name :: rest ↔ nameOf e ∈ rest := by simp [Ne.symm hown]
      have ih := ih hrest fun hnot => habsent (mt hmem.mp hnot)
      have hrow : ofParts (parts ++ [e]) name = ofParts parts name := by
        rw [ofParts_concat, if_neg (Ne.symm hown)]
      have hstep : tally (nameOf e) e.raw.length ((name :: rest).map (ofParts parts)) =
          ofParts parts name :: tally (nameOf e) e.raw.length (rest.map (ofParts parts)) :=
        if_neg hown
      rw [hstep, ih]
      by_cases hin : nameOf e ∈ rest <;> simp [hin, hmem, hrow]

/-- A row for each name among `parts`, in the order of their first elements. -/
def rowsOf (parts : List Element) : List NameCount :=
  (parts.map nameOf).eraseDups.map (ofParts parts)

theorem rowsOf_concat (parts : List Element) (e : Element) :
    rowsOf (parts ++ [e]) = tally (nameOf e) e.raw.length (rowsOf parts) := by
  rw [rowsOf, rowsOf, tally_map e (nodup_eraseDups _), List.map_append, List.map_singleton,
    eraseDups_concat]
  intro hnot p hp heq
  exact hnot (List.mem_eraseDups.mpr (heq ▸ List.mem_map_of_mem hp))

end NameCount

/-! ## Rows of tracks -/

namespace TrackCount

/-- The count of a track among `frames`. -/
def ofFrames (frames : List Frame) (track : Nat) : TrackCount :=
  let own := frames.filter fun f => f.track = track
  ⟨track, own.length, own.countP Frame.keyFrame⟩

theorem ofFrames_concat (frames : List Frame) (f : Frame) (track : Nat) :
    ofFrames (frames ++ [f]) track =
      if f.track = track then
        ⟨track, (ofFrames frames track).frames + 1,
          (ofFrames frames track).keyFrames + f.keyFrame.toNat⟩
      else ofFrames frames track := by
  by_cases htrack : f.track = track <;> cases hkey : f.keyFrame <;> simp [ofFrames, htrack, hkey]

theorem ofFrames_eq_of_absent {frames : List Frame} {track : Nat}
    (h : ∀ f ∈ frames, f.track ≠ track) : ofFrames frames track = ⟨track, 0, 0⟩ := by
  have hnone : (frames.filter fun f => f.track = track) = [] :=
    List.filter_eq_nil_iff.mpr fun f hf => by simpa using h f hf
  simp [ofFrames, hnone]

/-- One more track in its place among those in ascending order. -/
def insertTrack (track : Nat) : List Nat → List Nat
  | [] => [track]
  | other :: rest =>
    if track < other then track :: other :: rest
    else if track = other then other :: rest
    else other :: insertTrack track rest

theorem mem_insertTrack (track : Nat) (tracks : List Nat) (other : Nat) :
    other ∈ insertTrack track tracks ↔ other = track ∨ other ∈ tracks := by
  induction tracks with
  | nil => simp [insertTrack]
  | cons first rest ih =>
    rw [insertTrack]
    split
    · simp
    · split
      · rename_i heq
        simp [heq]
      · simp only [List.mem_cons, ih]
        exact or_left_comm

theorem pairwise_insertTrack (track : Nat) {tracks : List Nat} (h : tracks.Pairwise (· < ·)) :
    (insertTrack track tracks).Pairwise (· < ·) := by
  induction tracks with
  | nil => exact List.pairwise_singleton _ _
  | cons first rest ih =>
    obtain ⟨hfirst, hrest⟩ := List.pairwise_cons.mp h
    rw [insertTrack]
    split
    · rename_i hlt
      refine List.pairwise_cons.mpr ⟨fun other hother => ?_, h⟩
      obtain rfl | hmem := List.mem_cons.mp hother
      · exact hlt
      · exact hlt.trans (hfirst other hmem)
    · split
      · exact h
      · rename_i hge hne
        refine List.pairwise_cons.mpr ⟨fun other hother => ?_, ih hrest⟩
        obtain rfl | hmem := (mem_insertTrack _ _ _).mp hother
        · omega
        · exact hfirst other hmem

/-- One more frame changes the row of its track, or puts one in its place. -/
theorem tally_map {frames : List Frame} (f : Frame) {tracks : List Nat}
    (hsorted : tracks.Pairwise (· < ·))
    (habsent : f.track ∉ tracks → ∀ g ∈ frames, g.track ≠ f.track) :
    tally f (tracks.map (ofFrames frames)) =
      (insertTrack f.track tracks).map (ofFrames (frames ++ [f])) := by
  have hothers {others : List Nat} (h : f.track ∉ others) :
      others.map (ofFrames (frames ++ [f])) = others.map (ofFrames frames) :=
    List.map_congr_left fun other hother => by
      rw [ofFrames_concat, if_neg]
      rintro rfl
      exact h hother
  have hnew (h : f.track ∉ tracks) :
      ofFrames (frames ++ [f]) f.track = ⟨f.track, 1, f.keyFrame.toNat⟩ := by
    rw [ofFrames_concat, if_pos rfl, ofFrames_eq_of_absent (habsent h)]
    simp
  induction tracks with
  | nil => simp [insertTrack, tally, hnew]
  | cons first rest ih =>
    obtain ⟨hfirst, hrest⟩ := List.pairwise_cons.mp hsorted
    have hkey : (ofFrames frames first).track = first := rfl
    rw [List.map_cons, tally, insertTrack, hkey]
    split
    · -- All rows are those of greater tracks.
      rename_i hlt
      have hnot : f.track ∉ first :: rest := by
        intro hmem
        obtain heq | hmem := List.mem_cons.mp hmem
        · omega
        · exact absurd (hfirst _ hmem) (by omega)
      rw [List.map_cons, hnew hnot, hothers hnot, List.map_cons]
    · split
      · rename_i heq
        have hnot : f.track ∉ rest := fun hmem => absurd (hfirst _ hmem) (by omega)
        rw [List.map_cons, hothers hnot, ofFrames_concat, if_pos heq]
      · rename_i hne
        have hmem : f.track ∈ first :: rest ↔ f.track ∈ rest := by simp [hne]
        have hrow : ofFrames (frames ++ [f]) first = ofFrames frames first := by
          rw [ofFrames_concat, if_neg hne]
        rw [List.map_cons, hrow, ih hrest (fun h => habsent (mt hmem.mp h))
          fun h => hnew (mt hmem.mp h)]

/-- The tracks of frames, in ascending order. -/
def tracksOf (frames : List Frame) : List Nat :=
  (frames.map Frame.track).eraseDups.mergeSort fun a b => decide (a ≤ b)

theorem mem_tracksOf {frames : List Frame} {track : Nat} :
    track ∈ tracksOf frames ↔ ∃ f ∈ frames, f.track = track := by
  rw [tracksOf, (List.mergeSort_perm _ _).mem_iff, List.mem_eraseDups, List.mem_map]

theorem nodup_tracksOf (frames : List Frame) : (tracksOf frames).Nodup :=
  (List.mergeSort_perm _ _).nodup_iff.mpr (nodup_eraseDups _)

theorem pairwise_tracksOf (frames : List Frame) : (tracksOf frames).Pairwise (· < ·) := by
  have hsorted : (tracksOf frames).Pairwise fun a b => decide (a ≤ b) = true :=
    List.pairwise_mergeSort (fun a b c => by simpa using Nat.le_trans)
      (fun a b => by simpa using Nat.le_total a b) _
  refine (hsorted.and (nodup_tracksOf frames)).imp ?_
  rintro a b ⟨hle, hne⟩
  exact Nat.lt_of_le_of_ne (of_decide_eq_true hle) hne

theorem tracksOf_concat (frames : List Frame) (f : Frame) :
    tracksOf (frames ++ [f]) = insertTrack f.track (tracksOf frames) := by
  have hsorted := pairwise_insertTrack f.track (pairwise_tracksOf frames)
  have hperm : (tracksOf (frames ++ [f])).Perm (insertTrack f.track (tracksOf frames)) := by
    refine (List.perm_ext_iff_of_nodup (nodup_tracksOf _) (hsorted.imp Nat.ne_of_lt)).mpr fun track => ?_
    rw [mem_insertTrack, mem_tracksOf, mem_tracksOf]
    simp [or_comm, eq_comm]
  exact hperm.eq_of_pairwise (fun a b _ _ hab hba => absurd hab (Nat.lt_asymm hba))
    (pairwise_tracksOf _) hsorted

/-- A row for each track of `frames`, in ascending order. -/
def rowsOf (frames : List Frame) : List TrackCount :=
  (tracksOf frames).map (ofFrames frames)

theorem rowsOf_concat (frames : List Frame) (f : Frame) :
    rowsOf (frames ++ [f]) = tally f (rowsOf frames) := by
  rw [rowsOf, rowsOf, tally_map f (pairwise_tracksOf frames), tracksOf_concat]
  exact fun hnot g hg heq => hnot (mem_tracksOf.mpr ⟨g, hg, heq⟩)

end TrackCount

/-! ## Statistics -/

namespace Statistics

/-- The elements that are counted. -/
def parts (elements : List Element) : List Element :=
  elements.filter fun e => !e.isFinish

/-- Whether a master starts here that does not say how long it is. -/
def hasUnknownLength : Element → Bool
  | .start _ _ size _ => size.isUnknown
  | _ => false

/-- The frame of a leaf, if it is a simple block that holds one. -/
def goodFrame? (l : Leaf) : Option Frame :=
  match l.frame? with
  | .ok frame => frame
  | .error _ => none

/-- Whether a leaf is a simple block that holds no frame. -/
def isMalformedFrame (l : Leaf) : Bool :=
  match l.frame? with
  | .ok _ => false
  | .error _ => true

/-- The frames of a document. -/
def goodFrames (elements : List Element) : List Frame :=
  (elements.filterMap Element.leaf?).filterMap goodFrame?

/-- The numbers of a document as a whole. -/
def ofDocument (elements : List Element) : Statistics :=
  let leaves := elements.filterMap Element.leaf?
  { containers := elements.countP Element.isStart
    leaves := leaves.length
    unknownLength := elements.countP hasUnknownLength
    maxDepth := ((parts elements).map Element.depth).foldl max 0
    malformedFrames := leaves.countP isMalformedFrame
    names := NameCount.rowsOf (parts elements)
    tracks := TrackCount.rowsOf (goodFrames elements) }

theorem ofDocument_concat (elements : List Element) (e : Element) :
    ofDocument (elements ++ [e]) = (ofDocument elements).see e := by
  have hparts : parts (elements ++ [e]) = parts elements ++ if e.isFinish then [] else [e] := by
    cases hfinish : e.isFinish <;> simp [parts, hfinish]
  have hframes : goodFrames (elements ++ [e]) =
      goodFrames elements ++ (e.leaf?.bind goodFrame?).toList := by
    rw [goodFrames, goodFrames, filterMap_concat, List.filterMap_append]
    cases e.leaf? with
    | none => rfl
    | some l => exact congrArg (_ ++ ·) (filterMap_concat goodFrame? [] l)
  -- Each number is a count, a list or a maximum over a row, so one more element adds its own share.
  simp only [ofDocument, hparts, hframes, filterMap_concat, List.countP_append,
    List.countP_singleton]
  cases e with
  | start o path size header =>
    cases hsize : size.isUnknown <;>
      simp [see, seePart, NameCount.rowsOf_concat, Element.leaf?, Element.isStart, Element.isFinish,
        Element.raw, List.foldl_append, hasUnknownLength, hsize, nameOf]
  | finish o path =>
    simp [see, Element.leaf?, Element.isStart, Element.isFinish, hasUnknownLength]
  | leaf l =>
    cases hframe : l.frame? with
    | error failure =>
      simp [see, seeFrame, seePart, NameCount.rowsOf_concat, Element.leaf?, Element.isStart,
        Element.isFinish, Element.raw, List.foldl_append, hasUnknownLength, isMalformedFrame,
        goodFrame?, hframe, nameOf]
    | ok frame? =>
      cases frame? <;>
        simp [see, seeFrame, seePart, NameCount.rowsOf_concat, TrackCount.rowsOf_concat,
          Element.leaf?, Element.isStart, Element.isFinish, Element.raw, List.foldl_append,
          hasUnknownLength, isMalformedFrame, goodFrame?, hframe, nameOf]

/-- Statistics count element by element what there is to count in the document. -/
theorem ofElements_eq (elements : List Element) : ofElements elements = ofDocument elements := by
  induction elements using List.reverseRecOn with
  | nil => simp [ofElements, ofDocument, parts, goodFrames, NameCount.rowsOf, TrackCount.rowsOf,
      TrackCount.tracksOf]
  | append_singleton rest e ih =>
    rw [ofDocument_concat, ← ih, ofElements, ofElements, List.foldl_concat]

end Statistics

end Ebml
