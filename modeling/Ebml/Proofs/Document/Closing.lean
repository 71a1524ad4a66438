import Ebml.Proofs.Document.Transcript

/-!
# Masters that end later than they could

Nothing marks the end of a master of unknown length, so a scan finds out only when something follows
that cannot be inside it, and until then it takes the master for open. At some places this makes no
difference: whatever comes next, first all such masters end (`Place.ClosesFrom`).
-/

namespace Ebml.Place

open Scanner (pathOf finishAll)

/-! ## Places inside more masters -/

/-- The place `n` bytes and `k` elements further. -/
def advance (p : Place) (n k : Nat) : Place :=
  { p with offset := p.offset + n, index := p.index + k, rest := p.rest.drop n }

theorem advance_advance (p : Place) (n k n' k' : Nat) :
    (p.advance n k).advance n' k' = p.advance (n + n') (k + k') := by
  simp [advance, Nat.add_assoc]

theorem skip_eq_advance (p : Place) (n : Nat) : p.skip n = p.advance n 1 := rfl

/-- The same place inside some more masters, innermost first. -/
def within (p : Place) (masters : List OpenMaster) : Place :=
  { p with stack := masters ++ p.stack }

theorem within_within (p : Place) (masters inner : List OpenMaster) :
    (p.within masters).within inner = p.within (inner ++ masters) := by
  simp [within]

/-- The ends of masters inside a stack, innermost first. -/
def ends : List OpenMaster → List OpenMaster → List Event
  | [], _ => []
  | m :: outer, stack => .finish m.element (pathOf (outer ++ stack)) :: ends outer stack

theorem ends_append (inner outer stack : List OpenMaster) :
    ends (inner ++ outer) stack = ends inner (outer ++ stack) ++ ends outer stack := by
  induction inner with
  | nil => rfl
  | cons m inner ih => rw [List.cons_append, ends, ends, ih, List.append_assoc, List.cons_append]

theorem finishAll_append (masters stack : List OpenMaster) :
    finishAll (masters ++ stack) = ends masters stack ++ finishAll stack := by
  induction masters with
  | nil => rfl
  | cons m masters ih => rw [List.cons_append, finishAll, ends, ih, List.cons_append]

/-! ## Places where they end first -/

/-- Masters of unknown length and of level `lo` or more that are still open here end before anything
else is told. -/
def ClosesFrom (schema : Schema) (lo : Int) (p : Place) : Prop :=
  ∀ masters : List OpenMaster, (∀ m ∈ masters, m.stop? = none ∧ lo ≤ m.element.decl.level) →
    (p.within masters).transcript schema = (p.transcript schema).after (ends masters p.stack)

section

variable {schema : Schema} {p : Place} {lo : Int}

theorem ClosesFrom.mono {lo' : Int} (h : p.ClosesFrom schema lo) (hle : lo ≤ lo') :
    p.ClosesFrom schema lo' := by
  intro masters hmasters
  refine h masters fun m hm => ⟨(hmasters m hm).1, ?_⟩
  have := (hmasters m hm).2
  omega

/-- To show that masters end first it is enough to look at the innermost one. -/
theorem closesFrom_of_innermost
    (h : ∀ (m : OpenMaster) (masters : List OpenMaster),
      (∀ m' ∈ m :: masters, m'.stop? = none ∧ lo ≤ m'.element.decl.level) →
        (p.within (m :: masters)).transcript schema =
          ((p.within masters).transcript schema).after
            [.finish m.element (pathOf (masters ++ p.stack))]) :
    p.ClosesFrom schema lo := by
  intro masters hmasters
  induction masters with
  | nil => rfl
  | cons m masters ih =>
    have hrest := ih fun m' hm' => hmasters m' (List.mem_cons_of_mem _ hm')
    rw [h m masters hmasters, hrest, ends, ← Transcript.after_append]
    rfl

/-- At the end of the bytes all masters end. -/
theorem closesFrom_of_nil (hrest : p.rest = []) : p.ClosesFrom schema lo := by
  intro masters _
  have hwithin : (p.within masters).rest = [] := hrest
  rw [transcript_nil hwithin, transcript_nil hrest]
  show Transcript.mk (finishAll (masters ++ p.stack)) _ = _
  rw [finishAll_append]
  rfl

/-- At the end of a master of known length everything inside it ends. -/
theorem closesFrom_of_exhausted (h : p.isExhausted = true) : p.ClosesFrom schema lo := by
  apply closesFrom_of_innermost
  intro m masters _
  have hwithin : (p.within (m :: masters)).isExhausted = true := by
    show (m :: (masters ++ p.stack)).any _ = true
    rw [← List.cons_append, List.any_append]
    simp only [Bool.or_eq_true]
    exact .inr h
  exact transcript_of_exhausted rfl hwithin

theorem isExhausted_within {m : OpenMaster} {stop : Nat} (hstop : m.stop? = some stop)
    (hle : stop ≤ p.offset) : (p.within [m]).isExhausted = true := by
  show (m :: p.stack).any _ = true
  rw [List.any_cons, Bool.or_eq_true]
  left
  rw [hstop]
  exact decide_eq_true hle

theorem HasHeader.within {header : Header} {used : Nat} {masters : List OpenMaster}
    (h : p.HasHeader header used) (hmasters : ∀ m ∈ masters, m.stop? = none) :
    (p.within masters).HasHeader header used := by
  refine ⟨?_, h.decode_eq⟩
  have hnone : masters.any (fun m => m.stop?.any (· ≤ p.offset)) = false := by
    rw [List.any_eq_false]
    intro m hm
    simp [hmasters m hm]
  show (masters ++ p.stack).any _ = false
  rw [List.any_append, Bool.or_eq_false_iff]
  exact ⟨hnone, h.not_exhausted⟩

/-- Before an element that cannot be inside them masters end. -/
theorem closesFrom_of_header {header : Header} {used : Nat} {decl : ElementDecl}
    (h : p.HasHeader header used) (hdecl : schema.get? header.id = some decl)
    (hknown : (header.size.isUnknown && !decl.isMaster) = false)
    (hglobal : decl.isGlobal = false) (hlevel : decl.level ≤ lo) : p.ClosesFrom schema lo := by
  apply closesFrom_of_innermost
  intro m masters hmasters
  have hwithin := h.within fun m' hm' => (hmasters m' hm').1
  obtain ⟨hstop, hlo⟩ := hmasters m List.mem_cons_self
  apply hwithin.transcript_level hdecl hknown rfl
  have hle : decl.level ≤ m.element.decl.level := by omega
  simp [endsByLevel, hglobal, hstop, hle]

/-- An element outside the schema does not say whether masters end, so what follows it does. -/
theorem ClosesFrom.of_skip {header : Header} {used n : Nat} (h : p.HasHeader header used)
    (hnone : schema.get? header.id = none) (hsize : header.size = .known n)
    (hnext : (p.skip (used + n)).ClosesFrom schema lo) : p.ClosesFrom schema lo := by
  intro masters hmasters
  have hwithin := h.within fun m hm => (hmasters m hm).1
  rw [h.transcript_skip hnone hsize, hwithin.transcript_skip hnone hsize]
  exact hnext masters hmasters

/-- Where a master of unknown length ends, it ends. -/
theorem ClosesFrom.transcript_within {m : OpenMaster} (h : p.ClosesFrom schema lo)
    (hstop : m.stop? = none) (hlevel : lo ≤ m.element.decl.level) :
    (p.within [m]).transcript schema =
      (p.transcript schema).after [.finish m.element (pathOf p.stack)] :=
  h [m] (by simp [hstop, hlevel])

/-- Where a master of unknown length ends, what is open inside it ends. -/
theorem ClosesFrom.within {m : OpenMaster} {lo' : Int} (h : p.ClosesFrom schema lo)
    (hstop : m.stop? = none) (hlevel : lo ≤ m.element.decl.level) (hle : lo ≤ lo') :
    (p.within [m]).ClosesFrom schema lo' := by
  intro masters hmasters
  have hall : ∀ m' ∈ masters ++ [m], m'.stop? = none ∧ lo ≤ m'.element.decl.level := by
    intro m' hm'
    rcases List.mem_append.mp hm' with hm' | hm'
    · obtain ⟨hstop', hlo'⟩ := hmasters m' hm'
      exact ⟨hstop', by omega⟩
    · rw [List.mem_singleton.mp hm']
      exact ⟨hstop, hlevel⟩
  rw [within_within, h _ hall, h.transcript_within hstop hlevel, ends_append,
    Transcript.after_append]
  rfl

end

end Ebml.Place
