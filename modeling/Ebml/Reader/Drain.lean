import Ebml.Reader.Measure

/-!
# Reading to the end

`takeAvailable` hands out every element that the bytes now there give. `drain` goes on to the end of
the source and hands out everything. Both keep the elements that came before a failure.
-/

namespace Ebml.Reader

variable {σ : Type} [FiniteSource σ]

/-- Elements handed out, how that ended, and the reader afterwards. -/
structure Taken (σ : Type) where
  elements : List Element
  outcome : Except ScanError Unit
  reader : Reader σ

/-- The elements that can be had without more bytes. -/
def takeAvailable (r : Reader σ) : Taken σ :=
  match _h : r.next? with
  | (.error e, r') => ⟨[], .error e, r'⟩
  | (.ok none, r') => ⟨[], .ok (), r'⟩
  | (.ok (some element), r') =>
    let rest := takeAvailable r'
    ⟨element :: rest.elements, rest.outcome, rest.reader⟩
termination_by r.measure
decreasing_by exact next?_some_nearer _h

/-- Where a drain stopped. -/
inductive DrainEnd
  /-- After the last element. -/
  | ended
  /-- At a source that has no byte now but may get more. -/
  | starved
  /-- It could not be found out whether there is another element. -/
  | unreadable (e : ScanError)
  /-- The next element could not be read. -/
  | malformed (e : ScanError)
  deriving DecidableEq, Repr

/-- The error that stopped a drain. -/
def DrainEnd.error? : DrainEnd → Option ScanError
  | ended => none
  | starved => none
  | unreadable e => some e
  | malformed e => some e

/-- Elements handed out, where that stopped, and the reader afterwards. -/
structure Drained (σ : Type) where
  elements : List Element
  stop : DrainEnd
  reader : Reader σ

/-- A round that hands out an element brings the reader nearer to its end. -/
theorem nearer_of_some {r r' r'' : Reader σ} {e : Element} (hm : r.mayHaveNext = (.ok true, r'))
    (hn : r'.next? = (.ok (some e), r'')) : Nearer r'' r := by
  have hn' := next?_some_nearer hn
  rcases mayHaveNext_cases hm with ⟨_, rfl⟩ | ⟨_, _, _, rfl⟩ | ⟨_, hadv⟩
  · exact hn'
  · have he := FiniteSource.remaining_eof r.source
    have hpop := hn'
    simp only [Nearer, measure, Prod.lex_def] at hn' ⊢
    rcases hn' with h | ⟨h, h'⟩
    · exact .inl (by omega)
    · rcases Nat.lt_or_eq_of_le he with hlt | heq
      · exact .inl (by omega)
      · exact .inr ⟨by omega, h'⟩
  · simp only [Nearer, measure, Prod.lex_def] at hn' ⊢
    unfold Advances at hadv
    omega

/-- A round without an element, but with bytes read or the scan closed, brings the reader nearer to
its end. -/
theorem nearer_of_none {r r' r'' : Reader σ} (hm : r.mayHaveNext = (.ok true, r'))
    (hn : r'.next? = (.ok none, r''))
    (hprogress : r'.bytesRead < r''.bytesRead ∨ r''.scanner.closed = true) : Nearer r'' r := by
  obtain ⟨hp, rfl⟩ := next?_none hn
  have hacc := scan_accounts r'
  have hstays := scan_stays r'
  rcases mayHaveNext_cases hm with ⟨hp', rfl⟩ | ⟨_, hc, _, rfl⟩ | ⟨_, hadv⟩
  · simp [hp'] at hp
  · rcases hprogress with hlt | hclosed
    · refine Advances.nearer (.inl ?_)
      have := hacc.remaining_add_le
      have he := FiniteSource.remaining_eof r.source
      unfold bytesRead at hlt
      dsimp only at *
      omega
    · rw [hacc.closed_eq] at hclosed
      simp [hc] at hclosed
  · exact (hadv.trans_stays hstays).nearer

/-- Hand out everything to the end of the source. A source that is at its end, or whose stream is
read until it ends, never starves the reader. -/
def drain (r : Reader σ) : Drained σ :=
  match _hm : r.mayHaveNext with
  | (.error e, r') => ⟨[], .unreadable e, r'⟩
  | (.ok false, r') => ⟨[], .ended, r'⟩
  | (.ok true, r') =>
    match _hn : r'.next? with
    | (.error e, r'') => ⟨[], .malformed e, r''⟩
    | (.ok (some element), r'') =>
      let rest := drain r''
      ⟨element :: rest.elements, rest.stop, rest.reader⟩
    | (.ok none, r'') =>
      if _hprogress : r'.bytesRead < r''.bytesRead ∨ r''.scanner.closed = true then drain r''
      else ⟨[], .starved, r''⟩
termination_by r.measure
decreasing_by
  · exact nearer_of_some _hm _hn
  · exact nearer_of_none _hm _hn _hprogress

end Ebml.Reader
