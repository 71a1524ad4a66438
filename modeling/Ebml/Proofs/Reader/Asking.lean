import Ebml.Proofs.Reader.Mixing

/-!
# What is asked of a source

A metered source keeps a record of all that is requested of it and is otherwise the source itself. The
record of a scan falls into rounds: the scan asks how many bytes there are, and then it requests some,
but no more than it was told (`parse_metered`). Pushed bytes are handed out without fail as far as
they were announced, so over these no scan and no reader ever fails for its source
(`requests_within_announced`).
-/

namespace Ebml

/-! ## Metered sources -/

/-- What can be requested of a source. Where the number of bytes is asked for, the answer goes on
record with the request. -/
inductive Request
  | available (answer : Except IoError Nat)
  | readByte
  | readBytes (n : Nat)
  | eof

namespace Request

/-- How many bytes are requested. -/
def wanted : Request → Nat
  | readByte => 1
  | readBytes n => n
  | _ => 0

def isAvailable : Request → Bool
  | available _ => true
  | _ => false

/-- Whether bytes are requested, be it none. -/
def isRead : Request → Bool
  | readByte => true
  | readBytes _ => true
  | _ => false

end Request

/-- How many bytes an answer announces. A failure announces none. -/
def announced : Except IoError Nat → Nat
  | .ok n => n
  | .error _ => 0

/-- A source with all requests so far. -/
structure Metered (σ : Type) where
  source : σ
  requests : List Request := []

namespace Metered

variable {σ : Type} [FiniteSource σ]

def available (m : Metered σ) : Except IoError Nat × Metered σ :=
  let (answer, source) := ByteSource.available m.source
  (answer, ⟨source, m.requests ++ [.available answer]⟩)

def readByte (m : Metered σ) : Except IoError (Option UInt8) × Metered σ :=
  let (answer, source) := ByteSource.readByte m.source
  (answer, ⟨source, m.requests ++ [.readByte]⟩)

def readBytes (n : Nat) (m : Metered σ) : Except IoError Bytes × Metered σ :=
  let (answer, source) := ByteSource.readBytes n m.source
  (answer, ⟨source, m.requests ++ [.readBytes n]⟩)

def eof (m : Metered σ) : Except IoError Bool × Metered σ :=
  let (answer, source) := ByteSource.eof m.source
  (answer, ⟨source, m.requests ++ [.eof]⟩)

instance : FiniteSource (Metered σ) where
  available := available
  readByte := readByte
  readBytes := readBytes
  eof := eof
  remaining m := FiniteSource.remaining m.source
  length_readBytes n m := ByteSource.length_readBytes n m.source
  remaining_available m := FiniteSource.remaining_available m.source
  remaining_readByte m := FiniteSource.remaining_readByte m.source
  remaining_readBytes n m := FiniteSource.remaining_readBytes n m.source
  remaining_eof m := FiniteSource.remaining_eof m.source

end Metered

/-! ## Rounds of requests -/

/-- Requests that fall into rounds, each of them a question how many bytes there are and reads of no
more bytes in all than were announced. -/
inductive Rounds : List Request → Prop
  | nil : Rounds []
  | round {answer : Except IoError Nat} {reads later : List Request} :
      (∀ q ∈ reads, q.isAvailable = false ∧ 0 < q.wanted) →
        (reads.map Request.wanted).sum ≤ announced answer → Rounds later →
          Rounds (.available answer :: (reads ++ later))

/-- Between one question how many bytes there are and the next, no more bytes are requested than were
announced and nothing at all if none were, and nothing is requested before the first. -/
structure Thrifty (requests : List Request) : Prop where
  within : ∀ before answer between, before ++ .available answer :: between <+: requests →
    (∀ q ∈ between, q.isAvailable = false) →
      (between.map Request.wanted).sum ≤ announced answer ∧
        (announced answer = 0 → ∀ q ∈ between, q.isRead = false)
  unasked : ∀ before, before <+: requests → (∀ q ∈ before, q.isAvailable = false) →
    ∀ q ∈ before, q.isRead = false

namespace Rounds

variable {requests later : List Request}

theorem append (h : Rounds requests) (h' : Rounds later) : Rounds (requests ++ later) := by
  induction h with
  | nil => exact h'
  | round hreads hsum _ ih =>
    rw [List.cons_append, List.append_assoc]
    exact .round hreads hsum ih

/-- Nothing but a question stands at the beginning of a round. -/
theorem eq_nil_of_prefix {front : List Request} (h : Rounds requests) (hfront : front <+: requests)
    (hnone : ∀ q ∈ front, q.isAvailable = false) : front = [] := by
  cases h with
  | nil => exact List.prefix_nil.mp hfront
  | round =>
    cases front with
    | nil => rfl
    | cons q rest =>
      obtain ⟨rfl, -⟩ := List.cons_prefix_cons.mp hfront
      simpa [Request.isAvailable] using hnone _ List.mem_cons_self

/-- The requests between two questions are among the reads of one round. -/
theorem prefix_reads {between reads : List Request} (h : Rounds later)
    (hbetween : between <+: reads ++ later) (hnone : ∀ q ∈ between, q.isAvailable = false) :
    between <+: reads := by
  obtain ⟨rest, heq⟩ := hbetween
  rcases List.append_eq_append_iff.mp heq with ⟨more, rfl, -⟩ | ⟨more, rfl, hlater⟩
  · exact List.prefix_append _ _
  · have hmore : more = [] := h.eq_nil_of_prefix ⟨rest, hlater.symm⟩ fun q hq =>
      hnone q (List.mem_append_right _ hq)
    rw [hmore, List.append_nil]

theorem thrifty (h : Rounds requests) : Thrifty requests := by
  refine ⟨?_, fun before hbefore hnone => by simp [h.eq_nil_of_prefix hbefore hnone]⟩
  induction h with
  | nil => intro before answer between hprefix; simp at hprefix
  | @round answer reads later hreads hsum hlater ih =>
    intro before answer' between hprefix hnone
    cases before with
    | nil =>
      -- The question is the one of this round.
      obtain ⟨hanswer, hbetween⟩ := List.cons_prefix_cons.mp hprefix
      obtain rfl := Request.available.inj hanswer
      have hwithin := hlater.prefix_reads hbetween hnone
      have hle := (hwithin.sublist.map Request.wanted).sum_le_sum (by simp)
      refine ⟨Nat.le_trans hle hsum, fun hzero q hq => ?_⟩
      have hpos := (hreads q (hwithin.subset hq)).2
      have hmem := List.single_le_sum (by simp) _ (List.mem_map_of_mem (f := Request.wanted) hq)
      omega
    | cons q before =>
      -- The question is asked in a later round, since the reads of this one are none.
      obtain ⟨-, hrest⟩ := List.cons_prefix_cons.mp hprefix
      change before ++ .available answer' :: between <+: reads ++ later at hrest
      obtain ⟨rest, heq⟩ := hrest
      rw [List.append_assoc] at heq
      rcases List.append_eq_append_iff.mp heq with ⟨more, hmore, hlater'⟩ | ⟨more, -, hlater'⟩
      · cases more with
        | nil => exact ih [] answer' between ⟨rest, hlater'⟩ hnone
        | cons q' more =>
          obtain ⟨rfl, -⟩ := List.cons.inj hlater'
          have hquestion := (hreads (.available answer') (by rw [hmore]; simp)).1
          simp [Request.isAvailable] at hquestion
      · exact ih more answer' between ⟨rest, by rw [List.append_assoc, hlater']⟩ hnone

end Rounds

/-! ## Scans of metered sources -/

/-- A metered source went through some rounds of requests, and it is the given source now. -/
structure Meters {σ : Type} (m : Metered σ) (source : σ) (m' : Metered σ) : Prop where
  source_eq : m'.source = source
  rounds : ∃ new, m'.requests = m.requests ++ new ∧ Rounds new

namespace Meters

variable {σ : Type} {m m' m'' : Metered σ} {s s' : σ}

theorem refl (m : Metered σ) : Meters m m.source m :=
  ⟨rfl, [], (List.append_nil _).symm, .nil⟩

theorem trans (h : Meters m s m') (h' : Meters m' s' m'') : Meters m s' m'' := by
  obtain ⟨new, hnew, hrounds⟩ := h.rounds
  obtain ⟨more, hmore, hrounds'⟩ := h'.rounds
  exact ⟨h'.source_eq, new ++ more, by rw [hmore, hnew, List.append_assoc], hrounds.append hrounds'⟩

/-- One round: a question, and then reads of no more than was announced. -/
theorem round {answer : Except IoError Nat} {reads : List Request} (hsource : m'.source = s)
    (hrequests : m'.requests = m.requests ++ .available answer :: reads)
    (hreads : ∀ q ∈ reads, q.isAvailable = false ∧ 0 < q.wanted)
    (hsum : (reads.map Request.wanted).sum ≤ announced answer) : Meters m s m' := by
  refine ⟨hsource, .available answer :: reads, hrequests, ?_⟩
  have hround := Rounds.round hreads hsum .nil
  rwa [List.append_nil] at hround

end Meters

namespace Scanner

variable {σ : Type} [FiniteSource σ]

theorem available_metered (m : Metered σ) :
    ByteSource.available m = ((ByteSource.available m.source).1,
      ⟨(ByteSource.available m.source).2,
        m.requests ++ [.available (ByteSource.available m.source).1]⟩) := rfl

theorem readByte_metered (m : Metered σ) :
    ByteSource.readByte m = ((ByteSource.readByte m.source).1,
      ⟨(ByteSource.readByte m.source).2, m.requests ++ [.readByte]⟩) := rfl

theorem readBytes_metered (n : Nat) (m : Metered σ) :
    ByteSource.readBytes n m = ((ByteSource.readBytes n m.source).1,
      ⟨(ByteSource.readBytes n m.source).2, m.requests ++ [.readBytes n]⟩) := rfl

theorem takeBytes_metered (n : Nat) (m : Metered σ) :
    ∃ k ≤ n, takeBytes n m = ⟨(takeBytes n m.source).bytes, (takeBytes n m.source).failure,
      ⟨(takeBytes n m.source).source, m.requests ++ List.replicate k .readByte⟩⟩ := by
  induction n generalizing m with
  | zero => exact ⟨0, Nat.le_refl 0, by simp [takeBytes]⟩
  | succ n ih =>
    rw [takeBytes, takeBytes, readByte_metered]
    rcases hread : ByteSource.readByte m.source with ⟨e | _ | b, source⟩
    · exact ⟨1, by omega, rfl⟩
    · exact ⟨1, by omega, rfl⟩
    · obtain ⟨k, hk, heq⟩ := ih ⟨source, m.requests ++ [.readByte]⟩
      refine ⟨k + 1, by omega, ?_⟩
      simp only [heq, List.append_assoc, List.replicate_succ, List.singleton_append]

theorem pull_metered (n : Nat) (m : Metered σ) :
    ∃ m', pull n m = ⟨(pull n m.source).bytes, (pull n m.source).failure, m'⟩ ∧
      Meters m (pull n m.source).source m' := by
  rw [pull, pull, available_metered]
  rcases havailable : ByteSource.available m.source with ⟨e | ready, source⟩
  · exact ⟨_, rfl, .round rfl rfl (by simp) (by simp)⟩
  · obtain ⟨k, hk, heq⟩ := takeBytes_metered (min n ready)
      (⟨source, m.requests ++ [.available (.ok ready)]⟩ : Metered σ)
    simp only [heq]
    refine ⟨_, rfl, .round rfl (List.append_assoc _ [_] _) (fun q hq => ?_) ?_⟩
    · obtain rfl := List.eq_of_mem_replicate hq
      exact ⟨rfl, Nat.one_pos⟩
    · have hsum : ((List.replicate k Request.readByte).map Request.wanted).sum = k := by
        simp [Request.wanted]
      exact Nat.le_trans (Nat.le_of_eq hsum) (Nat.le_trans hk (Nat.min_le_right n ready))

variable (t : Scanner) (m : Metered σ)

theorem fetch_metered (wanted : Nat) :
    ∃ m', fetch wanted t m =
        ⟨(fetch wanted t m.source).outcome, (fetch wanted t m.source).scanner, m'⟩ ∧
      Meters m (fetch wanted t m.source).source m' := by
  obtain ⟨m', hpull, hmeters⟩ := pull_metered wanted m
  refine ⟨m', ?_, ?_⟩ <;> unfold fetch <;> simp only [hpull]
  · split
    · rfl
    · split <;> rfl
  · split
    · exact hmeters
    · split <;> exact hmeters

section

variable {α : Type} (decode : Bytes → Except VintError (Option α)) (offset : Nat)

theorem completeField_metered :
    ∃ m', completeField decode offset t m = ⟨(completeField decode offset t m.source).outcome,
        (completeField decode offset t m.source).scanner, m'⟩ ∧
      Meters m (completeField decode offset t m.source).source m' := by
  unfold completeField
  split
  · exact ⟨m, rfl, .refl m⟩
  · exact ⟨m, rfl, .refl m⟩
  · split
    · exact ⟨m, rfl, .refl m⟩
    · rename_i first _
      obtain ⟨m', hfetch, hmeters⟩ :=
        fetch_metered t m (vintWidth first - (t.window.sliceFrom offset).length)
      refine ⟨m', ?_⟩
      rw [hfetch]
      generalize fetch _ t m.source = fetched at hmeters ⊢
      obtain ⟨e | done, t', s'⟩ := fetched
      · exact ⟨rfl, hmeters⟩
      · cases done with
        | false => exact ⟨rfl, hmeters⟩
        | true =>
          dsimp only
          split <;> exact ⟨rfl, hmeters⟩

theorem readField_metered :
    ∃ m', readField decode offset t m = ⟨(readField decode offset t m.source).outcome,
        (readField decode offset t m.source).scanner, m'⟩ ∧
      Meters m (readField decode offset t m.source).source m' := by
  unfold readField
  split
  · exact completeField_metered t m decode offset
  · obtain ⟨m', hfetch, hmeters⟩ := fetch_metered t m 1
    rw [hfetch]
    generalize fetch _ t m.source = fetched at hmeters ⊢
    obtain ⟨e | done, t', s'⟩ := fetched
    · exact ⟨m', rfl, hmeters⟩
    · cases done with
      | false => exact ⟨m', rfl, hmeters⟩
      | true =>
        obtain ⟨m'', hcomplete, hmeters'⟩ := completeField_metered t' m' decode offset
        rw [hmeters.source_eq] at hcomplete hmeters'
        exact ⟨m'', hcomplete, hmeters.trans hmeters'⟩

end

theorem readContent_metered (leaf : Option Occurrence) (stop : Nat) :
    ∃ m', readContent leaf stop t m = ⟨(readContent leaf stop t m.source).outcome,
        (readContent leaf stop t m.source).scanner, m'⟩ ∧
      Meters m (readContent leaf stop t m.source).source m' := by
  unfold readContent
  split
  · exact ⟨m, rfl, .refl m⟩
  · rw [available_metered]
    rcases havailable : ByteSource.available m.source with ⟨e | ready, source⟩
    · exact ⟨_, rfl, .round rfl rfl (by simp) (by simp)⟩
    · dsimp only
      split
      · exact ⟨_, rfl, .round rfl rfl (by simp) (by simp)⟩
      · rename_i hwanted
        have hle : min (min (stop - t.consumed) t.maxChunk) ready ≤ ready := Nat.min_le_right _ _
        generalize min (min (stop - t.consumed) t.maxChunk) ready = wanted at hwanted hle
        -- What is read is not nothing, and it is no more than was announced.
        have hround (s : σ) : Meters m s
            ⟨s, m.requests ++ [.available (.ok ready)] ++ [.readBytes wanted]⟩ :=
          .round rfl (List.append_assoc _ [_] _) (by simp [Request.isAvailable, Request.wanted]; omega)
            (by simpa [Request.wanted, announced] using hle)
        rw [readBytes_metered]
        rcases hread : ByteSource.readBytes wanted source with ⟨e | chunk, source'⟩
        · exact ⟨_, rfl, hround source'⟩
        · dsimp only
          split
          · exact ⟨_, rfl, hround source'⟩
          · exact ⟨_, rfl, hround source'⟩

theorem stepContent_metered (leaf : Option Occurrence) (stop : Option Nat) :
    ∃ m', stepContent leaf stop t m = ⟨(stepContent leaf stop t m.source).outcome,
        (stepContent leaf stop t m.source).scanner, m'⟩ ∧
      Meters m (stepContent leaf stop t m.source).source m' := by
  cases stop with
  | none => exact ⟨m, rfl, .refl m⟩
  | some stop => exact readContent_metered t m leaf stop

theorem step_metered :
    ∃ m', step t m = ⟨(step t m.source).outcome, (step t m.source).scanner, m'⟩ ∧
      Meters m (step t m.source).source m' := by
  -- A step asks its source in reading a field and in reading data, and nowhere else.
  unfold step
  split
  · unfold stepId
    split
    · exact ⟨m, rfl, .refl m⟩
    · obtain ⟨m', hread, hmeters⟩ := readField_metered t m decodeId t.window.start
      rw [hread]
      generalize readField _ _ t m.source = fetched at hmeters ⊢
      obtain ⟨e | _ | field, t', s'⟩ := fetched <;> exact ⟨m', rfl, hmeters⟩
  · rename_i id idWidth number _
    unfold stepSize
    obtain ⟨m', hread, hmeters⟩ := readField_metered t m decodeSize (t.window.start + idWidth)
    rw [hread]
    generalize readField _ _ t m.source = fetched at hmeters ⊢
    obtain ⟨e | _ | field, t', s'⟩ := fetched <;> exact ⟨m', rfl, hmeters⟩
  · exact ⟨m, rfl, .refl m⟩
  · exact stepContent_metered t m _ _
  · exact ⟨m, rfl, .refl m⟩

/-- The scan of a metered source is that of the source itself, with its requests on record. -/
theorem parse_metered {κ : Type} (r : Receiver κ) (k : κ) :
    ∃ m', parse r t m k = ⟨(parse r t m.source k).outcome, (parse r t m.source k).scanner, m',
        (parse r t m.source k).receiver⟩ ∧ Meters m (parse r t m.source k).source m' := by
  unfold parse
  split
  · exact ⟨m, rfl, .refl m⟩
  · have halike := run_alike (σ := σ) (R := fun _ s m' => Meters m s m') (E := fun _ _ _ => False)
      (fun t s m' hmeters => ?_) r t m.source m k (.refl m)
    · obtain ⟨⟨_, _, _, hfalse⟩, -⟩ | halike := halike
      · exact hfalse.elim
      · exact halike
    · obtain ⟨m'', hstep, hmeters'⟩ := step_metered t m'
      rw [hmeters.source_eq] at hstep hmeters'
      exact .inr ⟨m'', hstep, hmeters.trans hmeters'⟩

end Scanner

/-! ## Pushed bytes -/

namespace Reader

theorem scan_ne_io (r : Reader PushSource) (e : IoError) : r.scan.1 ≠ .error (.io e) := by
  cases hclosed : r.scanner.closed with
  | true =>
    rw [scan_eq_self hclosed]
    simp
  | false =>
    rw [scan_eq_run hclosed]
    exact Scanner.run_ne_io Collector.receiver r.scanner r.source r.collector e

theorem next?_ne_io (r : Reader PushSource) (e : IoError) : r.next?.1 ≠ .error (.io e) := by
  have hscan := scan_ne_io r e
  unfold next?
  split
  · simp
  · split <;> simp_all

theorem mayHaveNext_ne_io (r : Reader PushSource) (e : IoError) :
    r.mayHaveNext.1 ≠ .error (.io e) := by
  unfold mayHaveNext
  split
  · simp
  · split
    · simp
    · rw [eof_pushed]
      cases r.source.finished with
      | false => simp
      | true =>
        have hscan := scan_ne_io { r with source := r.source } e
        dsimp only
        split <;> simp_all

theorem apply_ne_io {ν ε : Type} (r : Reader PushSource) (v : Visitor ν ε) (state : ν) (e : IoError) :
    (apply v r state).outcome ≠ .error (.scan (.io e)) := by
  obtain ⟨elements, hvisits⟩ := visits_apply v r state
  generalize apply v r state = a at hvisits ⊢
  induction hvisits with
  | done => simp
  | @unanswered r _ _ cause _ hm =>
    have hne := mayHaveNext_ne_io r e
    simpa [hm] using hne
  | ended => simp
  | @unread _ r' _ _ cause _ _ hn =>
    have hne := next?_ne_io r' e
    simpa [hn] using hne
  | refused => simp
  | shown _ _ _ _ _ ih => exact ih
  | dry => simp
  | again _ _ _ _ _ ih => exact ih

end Reader

/-- A scan asks a source for no more than it announced, whatever the source and however it answers:
between one question how many bytes there are and the next it requests no more than was answered, and
nothing where the answer was none or there was no question yet. So over pushed bytes, be there more
to come or not, neither a scan nor a reader ever fails for the source, in whatever state earlier uses
left it. -/
theorem requests_within_announced :
    (∀ {σ κ : Type} [FiniteSource σ] (r : Receiver κ) (t : Scanner) (s : σ) (k : κ),
      let metered := Scanner.parse r t (⟨s, []⟩ : Metered σ) k
      let plain := Scanner.parse r t s k
      (metered.outcome = plain.outcome ∧ metered.scanner = plain.scanner ∧
        metered.receiver = plain.receiver ∧ metered.source.source = plain.source) ∧
        Thrifty metered.source.requests) ∧
    (∀ {κ : Type} (r : Receiver κ) (t : Scanner) (s : PushSource) (k : κ) (e : IoError),
      (Scanner.parse r t s k).outcome ≠ .error (.io e)) ∧
    (∀ (r : Reader PushSource) (e : IoError),
      r.next?.1 ≠ .error (.io e) ∧ r.mayHaveNext.1 ≠ .error (.io e) ∧
        ∀ {ν ε : Type} (v : Visitor ν ε) (state : ν),
          (Reader.apply v r state).outcome ≠ .error (.scan (.io e))) := by
  refine ⟨fun r t s k => ?_, fun r t s k e => ?_, fun r e => ?_⟩
  · obtain ⟨m', hparse, hmeters⟩ := Scanner.parse_metered t (⟨s, []⟩ : Metered _) r k
    obtain ⟨new, hnew, hrounds⟩ := hmeters.rounds
    obtain rfl : m'.requests = new := hnew
    rw [hparse]
    exact ⟨⟨rfl, rfl, rfl, hmeters.source_eq⟩, hrounds.thrifty⟩
  · unfold Scanner.parse
    split
    · simp
    · exact Scanner.run_ne_io r t s k e
  · exact ⟨r.next?_ne_io e, r.mayHaveNext_ne_io e, fun v state => r.apply_ne_io v state e⟩

end Ebml
