import Ebml.Proofs.Reader.Draining

/-!
# Chunks do not matter

What a reader hands out of a document, and the error that ends it if there is one, can be read off
the transcript of the document (`feedAll_eq_reading`). The transcript knows nothing of chunks, so two
ways to push the same bytes come to the same, and so do two limits on the data taken at once.
-/

namespace Ebml

/-! ## Cutting -/

theorem flatten_cutCyclic (sizes : List Nat) (k : Nat) (bytes : Bytes) :
    (cutCyclic sizes k bytes).flatten = bytes := by
  fun_induction cutCyclic sizes k bytes with
  | case1 => rfl
  | case2 =>
    rename_i ih
    rw [List.flatten_cons, ih, List.take_append_drop]

/-- The pieces of a byte string are the byte string. -/
theorem flatten_cut (sizes : List Nat) (bytes : Bytes) : (cut sizes bytes).flatten = bytes :=
  flatten_cutCyclic _ 0 bytes

namespace Reader

/-! ## Documents as a whole -/

/-- The elements of a document that is there as a whole, and how it ends. -/
def reading (c : ReaderConfig) (bytes : Bytes) : List Element × Except ScanError Unit :=
  let told := Place.transcript c.schema { rest := bytes }
  ((Collector.receiver.deliverAll told.events (.ofConfig c)).pending, told.ending)

theorem forecast_beginning (c : ReaderConfig) (bytes : Bytes) :
    (beginning c).forecast bytes = Place.transcript c.schema { rest := bytes } := rfl

/-- A trail through the front of a document tells what is read of it, and the forecast where the
trail ends what is read of the rest. -/
theorem reading_of_trail {c : ReaderConfig} {bytes : Bytes} {log : List Event} {t : Scanner}
    (h : Scanner.Trail (beginning c) bytes log t) (rest : Bytes) :
    reading c (bytes ++ rest) =
      ((Collector.receiver.deliverAll (t.forecast rest).events
          (Collector.receiver.deliverAll log (.ofConfig c))).pending, (t.forecast rest).ending) := by
  have hforecast := h.forecast_eq (Scanner.coherent_fresh _ _) rest
  rw [forecast_beginning] at hforecast
  rw [reading, hforecast]
  dsimp only [Transcript.after]
  rw [Receiver.deliverAll_append, Collector.deliverAll_bytewise]

/-- What a reader that is through handed out and still holds is what there is. -/
theorem Through.reading_eq {c : ReaderConfig} {input : Bytes} {taken : List Element}
    {r : Reader PushSource} (h : Through c input taken r) :
    reading c input = (taken ++ r.collector.pending, .ok ()) := by
  obtain ⟨log, t, htrail, hlacking, -, hcollected⟩ := h
  have hco : (beginning c).Coherent := Scanner.coherent_fresh _ _
  have hreading := reading_of_trail htrail []
  rw [List.append_nil, hlacking.forecast_nil (htrail.coherent hco) htrail.frame.closed_eq,
    ← Receiver.deliverAll_append, hcollected] at hreading
  exact hreading

theorem reading_of_through {c : ReaderConfig} {input : Bytes} {taken : List Element}
    {r : Reader PushSource} (h : Through c input taken r)
    (hpending : r.collector.hasPending = false) : reading c input = (taken, .ok ()) := by
  simp only [Collector.hasPending, Bool.not_eq_false', List.isEmpty_iff] at hpending
  rw [h.reading_eq, hpending, List.append_nil]

theorem reading_of_failed {c : ReaderConfig} {input : Bytes} {taken : List Element} {e : ScanError}
    (h : Failed c input taken e) : reading c input = (taken, .error e) := by
  obtain ⟨bytes, rest, log, t, htrail, rfl, hends, hpending⟩ := h
  rw [reading_of_trail htrail, hends rest, ← hpending]
  rfl

/-- The reading of a document can be told from how a drain of it stopped. -/
theorem reading_of_stop {c : ReaderConfig} {input : Bytes} {taken : List Element} {stop : DrainEnd}
    {r : Reader PushSource}
    (h : match stop with
      | .ended => Through c input taken r ∧ r.collector.hasPending = false
      | .starved => False
      | .unreadable e => Failed c input taken e
      | .malformed e => Failed c input taken e) :
    reading c input = (taken, stop.error?.elim (.ok ()) .error) := by
  cases stop with
  | ended => exact reading_of_through h.1 h.2
  | starved => exact h.elim
  | unreadable e => exact reading_of_failed h
  | malformed e => exact reading_of_failed h

/-- Draining a source that is given a document at once reads it off. -/
theorem drain_ofBytes (c : ReaderConfig) (bytes : Bytes) :
    reading c bytes = ((ofSource c (PushSource.ofBytes bytes)).drain.elements,
        (ofSource c (PushSource.ofBytes bytes)).drain.stop.error?.elim (.ok ()) .error) ∧
      (ofSource c (PushSource.ofBytes bytes)).drain.stop ≠ .starved := by
  have hstands : Stands c bytes [] (ofSource c (PushSource.ofBytes bytes)) :=
    .inl ⟨[], [], .refl _, rfl, rfl⟩
  have hstop := drain_spec hstands rfl
  rw [List.nil_append] at hstop
  refine ⟨reading_of_stop hstop, fun hstarved => ?_⟩
  rwa [hstarved] at hstop

/-- Pushing a document in chunks gives what there is in the document as a whole, and a reader that
comes to the end has nothing left. -/
theorem feedAll_eq_reading (c : ReaderConfig) (chunks : List Bytes) :
    (((ofSource c {}).feedAll chunks).elements, ((ofSource c {}).feedAll chunks).outcome) =
        reading c chunks.flatten ∧
      (((ofSource c {}).feedAll chunks).outcome = .ok () →
        ((ofSource c {}).feedAll chunks).reader.mayHaveNext.1 = .ok false) := by
  have hspec := feedAll_spec c chunks
  generalize (ofSource c {}).feedAll chunks = fed at hspec ⊢
  obtain ⟨elements, outcome, r⟩ := fed
  cases outcome with
  | error e => exact ⟨(reading_of_failed hspec).symm, fun h => by simp at h⟩
  | ok u =>
    obtain ⟨hthrough, hpending⟩ := hspec
    refine ⟨(reading_of_through hthrough hpending).symm, fun _ => ?_⟩
    dsimp only at hthrough hpending ⊢
    rw [mayHaveNext, if_neg (by simp [hpending]), if_pos hthrough.closed_eq]

/-- Chunks and the limit on data taken at once change neither the elements nor the outcome, and a
reader that ends without an error has nothing left. -/
theorem feedAll_chunking (c : ReaderConfig) (k k' : Nat) (chunks chunks' : List Bytes)
    (h : chunks.flatten = chunks'.flatten) :
    let one := (ofSource { c with maxChunk := k } {}).feedAll chunks
    let other := (ofSource { c with maxChunk := k' } {}).feedAll chunks'
    one.elements = other.elements ∧ one.outcome = other.outcome ∧
      (one.outcome = .ok () →
        one.reader.mayHaveNext.1 = .ok false ∧ other.reader.mayHaveNext.1 = .ok false) := by
  intro one other
  obtain ⟨hone, hdone⟩ := feedAll_eq_reading { c with maxChunk := k } chunks
  obtain ⟨hother, hdone'⟩ := feedAll_eq_reading { c with maxChunk := k' } chunks'
  -- Neither the limit nor the cuts occur in the reading of the whole document.
  have hsame : (one.elements, one.outcome) = (other.elements, other.outcome) := by
    rw [hone, hother, h]
    rfl
  obtain ⟨helements, houtcome⟩ := Prod.mk.inj hsame
  exact ⟨helements, houtcome, fun hok => ⟨hdone hok, hdone' (houtcome ▸ hok)⟩⟩

/-- A void element and a byte that begins no id, pushed one by one and in two pieces. -/
theorem feedAll_chunking_of_spoilt_id :
    let bytes : Bytes := [0xEC, 0x82, 7, 8, 0]
    let one := (ofSource { maxChunk := 1 } {}).feedAll (cut [1] bytes)
    let other := (ofSource { maxChunk := 8192 } {}).feedAll (cut [3, 2] bytes)
    one.elements.length = 1 ∧ one.outcome = .error (.header 4 (.idTooWide 9)) ∧
      one.elements = other.elements ∧ one.outcome = other.outcome := by
  have hsame := feedAll_chunking {} 1 8192 (cut [1] [0xEC, 0x82, 7, 8, 0])
    (cut [3, 2] [0xEC, 0x82, 7, 8, 0]) ((flatten_cut _ _).trans (flatten_cut _ _).symm)
  have hreading := (feedAll_eq_reading { maxChunk := 1 } (cut [1] [0xEC, 0x82, 7, 8, 0])).1
  rw [flatten_cut] at hreading
  have hlength : (reading { maxChunk := 1 } [0xEC, 0x82, 7, 8, 0]).1.length = 1 := by cbv
  have hends : (Place.transcript Matroska.schema { rest := [0xEC, 0x82, 7, 8, 0] }).ending =
      .error (.header 4 (.idTooWide 9)) := by cbv
  rw [← hreading] at hlength
  exact ⟨hlength, (congrArg Prod.snd hreading).trans hends, hsame.1, hsame.2.1⟩

end Reader

end Ebml
