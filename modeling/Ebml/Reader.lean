import Ebml.Collector

/-!
# Readers

A reader pulls elements out of a source, one by one. Bytes are taken from the source only as far as
the next element needs them. When the source is at its end, what is still open ends, and then there
are no more elements.
-/

namespace Ebml

/-- A source, the scan of it, and the elements not yet handed out. -/
structure Reader (σ : Type) where
  source : σ
  scanner : Scanner
  collector : Collector

namespace Reader

/-- A reader at the start of a source. -/
def ofSource {σ : Type} (c : ReaderConfig) (source : σ) : Reader σ :=
  { source := source
    scanner := { schema := c.schema, maxChunk := max c.maxChunk 1 }
    collector := .ofConfig c }

/-- How many bytes were read. -/
def bytesRead {σ : Type} (r : Reader σ) : Nat :=
  r.scanner.consumed

/-- Scan until an element is waiting or the source has too few bytes. -/
def scan {σ : Type} [FiniteSource σ] (r : Reader σ) : Except ScanError Unit × Reader σ :=
  let p := Scanner.parse Collector.receiver r.scanner r.source r.collector
  (p.outcome, ⟨p.source, p.scanner, p.receiver⟩)

/-- End the scan; the ends of what was open are waiting then. -/
def close {σ : Type} (r : Reader σ) : Reader σ :=
  { r with
    scanner := r.scanner.close.2
    collector := Collector.receiver.deliverAll r.scanner.close.1 r.collector }

/-- Whether there may be another element. At the end of the source this scans what is left and, if
no element comes of it, ends the scan. -/
def mayHaveNext {σ : Type} [FiniteSource σ] (r : Reader σ) : Except ScanError Bool × Reader σ :=
  if r.collector.hasPending then (.ok true, r)
  else if r.scanner.closed then (.ok false, r)
  else
    match ByteSource.eof r.source with
    | (.error e, source) => (.error (.io e), { r with source := source })
    | (.ok false, source) => (.ok true, { r with source := source })
    | (.ok true, source) =>
      match scan { r with source := source } with
      | (.error e, r') => (.error e, r')
      | (.ok (), r') => (.ok true, if r'.collector.hasPending then r' else r'.close)

/-- Hand out the first element waiting. -/
def pop {σ : Type} (r : Reader σ) : Option Element × Reader σ :=
  (r.collector.pop.1, { r with collector := r.collector.pop.2 })

/-- The next element, if the source has enough bytes for it. -/
def next? {σ : Type} [FiniteSource σ] (r : Reader σ) :
    Except ScanError (Option Element) × Reader σ :=
  if r.collector.hasPending then (.ok r.pop.1, r.pop.2)
  else
    match r.scan with
    | (.error e, r') => (.error e, r')
    | (.ok (), r') => (.ok r'.pop.1, r'.pop.2)

/-- The bytes read and the bytes that are there to be read. -/
def progress {σ : Type} [FiniteSource σ] (r : Reader σ) : Except ScanError (Nat × Nat) × Reader σ :=
  match ByteSource.available r.source with
  | (.error e, source) => (.error (.io e), { r with source := source })
  | (.ok ready, source) => (.ok (r.bytesRead, ready), { r with source := source })

end Reader

end Ebml
