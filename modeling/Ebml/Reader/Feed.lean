import Ebml.Reader.Drain
import Ebml.Source.Push

/-!
# Feeding a reader

A document pushed to a reader chunk by chunk, every element taken as soon as it is there.
-/

namespace Ebml

/-- `bytes` cut into pieces whose sizes are those of `sizes` in turn, over and over, starting with
number `k`. Sizes are positive; without sizes there is one piece. -/
def cutCyclic (sizes : List Nat) (k : Nat) (bytes : Bytes) : List Bytes :=
  if h : bytes = [] then []
  else
    let size := max 1 ((sizes[k % sizes.length]?).getD bytes.length)
    bytes.take size :: cutCyclic sizes (k + 1) (bytes.drop size)
termination_by bytes.length
decreasing_by
  have := List.length_pos_iff.mpr h
  simp only [List.length_drop]
  omega

/-- `bytes` cut into pieces of the given sizes in turn. Zeros do not count. -/
def cut (sizes : List Nat) (bytes : Bytes) : List Bytes :=
  cutCyclic (sizes.filter (0 < ·)) 0 bytes

namespace Reader

/-- Add bytes to the source of a reader. -/
def push (r : Reader PushSource) (chunk : Bytes) : Reader PushSource :=
  { r with source := r.source.push chunk }

/-- Tell the source of a reader that no more bytes follow. -/
def finish (r : Reader PushSource) : Reader PushSource :=
  { r with source := r.source.finish }

/-- Push chunks one by one and take what elements each brings, up to the first failure. -/
def feed (r : Reader PushSource) : List Bytes → Taken PushSource
  | [] => ⟨[], .ok (), r⟩
  | chunk :: rest =>
    let now := (r.push chunk).takeAvailable
    match now.outcome with
    | .error e => ⟨now.elements, .error e, now.reader⟩
    | .ok () =>
      let later := feed now.reader rest
      ⟨now.elements ++ later.elements, later.outcome, later.reader⟩

/-- Push chunks one by one, then take all that is left. -/
def feedAll (r : Reader PushSource) (chunks : List Bytes) : Taken PushSource :=
  let fed := r.feed chunks
  match fed.outcome with
  | .error e => ⟨fed.elements, .error e, fed.reader⟩
  | .ok () =>
    let drained := fed.reader.finish.drain
    let outcome := match drained.stop.error? with
      | some e => .error e
      | none => .ok ()
    ⟨fed.elements ++ drained.elements, outcome, drained.reader⟩

end Reader

end Ebml
