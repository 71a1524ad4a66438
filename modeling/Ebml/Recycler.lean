import Ebml.Collector

/-!
# Collecting in one buffer

The data of the leaf that was handed out last stays in a buffer, and the next leaf to be collected is
given this buffer, emptied. A recycler is a collector that does so. It takes in the same events and
hands out the same elements (`collector_handle`, `pop_fst`, `collector_pop`).
-/

namespace Ebml

/-- A collector, and the buffer with the data of the leaf that it handed out last. While a leaf is
collected the buffer is away. -/
structure Recycler where
  collector : Collector
  buffer : Bytes := []

namespace Recycler

/-- Take in an event. A leaf to be collected takes the buffer with it. -/
def handle (event : Event) (r : Recycler) : Recycler :=
  match event with
  | .start element size header path =>
    if r.collector.wants element.decl.id && !element.decl.isMaster then
      let content := r.buffer.take 0
      let l : Leaf := ⟨element, r.collector.capture path, size.known?.getD 0, header, content,
        r.collector.policy⟩
      { collector := { r.collector with collecting := some l }, buffer := [] }
    else { r with collector := Collector.handle event r.collector }
  | _ => { r with collector := Collector.handle event r.collector }

/-- The first element waiting. The buffer of a leaf is kept. -/
def pop (r : Recycler) : Option Element × Recycler :=
  match r.collector.pop with
  | (some (.leaf l), c) => (some (.leaf l), ⟨c, l.content⟩)
  | (answer, c) => (answer, { r with collector := c })

/-- Events come to the same, whatever is in the buffer. -/
theorem collector_handle (event : Event) (r : Recycler) :
    (r.handle event).collector = Collector.handle event r.collector := by
  unfold handle
  split
  · split
    · rename_i hwanted
      simp_all [Collector.handle]
    · rfl
  · rfl

theorem pop_fst (r : Recycler) : r.pop.1 = r.collector.pop.1 := by
  unfold pop
  split <;> rename_i heq <;> rw [heq]

theorem collector_pop (r : Recycler) : r.pop.2.collector = r.collector.pop.2 := by
  unfold pop
  split <;> rename_i heq <;> rw [heq]

end Recycler

end Ebml
