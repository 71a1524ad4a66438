import Ebml.Proofs.Reader.Collecting
import Ebml.Proofs.Vint.Codec
import Ebml.Tree

/-!
# Element trees in document order

What a reader should hand out of a document that was written from a forest: the elements of the
forest in document order, those outside the schema left out together with everything in them
(`forestElements`). The events behind them (`forestEvents`) follow the same order, and collecting
them gives the elements.
-/

namespace Ebml.Tree

/-! ## Headers -/

/-- The bytes of an encoding, none if it fails. -/
def written : Except VintError Bytes → Bytes
  | .ok bytes => bytes
  | .error _ => []

/-- The id in front of an element. -/
def elementId : Tree → Nat
  | master id _ _ => id
  | leaf id _ => id

/-- Whether the element is written with unknown length. -/
def isLive : Tree → Bool
  | master _ live _ => live
  | leaf _ _ => false

/-- The encoding of what stands behind the header. -/
def encodeBody : Tree → Except VintError Bytes
  | master _ _ children => encodeForest children
  | leaf _ content => .ok content

/-- The size that the header declares. -/
def size (t : Tree) : DataSize :=
  if t.isLive then .unknown else .known (written t.encodeBody).length

/-- The header as it is written. -/
def header (t : Tree) : Bytes :=
  written (Header.mk t.elementId t.size none).encode

/-- The declaration of an element, if it is in the schema. -/
def decl? (schema : Schema) (t : Tree) : Option ElementDecl :=
  schema.get? t.elementId

/-- The bytes of an element that was written: its header and what stands behind it. -/
structure Parts (t : Tree) (bytes body : Bytes) : Prop where
  body_eq : t.encodeBody = .ok body
  header_eq : (Header.mk t.elementId t.size none).encode = .ok t.header
  bytes_eq : bytes = t.header ++ body

theorem Parts.of_encode {t : Tree} {field body : Bytes} (hbody : t.encodeBody = .ok body)
    (hfield : (Header.mk t.elementId t.size none).encode = .ok field) :
    Parts t (field ++ body) body := by
  have hheader : t.header = field := by rw [header, hfield, written]
  exact ⟨hbody, hheader ▸ hfield, by rw [hheader]⟩

/-- Whatever was written has its parts. -/
theorem exists_parts {t : Tree} {bytes : Bytes} (h : encode t = .ok bytes) :
    ∃ body, Parts t bytes body := by
  match t with
  | leaf id content =>
    rw [encode] at h
    split at h
    · simp at h
    · rename_i field hfield
      obtain rfl := Except.ok.inj h
      exact ⟨content, Parts.of_encode rfl hfield⟩
  | master id true children =>
    rw [encode] at h
    split at h
    · simp at h
    · rename_i field hfield
      split at h
      · simp at h
      · rename_i content hcontent
        obtain rfl := Except.ok.inj h
        exact ⟨content, Parts.of_encode hcontent hfield⟩
  | master id false children =>
    rw [encode] at h
    split at h
    · simp at h
    · rename_i content hcontent
      -- The size is that of the children's bytes, which are known from here on.
      have hsize : size (master id false children) = .known content.length := by
        simp [size, isLive, encodeBody, hcontent, written]
      split at h
      · simp at h
      · rename_i field hfield
        obtain rfl := Except.ok.inj h
        exact ⟨content, Parts.of_encode hcontent (hsize ▸ hfield)⟩

theorem encodeForest_cons_eq_ok {t : Tree} {ts : List Tree} {bytes : Bytes}
    (h : encodeForest (t :: ts) = .ok bytes) :
    ∃ first others, encode t = .ok first ∧ encodeForest ts = .ok others ∧
      bytes = first ++ others := by
  rw [encodeForest] at h
  split at h
  · simp at h
  · rename_i first hfirst
    split at h
    · simp at h
    · rename_i others hothers
      exact ⟨first, others, hfirst, hothers, (Except.ok.inj h).symm⟩

namespace Parts

variable {t : Tree} {bytes body : Bytes}

theorem size_eq (h : Parts t bytes body) :
    t.size = if t.isLive then .unknown else .known body.length := by
  rw [size, h.body_eq, written]

/-- What was written starts with the header, which is read again whatever follows. -/
theorem decode_eq (h : Parts t bytes body) (rest : Bytes) :
    ∃ header, Header.decode (bytes ++ rest) = .ok (some (header, t.header.length)) ∧
      header.id = t.elementId ∧ header.size = t.size := by
  rw [h.bytes_eq, List.append_assoc]
  exact Header.decode_of_encode h.header_eq (body ++ rest)

theorem header_pos (h : Parts t bytes body) : 0 < t.header.length := by
  obtain ⟨header, hdec, -, -⟩ := h.decode_eq []
  exact (Header.used_of_decode hdec).1

end Parts

/-! ## Trees that can be read back

Nothing in a document says where a live master ends, so what follows it must: an element that cannot
be inside it. Its children in turn must not look like that.
-/

/-- The declaration of the first element of the schema. -/
def nextDecl? (schema : Schema) (ts : List Tree) : Option ElementDecl :=
  ts.findSome? (decl? schema)

/-- No element of the schema among these trees has a level below `lo`, global ones apart. -/
def Above (schema : Schema) (lo : Int) (ts : List Tree) : Prop :=
  ∀ t ∈ ts, ∀ decl ∈ decl? schema t, decl.isGlobal = false → lo ≤ decl.level

/-- The first element of the schema among these trees, if there is one, ends an open master of the
given level. -/
def EndsAt (schema : Schema) (level : Int) (ts : List Tree) : Prop :=
  ∀ next ∈ nextDecl? schema ts, next.isGlobal = false ∧ next.level ≤ level

mutual

/-- The elements of a tree are of the kinds that the schema says, those outside the schema have a
known length, and live masters are not global and hold only what does not end them. Nothing is asked
of what is inside an element outside the schema. -/
def Readable (schema : Schema) : Tree → Prop
  | leaf id _ => ∀ decl ∈ schema.get? id, decl.isMaster = false
  | master id live children =>
    match schema.get? id with
    | none => live = false
    | some decl =>
      decl.isMaster = true ∧ ReadableForest schema children ∧
        (live = true → 0 ≤ decl.level ∧ Above schema (decl.level + 1) children)

/-- The trees are readable, and what follows a live master ends it. -/
def ReadableForest (schema : Schema) : List Tree → Prop
  | [] => True
  | t :: ts =>
    Readable schema t ∧ ReadableForest schema ts ∧
      (t.isLive = true → ∀ decl ∈ decl? schema t, EndsAt schema decl.level ts)

end

/-- An element outside the schema has a known length. -/
theorem Readable.isLive_eq_false {schema : Schema} {t : Tree} (h : Readable schema t)
    (hnone : decl? schema t = none) : t.isLive = false := by
  match t with
  | leaf id content => rfl
  | master id live children =>
    have hid : schema.get? id = none := hnone
    rw [Readable, hid] at h
    exact h

/-- Only masters have unknown length. -/
theorem Readable.isMaster_eq_true {schema : Schema} {t : Tree} {decl : ElementDecl}
    (h : Readable schema t) (hdecl : decl? schema t = some decl) (hlive : t.isLive = true) :
    decl.isMaster = true := by
  match t with
  | leaf id content => simp [isLive] at hlive
  | master id live children =>
    have hid : schema.get? id = some decl := hdecl
    rw [Readable, hid] at h
    exact h.1

/-- A live master of the schema is not global, and none of its children ends it. -/
theorem Readable.of_live {schema : Schema} {id : Nat} {children : List Tree} {decl : ElementDecl}
    (h : Readable schema (master id true children)) (hdecl : schema.get? id = some decl) :
    0 ≤ decl.level ∧ Above schema (decl.level + 1) children := by
  rw [Readable, hdecl] at h
  exact h.2.2 rfl

theorem Readable.zero_le_level {schema : Schema} {t : Tree} {decl : ElementDecl}
    (h : Readable schema t) (hdecl : decl? schema t = some decl) (hlive : t.isLive = true) :
    0 ≤ decl.level := by
  match t with
  | leaf id content => simp [isLive] at hlive
  | master id live children =>
    have hlive : live = true := hlive
    subst hlive
    exact (h.of_live hdecl).1

/-- Elements that are not global have no level below zero. -/
theorem above_zero (schema : Schema) (ts : List Tree) : Above schema 0 ts := by
  intro t _ decl _ hglobal
  simpa [ElementDecl.isGlobal] using hglobal

/-! ## Document order -/

mutual

/-- How many elements of a tree are numbered. Nothing inside an element outside the schema is. -/
def count (schema : Schema) : Tree → Nat
  | leaf _ _ => 1
  | master id _ children =>
    match schema.get? id with
    | none => 1
    | some _ => forestCount schema children + 1

def forestCount (schema : Schema) : List Tree → Nat
  | [] => 0
  | t :: ts => count schema t + forestCount schema ts

end

theorem count_of_none {schema : Schema} {t : Tree} (h : decl? schema t = none) :
    count schema t = 1 := by
  match t with
  | leaf id content => rw [count]
  | master id live children =>
    have hid : schema.get? id = none := h
    rw [count, hid]

mutual

/-- The elements of a tree in document order: every master of the schema stands before and behind
what is in it, every other element of the schema stands there with its data, and elements outside
the schema are left out with all that is in them. `path` lists the masters around the tree and
`index` is the number of its first element. -/
def elements (schema : Schema) (policy : SignBitPolicy) (path : List Occurrence) (index : Nat) :
    Tree → List Element
  | leaf id content =>
    match schema.get? id with
    | none => []
    | some decl =>
      [.leaf ⟨⟨decl, index⟩, some path, content.length, (leaf id content).header, content, policy⟩]
  | master id live children =>
    match schema.get? id with
    | none => []
    | some decl =>
      let o : Occurrence := ⟨decl, index⟩
      .start o (some path) (master id live children).size (master id live children).header ::
        (forestElements schema policy (path ++ [o]) (index + 1) children ++
          [.finish o (some path)])

/-- The elements of a forest in document order. -/
def forestElements (schema : Schema) (policy : SignBitPolicy) (path : List Occurrence)
    (index : Nat) : List Tree → List Element
  | [] => []
  | t :: ts =>
    elements schema policy path index t ++
      forestElements schema policy path (index + count schema t) ts

end

mutual

/-- The events of a tree in document order, data byte by byte. -/
def events (schema : Schema) (path : List Occurrence) (index : Nat) : Tree → List Event
  | leaf id content =>
    match schema.get? id with
    | none => []
    | some decl =>
      let o : Occurrence := ⟨decl, index⟩
      .start o (leaf id content).size (leaf id content).header path ::
        restOfLeaf (some o) path content
  | master id live children =>
    match schema.get? id with
    | none => []
    | some decl =>
      let o : Occurrence := ⟨decl, index⟩
      .start o (master id live children).size (master id live children).header path ::
        (forestEvents schema (path ++ [o]) (index + 1) children ++ [.finish o path])

/-- The events of a forest in document order. -/
def forestEvents (schema : Schema) (path : List Occurrence) (index : Nat) :
    List Tree → List Event
  | [] => []
  | t :: ts =>
    events schema path index t ++ forestEvents schema path (index + count schema t) ts

end

section

variable {schema : Schema} {id : Nat} {live : Bool} {children : List Tree} {decl : ElementDecl}

theorem count_master (h : schema.get? id = some decl) :
    count schema (master id live children) = forestCount schema children + 1 := by
  rw [count, h]

theorem events_master (h : schema.get? id = some decl) (path : List Occurrence) (index : Nat) :
    events schema path index (master id live children) =
      .start ⟨decl, index⟩ (master id live children).size (master id live children).header path ::
        (forestEvents schema (path ++ [⟨decl, index⟩]) (index + 1) children ++
          [.finish ⟨decl, index⟩ path]) := by
  rw [events, h]

end

/-! ## Collecting the events of a tree -/

mutual

/-- The events of a tree come to its elements. -/
theorem deliverAll_events {schema : Schema} (path : List Occurrence) (index : Nat)
    {c : Collector} (hc : c.Plain) : (t : Tree) → Readable schema t →
    Collector.receiver.deliverAll (events schema path index t) c =
      c.enqueueAll (elements schema c.policy path index t)
  | leaf id content, h => by
    rw [events, elements]
    cases hdecl : schema.get? id with
    | none => exact c.enqueueAll_nil.symm
    | some decl =>
      have hleaf : decl.isMaster = false := by
        rw [Readable] at h
        exact h decl hdecl
      exact hc.deliverAll_leafEvents hleaf content.length _ content path
  | master id live children, h => by
    rw [events, elements]
    cases hdecl : schema.get? id with
    | none => exact c.enqueueAll_nil.symm
    | some decl =>
      rw [Readable, hdecl] at h
      obtain ⟨hmaster, hchildren, -⟩ := h
      rw [← hc.capture_eq path]
      exact Collector.deliverAll_master (Collector.wants_of_filter hc.filter_eq _) hmaster
        (deliverAll_forestEvents _ _ (hc.enqueueAll _) children hchildren)

/-- The events of a forest come to its elements. -/
theorem deliverAll_forestEvents {schema : Schema} (path : List Occurrence) (index : Nat)
    {c : Collector} (hc : c.Plain) : (ts : List Tree) → ReadableForest schema ts →
    Collector.receiver.deliverAll (forestEvents schema path index ts) c =
      c.enqueueAll (forestElements schema c.policy path index ts)
  | [], _ => c.enqueueAll_nil.symm
  | t :: ts, h => by
    rw [ReadableForest] at h
    obtain ⟨hfirst, hothers, -⟩ := h
    rw [forestEvents, forestElements, Receiver.deliverAll_append,
      deliverAll_events path index hc t hfirst,
      deliverAll_forestEvents path _ (hc.enqueueAll _) ts hothers, Collector.enqueueAll_append]
    rfl

end

end Ebml.Tree
