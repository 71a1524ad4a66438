import Ebml.Listing
import Ebml.Proofs.Document.Closing
import Ebml.Proofs.Reader.Chunking
import Ebml.Proofs.Tree.Traversal

/-!
# Reading back what was written

The transcript of a document that was written from a readable forest tells the events of the forest
(`transcript_eq_forestEvents`), so a reader hands out its elements in document order, each with the
header, the path and the number it was written with (`Listing.ofBytes_encodeForest`).

The proof follows the forest. A tree stands at a place that holds its bytes (`Place.Holds`), and
what it has to know of the bytes behind it is only that live masters end there
(`Place.ClosesFrom`): by size where the master around it is exhausted, by level before the next
element of the schema, and otherwise at the end of the document.
-/

namespace Ebml

open Scanner (pathOf)

/-! ## Bytes at a place -/

namespace Place

/-- The given bytes come next, all open masters of known length reach over them, and elements of
level `lo` or more do not end the innermost master. -/
structure Holds (p : Place) (bytes : Bytes) (lo : Int) : Prop where
  stands : bytes <+: p.rest
  room : ∀ m ∈ p.stack, ∀ stop ∈ m.stop?, p.offset + bytes.length ≤ stop
  stays : ∀ m ∈ p.stack.head?, m.stop? = none → m.element.decl.level < lo

namespace Holds

variable {p : Place} {bytes first others : Bytes} {lo : Int}

theorem left (h : p.Holds (first ++ others) lo) : p.Holds first lo where
  stands := (List.prefix_append first others).trans h.stands
  room m hm stop hstop := by
    have := h.room m hm stop hstop
    rw [List.length_append] at this
    omega
  stays := h.stays

theorem right (h : p.Holds (first ++ others) lo) (k : Nat) :
    (p.advance first.length k).Holds others lo where
  stands := by
    obtain ⟨rest, hrest⟩ := h.stands
    refine ⟨rest, ?_⟩
    show others ++ rest = p.rest.drop first.length
    rw [← hrest, List.append_assoc, List.drop_left]
  room m hm stop hstop := by
    have := h.room m hm stop hstop
    rw [List.length_append] at this
    show p.offset + first.length + others.length ≤ stop
    omega
  stays := h.stays

theorem not_exhausted (h : p.Holds bytes lo) (hpos : 0 < bytes.length) :
    p.isExhausted = false := by
  rw [isExhausted, List.any_eq_false]
  intro m hm
  cases hstop : m.stop? with
  | none => simp
  | some stop =>
    have := h.room m hm stop hstop
    simp only [Option.any_some, decide_eq_true_eq]
    omega

/-- Elements that may stand here do not end the innermost master. -/
theorem not_endsByLevel (h : p.Holds bytes lo) (hpos : 0 < bytes.length) {decl : ElementDecl}
    (hlevel : decl.isGlobal = false → lo ≤ decl.level) :
    ∀ m ∈ p.stack.head?, p.endsByLevel decl m = false := by
  intro m hm
  unfold endsByLevel
  cases hglobal : decl.isGlobal with
  | true => simp
  | false =>
    cases hstop : m.stop? with
    | none =>
      have hlo := hlevel hglobal
      have hbelow := h.stays m hm hstop
      have hle : ¬ decl.level ≤ m.element.decl.level := by omega
      simp [hle]
    | some stop =>
      have hroom := h.room m (List.mem_of_mem_head? hm) stop hstop
      have hlt : p.offset < stop := by omega
      simp [hlt]

/-- What stands behind the header of a master stands inside the master. -/
theorem enter {header body : Bytes} {lo' : Int} (h : p.Holds (header ++ body) lo)
    (decl : ElementDecl) {size : DataSize}
    (hsize : size = .unknown ∧ decl.level < lo' ∨ size = .known body.length) :
    (p.enter decl size header.length).Holds body lo' where
  stands := (h.right 1).stands
  room m hm stop hstop := by
    show p.offset + header.length + body.length ≤ stop
    rcases List.mem_cons.mp hm with rfl | hm
    · rcases hsize with ⟨rfl, -⟩ | rfl
      · simp [OpenMaster.stop?, DataSize.known?] at hstop
      · simp [OpenMaster.stop?, DataSize.known?] at hstop
        omega
    · exact (h.right 1).room m hm stop hstop
  stays m hm hstop := by
    obtain rfl := Option.some.inj hm
    rcases hsize with ⟨-, hlt⟩ | rfl
    · exact hlt
    · simp [OpenMaster.stop?, DataSize.known?] at hstop

end Holds

end Place

namespace Tree

variable {schema : Schema} {p : Place} {lo : Int}

/-! ## One element -/

namespace Parts

variable {t : Tree} {bytes body : Bytes} {decl : ElementDecl}

theorem pos (h : Parts t bytes body) : 0 < bytes.length := by
  have := h.header_pos
  rw [h.bytes_eq, List.length_append]
  omega

theorem length_eq (h : Parts t bytes body) : t.header.length + body.length = bytes.length := by
  rw [h.bytes_eq, List.length_append]

/-- The header of a tree is read where the tree stands. -/
theorem hasHeader (h : Parts t bytes body) (hp : p.Holds bytes lo) :
    ∃ header, p.HasHeader header t.header.length ∧ header.id = t.elementId ∧
      header.size = t.size := by
  obtain ⟨rest, hrest⟩ := hp.stands
  obtain ⟨header, hdec, hid, hsize⟩ := h.decode_eq rest
  rw [hrest] at hdec
  exact ⟨header, ⟨hp.not_exhausted h.pos, hdec⟩, hid, hsize⟩

theorem take_eq (h : Parts t bytes body) (hp : p.Holds bytes lo) :
    p.rest.take t.header.length = t.header := by
  obtain ⟨rest, hrest⟩ := hp.stands
  rw [← hrest, h.bytes_eq, List.append_assoc, List.take_left]

theorem take_drop_eq (h : Parts t bytes body) (hp : p.Holds bytes lo) :
    (p.rest.drop t.header.length).take body.length = body := by
  obtain ⟨rest, hrest⟩ := hp.stands
  rw [← hrest, h.bytes_eq, List.append_assoc, List.drop_left, List.take_left]

/-- A tree outside the schema is passed over. -/
theorem transcript_skip (h : Parts t bytes body) (hp : p.Holds bytes lo)
    (hnone : decl? schema t = none) (hlive : t.isLive = false) :
    p.transcript schema = (p.advance bytes.length 1).transcript schema := by
  obtain ⟨header, hheader, hid, hsize⟩ := h.hasHeader hp
  rw [h.size_eq, hlive] at hsize
  rw [hheader.transcript_skip (by rw [hid]; exact hnone) hsize, Place.skip_eq_advance, h.length_eq]

theorem transcript_leaf (h : Parts t bytes body) (hp : p.Holds bytes lo)
    (hdecl : decl? schema t = some decl) (hlive : t.isLive = false)
    (hleaf : decl.isMaster = false) (hlevel : decl.isGlobal = false → lo ≤ decl.level) :
    p.transcript schema =
      ((p.advance bytes.length 1).transcript schema).after
        (.start ⟨decl, p.index⟩ t.size t.header (pathOf p.stack) ::
          restOfLeaf (some ⟨decl, p.index⟩) (pathOf p.stack) body) := by
  obtain ⟨header, hheader, hid, hsize⟩ := h.hasHeader hp
  have hknown : t.size = .known body.length := by rw [h.size_eq, hlive]; rfl
  rw [hheader.transcript_leaf (by rw [hid]; exact hdecl) (hsize.trans hknown) hleaf
    (hp.not_endsByLevel h.pos hlevel), Place.skip_eq_advance, h.length_eq, h.take_eq hp,
    h.take_drop_eq hp, hknown]

theorem transcript_master (h : Parts t bytes body) (hp : p.Holds bytes lo)
    (hdecl : decl? schema t = some decl) (hmaster : decl.isMaster = true)
    (hlevel : decl.isGlobal = false → lo ≤ decl.level) :
    p.transcript schema =
      ((p.enter decl t.size t.header.length).transcript schema).after
        [.start ⟨decl, p.index⟩ t.size t.header (pathOf p.stack)] := by
  obtain ⟨header, hheader, hid, hsize⟩ := h.hasHeader hp
  rw [hheader.transcript_master (by rw [hid]; exact hdecl) hmaster
    (hp.not_endsByLevel h.pos hlevel), h.take_eq hp, hsize]

end Parts

/-! ## Live masters end behind a tree

What is written behind a live master ends it, however many elements outside the schema stand in
between. -/

theorem closesFrom_forest {level : Int} (hle : lo ≤ level) :
    (ts : List Tree) → ReadableForest schema ts → EndsAt schema level ts →
    ∀ {bytes : Bytes} {p : Place} {lo' : Int}, encodeForest ts = .ok bytes → p.Holds bytes lo' →
      (p.advance bytes.length (forestCount schema ts)).ClosesFrom schema lo →
      p.ClosesFrom schema level
  | [], _, _, bytes, p, lo', henc, _, hbehind => by
    obtain rfl := Except.ok.inj henc
    exact Place.ClosesFrom.mono hbehind hle
  | t :: ts, h, hends, bytes, p, lo', henc, hp, hbehind => by
    rw [ReadableForest] at h
    obtain ⟨hfirst, hothers, -⟩ := h
    obtain ⟨first, others, hencFirst, hencOthers, rfl⟩ := encodeForest_cons_eq_ok henc
    obtain ⟨body, hparts⟩ := exists_parts hencFirst
    obtain ⟨header, hheader, hid, hsize⟩ := hparts.hasHeader hp.left
    cases hdecl : decl? schema t with
    | none =>
      have hlive := hfirst.isLive_eq_false hdecl
      have hnext : EndsAt schema level ts := by
        intro next hnext
        exact hends next (by rwa [nextDecl?, List.findSome?_cons, hdecl])
      rw [forestCount, List.length_append, count_of_none hdecl, ← Place.advance_advance] at hbehind
      have hlater := closesFrom_forest hle ts hothers hnext hencOthers (hp.right 1) hbehind
      rw [hparts.size_eq, hlive] at hsize
      apply Place.ClosesFrom.of_skip hheader (by rw [hid]; exact hdecl) hsize
      rw [hparts.length_eq]
      exact hlater
    | some decl =>
      obtain ⟨hglobal, hlevel⟩ := hends decl (by rw [nextDecl?, List.findSome?_cons, hdecl]; rfl)
      refine Place.closesFrom_of_header hheader (by rw [hid]; exact hdecl) ?_ hglobal hlevel
      rw [hsize, size]
      split
      · rename_i hlive
        rw [hfirst.isMaster_eq_true hdecl hlive]
        rfl
      · rfl

/-! ## Inside a master -/

/-- The place behind the header of a tree that is a master. -/
def enter (p : Place) (decl : ElementDecl) (t : Tree) : Place :=
  p.enter decl t.size t.header.length

/-- The bytes of the children stand inside the master, and behind them and `k` elements first what
is still open inside the master ends and then the master itself, which is `n` bytes long. -/
structure Enclosed (schema : Schema) (p : Place) (decl : ElementDecl) (t : Tree) (n k : Nat)
    (body : Bytes) (lo : Int) : Prop where
  holds : (enter p decl t).Holds body lo
  closes : ((enter p decl t).advance body.length k).ClosesFrom schema lo
  ends : ((enter p decl t).advance body.length k).transcript schema =
    ((p.advance n (k + 1)).transcript schema).after [.finish ⟨decl, p.index⟩ (pathOf p.stack)]

namespace Parts

variable {t : Tree} {bytes body : Bytes} {decl : ElementDecl}

/-- Behind the children of a master the place is that behind the master, still inside it. -/
theorem advance_enter (h : Parts t bytes body) (k : Nat) :
    (enter p decl t).advance body.length k =
      (p.advance bytes.length (k + 1)).within
        [⟨⟨decl, p.index⟩, p.offset + t.header.length, t.size⟩] := by
  simp only [enter, Place.enter, Place.skip, Place.advance, Place.within, ← h.length_eq,
    List.drop_drop, Nat.add_assoc, Nat.add_comm 1 k, List.cons_append, List.nil_append]

/-- A master of known length ends where its length says. -/
theorem enclosed_of_known (h : Parts t bytes body) (hp : p.Holds bytes lo)
    (hlive : t.isLive = false) (k : Nat) : Enclosed schema p decl t bytes.length k body 0 := by
  have hsize : t.size = .known body.length := by rw [h.size_eq, hlive]; rfl
  have hexhausted : ((enter p decl t).advance body.length k).isExhausted = true := by
    have hlength := h.length_eq
    rw [h.advance_enter, hsize]
    apply Place.isExhausted_within rfl
    show p.offset + t.header.length + body.length ≤ p.offset + bytes.length
    omega
  refine ⟨(h.bytes_eq ▸ hp).enter decl (.inr hsize), Place.closesFrom_of_exhausted hexhausted, ?_⟩
  rw [h.advance_enter] at hexhausted ⊢
  exact Place.transcript_of_exhausted rfl hexhausted

/-- A live master ends where what follows it ends it. -/
theorem enclosed_of_live (h : Parts t bytes body) (hp : p.Holds bytes lo)
    (hlive : t.isLive = true) {k : Nat}
    (hbehind : (p.advance bytes.length (k + 1)).ClosesFrom schema decl.level) :
    Enclosed schema p decl t bytes.length k body (decl.level + 1) := by
  have hsize : t.size = .unknown := by rw [h.size_eq, hlive]; rfl
  have hstop : (OpenMaster.mk ⟨decl, p.index⟩ (p.offset + t.header.length) t.size).stop? = none := by
    rw [hsize]; rfl
  refine ⟨(h.bytes_eq ▸ hp).enter decl (.inl ⟨hsize, by omega⟩), ?_, ?_⟩
  · rw [h.advance_enter]
    exact hbehind.within hstop (Int.le_refl _) (by omega)
  · rw [h.advance_enter]
    exact hbehind.transcript_within hstop (Int.le_refl _)

/-- The events of a master are its start, those of its children, and its end. -/
theorem transcript_around {inner : List Event} {k : Nat} {lo' : Int} (h : Parts t bytes body)
    (hp : p.Holds bytes lo) (hdecl : decl? schema t = some decl) (hmaster : decl.isMaster = true)
    (hlevel : decl.isGlobal = false → lo ≤ decl.level)
    (henclosed : Enclosed schema p decl t bytes.length k body lo')
    (hinner : (enter p decl t).transcript schema =
      (((enter p decl t).advance body.length k).transcript schema).after inner) :
    p.transcript schema =
      ((p.advance bytes.length (k + 1)).transcript schema).after
        (.start ⟨decl, p.index⟩ t.size t.header (pathOf p.stack) ::
          (inner ++ [.finish ⟨decl, p.index⟩ (pathOf p.stack)])) := by
  have hstart := h.transcript_master hp hdecl hmaster hlevel
  rw [hstart]
  show ((enter p decl t).transcript schema).after _ = _
  rw [hinner, henclosed.ends, ← Transcript.after_append, ← Transcript.after_append]
  rfl

end Parts

/-! ## Whole trees -/

mutual

/-- The transcript at a tree tells its events first. Where the tree is a live master, masters like
it have to end behind it. -/
theorem transcript_tree : (t : Tree) → Readable schema t →
    ∀ {bytes : Bytes} {p : Place} {lo : Int}, encode t = .ok bytes → p.Holds bytes lo →
      (∀ decl ∈ decl? schema t, decl.isGlobal = false → lo ≤ decl.level) →
      (t.isLive = true → ∀ decl ∈ decl? schema t,
        (p.advance bytes.length (count schema t)).ClosesFrom schema decl.level) →
      p.transcript schema =
        ((p.advance bytes.length (count schema t)).transcript schema).after
          (events schema (pathOf p.stack) p.index t)
  | leaf id content, h, bytes, p, lo, henc, hp, hlevel, _ => by
    obtain ⟨body, hparts⟩ := exists_parts henc
    obtain rfl := Except.ok.inj hparts.body_eq
    cases hdecl : schema.get? id with
    | none =>
      rw [hparts.transcript_skip hp hdecl rfl, events, hdecl, count]
      rfl
    | some decl =>
      rw [Readable] at h
      rw [hparts.transcript_leaf hp hdecl rfl (h decl hdecl) (hlevel decl hdecl), events, hdecl,
        count]
  | master id live children, h, bytes, p, lo, henc, hp, hlevel, hlive => by
    obtain ⟨body, hparts⟩ := exists_parts henc
    cases hdecl : schema.get? id with
    | none =>
      rw [Readable, hdecl] at h
      rw [hparts.transcript_skip hp hdecl h, events, count, hdecl]
      rfl
    | some decl =>
      have hkind := h
      rw [Readable, hdecl] at hkind
      obtain ⟨hmaster, hchildren, -⟩ := hkind
      rw [count_master hdecl] at hlive ⊢
      -- How the children's bytes come to an end is all that known and unknown lengths differ in.
      have henclosed : ∃ lo', Above schema lo' children ∧
          Enclosed schema p decl (master id live children) bytes.length
            (forestCount schema children) body lo' := by
        cases live with
        | false => exact ⟨0, above_zero schema children, hparts.enclosed_of_known hp rfl _⟩
        | true =>
          exact ⟨_, (h.of_live hdecl).2, hparts.enclosed_of_live hp rfl (hlive rfl decl hdecl)⟩
      obtain ⟨lo', habove, henclosed⟩ := henclosed
      have hinner := transcript_forest children hchildren hparts.body_eq henclosed.holds habove
        henclosed.closes
      rw [hparts.transcript_around hp hdecl hmaster (hlevel decl hdecl) henclosed hinner,
        events_master hdecl]
      have hpath : pathOf (enter p decl (master id live children)).stack =
          pathOf p.stack ++ [⟨decl, p.index⟩] := Scanner.pathOf_cons _ _
      rw [hpath]
      rfl

theorem transcript_forest : (ts : List Tree) → ReadableForest schema ts →
    ∀ {bytes : Bytes} {p : Place} {lo : Int}, encodeForest ts = .ok bytes → p.Holds bytes lo →
      Above schema lo ts → (p.advance bytes.length (forestCount schema ts)).ClosesFrom schema lo →
      p.transcript schema =
        ((p.advance bytes.length (forestCount schema ts)).transcript schema).after
          (forestEvents schema (pathOf p.stack) p.index ts)
  | [], _, bytes, p, lo, henc, _, _, _ => by
    obtain rfl := Except.ok.inj henc
    rfl
  | t :: ts, h, bytes, p, lo, henc, hp, habove, hbehind => by
    rw [ReadableForest] at h
    obtain ⟨hfirst, hothers, hends⟩ := h
    obtain ⟨first, others, hencFirst, hencOthers, rfl⟩ := encodeForest_cons_eq_ok henc
    rw [forestCount, List.length_append, ← Place.advance_advance] at hbehind ⊢
    -- If the first tree is live, the others or what is behind them end it.
    have hlive : t.isLive = true → ∀ decl ∈ decl? schema t,
        (p.advance first.length (count schema t)).ClosesFrom schema decl.level := by
      intro hlive decl hdecl
      have hzero := hfirst.zero_le_level hdecl hlive
      have hlo : lo ≤ decl.level := by
        apply habove t List.mem_cons_self decl hdecl
        simpa [ElementDecl.isGlobal] using hzero
      exact closesFrom_forest hlo ts hothers (hends hlive decl hdecl) hencOthers (hp.right _) hbehind
    have htree := transcript_tree t hfirst hencFirst hp.left (habove t List.mem_cons_self) hlive
    have hforest := transcript_forest ts hothers hencOthers (hp.right (count schema t))
      (fun t' ht' => habove t' (List.mem_cons_of_mem _ ht')) hbehind
    rw [htree, hforest, forestEvents, Transcript.after_append]
    rfl

end

/-- The transcript of a document that was written tells the events of the forest and no others. -/
theorem transcript_eq_forestEvents {ts : List Tree} {bytes : Bytes} (h : ReadableForest schema ts)
    (henc : encodeForest ts = .ok bytes) :
    Place.transcript schema { rest := bytes } = ⟨forestEvents schema [] 0 ts, .ok ()⟩ := by
  have hp : Place.Holds { rest := bytes } bytes 0 := by
    refine ⟨List.prefix_refl bytes, ?_, ?_⟩ <;> simp
  have hnil : (Place.advance { rest := bytes } bytes.length (forestCount schema ts)).rest = [] :=
    List.drop_length
  rw [transcript_forest ts h henc hp (above_zero schema ts) (Place.closesFrom_of_nil hnil),
    Place.transcript_nil hnil]
  show Transcript.mk (forestEvents schema (pathOf []) 0 ts ++ []) _ = _
  rw [List.append_nil]
  rfl

end Tree

open Ebml.Tree (forestElements encodeForest ReadableForest)

variable {c : ReaderConfig} {forest : List Tree} {bytes : Bytes}

/-- A reader hands out a forest that was written, however its bytes are pushed. -/
theorem Reader.feedAll_encodeForest (hfilter : c.filter = none) (hpaths : c.capturePaths = true)
    (hforest : ReadableForest c.schema forest) (henc : encodeForest forest = .ok bytes)
    {chunks : List Bytes} (hchunks : chunks.flatten = bytes) :
    ((ofSource c {}).feedAll chunks).elements = forestElements c.schema c.policy [] 0 forest ∧
      ((ofSource c {}).feedAll chunks).outcome = .ok () := by
  have hplain : (Collector.ofConfig c).Plain := ⟨hfilter, hpaths, rfl⟩
  have hreading := (feedAll_eq_reading c chunks).1
  rw [hchunks, reading, Tree.transcript_eq_forestEvents hforest henc] at hreading
  dsimp only at hreading
  rw [Tree.deliverAll_forestEvents [] 0 hplain forest hforest] at hreading
  obtain ⟨helements, houtcome⟩ := Prod.mk.inj hreading
  refine ⟨helements.trans ?_, houtcome⟩
  exact List.nil_append _

/-- The listing of a document that was written from a forest has the elements of the forest in
document order, each with what it was written with. -/
theorem Listing.ofBytes_encodeForest (hfilter : c.filter = none) (hpaths : c.capturePaths = true)
    (hforest : ReadableForest c.schema forest) (henc : encodeForest forest = .ok bytes) :
    Listing.ofBytes c bytes =
      .ok ((forestElements c.schema c.policy [] 0 forest).map Entry.ofElement) := by
  obtain ⟨helements, houtcome⟩ :=
    Reader.feedAll_encodeForest hfilter hpaths hforest henc (flatten_cut [bytes.length] bytes)
  rw [Listing.ofBytes, Listing.ofChunks]
  simp only [houtcome, helements]

/-- A live segment with a live cluster, an element outside the schema, and an empty cluster. -/
def Tree.liveClusters : List Tree :=
  [master 0x18538067 true [
    master 0x1F43B675 true [leaf 0xE7 [7]],
    leaf 0xC0 [1, 2],
    master 0x1F43B675 false []]]

theorem Listing.ofBytes_liveClusters :
    ReadableForest Matroska.schema Tree.liveClusters ∧
      ∃ bytes, encodeForest Tree.liveClusters = .ok bytes ∧
        Listing.ofBytes {} bytes = .ok [
          .start "Segment" 0 .unknown [0x18, 0x53, 0x80, 0x67, 0xFF] 0,
          .start "Cluster" 1 .unknown [0x1F, 0x43, 0xB6, 0x75, 0xFF] 1,
          .data "Timecode" 2 [0xE7, 0x81] [7] 2,
          .finish "Cluster" 1 1,
          .start "Cluster" 4 (.known 0) [0x1F, 0x43, 0xB6, 0x75, 0x80] 1,
          .finish "Cluster" 4 1,
          .finish "Segment" 0 0] := by
  have hsegment : Matroska.schema.get? 0x18538067 =
      some ⟨0x18538067, "Segment", 0, .master, false⟩ := rfl
  have hcluster : Matroska.schema.get? 0x1F43B675 =
      some ⟨0x1F43B675, "Cluster", 1, .master, false⟩ := rfl
  have htimecode : Matroska.schema.get? 0xE7 =
      some ⟨0xE7, "Timecode", 2, .unsigned, false⟩ := rfl
  have hunknown : Matroska.schema.get? 0xC0 = none := rfl
  have hreadable : ReadableForest Matroska.schema Tree.liveClusters := by
    simp [ReadableForest, Tree.liveClusters, Tree.Readable, Tree.Above, Tree.EndsAt,
      Tree.nextDecl?, Tree.decl?, Tree.elementId, Tree.isLive, hsegment, hcluster, htimecode,
      hunknown, ElementDecl.isMaster, ElementDecl.isGlobal]
  exact ⟨hreadable, _, rfl, ofBytes_encodeForest (c := {}) rfl rfl hreadable rfl⟩

end Ebml
