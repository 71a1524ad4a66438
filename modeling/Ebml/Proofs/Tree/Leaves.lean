import Ebml.Proofs.Frame.Grammar
import Ebml.Proofs.Tree.RoundTrip
import Ebml.Proofs.Value.Integers
import Ebml.Proofs.Value.Text

/-!
# Leaves with typed data

A document that is just one leaf comes to that leaf with its data, in whatever pieces it is pushed and
however the reader is set, as long as it leaves nothing out (`Tree.comesTo_leaf`). So what was written
as data comes back as the value that these bytes have: a number in its shortest form, a text without
the padding behind it, the frame of a simple block.
-/

namespace Ebml

open Ebml.Tree (encode encodeForest)

/-! ## Documents of one leaf -/

/-- A document that is just `tree` can be written unless its data is too long for a size field. In
whatever pieces it is pushed, a reader hands out `l`, which is all of the document, and nothing else,
and reports no error. -/
structure Tree.ComesTo (tree : Tree) (c : ReaderConfig) (l : Leaf) : Prop where
  encodes_iff : (∃ bytes, encodeForest [tree] = .ok bytes) ↔ l.content.length ≤ 2 ^ 56 - 2
  bytes_eq : ∀ bytes, encodeForest [tree] = .ok bytes → bytes = l.header ++ l.content
  isTruncated_eq : l.isTruncated = false
  elements_eq : ∀ chunks : List Bytes, encodeForest [tree] = .ok chunks.flatten →
    ((Reader.ofSource c {}).feedAll chunks).elements = [.leaf l]
  outcome_eq : ∀ chunks : List Bytes, encodeForest [tree] = .ok chunks.flatten →
    ((Reader.ofSource c {}).feedAll chunks).outcome = .ok ()

variable {c : ReaderConfig} {decl : ElementDecl} {id : Nat} {content : Bytes}

/-- Every declared id can be written. -/
theorem Matroska.exists_encodeId (h : schema.get? id = some decl) :
    ∃ field, encodeId id = .ok field := by
  have hall : ∀ d ∈ schema.decls, (encodeId d.id).toOption.isSome := by decide +kernel
  obtain rfl : decl.id = id := by simpa using List.find?_some h
  have hsome := hall decl (List.mem_of_find?_eq_some h)
  cases henc : encodeId decl.id with
  | error e => simp [henc, Except.toOption] at hsome
  | ok field => exact ⟨field, rfl⟩

/-- The leaf that a reader should hand out of a document that is just this element. -/
def Leaf.sole (c : ReaderConfig) (decl : ElementDecl) (id : Nat) (content : Bytes) : Leaf where
  element := ⟨decl, 0⟩
  path := if c.capturePaths then some [] else none
  declaredSize := content.length
  header := (Tree.leaf id content).header
  content := content
  policy := c.policy

namespace Tree

theorem encodeForest_singleton (t : Tree) : encodeForest [t] = encode t := by
  rw [encodeForest, encodeForest]
  cases encode t <;> simp

/-- A leaf that the schema declares can be written if its size can. -/
theorem encodes_leaf_iff (hdecl : Matroska.schema.get? id = some decl) :
    (∃ bytes, encodeForest [leaf id content] = .ok bytes) ↔ content.length ≤ 2 ^ 56 - 2 := by
  obtain ⟨idField, hid⟩ := Matroska.exists_encodeId hdecl
  rw [← encodeSize_iff, encodeForest_singleton, encode, Header.encode, Header.encodeSizeField, hid]
  cases hsize : encodeSize content.length <;> simp [hsize]

theorem feedAll_leaf (hfilter : c.filter = none) (hdecl : c.schema.get? id = some decl)
    (hleaf : decl.isMaster = false) {chunks : List Bytes}
    (henc : encodeForest [leaf id content] = .ok chunks.flatten) :
    ((Reader.ofSource c {}).feedAll chunks).elements = [.leaf (.sole c decl id content)] ∧
      ((Reader.ofSource c {}).feedAll chunks).outcome = .ok () := by
  have hforest : ReadableForest c.schema [leaf id content] := by
    simp [ReadableForest, Readable, isLive, hdecl, hleaf]
  have hevents : forestEvents c.schema [] 0 [leaf id content] =
      .start ⟨decl, 0⟩ (.known content.length) (leaf id content).header [] ::
        restOfLeaf (some ⟨decl, 0⟩) [] content := by
    rw [forestEvents, forestEvents, List.append_nil, events, hdecl]
    rfl
  have hreading := (Reader.feedAll_eq_reading c chunks).1
  rw [Reader.reading, transcript_eq_forestEvents hforest henc, hevents] at hreading
  dsimp only at hreading
  rw [Collector.deliverAll_leafEvents (Collector.wants_of_filter hfilter _) hleaf rfl] at hreading
  exact Prod.mk.inj hreading

/-- A leaf that the schema declares comes back with its data. -/
theorem comesTo_leaf (hfilter : c.filter = none) (hschema : c.schema = Matroska.schema)
    (hdecl : Matroska.schema.get? id = some decl) (hleaf : decl.isMaster = false) :
    (leaf id content).ComesTo c (.sole c decl id content) where
  encodes_iff := encodes_leaf_iff hdecl
  bytes_eq bytes henc := by
    rw [encodeForest_singleton] at henc
    obtain ⟨body, hparts⟩ := exists_parts henc
    obtain rfl := Except.ok.inj hparts.body_eq
    exact hparts.bytes_eq
  isTruncated_eq := by simp [Leaf.isTruncated, Leaf.sole]
  elements_eq chunks henc := (feedAll_leaf hfilter (hschema ▸ hdecl) hleaf henc).1
  outcome_eq chunks henc := (feedAll_leaf hfilter (hschema ▸ hdecl) hleaf henc).2

end Tree

/-! ## Numbers -/

/-- A number has no more digits than are needed to write it. -/
theorem byteLength_le {n width : Nat} (h : n < 256 ^ width) : byteLength n ≤ width := by
  rw [byteLength]
  split
  · exact Nat.zero_le _
  · rename_i hpos
    rw [show (256 : Nat) = 2 ^ 8 from rfl, ← Nat.pow_mul] at h
    have hlog := (Nat.log2_lt hpos).mpr h
    omega

/-- The bytes are the number, there is at least one, and no fewer bytes are it. -/
structure Shortest (n : Nat) (bytes : Bytes) : Prop where
  ne_nil : bytes ≠ []
  beNat_eq : beNat bytes = n
  least : ∀ other, other ≠ [] → beNat other = n → bytes.length ≤ other.length

theorem shortest_beBytes (n : Nat) : Shortest n (beBytes (max 1 (byteLength n)) n) where
  ne_nil := by
    rw [← List.length_pos_iff, length_beBytes]
    omega
  beNat_eq := by
    have hpow : 256 ^ byteLength n ≤ 256 ^ max 1 (byteLength n) :=
      Nat.pow_le_pow_right (by decide) (Nat.le_max_right _ _)
    rw [beNat_beBytes, Nat.mod_eq_of_lt (Nat.lt_of_lt_of_le (lt_pow_byteLength n) hpow)]
  least other hne hother := by
    have hpos := List.length_pos_iff.mpr hne
    have hle : byteLength n ≤ other.length := byteLength_le (hother ▸ beNat_lt other)
    rw [length_beBytes]
    omega

/-! ## Simple blocks -/

/-- A track number of one byte, a timecode in two, flags and data are a frame. -/
theorem Frame.exists_written {track : Nat} {timecode : Int} (htrack : track < 127)
    (htimecode : FitsSigned 2 timecode) (flags : UInt8) (data : Bytes) :
    ∃ f : Frame, f.Written [UInt8.ofNat (128 + track)] flags
        (UInt8.ofNat (128 + track) :: (beBytesInt 2 timecode ++ flags :: data)) ∧
      f.track = track ∧ f.timecode = timecode ∧ f.data = data := by
  have hpattern : ¬unknownPattern 1 ≤ track := by rw [unknownPattern]; omega
  have henc : encodeSizeAt 1 track = .ok [UInt8.ofNat (128 + track)] := by
    rw [encodeSizeAt, if_neg (by decide), if_neg hpattern]
    simp [beBytes]
  obtain ⟨high, low, hbytes⟩ : ∃ high low, beBytesInt 2 timecode = [high, low] := ⟨_, _, rfl⟩
  have hread : beInt [high, low] = timecode := by rw [← hbytes, beInt_beBytesInt htimecode]
  rw [hbytes]
  exact ⟨_, written_ofParts henc high low flags data, rfl, hread, rfl⟩

/-! ## Values that come back -/

namespace Tree

variable (hfilter : c.filter = none) (hschema : c.schema = Matroska.schema)

include hfilter hschema

/-- An unsigned number of 8 bytes fits every document and comes back in its shortest form. -/
theorem unsigned_comes_back {v : Nat} (hdecl : Matroska.schema.get? id = some decl)
    (htype : decl.type = .unsigned) (hlt : v < 2 ^ 64) :
    (∃ bytes, encodeForest [unsigned id v] = .ok bytes) ∧
      ∃ l, (unsigned id v).ComesTo c l ∧ l.element.decl = decl ∧ Shortest v l.content ∧
        { l with policy := .lenient }.value = .ok (.unsigned v) := by
  have hleaf : decl.isMaster = false := by rw [ElementDecl.isMaster, htype]; rfl
  have hcomes := @comesTo_leaf c decl id (beBytes (max 1 (byteLength v)) v) hfilter hschema hdecl hleaf
  have hwidth : byteLength v ≤ 8 := byteLength_le hlt
  have hlength : (beBytes (max 1 (byteLength v)) v).length ≤ 8 := by
    rw [length_beBytes]
    omega
  have hshortest := shortest_beBytes v
  have hvalue := Value.decode_unsigned_lenient htype hlength
  rw [hshortest.beNat_eq] at hvalue
  exact ⟨hcomes.encodes_iff.mpr (Nat.le_trans hlength (by decide)), _, hcomes, rfl, hshortest, hvalue⟩

/-- A text comes back without the NUL characters at its end, whatever padding stands behind it. -/
theorem text_comes_back (hdecl : Matroska.schema.get? id = some decl) (htype : decl.type = .utf8)
    (s : String) (k : Nat) :
    ∃ l, (leaf id (s.toUTF8.data.toList ++ List.replicate k 0)).ComesTo c l ∧
      l.element.decl = decl ∧ l.content = s.toUTF8.data.toList ++ List.replicate k 0 ∧
      l.value = .ok (.utf8 (trimNuls s)) := by
  have hleaf : decl.isMaster = false := by rw [ElementDecl.isMaster, htype]; rfl
  have hvalue : Value.decode decl (s.toUTF8.data.toList ++ List.replicate k 0) c.policy =
      .ok (.utf8 (trimNuls s)) := by
    simp only [Value.decode, htype, Value.readUtf8_padded]
    rfl
  exact ⟨_, comesTo_leaf hfilter hschema hdecl hleaf, rfl, rfl, hvalue⟩

/-- A simple block comes back as the frame that it was made of. -/
theorem simpleBlock_comes_back {track : Nat} {timecode : Int} (htrack : track < 127)
    (htimecode : FitsSigned 2 timecode) (flags : UInt8) (payload : Bytes) :
    ∃ tree l f, simpleBlock? track timecode flags payload = some tree ∧ tree.ComesTo c l ∧
      l.element.decl.id = Matroska.simpleBlockId ∧ l.content.length = 4 + payload.length ∧
      l.value = .ok (.frame f) ∧ l.frame? = .ok (some f) ∧
      f.Written [UInt8.ofNat (128 + track)] flags l.content ∧
      f.track = track ∧ f.timecode = timecode ∧ f.data = payload := by
  have hdecl : Matroska.schema.get? Matroska.simpleBlockId =
      some ⟨Matroska.simpleBlockId, "SimpleBlock", 2, .binary, false⟩ := rfl
  obtain ⟨f, hwritten, hparts⟩ := Frame.exists_written htrack htimecode flags payload
  refine ⟨_, _, f, if_pos htrack, comesTo_leaf hfilter hschema hdecl rfl, rfl, ?_, ?_, ?_, hwritten,
    hparts⟩
  · simp only [Leaf.sole, List.length_cons, List.length_append, length_beBytesInt]
    omega
  · show ((Frame.decode (_ :: _)).mapError ValueError.frame).map Value.frame = _
    rw [hwritten.decode_eq]
    rfl
  · show (Frame.decode (_ :: _)).map some = _
    rw [hwritten.decode_eq]
    rfl

end Tree

/-- Through any reader that knows the Matroska elements and leaves nothing out, in whatever pieces the
document is pushed: a number of 64 bits that was written as an unsigned element comes back as one leaf
with the shortest bytes of the number, which a lenient reader reads as the number; a text that was
written as a UTF-8 element comes back as the text without the NUL characters at its end, also with any
number of zero bytes behind it; and a simple block comes back as the frame with the track number, the
timecode, the flags and the data that it was made of. -/
theorem typed_leaves_come_back (c : ReaderConfig) (hfilter : c.filter = none)
    (hschema : c.schema = Matroska.schema) :
    (∀ id decl v, Matroska.schema.get? id = some decl → decl.type = .unsigned → v < 2 ^ 64 →
      (∃ bytes, encodeForest [.unsigned id v] = .ok bytes) ∧
      ∃ l, (Tree.unsigned id v).ComesTo c l ∧ l.element.decl = decl ∧ Shortest v l.content ∧
        { l with policy := .lenient }.value = .ok (.unsigned v)) ∧
    (∀ id decl s, Matroska.schema.get? id = some decl → decl.type = .utf8 →
      (∃ l, (Tree.text id s).ComesTo c l ∧ l.element.decl = decl ∧
        l.content = s.toUTF8.data.toList ∧ l.value = .ok (.utf8 (trimNuls s))) ∧
      ∀ k, ∃ l, (Tree.leaf id (s.toUTF8.data.toList ++ List.replicate k 0)).ComesTo c l ∧
        l.element.decl = decl ∧ l.content = s.toUTF8.data.toList ++ List.replicate k 0 ∧
        l.value = .ok (.utf8 (trimNuls s))) ∧
    ∀ track timecode flags payload, track < 127 → FitsSigned 2 timecode →
      ∃ tree l f, Tree.simpleBlock? track timecode flags payload = some tree ∧ tree.ComesTo c l ∧
        l.element.decl.id = Matroska.simpleBlockId ∧ l.content.length = 4 + payload.length ∧
        l.value = .ok (.frame f) ∧ l.frame? = .ok (some f) ∧
        f.track = track ∧ f.timecode = timecode ∧ f.keyFrame = flags.toNat.testBit 7 ∧
        f.invisible = flags.toNat.testBit 3 ∧ f.discardable = flags.toNat.testBit 0 ∧
        f.lacing.toFlags = flags &&& 6 ∧ f.data = payload := by
  refine ⟨fun id decl v hdecl htype hlt => Tree.unsigned_comes_back hfilter hschema hdecl htype hlt,
    fun id decl s hdecl htype => ⟨?_, Tree.text_comes_back hfilter hschema hdecl htype s⟩,
    fun track timecode flags payload htrack htimecode => ?_⟩
  · have hplain := Tree.text_comes_back hfilter hschema hdecl htype s 0
    rwa [List.replicate_zero, List.append_nil] at hplain
  · obtain ⟨tree, l, f, htree, hcomes, hid, hlength, hvalue, hframe, hwritten, hnumber, htime, hdata⟩ :=
      Tree.simpleBlock_comes_back hfilter hschema htrack htimecode flags payload
    exact ⟨tree, l, f, htree, hcomes, hid, hlength, hvalue, hframe, hnumber, htime, hwritten.keyFrame,
      hwritten.invisible, hwritten.discardable, hwritten.lacing, hdata⟩

/-- Zero, a number that reaches the sign bit, a text of nothing but NULs and a block without data, read
by a strict reader that takes data byte by byte and keeps no paths. -/
theorem typed_leaves_come_back_at_edges :
    let c : ReaderConfig := { maxChunk := 1, capturePaths := false, policy := .strict }
    ((Reader.ofSource c {}).feedAll [[0xE7], [], [0x81, 0]]).outcome = .ok () ∧
      (∃ l, (Tree.unsigned 0xE7 0).ComesTo c l ∧ Shortest 0 l.content ∧
        { l with policy := .lenient }.value = .ok (.unsigned 0)) ∧
      (∃ l, (Tree.unsigned 0x73C5 (2 ^ 63)).ComesTo c l ∧ Shortest (2 ^ 63) l.content ∧
        { l with policy := .lenient }.value = .ok (.unsigned (2 ^ 63))) ∧
      (∃ l, (Tree.leaf 0x7BA9 ("\x00".toUTF8.data.toList ++ List.replicate 2 0)).ComesTo c l ∧
        l.value = .ok (.utf8 "")) ∧
      ∃ tree l f, Tree.simpleBlock? 126 (-2 ^ 15) 0xFF [] = some tree ∧ tree.ComesTo c l ∧
        l.value = .ok (.frame f) ∧ f.track = 126 ∧ f.timecode = -2 ^ 15 ∧ f.data = [] := by
  intro c
  obtain ⟨hnumbers, htexts, hblocks⟩ := typed_leaves_come_back c rfl rfl
  obtain ⟨-, zero, hzero, -, hshortest, hvalue⟩ :=
    hnumbers 0xE7 ⟨0xE7, "Timecode", 2, .unsigned, false⟩ 0 rfl rfl (by decide)
  obtain ⟨-, large, hlarge, -, hshortest', hvalue'⟩ :=
    hnumbers 0x73C5 ⟨0x73C5, "TrackUID", 3, .unsigned, false⟩ (2 ^ 63) rfl rfl (by decide)
  obtain ⟨-, hpadded⟩ := htexts 0x7BA9 ⟨0x7BA9, "Title", 2, .utf8, false⟩ "\x00" rfl rfl
  obtain ⟨text, htext, -, -, htrimmed⟩ := hpadded 2
  have hempty : trimNuls "\x00" = "" := by decide
  rw [hempty] at htrimmed
  obtain ⟨tree, l, f, htree, hcomes, -, -, hframe, -, htrack, htimecode, -, -, -, -, hdata⟩ :=
    hblocks 126 (-2 ^ 15) 0xFF [] (by decide) (by decide)
  exact ⟨hzero.outcome_eq [[0xE7], [], [0x81, 0]] rfl, ⟨zero, hzero, hshortest, hvalue⟩,
    ⟨large, hlarge, hshortest', hvalue'⟩, ⟨text, htext, htrimmed⟩, tree, l, f, htree, hcomes, hframe,
    htrack, htimecode, hdata⟩

end Ebml
