import Ebml.Proofs.Command.Agreeing
import Ebml.Proofs.Reader.Truncating

/-!
# Checks of inputs that are cut short

The end of input is no error, and a check sees of it only what a reader hands out. So it finds out
when a leaf lacks some of its data (`whole_of_valid`). Of a header cut short, of an element outside
the schema, and of the length of a master that is still open nothing is handed out that could tell
(`validate_of_cut`).
-/

namespace Ebml

/-! ## Pieces that lack data -/

/-- A leaf of the schema that is not all there is cut off. -/
theorem Divides.exists_cutOff {c : ReaderConfig} {front : List Piece} {p : Piece} {input : Bytes}
    {decl : ElementDecl} {missing : Nat} (h : Divides c.schema (front ++ [p]) [] input)
    (hdecl : p.decl? c.schema = some decl) (hlacks : p.Lacks c.schema missing) (hpos : 0 < missing)
    (masters : List Occurrence) : ∃ l, CutOff c input masters l := by
  have hleaf : decl.isMaster = false := by
    obtain ⟨header, hdec, hsize⟩ := hlacks
    rw [← Piece.decl?_of_decode hdec, hdecl] at hsize
    cases hmaster : decl.isMaster with
    | false => rfl
    | true =>
      rw [if_pos (by simpa using hmaster)] at hsize
      omega
  let l : Leaf := { element := ⟨decl, front.length⟩
                    path := (Collector.ofConfig c).capture masters.reverse
                    declaredSize := p.content.length + missing
                    header := p.header
                    content := p.content
                    policy := c.policy }
  exact ⟨l, front, missing, h, hlacks, hpos, hdecl, hleaf, rfl, rfl, rfl, rfl⟩

/-- In what divides an input only the last piece can lack data, and nothing follows it then. -/
theorem Divides.exists_last {schema : Schema} {pieces : List Piece} {tail input : Bytes} {p : Piece}
    (h : Divides schema pieces tail input) (hp : p ∈ pieces) (hlacks : ¬ p.Lacks schema 0) :
    ∃ front missing, pieces = front ++ [p] ∧ tail = [] ∧ p.Lacks schema missing ∧ 0 < missing := by
  obtain ⟨front, last, rfl⟩ : ∃ front last, pieces = front ++ [last] :=
    (List.eq_nil_or_concat' pieces).resolve_left (List.ne_nil_of_mem hp)
  rcases List.mem_append.mp hp with hmem | hmem
  · exact absurd (h.whole p (by rwa [List.dropLast_concat])) hlacks
  · obtain rfl := List.mem_singleton.mp hmem
    obtain ⟨rfl, missing, hmissing⟩ := (h.last p (by simp)).resolve_left hlacks
    refine ⟨front, missing, rfl, rfl, hmissing, Nat.pos_of_ne_zero ?_⟩
    rintro rfl
    exact hlacks hmissing

namespace Reader

/-- Where nothing that is read is truncated, all pieces of the schema are whole. -/
theorem whole_of_reading {c : ReaderConfig} {input : Bytes} (hfilter : c.filter = none)
    (hok : (reading c input).2 = .ok ()) (hwhole : ∀ e ∈ (reading c input).1, e.isTruncated = false) :
    ∃ pieces tail, Divides c.schema pieces tail input ∧
      ∀ p ∈ pieces, (p.decl? c.schema).isSome → p.Lacks c.schema 0 := by
  obtain ⟨r, hthrough, hpending⟩ := exists_through hok
  obtain ⟨pieces, tail, hdivides, -⟩ := hthrough.accounts hfilter hpending
  refine ⟨pieces, tail, hdivides, fun p hp hdecl => by_contra fun hlacks => ?_⟩
  obtain ⟨decl, hdecl⟩ := Option.isSome_iff_exists.mp hdecl
  obtain ⟨front, missing, rfl, rfl, hmissing, hpos⟩ := hdivides.exists_last hp hlacks
  -- The whole input at once is a feeding as good as any.
  have hread := (feedAll_eq_reading c [input]).1
  rw [List.flatten_singleton] at hread
  have hfed : ((ofSource c {}).feed [input]).outcome = .ok () := by
    cases hfed : ((ofSource c {}).feed [input]).outcome with
    | ok u => rfl
    | error e =>
      have hfailed : ((ofSource c {}).feedAll [input]).outcome = .error e := by
        simp only [feedAll, hfed]
      simp [← hread, hfailed] at hok
  obtain ⟨-, cut, helements, hcut⟩ := feedAll_of_ok c [input] hfilter hfed
  rw [List.flatten_singleton] at hcut
  obtain ⟨l, hl⟩ := hdivides.exists_cutOff hdecl hmissing hpos
    (openAfter ((ofSource c {}).feed [input]).elements)
  obtain rfl := (hcut l).mpr hl
  have hmem : .leaf l ∈ (reading c input).1 := by
    rw [← hread, helements]
    simp
  have htruncated : (Element.leaf l).isTruncated = true := hl.isTruncated
  rw [hwhole _ hmem] at htruncated
  exact Bool.false_ne_true htruncated

end Reader

/-- A check that finds no fault has not met a truncated leaf. -/
theorem Validation.whole_of_isValid {elements : List Element}
    (h : (Validation.ofElements elements).isValid = true) :
    ∀ e ∈ elements, e.isTruncated = false := by
  rw [ofElements_eq, isValid, Bool.and_eq_true, beq_iff_eq] at h
  intro e he
  cases e with
  | start => rfl
  | finish => rfl
  | leaf l =>
    have hleaf : l ∈ elements.filterMap Element.leaf? := List.mem_filterMap.mpr ⟨_, he, rfl⟩
    exact Bool.eq_false_of_not_eq_true (List.countP_eq_zero.mp h.1 l hleaf)

namespace Command

/-- A check that succeeds has read an input that does not end inside the data of a leaf: the input is
a row of pieces and perhaps the beginning of a header, and all pieces of the schema are whole. -/
theorem whole_of_valid (i : InputOptions) (tree : FileTree) (standardInput : Stream) (b : Bytes)
    (p : Nat)
    (hinput : ∀ stream, i.openIn tree standardInput = .ok stream →
      Stream.untilEmpty stream.answers = b.take p)
    (hvalid : ((⟨i, .validate⟩ : Command).runIn tree standardInput).exitCode = 0) :
    ∃ pieces tail, Divides Matroska.schema pieces tail (b.take p) ∧
      ∀ q ∈ pieces, (q.decl? Matroska.schema).isSome → q.Lacks Matroska.schema 0 := by
  cases hopen : i.openIn tree standardInput with
  | error e => simp [runIn, hopen, run, Outcome.exitCode, Failure.isReported] at hvalid
  | ok stream =>
    have hrun : (⟨i, .validate⟩ : Command).runIn tree standardInput =
        (⟨i, .validate⟩ : Command).run (.ok stream) := congrArg (Command.run ⟨i, .validate⟩) hopen
    rw [hrun] at hvalid
    rw [run_of_le _ stream (le_of_exitCode_validate hvalid)] at hvalid
    have hpasses := exists_passes hvalid
    have hread := hpasses.reading_eq
    rw [hinput stream hopen] at hread
    have hwhole := Validation.whole_of_isValid hpasses.isValid
    exact Reader.whole_of_reading (c := i.configure {}) rfl (by rw [hread]) (by rwa [hread])

/-- A whole void element and a master whose single child is still to come. -/
theorem whole_of_valid_open_master :
    let b : Bytes := [0xEC, 0x81, 7, 0x1A, 0x45, 0xDF, 0xA3, 0x84, 0x42, 0x86, 0x81, 1]
    let tree : FileTree := ⟨.directory [], []⟩
    let i : InputOptions := { file := "-" }
    ((⟨i, .validate⟩ : Command).runIn tree (.ofBytes (b.take 8))).exitCode = 0 ∧
      ∃ pieces tail, Divides Matroska.schema pieces tail (b.take 8) ∧
        ∀ q ∈ pieces, (q.decl? Matroska.schema).isSome → q.Lacks Matroska.schema 0 := by
  intro b tree i
  have hopen : i.openIn tree (.ofBytes (b.take 8)) = .ok (.ofBytes (b.take 8)) := by cbv
  have hvalid : ((⟨i, .validate⟩ : Command).runIn tree (.ofBytes (b.take 8))).exitCode = 0 := by
    rw [exitCode_validate i tree (by cbv) (by decide) rfl]
    cbv
  refine ⟨hvalid, whole_of_valid i tree (.ofBytes (b.take 8)) b 8 (fun stream hstream => ?_) hvalid⟩
  obtain rfl := Except.ok.inj (hopen.symm.trans hstream)
  rfl

/-- Inputs that a check finds no fault with: one that ends inside a header, one that ends inside an
element outside the schema, and one that ends before a master of four bytes has any. -/
theorem validate_of_cut :
    let exitCode (bytes : Bytes) : Nat :=
      ((⟨{ file := "-" }, .validate⟩ : Command).runIn ⟨.directory [], []⟩ (.ofBytes bytes)).exitCode
    (exitCode [0xEC] = 0 ∧ ¬ ∃ pieces, Divides Matroska.schema pieces [] [0xEC]) ∧
      (exitCode [0x81, 0x82, 7] = 0 ∧ ∃ q, Divides Matroska.schema [q] [] [0x81, 0x82, 7] ∧
        q.decl? Matroska.schema = none ∧ q.Lacks Matroska.schema 1) ∧
      (exitCode [0x1A, 0x45, 0xDF, 0xA3, 0x84] = 0 ∧
        let scanned := (Reader.ofSource {} (PushSource.ofBytes [0x1A, 0x45, 0xDF, 0xA3, 0x84])).scan.2
        scanned.bytesRead = 5 ∧ scanned.scanner.stack.map OpenMaster.stop? = [some 9]) := by
  intro exitCode
  have hexit (bytes : Bytes) :=
    @exitCode_validate (.ofBytes bytes) { file := "-" } ⟨.directory [], []⟩ (by cbv) (by decide)
  have hlacks : Piece.Lacks Matroska.schema ⟨[0x81, 0x82], [7]⟩ 1 := ⟨_, rfl, rfl⟩
  refine ⟨⟨(hexit [0xEC] rfl).trans (by cbv), ?_⟩,
    ⟨(hexit [0x81, 0x82, 7] rfl).trans (by cbv), ⟨[0x81, 0x82], [7]⟩, ?_, by cbv, ?_⟩,
    (hexit [0x1A, 0x45, 0xDF, 0xA3, 0x84] rfl).trans (by cbv), by cbv, by cbv⟩
  · rintro ⟨pieces, hdivides⟩
    have hall : Divides Matroska.schema [] [0xEC] [0xEC] := ⟨rfl, by simp, by simp, rfl⟩
    exact List.cons_ne_nil _ _ (hall.unique hdivides).2
  · exact ⟨rfl, by simp, fun p hp => .inr ⟨rfl, 1, Option.some.inj hp ▸ hlacks⟩, rfl⟩
  · exact hlacks

end Command

end Ebml
