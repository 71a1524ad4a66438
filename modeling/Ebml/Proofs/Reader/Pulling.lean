import Ebml.Proofs.Reader.Mixing
import Ebml.Proofs.Reader.Projecting
import Ebml.Proofs.Scanner.Nesting

/-!
# The pull loop

A caller asks whether there may be another element and, after each yes, asks for it (`Pulls`). Over a
source that yields all its bytes this loop ends: a round without an element reads bytes or closes the
scan. It ends at what cannot be read or with all elements handed out, every master started also
ended (`Balanced`), and from then on there is nothing more, whatever becomes of the source
(`Later`).
-/

namespace Ebml

/-! ## Balanced elements -/

/-- Every master that starts ends behind balanced elements, with the same path. -/
inductive Balanced : List Element → Prop
  | nil : Balanced []
  | leaf (l : Leaf) {rest : List Element} : Balanced rest → Balanced (.leaf l :: rest)
  | master (o : Occurrence) (path : Option (List Occurrence)) (size : DataSize) (header : Bytes)
      {inner rest : List Element} :
      Balanced inner → Balanced rest →
        Balanced (.start o path size header :: (inner ++ .finish o path :: rest))

namespace Balanced

open Collector (Makes)

theorem append {elements more : List Element} (h : Balanced elements) (hmore : Balanced more) :
    Balanced (elements ++ more) := by
  induction h with
  | nil => exact hmore
  | leaf l _ ih => exact ih.leaf l
  | master o path size header hinner _ _ ih =>
    have hmaster := hinner.master o path size header ih
    simpa using hmaster

/-- Leaving out ids and paths leaves elements balanced: the start and the end of a master go
together. -/
theorem choice {elements : List Element} (h : Balanced elements) (c : Collector) :
    Balanced (c.choice elements) := by
  induction h with
  | nil => exact .nil
  | leaf l _ ih =>
    rw [← List.singleton_append, Collector.choice_append]
    cases hwants : c.wants l.element.decl.id with
    | false =>
      rw [Collector.choice_of_unwanted hwants]
      exact ih
    | true =>
      obtain ⟨l', hl'⟩ : ∃ l', c.present (.leaf l) = .leaf l' := by
        unfold Collector.present
        split <;> exact ⟨_, rfl⟩
      rw [Collector.choice_of_wanted hwants, hl']
      exact ih.leaf l'
  | @master o path size header inner rest _ _ ihinner ihrest =>
    -- What is inside a master is chosen for itself, whether the master is kept or not.
    have hsplit : Element.start o path size header :: (inner ++ .finish o path :: rest) =
        [.start o path size header] ++ (inner ++ ([.finish o path] ++ rest)) := by simp
    rw [hsplit, Collector.choice_append, Collector.choice_append, Collector.choice_append]
    cases hwants : c.wants o.decl.id with
    | false =>
      rw [Collector.choice_of_unwanted hwants, Collector.choice_of_unwanted hwants]
      exact ihinner.append ihrest
    | true =>
      obtain ⟨path', hstart, hfinish⟩ : ∃ path',
          c.present (.start o path size header) = .start o path' size header ∧
            c.present (.finish o path) = .finish o path' := by
        unfold Collector.present
        split <;> exact ⟨_, rfl, rfl⟩
      rw [Collector.choice_of_wanted hwants, Collector.choice_of_wanted hwants, hstart, hfinish]
      exact ihinner.master o path' size header ihrest

end Balanced

/-- Collectors choose among balanced elements where events are well nested. -/
theorem Nested.makes {path : List Occurrence} {events : List Event} (policy : SignBitPolicy)
    (h : Nested path events) :
    ∃ elements, Collector.Makes policy events elements ∧ Balanced elements := by
  -- The grammar of the events is that of the elements, so each rule makes what the same rule
  -- allows.
  induction h with
  | nil => exact ⟨[], .nil, .nil⟩
  | @leaf path o size header chunks later hleaf _ ih =>
    obtain ⟨rest, hmakes, hbalanced⟩ := ih
    have hone := @Collector.Makes.leaf policy o hleaf size header path chunks
    have hsplit : Event.start o size header path ::
          (chunks.map (.content o) ++ .finish o path :: later) =
        (.start o size header path :: (chunks.map (.content o) ++ [.finish o path])) ++ later := by
      simp
    rw [hsplit]
    exact ⟨_, hone.append hmakes, hbalanced.leaf _⟩
  | @master path o size header inner later hmaster _ _ ihinner ihlater =>
    obtain ⟨elements, hinner, hbalanced⟩ := ihinner
    obtain ⟨rest, hlater, hbalanced'⟩ := ihlater
    have hstart := @Collector.Makes.start policy o hmaster size header path
    have hfinish := @Collector.Makes.finish_master policy o hmaster path
    refine ⟨_, ?_, hbalanced.master o (some path) size header hbalanced'⟩
    simpa using hstart.append (hinner.append (hfinish.append hlater))

namespace Reader

/-- A reader that is through with nothing waiting handed out balanced elements. -/
theorem Through.balanced {c : ReaderConfig} {input : Bytes} {taken : List Element}
    {r : Reader PushSource} (h : Through c input taken r)
    (hpending : r.collector.hasPending = false) : Balanced taken := by
  obtain ⟨log, t, htrail, -, -, hcollected⟩ := h
  obtain ⟨elements, hmakes, hbalanced⟩ := htrail.nested_close.makes c.policy
  rw [hmakes (.ofConfig c) rfl rfl] at hcollected
  have hqueue := congrArg Collector.pending hcollected
  simp only [Collector.hasPending, Bool.not_eq_false', List.isEmpty_iff] at hpending
  have htaken : taken = (Collector.ofConfig c).choice elements := by
    simpa [Collector.enqueueAll, Collector.behind, Collector.ofConfig, hpending] using hqueue.symm
  rw [htaken]
  exact hbalanced.choice _

/-! ## The loop -/

variable {σ : Type} [FiniteSource σ]

/-- A pull loop, round by round: the elements handed out, how the loop ended, and the reader then. -/
inductive Pulls : Reader σ → List Element → Except ScanError Unit → Reader σ → Prop
  | unanswered {r r' : Reader σ} {e : ScanError} :
      r.mayHaveNext = (.error e, r') → Pulls r [] (.error e) r'
  | ended {r r' : Reader σ} : r.mayHaveNext = (.ok false, r') → Pulls r [] (.ok ()) r'
  | unread {r r' r'' : Reader σ} {e : ScanError} :
      r.mayHaveNext = (.ok true, r') → r'.next? = (.error e, r'') → Pulls r [] (.error e) r''
  | taken {r r' r'' last : Reader σ} {element : Element} {elements : List Element}
      {outcome : Except ScanError Unit} :
      r.mayHaveNext = (.ok true, r') → r'.next? = (.ok (some element), r'') →
        Pulls r'' elements outcome last → Pulls r (element :: elements) outcome last
  | again {r r' r'' last : Reader σ} {elements : List Element} {outcome : Except ScanError Unit} :
      r.mayHaveNext = (.ok true, r') → r'.next? = (.ok none, r'') →
        Pulls r'' elements outcome last → Pulls r elements outcome last

/-- What can become of a reader whose source is changed at will, by pushing more bytes for example,
and which is asked again. -/
inductive Later (r : Reader σ) : Reader σ → Prop
  | now : Later r r
  | moved {r' : Reader σ} (source : σ) : Later r r' → Later r { r' with source := source }
  | mayHaveNext {r' : Reader σ} : Later r r' → Later r r'.mayHaveNext.2
  | next? {r' : Reader σ} : Later r r' → Later r r'.next?.2

/-- A spent reader stays so. -/
theorem Spent.later {r r' : Reader σ} (h : Spent r) (hlater : Later r r') : Spent r' := by
  induction hlater with
  | now => exact h
  | moved source _ ih => exact ⟨ih.hasPending_eq, ih.closed_eq⟩
  | mayHaveNext _ ih =>
    rw [ih.mayHaveNext]
    exact ih
  | next? _ ih =>
    rw [ih.next?]
    exact ih

/-- A drain that does not starve is a pull loop. -/
theorem pulls_drain (r : Reader σ) (h : r.drain.stop ≠ .starved) :
    Pulls r r.drain.elements (r.drain.stop.error?.elim (.ok ()) .error) r.drain.reader := by
  fun_induction drain r with
  | case1 r e r' hmay => exact .unanswered hmay
  | case2 r r' hmay => exact .ended hmay
  | case3 r r' hmay e r'' hnext => exact .unread hmay hnext
  | case4 =>
    rename_i r r' hmay element r'' hnext rest ih
    exact .taken hmay hnext (ih h)
  | case5 r r' hmay r'' hnext hprogress ih => exact .again hmay hnext (ih h)
  | case6 => exact absurd rfl h

/-! ## What the loop comes to -/

/-- The elements are all there are in the input up to what cannot be read, if there is such a thing.
If there is not, they are balanced and the reader says that there are no more. -/
def Exhausts (c : ReaderConfig) (input : Bytes) (elements : List Element)
    (outcome : Except ScanError Unit) (last : Reader σ) : Prop :=
  reading c input = (elements, outcome) ∧
    match outcome with
    | .ok () => last.mayHaveNext = (.ok false, last) ∧ Balanced elements
    | .error e => ∀ cause, e ≠ .io cause

/-- The loop ends and has everything then. -/
theorem Assured.exhausts [AnnouncingSource σ] [YieldingSource σ] {c : ReaderConfig} {input : Bytes}
    {taken : List Element} {r : Reader σ} (h : Assured c input taken r) :
    ∃ elements outcome last, Pulls r elements outcome last ∧
      Exhausts c input (taken ++ elements) outcome last := by
  obtain ⟨hother, hspec⟩ := h.drain_spec
  have hpulls := pulls_drain r fun hstarved => by rwa [hstarved] at hspec
  refine ⟨_, _, _, hpulls, ?_⟩
  generalize r.drain = drained at *
  obtain ⟨elements, stop, last⟩ := drained
  cases stop with
  | ended =>
    obtain ⟨hspent, rest, hthrough⟩ := hspec
    exact ⟨reading_of_through hthrough hspent.hasPending_eq, hspent.mayHaveNext,
      hthrough.balanced hspent.hasPending_eq⟩
  | starved => exact hspec.elim
  | unreadable e => exact ⟨reading_of_failed hspec, by simpa [DrainEnd.error?] using hother⟩
  | malformed e => exact ⟨reading_of_failed hspec, by simpa [DrainEnd.error?] using hother⟩

/-- The pull loop ends, whatever the input and the configuration, over a finished source of pushed
bytes in any state that use can bring it to, and over a stream that never fails. It ends at what
cannot be read or with all elements of the input handed out and balanced, and however a reader of
pushed bytes is used, it says that there are no more elements only then. Any reader that says so has
a closed scan and nothing waiting, and whatever becomes of its source, it goes on to say so and hands
out nothing. -/
theorem pull_loop_ends (c : ReaderConfig) :
    (∀ {input taken} {r : Reader PushSource}, Usage c input taken r →
      (r.mayHaveNext.1 = .ok false → Exhausts c input taken (.ok ()) r) ∧
        (r.source.finished = true →
          ∃ elements outcome last, Pulls r elements outcome last ∧
            Exhausts c input (taken ++ elements) outcome last)) ∧
      (∀ (answers : List StreamRead) (chunk : Nat), Stream.failures answers = [] →
        ∃ elements outcome last,
          Pulls (ofSource c (StreamSource.ofStream ⟨answers, 0⟩ chunk)) elements outcome last ∧
            Exhausts c (Stream.untilEmpty answers) elements outcome last) ∧
      ∀ {σ : Type} [FiniteSource σ] {r r' : Reader σ}, r.mayHaveNext = (.ok false, r') →
        r' = r ∧ r.scanner.closed = true ∧ r.collector.hasPending = false ∧
          ∀ r'', Later r r'' → r''.mayHaveNext = (.ok false, r'') ∧ r''.next? = (.ok none, r'') := by
  refine ⟨fun {input taken r} husage => ⟨fun hover => ?_, fun hfinished => ?_⟩,
    fun answers chunk hnever => ?_, fun hover => ?_⟩
  · have hanswer : r.mayHaveNext = (.ok false, r.mayHaveNext.2) := Prod.ext hover rfl
    obtain ⟨hsame, hpending, hclosed⟩ := eq_of_mayHaveNext_false hanswer
    have hthrough := husage.kept.stands.through hclosed
    rw [hsame] at hanswer
    exact ⟨reading_of_through hthrough hpending, hanswer, hthrough.balanced hpending⟩
  · exact (husage.kept.assured hfinished).exhausts
  · have hassured : Assured c (Stream.untilEmpty answers) []
        (ofSource c (StreamSource.ofStream ⟨answers, 0⟩ chunk)) :=
      ⟨_, yields_ofStream chunk hnever, .inl ⟨[], [], .refl _, rfl, rfl⟩⟩
    exact hassured.exhausts
  · obtain ⟨hsame, hpending, hclosed⟩ := eq_of_mayHaveNext_false hover
    refine ⟨hsame, hclosed, hpending, fun r'' hlater => ?_⟩
    have hspent := Spent.later ⟨hpending, hclosed⟩ hlater
    exact ⟨hspent.mayHaveNext, hspent.next?⟩

/-- A void element that is cut short in a live segment is pushed, all elements are pulled, and more
is pushed in vain; and a stream gives nothing before it would give more. -/
theorem pull_loop_ends_of_short_void :
    (∃ elements last,
      Pulls (((ofSource { maxChunk := 0 } {}).push
        [0x18, 0x53, 0x80, 0x67, 0xFF, 0xEC, 0x82, 7]).finish) elements (.ok ()) last ∧
        elements.length = 3 ∧
        ∀ chunk, (last.push chunk).mayHaveNext = (.ok false, last.push chunk)) ∧
      ∃ elements last,
        Pulls (ofSource {} (StreamSource.ofStream
          ⟨[.bytes [0xEC], .failure ⟨.interrupted, "signal"⟩, .bytes [0x80], .bytes [], .bytes [0]],
            0⟩ 1)) elements (.ok ()) last ∧ elements.length = 1 := by
  constructor
  · obtain ⟨elements, outcome, last, hpulls, hreading, hend⟩ :=
      ((pull_loop_ends { maxChunk := 0 }).1
        (Usage.begin.push [0x18, 0x53, 0x80, 0x67, 0xFF, 0xEC, 0x82, 7]).finish).2 rfl
    have hlength : (reading { maxChunk := 0 }
        [0x18, 0x53, 0x80, 0x67, 0xFF, 0xEC, 0x82, 7]).1.length = 3 := by cbv
    have hends : (reading { maxChunk := 0 }
        [0x18, 0x53, 0x80, 0x67, 0xFF, 0xEC, 0x82, 7]).2 = .ok () := by cbv
    change reading _ [0x18, 0x53, 0x80, 0x67, 0xFF, 0xEC, 0x82, 7] = (elements, outcome) at hreading
    rw [hreading] at hlength hends
    obtain rfl : outcome = .ok () := hends
    have hspent := (pull_loop_ends { maxChunk := 0 }).2.2 hend.1
    exact ⟨elements, last, hpulls, hlength, fun chunk => (hspent.2.2.2 _ (.moved _ .now)).1⟩
  · obtain ⟨elements, outcome, last, hpulls, hreading, -⟩ :=
      (pull_loop_ends {}).2.1 [.bytes [0xEC], .failure ⟨.interrupted, "signal"⟩, .bytes [0x80],
        .bytes [], .bytes [0]] 1 rfl
    have hlength : (reading {} [0xEC, 0x80]).1.length = 1 := by cbv
    have hends : (reading {} [0xEC, 0x80]).2 = .ok () := by cbv
    change reading _ [0xEC, 0x80] = (elements, outcome) at hreading
    rw [hreading] at hlength hends
    obtain rfl : outcome = .ok () := hends
    exact ⟨elements, last, hpulls, hlength⟩

end Reader

end Ebml
