import Ebml.Proofs.Reader.Mirroring

/-!
# Collected leaves

Whatever a collector leaves out, the leaf that it collects is the one that the scan is inside
(`Tracks`). It is the latest element, so its number tells where it begins, and it has the header and
the data that the events told of it. Each transition keeps it (`Transition.tracking`).
-/

namespace Ebml

/-- The leaf is wanted, it is the latest element and the scan is inside it. -/
structure Tracks (t : Scanner) (log : List Event) (k : Collector) (l : Leaf) : Prop extends
    Collected t log k l where
  wanted : k.wants l.element.decl.id = true
  inside : t.openLeaf? = some l.element
  latest : t.nextIndex = l.element.index + 1

/-- No other leaf is collected than the one that the scan is inside. -/
def Tracking (t : Scanner) (log : List Event) (k : Collector) : Prop :=
  ∀ l ∈ k.collecting, Tracks t log k l

namespace Collector

/-- Masters do not touch the leaf that is collected. -/
theorem collecting_handle_start {o : Occurrence} (hmaster : o.decl.isMaster = true)
    (size : DataSize) (header : Bytes) (path : List Occurrence) (k : Collector) :
    (handle (.start o size header path) k).collecting = k.collecting := by
  cases hwants : k.wants o.decl.id with
  | true => rw [handle_start_master hwants hmaster]; rfl
  | false => rw [handle_start_unwanted hwants]

theorem collecting_handle_finish {o : Occurrence} (hmaster : o.decl.isMaster = true)
    (path : List Occurrence) (k : Collector) :
    (handle (.finish o path) k).collecting = k.collecting := by
  cases hwants : k.wants o.decl.id with
  | true => rw [handle_finish_master hwants hmaster]; rfl
  | false => rw [handle_finish_unwanted hwants]

end Collector

namespace Tracking

variable {t t' : Scanner} {log log' : List Event} {k k' : Collector}

theorem of_idle (h : k.collecting = none) : Tracking t log k := by
  simp [Tracking, h]

/-- What waits does not matter. -/
theorem of_behind {front : List Element} (h : Tracking t log (k.behind front)) :
    Tracking t log k := fun l hl => by
  obtain ⟨hcollected, hwanted, hinside, hlatest⟩ := h l hl
  exact ⟨hcollected.of_settings rfl rfl, hwanted, hinside, hlatest⟩

/-- Outside leaves nothing is collected. -/
theorem idle (h : Tracking t log k) (hleaf : t.openLeaf? = none) : k.collecting = none := by
  cases hl : k.collecting with
  | none => rfl
  | some l =>
    have hinside := (h l hl).inside
    simp [hleaf] at hinside

/-- Outside leaves, what does not touch the leaf that is collected keeps the collector idle. -/
theorem outside (h : Tracking t log k) (hleaf : t.openLeaf? = none)
    (hsame : k'.collecting = k.collecting) : Tracking t' log' k' :=
  of_idle (hsame.trans (h.idle hleaf))

/-- A scan that stays where it is in the data keeps what is collected. -/
theorem unmoved (h : Tracking t log k) (hstack : t'.stack = t.stack)
    (hleaf : t'.openLeaf? = t.openLeaf?) (hnext : t'.nextIndex = t.nextIndex)
    (hmissing : t'.missing = t.missing) : Tracking t' log k := fun l hl => by
  obtain ⟨hcollected, hwanted, hinside, hlatest⟩ := h l hl
  exact ⟨hcollected.unmoved hstack hmissing, hwanted, hleaf.trans hinside, hnext.trans hlatest⟩

/-- A leaf starts, of which nothing was told before. -/
theorem begin {o : Occurrence} {n : Nat} {header : Bytes} (h : Tracking t log k)
    (hidle : t.openLeaf? = none) (hleaf : o.decl.isMaster = false) (hstack : t'.stack = t.stack)
    (hleaf' : t'.openLeaf? = some o) (hnext : t'.nextIndex = o.index + 1) (hmissing : t'.missing = n)
    (hnew : log.flatMap (Event.dataOf o.index) = []) :
    Tracking t' (log ++ [.start o (.known n) header t.path])
      (Collector.handle (.start o (.known n) header t.path) k) := by
  cases hwants : k.wants o.decl.id with
  | false =>
    rw [Collector.handle_start_unwanted hwants]
    exact h.outside hidle rfl
  | true =>
    rw [Collector.handle_start_leaf hwants hleaf]
    intro l hl
    obtain rfl := Option.some.inj hl
    exact ⟨.begin hstack hmissing hnew, hwants, hleaf', hnext⟩

/-- A piece of the data of the leaf that the scan is inside. -/
theorem read {o : Occurrence} {chunk : Bytes} (h : Tracking t log k) (hleaf : t.openLeaf? = some o)
    (hstack : t'.stack = t.stack) (hleaf' : t'.openLeaf? = some o)
    (hnext : t'.nextIndex = t.nextIndex) (hmissing : t.missing = chunk.length + t'.missing) :
    Tracking t' (log ++ [.content o chunk]) (Collector.handle (.content o chunk) k) := by
  cases hl : k.collecting with
  | none =>
    rw [Collector.handle_content_none hl]
    exact of_idle hl
  | some l =>
    obtain ⟨hcollected, hwanted, hinside, hlatest⟩ := h l hl
    obtain rfl := Option.some.inj (hleaf.symm.trans hinside)
    rw [Collector.handle_content_own hl rfl]
    intro l' hl'
    obtain rfl := Option.some.inj hl'
    exact ⟨(hcollected.read hstack hmissing).of_settings rfl rfl, hwanted, hleaf',
      hnext.trans hlatest⟩

/-- What the end of the leaf that the scan is inside makes of a collector: the leaf waits if it was
collected, and nothing changes if not. -/
theorem finish {o : Occurrence} (h : Tracking t log k) (hleaf : t.openLeaf? = some o)
    (hkind : o.decl.isMaster = false) (path : List Occurrence) :
    k.collecting = none ∧ Collector.handle (.finish o path) k = k ∨
      ∃ l, k.collecting = some l ∧ l.element = o ∧
        Collector.handle (.finish o path) k = { k.enqueue (.leaf l) with collecting := none } := by
  cases hl : k.collecting with
  | none =>
    refine .inl ⟨rfl, ?_⟩
    cases hwants : k.wants o.decl.id with
    | true => exact Collector.handle_finish_none hl hkind
    | false => exact Collector.handle_finish_unwanted hwants
  | some l =>
    obtain ⟨-, hwanted, hinside, -⟩ := h l hl
    obtain rfl := Option.some.inj (hleaf.symm.trans hinside)
    exact .inr ⟨l, rfl, rfl, Collector.handle_finish_own hwanted hkind hl rfl⟩

end Tracking

/-! ## Transitions -/

namespace Scanner

/-- A transition keeps what is collected and what the scan is inside together. -/
theorem Transition.tracking {t t' : Scanner} {bytes input : Bytes} {log : List Event}
    {k : Collector} {outcome : Except ScanError Progress} (h : Transition t bytes outcome t')
    (hco : t.Coherent) (hk : t.Kinds) (hl : t.Ledger input log) (ht : Tracking t log k) :
    Tracking t' (log ++ reported outcome) (Collector.receiver.deliverAll (reported outcome) k) := by
  cases h with
  | closeExhausted hphase _ _ hstack =>
    have hmaster := hk.masters _ (by rw [hstack]; exact List.mem_cons_self)
    exact ht.outside (by simp [openLeaf?, hphase]) (Collector.collecting_handle_finish hmaster _ k)
  | idLacking hphase _ _ hwaits =>
    rw [reported_of_waits hwaits]
    exact ht.outside (by simp [openLeaf?, hphase]) rfl
  | idSpoilt hphase => exact ht.outside (by simp [openLeaf?, hphase]) rfl
  | idRead hphase => exact ht.outside (by simp [openLeaf?, hphase]) rfl
  | sizeLacking hphase _ _ hwaits =>
    rw [reported_of_waits hwaits]
    exact ht.outside (by simp [openLeaf?, hphase]) rfl
  | sizeSpoilt hphase => exact ht.outside (by simp [openLeaf?, hphase]) rfl
  | sizeRead hphase => exact ht.outside (by simp [openLeaf?, hphase]) rfl
  | skip hphase => exact ht.outside (by simp [openLeaf?, hphase]) rfl
  | refuseUnresolved hphase => exact ht.outside (by simp [openLeaf?, hphase]) rfl
  | refuseLeaf hphase => exact ht.outside (by simp [openLeaf?, hphase]) rfl
  | closeLevel hphase _ _ hstack =>
    have hmaster := hk.masters _ (by rw [hstack]; exact List.mem_cons_self)
    exact ht.outside (by simp [openLeaf?, hphase]) (Collector.collecting_handle_finish hmaster _ k)
  | enterMaster hphase _ hmaster =>
    exact ht.outside (by simp [openLeaf?, hphase])
      (Collector.collecting_handle_start hmaster _ _ _ k)
  | @enterLeaf _ n index decl hphase _ hleaf =>
    -- All elements so far have other numbers.
    obtain ⟨pieces, htells, -, hholds⟩ := hl
    simp only [Holds, hphase] at hholds
    obtain rfl := hholds.index_eq
    simp only [Coherent, hphase] at hco
    refine ht.begin (by simp [openLeaf?, hphase]) hleaf rfl rfl hco.2.1.nextIndex_eq ?_
      htells.data_beyond
    show t.window.stop + n - t.consumed = n
    rw [hco.1, Nat.add_sub_cancel_left]
  | @contentOver leaf stop hphase hover =>
    rw [reported_moved, List.append_nil]
    refine ht.unmoved rfl (by simp [openLeaf?, hphase]) rfl ?_
    simp only [missing, hphase, Option.getD_some]
    omega
  | contentLacking _ _ hwaits =>
    rw [reported_of_waits hwaits, List.append_nil]
    exact ht
  | @contentRead leaf stop _ hphase _ hle =>
    have hopen : t.openLeaf? = leaf := by simp [openLeaf?, hphase]
    cases leaf with
    | none => exact ht.outside hopen rfl
    | some o =>
      refine ht.read hopen rfl ?_ rfl ?_
      · by_cases hover : stop ≤ t.consumed + bytes.length <;> simp [openLeaf?, hover]
      · rw [missing_of_stop]
        simp only [missing, hphase, Option.getD_some]
        omega
  | @finish leaf hphase =>
    have hopen : t.openLeaf? = leaf := by simp [openLeaf?, hphase]
    cases leaf with
    | none => exact ht.outside hopen rfl
    | some o =>
      refine .of_idle ?_
      show (Collector.handle (.finish o t.path) k).collecting = none
      rcases ht.finish hopen (hk.leaf o hopen) t.path with ⟨hidle, hsame⟩ | ⟨l, -, -, hqueued⟩
      · rw [hsame, hidle]
      · rw [hqueued]

theorem Trail.tracking {t t' : Scanner} {bytes input : Bytes} {events log : List Event}
    {k : Collector} (h : Trail t bytes events t') (hco : t.Coherent) (hk : t.Kinds)
    (hl : t.Ledger input log) (ht : Tracking t log k) :
    Tracking t' (log ++ events) (Collector.receiver.deliverAll events k) := by
  induction h generalizing input log k with
  | refl => rwa [List.append_nil]
  | step hstep _ ih =>
    rw [← List.append_assoc, Receiver.deliverAll_append]
    exact ih (hstep.coherent hco) (hstep.kinds hk) (hstep.ledger hco hl)
      (hstep.tracking hco hk hl ht)

end Scanner

end Ebml
