import Mathlib.Data.List.Sections
import Mica.Kernel.Overdelete

/-!
# Kernel/RecursiveFixpoint — a recursive component ends in its least fixpoint

From the rows that remain, the seed finds everything that is one step away (`seed_spec`), and each
round of settling keeps it so (`SettleState.Inv.step`).  All derived tuples are made of the values of
the given rows and of the constants of the heads (`derives_values`), so there are finitely many and
the loop ends, with the least fixpoint of the new system (`recursive_component_exact`).
-/

open SortedList List SortedSet

namespace Mica

/-! ## All rows -/

section Full

variable {rule : CompiledRule} {collections : Collections} {arrangements : Arrangements} {version : ℕ}
  {context : ExecutionContext}

/-- What a rule derives from all rows, with or without negation. -/
theorem evaluateRuleFull_rows
    (hinput : ∀ atom ∈ rule.positiveAtoms,
      (rebuildInput rule collections arrangements version context atom).Exact atom)
    (hsafe : rule.Safe) (hfits : rule.CountsFit (rule.derivations collections)) :
    ∃ out, (evaluateRuleFull rule collections arrangements version context).map Prod.fst = .ok out ∧
      ∀ head, out.weight head = (rule.activeIn collections
        (rule.derivations collections)).countP (rule.derives head) := by
  by_cases hnegation : rule.hasNegation = true
  · obtain ⟨out, state, hok⟩ := evaluateRuleFull_ok hinput hnegation hsafe (hfits.activeIn collections)
    refine ⟨out, ?_, (evaluateRuleFull_spec hinput hok).2⟩
    rw [hok]
    rfl
  obtain ⟨joined, slots, hjoined, -, hweights⟩ :=
    joinAll_spec hinput (aligned_unitBinding rule.slotCount)
  rw [weights_unitBinding] at hweights
  have hcount : ∀ b, (filterGuards rule joined).weight b =
      ((rule.derivations collections).count b : ℤ) - ([] : List Binding).count b := by
    intro b
    rw [weight_filterGuards (hweights.trans (bodyChain_eq _ _ _).symm), count_nil,
      Nat.cast_zero, sub_zero]
  have hheads : ∀ b, b ∈ rule.derivations collections ∨ b ∈ ([] : List Binding) →
      rule.instantiateHead b = .ok (rule.headOf b) := by
    rintro b (hb | hb)
    · exact rule.instantiateHead_eq hsafe.1 (CompiledRule.bound_of_mem_derivations
        (fun atom hatom => (hinput atom hatom).length_eq) hb)
    · cases hb
  obtain ⟨out, hout, hweight⟩ := projectRule_spec hcount hheads hfits
    (fun head => by rw [countP_nil]; decide) version
  have hatoms : rule.negatedAtoms = [] := by simpa [CompiledRule.hasNegation] using hnegation
  have hactive : rule.activeIn collections (rule.derivations collections) =
      rule.derivations collections := by
    refine filter_eq_self.mpr fun b _ => ?_
    rw [CompiledRule.blocked, hatoms]
    rfl
  refine ⟨out, ?_, fun head => ?_⟩
  · unfold evaluateRuleFull
    change Except.map Prod.fst ((joinAll (rebuildInput rule collections arrangements version context)
      rule.positiveAtoms (unitBinding rule.slotCount)).bind _) = _
    rw [hjoined]
    change Except.map Prod.fst (if rule.hasNegation = true then _ else _) = _
    rw [if_neg hnegation, hout]
    rfl
  · rw [hweight head, rule.headWeight_eq hcount, hactive, countP_nil, Nat.cast_zero, sub_zero]

/-- A positive count is a derivation. -/
theorem countP_activeIn_pos {negated : Collections} {l : List Binding} {head : Tuple} :
    0 < (rule.activeIn negated l).countP (rule.derives head) ↔
      ∃ b ∈ l, rule.blocked negated b = false ∧ rule.derives head b = true := by
  rw [countP_pos_iff]
  refine exists_congr fun b => ?_
  rw [CompiledRule.activeIn, mem_filter, Bool.not_eq_true', and_assoc]

end Full

/-! ## The seed -/

namespace RecursiveAdvance

variable {advance : RecursiveAdvance} {component : MaintainedComponent} {arity : RelationId → ℕ}
  {stored overdeleted rows : Collections} {r : RelationId} {t : Tuple} {rule : CompiledRule}

/-- Rows that differ from the new ones in the targets only. -/
def Above (advance : RecursiveAdvance) (component : MaintainedComponent) (rows : Collections) : Prop :=
  ∀ r, r ∉ component.targets → ∀ t, t ∈ rows r ↔ t ∈ advance.collections r

theorem above_remainingRows (overdeleted : Collections) :
    advance.Above component (advance.remainingRows component overdeleted) := by
  intro r hr t
  rw [remainingRows, if_neg hr]

theorem Above.blocked_eq (h : advance.Above component rows) (hrule : rule ∈ component.rules)
    (b : Binding) : rule.blocked rows b = rule.blocked advance.collections b :=
  blocked_congr fun atom hatom => h atom.relation (component.stratified rule hrule atom hatom)

/-- One step of the new system. -/
theorem Above.infers_iff (h : advance.Above component rows) {f : Fact} :
    (advance.newSystem component).Infers (factsOf rows) f ↔
      ∃ rule ∈ component.rules, rule.headRelation = f.1 ∧ ∃ b ∈ rule.derivations rows,
        rule.blocked rows b = false ∧ rule.derives f.2 b = true := by
  refine Mica.infers_iff.trans (exists_congr fun rule => and_congr_right fun hrule => ?_)
  simp only [h.blocked_eq hrule]

/-- The arrangements of the targets can be brought to any rows. -/
theorem Consistent.arranged_target (h : advance.Consistent component arity stored)
    (habove : advance.Above component rows) :
    Arranged (advance.targetArrangements component rows) rows := by
  intro spec arrangement hspec
  unfold targetArrangements at hspec
  split_ifs at hspec with hr
  · obtain ⟨old, hold, rfl⟩ := Option.map_eq_some_iff.mp hspec
    have hcurrent : advance.currentArrangements spec = some old := by
      rcases hcase : advance.currentArrangements spec with _ | current
      · rw [hcase, h.specs spec hcase] at hold
        cases hold
      rwa [hcase] at hold
    obtain ⟨hpositions, hexact⟩ := h.arranged_old spec old hcurrent
    exact ⟨hpositions, Arrangement.apply_exact (changes_setDifferenceChanges _ _) hexact⟩
  · obtain ⟨hpositions, hexact⟩ := h.arranged_new spec arrangement hspec
    refine ⟨hpositions, fun key t => (hexact key t).trans (and_congr_left fun _ => ?_)⟩
    exact (habove spec.relation hr t).symm

/-- A derived row has the arity of its relation. -/
theorem Consistent.length_of_derives (h : advance.Consistent component arity stored) {f : Fact}
    (hf : (advance.newSystem component).Derives f) : f.2.length = arity f.1 := by
  rcases hf.given_or_infers with hgiven | ⟨_, hstep, _⟩
  · by_cases hr : f.1 ∈ component.targets
    · exact h.length_new f.1 f.2 ((h.visible f.1 hr f.2).mpr
        (.inl ((MaintainedComponent.mem_given_target hr).mp hgiven)))
    · exact h.length_new f.1 f.2 ((MaintainedComponent.mem_given_below hr).mp hgiven)
  · obtain ⟨rule, hrule, rows, b, -, -, -, -, -, hhead, hderives⟩ := hstep
    rw [(instantiateTerms_values (CompiledRule.instantiateHead_of_derives hderives)).1, ← hhead]
    exact h.heads rule hrule

/-- Rows of the new system, as the rules read them. -/
structure Settled (advance : RecursiveAdvance) (component : MaintainedComponent) (rows : Collections)
    (arrangements : Arrangements) : Prop where
  derives : ∀ r, ∀ t ∈ rows r, (advance.newSystem component).Derives (r, t)
  above : advance.Above component rows
  arranged : Arranged arrangements rows

variable {arrangements : Arrangements}

theorem Settled.rowsFit (h : advance.Settled component rows arrangements)
    (hadvance : advance.Consistent component arity stored) (hrule : rule ∈ component.rules) :
    rule.RowsFit rows :=
  hadvance.rowsFit (fun r t ht => hadvance.length_of_derives (h.derives r t ht)) hrule

theorem Settled.fits (h : advance.Settled component rows arrangements)
    (hfits : advance.CountsFit component) (hrule : rule ∈ component.rules) : rule.Fits rows :=
  hfits rule hrule rows fun r t ht => .inr (h.derives r t ht)

theorem Settled.remainingRows (hadvance : advance.Consistent component arity stored)
    (h : advance.Overdeletes component stored overdeleted) :
    advance.Settled component (advance.remainingRows component overdeleted)
      (advance.targetArrangements component (advance.remainingRows component overdeleted)) where
  derives r t ht := h.derives hadvance (f := (r, t)) ht
  above := above_remainingRows overdeleted
  arranged := hadvance.arranged_target (above_remainingRows overdeleted)

/-- What is one step from all rows. -/
theorem Settled.fullCandidates_spec (h : advance.Settled component rows arrangements)
    (hadvance : advance.Consistent component arity stored) (hfits : advance.CountsFit component)
    (hsafe : ∀ rule ∈ component.rules, rule.Safe) (derived : Collections) :
    ∃ frontier, recursiveFullCandidates component rows arrangements derived advance.version
        advance.context = .ok frontier ∧
      ∀ r t, t ∈ frontier r ↔
        t ∉ derived r ∧ (advance.newSystem component).Infers (factsOf rows) (r, t) := by
  have hcandidates : ∀ rule ∈ component.rules, ∃ out, (evaluateRuleFull rule rows arrangements
      advance.version advance.context).map Prod.fst = .ok out ∧
        ∀ t, t ∉ derived rule.headRelation → (0 < out.weight t ↔ ∃ b ∈ rule.derivations rows,
          rule.blocked rows b = false ∧ rule.derives t b = true) := by
    intro rule hrule
    obtain ⟨out, hok, hweight⟩ := evaluateRuleFull_rows
      (fun atom hatom => h.arranged.input_exact (h.rowsFit hadvance hrule atom hatom)
        hadvance.context rule.headRelation advance.version)
      (hsafe rule hrule) (h.fits hfits hrule).countsFit
    refine ⟨out, hok, fun t _ => ?_⟩
    rw [hweight t, Int.natCast_pos]
    exact countP_activeIn_pos
  obtain ⟨frontier, hok, hmem⟩ := gatherCandidates_spec (fun _ => SortedSet.empty) hcandidates
  refine ⟨frontier, hok, fun r t => (hmem r t).trans ?_⟩
  rw [or_iff_right (notMem_empty t), h.above.infers_iff]

/-- Nothing was overdeleted, and the negated relations did not change. -/
theorem of_not_needsFullSeed (h : advance.needsFullSeed component overdeleted = false) :
    (∀ r ∈ component.targets, ∀ t, t ∉ overdeleted r) ∧
      ∀ rule ∈ component.rules, ∀ atom ∈ rule.negatedAtoms,
        (advance.delta atom.relation).isEmpty = true := by
  obtain ⟨hnone, hnegated⟩ := Bool.or_eq_false_iff.mp h
  rw [any_eq_false] at hnone hnegated
  refine ⟨fun r hr t ht => hnone r hr ?_, fun rule hrule atom hatom => ?_⟩
  · rw [Bool.not_eq_true', Bool.eq_false_iff, ne_eq, List.isEmpty_iff]
    exact ne_nil_of_mem (mem_list.mpr ht)
  · have hmem : atom.relation ∈ component.negatedRelations :=
      mem_flatMap.mpr ⟨rule, hrule, mem_map.mpr ⟨atom, hatom, rfl⟩⟩
    simpa using hnegated atom.relation hmem

theorem Consistent.seedEvaluation_consistent (h : advance.Consistent component arity stored)
    (hs : advance.Settled component rows (advance.targetArrangements component rows))
    (hrule : rule ∈ component.rules) (target : RelationId) :
    DeltaEvaluation.Consistent { advance.seedEvaluation component rows with target := target }
      rule.positiveAtoms := by
  refine ⟨fun atom hatom => ?_, fun atom hatom => ?_, fun atom hatom => ?_⟩
  · exact h.arranged_old.input_exact (h.rowsFit h.length_old hrule atom hatom) h.context _ _
  · exact hs.arranged.input_exact (hs.rowsFit h hrule atom hatom) h.context _ _
  · have hpositive : atom.relation ∈ component.positiveRelations :=
      mem_flatMap.mpr ⟨rule, hrule, mem_map.mpr ⟨atom, hatom, rfl⟩⟩
    have hchanges := changes_setDifferenceChanges (advance.currentCollections atom.relation)
      (rows atom.relation)
    change Changes _ _ ((advance.seedDeltas component rows atom.relation).getD WeightedMap.empty)
    rw [seedDeltas, if_pos hpositive]
    dsimp only
    split_ifs with hempty
    · rwa [Option.getD_none, ← WeightedMap.eq_empty_of_isEmpty hempty]
    · exact hchanges

/-- What is one step from all rows, from the changes alone. -/
theorem Consistent.seedCandidates_spec (h : advance.Consistent component arity stored)
    (hfits : advance.CountsFit component) (hsafe : ∀ rule ∈ component.rules, rule.Safe)
    (hover : advance.Overdeletes component stored overdeleted)
    (hseed : advance.needsFullSeed component overdeleted = false) :
    ∃ frontier, recursiveDeltaCandidates component (advance.seedEvaluation component
        (advance.remainingRows component overdeleted)) (advance.remaining component overdeleted) =
          .ok frontier ∧
      ∀ r t, t ∈ frontier r ↔ t ∉ advance.remaining component overdeleted r ∧
        (advance.newSystem component).Infers
          (factsOf (advance.remainingRows component overdeleted)) (r, t) := by
  have hs := Settled.remainingRows h hover
  obtain ⟨hnone, hnegated⟩ := of_not_needsFullSeed hseed
  set rows := advance.remainingRows component overdeleted with hrows
  have hcandidates : ∀ rule ∈ component.rules, ∃ out, ruleCandidates rule
      { advance.seedEvaluation component rows with target := rule.headRelation } rows = .ok out ∧
        ∀ t, t ∉ advance.remaining component overdeleted rule.headRelation →
          (0 < out.weight t ↔ ∃ b ∈ rule.derivations rows,
            rule.blocked rows b = false ∧ rule.derives t b = true) := by
    intro rule hrule
    have hconsistent := h.seedEvaluation_consistent hs hrule rule.headRelation
    obtain ⟨bindings, hok, hweight⟩ := evaluatePositiveBindingDelta_spec hconsistent
    have hfitsOld : rule.Fits advance.currentCollections :=
      hfits rule hrule advance.currentCollections fun r t ht => .inl ht
    obtain ⟨out, hout, hweights⟩ := ruleCandidates_spec rows (hsafe rule hrule) hok
      hweight (fun b hb => hb.elim
        (CompiledRule.bound_of_mem_derivations fun atom hatom =>
          (hconsistent.new atom hatom).length_eq)
        (CompiledRule.bound_of_mem_derivations fun atom hatom =>
          (hconsistent.old atom hatom).length_eq))
      (hs.fits hfits hrule).countsFit hfitsOld.countsFit
    refine ⟨out, hout, fun t ht => ?_⟩
    -- a tuple that was not derived before has no old derivations
    have hold : (rule.activeIn rows (rule.derivations advance.currentCollections)).countP
        (rule.derives t) = 0 := by
      by_contra hne
      obtain ⟨b, hb, hblocked, hderives⟩ := countP_activeIn_pos.mp (Nat.pos_of_ne_zero hne)
      have hr := component.heads rule hrule
      refine ht (mem_remaining.mpr ⟨hr, (h.mem_oldDerived hr).mpr ?_, hnone _ hr t⟩)
      refine Mica.infers_iff.mpr ⟨rule, hrule, rfl, b, hb, ?_, hderives⟩
      rw [← hblocked, hs.above.blocked_eq hrule]
      refine blocked_congr fun atom hatom u => ?_
      have hzero := WeightedMap.isEmpty_iff.mp (hnegated rule hrule atom hatom) u
      rw [(h.changes atom.relation).mem_iff u, hzero]
      simp
    rw [hweights t]
    change 0 < _ - ((rule.activeIn rows (rule.derivations advance.currentCollections)).countP
      (rule.derives t) : ℤ) ↔ _
    rw [hold, Nat.cast_zero, sub_zero, Int.natCast_pos]
    exact countP_activeIn_pos
  obtain ⟨frontier, hok, hmem⟩ := gatherCandidates_spec (fun _ => SortedSet.empty) hcandidates
  refine ⟨frontier, hok, fun r t => (hmem r t).trans ?_⟩
  rw [or_iff_right (notMem_empty t), hs.above.infers_iff]

/-- **The seed is everything that is one step away.** -/
theorem Consistent.seed_spec (h : advance.Consistent component arity stored)
    (hfits : advance.CountsFit component) (hsafe : ∀ rule ∈ component.rules, rule.Safe)
    (hover : advance.Overdeletes component stored overdeleted) :
    ∃ frontier, advance.seed component overdeleted = .ok frontier ∧
      ∀ r t, t ∈ frontier r ↔ t ∉ advance.remaining component overdeleted r ∧
        (advance.newSystem component).Infers
          (factsOf (advance.remainingRows component overdeleted)) (r, t) := by
  unfold seed
  split_ifs with hseed
  · exact (Settled.remainingRows h hover).fullCandidates_spec h hfits hsafe _
  · exact h.seedCandidates_spec hfits hsafe hover (Bool.not_eq_true _ ▸ hseed)

end RecursiveAdvance

/-! ## A round of settling -/

/-- The rows after a round. -/
def SettleState.next (s : SettleState) : Collections := fun relation =>
  extendRows (s.settled relation) (s.frontier relation)

/-- **The invariant of settling**: the settled rows are the given and the derived ones, and the rows
in front miss nothing. -/
structure SettleState.Inv (s : SettleState) (advance : RecursiveAdvance)
    (component : MaintainedComponent) : Prop where
  rows_iff : ∀ r t, t ∈ s.settled r ↔
    (r, t) ∈ (advance.newSystem component).given ∨ t ∈ s.derived r
  arranged : Arranged s.arrangements s.settled
  fresh : ∀ r, ∀ t ∈ s.frontier r, t ∉ s.derived r
  saturating : Saturating (advance.newSystem component) (factsOf s.derived) (factsOf s.frontier)

section Settle

variable {advance : RecursiveAdvance} {component : MaintainedComponent} {arity : RelationId → ℕ}
  {stored : Collections} {s : SettleState} {r : RelationId} {t : Tuple} {rule : CompiledRule}

theorem SettleState.mem_next : t ∈ s.next r ↔ t ∈ s.settled r ∨ t ∈ s.frontier r :=
  mem_extendRows

/-- Rows of the new system that are derived in the targets only. -/
theorem settled_of_rows_iff {rows : Collections} {arrangements : Arrangements} (derived : Collections)
    (hrows : ∀ r t, t ∈ rows r ↔ (r, t) ∈ (advance.newSystem component).given ∨ t ∈ derived r)
    (hsound : ∀ f ∈ factsOf derived,
      (advance.newSystem component).Infers {g | (advance.newSystem component).Derives g} f)
    (harranged : Arranged arrangements rows) : advance.Settled component rows arrangements where
  derives r t ht := by
    rcases (hrows r t).mp ht with hgiven | hderived
    · exact .given hgiven
    · exact (Inference.isLeast_derives _).1.2 _ (hsound (r, t) hderived)
  above r hr t := by
    have hnot : t ∉ derived r := fun hderived =>
      hr (MaintainedComponent.target_of_infers (hsound (r, t) hderived))
    rw [hrows r t, or_iff_left hnot]
    exact MaintainedComponent.mem_given_below hr
  arranged := harranged

theorem SettleState.Inv.settled (h : s.Inv advance component) :
    advance.Settled component s.settled s.arrangements :=
  settled_of_rows_iff s.derived h.rows_iff h.saturating.sound h.arranged

/-- The rows after a round are rows of the new system. -/
theorem SettleState.Inv.settled_next (h : s.Inv advance component) :
    advance.Settled component s.next (updateArrangements s.arrangements fun relation =>
      signedRows 1 one_ne_zero (s.frontier relation)) := by
  refine settled_of_rows_iff (fun r => extendRows (s.derived r) (s.frontier r))
    (fun r t => ?_) (fun f hf => ?_) (h.arranged.update fun r t => ?_)
  · rw [SettleState.mem_next, h.rows_iff r t, mem_extendRows, or_assoc]
  · exact (mem_extendRows.mp hf).elim (h.saturating.sound f) (h.saturating.front_sound f)
  · rw [SettleState.mem_next, weight_signedRows, or_comm]
    by_cases ht : t ∈ s.frontier r
    · simp [ht]
    · simp [ht]

/-- The evaluation of a round, for one rule. -/
theorem RecursiveAdvance.settleEvaluation_grows (advance : RecursiveAdvance)
    (component : MaintainedComponent) (s : SettleState) (target : RelationId) :
    DeltaEvaluation.Grows { advance.settleEvaluation component s with target := target }
      s.frontier where
  delta_eq := getD_rowDeltas
  rows_iff _ _ := mem_extendRows

theorem unitRows_signedRows_one {n : ℕ} {rows : Collection} (h : ∀ t ∈ rows, t.length = n) :
    UnitRows n (signedRows 1 one_ne_zero rows).map.list := by
  have hmem : ∀ e ∈ (signedRows 1 one_ne_zero rows).map.list, e.1 ∈ rows ∧ e.2 = 1 := by
    intro e he
    obtain ⟨hweight, hne⟩ := WeightedMap.mem_list.mp he
    rw [weight_signedRows] at hweight
    split_ifs at hweight with hrow
    · exact ⟨hrow, hweight.symm⟩
    · exact absurd hweight.symm hne
  refine ⟨WeightedMap.nodup_keys _, fun e he => ?_, fun e he => h e.1 (hmem e he).1⟩
  rw [(hmem e he).2, abs_one]

theorem SettleState.Inv.readable (h : s.Inv advance component)
    (hadvance : advance.Consistent component arity stored) (hrule : rule ∈ component.rules)
    (target : RelationId) : DeltaEvaluation.Readable
      { advance.settleEvaluation component s with target := target } rule.positiveAtoms := by
  have hnext := h.settled_next
  refine ⟨fun atom hatom => ?_, fun atom hatom => ?_, fun atom hatom => ?_⟩
  · exact h.arranged.input_exact (h.settled.rowsFit hadvance hrule atom hatom) hadvance.context _ _
  · exact hnext.arranged.input_exact (hnext.rowsFit hadvance hrule atom hatom) hadvance.context _ _
  · rw [(advance.settleEvaluation_grows component s target).delta_eq]
    refine unitRows_signedRows_one fun t ht => hnext.rowsFit hadvance hrule atom hatom t ?_
    exact SettleState.mem_next.mpr (.inr ht)

/-- What a round finds: derivations that use a row in front. -/
theorem SettleState.Inv.candidates (h : s.Inv advance component)
    (hadvance : advance.Consistent component arity stored) (hfits : advance.CountsFit component)
    (hsafe : rule.Safe) (hrule : rule ∈ component.rules) :
    ∃ out, ruleCandidates rule { advance.settleEvaluation component s with
        target := rule.headRelation } s.next = .ok out ∧
      ∀ t, 0 < out.weight t ↔ ∃ b ∈ frontierBindings rule { advance.settleEvaluation component s with
        target := rule.headRelation } s.frontier,
          rule.blocked s.next b = false ∧ rule.derives t b = true := by
  have hreadable := h.readable hadvance hrule rule.headRelation
  have hgrows := advance.settleEvaluation_grows component s rule.headRelation
  have hfit := h.settled_next.fits hfits hrule
  obtain ⟨bindings, hok, hweight⟩ := evaluatePositiveBindingDelta_grows hreadable hgrows hfit.atoms
  obtain ⟨out, hout, hweights⟩ := ruleCandidates_spec s.next hsafe hok hweight
    (fun b hb => hb.elim (fun hb => CompiledRule.bound_of_mem_derivations
      (h.settled_next.rowsFit hadvance hrule) (frontierBindings_subset hgrows hb))
      nofun)
    (countsFit_frontierBindings hreadable hgrows hfit) (fun head => by rw [countP_nil]; decide)
  refine ⟨out, hout, fun t => ?_⟩
  rw [hweights t]
  change 0 < _ - (([] : List Binding).countP (rule.derives t) : ℤ) ↔ _
  rw [countP_nil, Nat.cast_zero, sub_zero, Int.natCast_pos]
  exact countP_activeIn_pos

/-- **A round keeps the invariant.** -/
theorem SettleState.Inv.step (h : s.Inv advance component)
    (hadvance : advance.Consistent component arity stored) (hfits : advance.CountsFit component)
    (hsafe : ∀ rule ∈ component.rules, rule.Safe) :
    ∃ s', advance.settleStep component s = .ok s' ∧ s'.Inv advance component ∧
      ∀ r t, t ∈ s'.derived r ↔ t ∈ s.derived r ∨ t ∈ s.frontier r := by
  set derived : Collections := fun r => extendRows (s.derived r) (s.frontier r) with hderived
  obtain ⟨frontier, hok, hmem⟩ : ∃ frontier, recursiveDeltaCandidates component
      (advance.settleEvaluation component s) derived = .ok frontier ∧
        ∀ r t, t ∈ frontier r ↔ t ∈ (SortedSet.empty : Collection) ∨ t ∉ derived r ∧
          ∃ rule ∈ component.rules, rule.headRelation = r ∧ ∃ b ∈ frontierBindings rule
            { advance.settleEvaluation component s with target := rule.headRelation } s.frontier,
              rule.blocked s.next b = false ∧ rule.derives t b = true := by
    refine gatherCandidates_spec (fun _ => SortedSet.empty) fun rule hrule => ?_
    obtain ⟨out, hout, hweight⟩ := h.candidates hadvance hfits (hsafe rule hrule) hrule
    exact ⟨out, hout, fun t _ => hweight t⟩
  have hnext := h.settled_next
  have hrows : factsOf s.next = (advance.newSystem component).given ∪
      (factsOf s.derived ∪ factsOf s.frontier) := by
    ext f
    change f.2 ∈ s.next f.1 ↔ _ ∨ f.2 ∈ s.derived f.1 ∨ f.2 ∈ s.frontier f.1
    rw [SettleState.mem_next, h.rows_iff, or_assoc]
  have hfacts : factsOf derived = factsOf s.derived ∪ factsOf s.frontier :=
    Set.ext fun f => mem_extendRows
  refine ⟨⟨s.next, _, derived, frontier⟩, ?_, ⟨fun r t => ?_, hnext.arranged, fun r t ht => ?_, ?_⟩,
    fun r t => mem_extendRows⟩
  · unfold RecursiveAdvance.settleStep
    dsimp only
    rw [hok]
    rfl
  · rw [SettleState.mem_next, h.rows_iff r t, mem_extendRows, or_assoc]
  · exact (((hmem r t).mp ht).resolve_left (notMem_empty t)).1
  · change Saturating _ (factsOf derived) (factsOf frontier)
    rw [hfacts]
    refine h.saturating.advance (fun f hf => ?_) fun body f hstep hbody huse => ?_
    · obtain ⟨-, rule, hrule, hhead, b, hb, hblocked, hderives⟩ :=
        ((hmem f.1 f.2).mp hf).resolve_left (notMem_empty f.2)
      rw [← hrows]
      exact hnext.above.infers_iff.mpr ⟨rule, hrule, hhead, b, frontierBindings_subset
        (advance.settleEvaluation_grows component s rule.headRelation) hb, hblocked, hderives⟩
    by_cases hold : f.2 ∈ derived f.1
    · exact .inl (hfacts ▸ (show f ∈ factsOf derived from hold))
    refine .inr ((hmem f.1 f.2).mpr (.inr ⟨hold, ?_⟩))
    obtain ⟨rule, hrule, rows, b, hlen, rfl, hunify, hguards, hblocked, hhead, hderives⟩ := hstep
    refine ⟨rule, hrule, hhead, b, ?_, (hnext.above.blocked_eq hrule b).trans hblocked, hderives⟩
    rw [← hrows] at hbody
    exact mem_frontierBindings (advance.settleEvaluation_grows component s rule.headRelation)
      hguards (forall_bodyFacts.mp ⟨hlen, hbody⟩) hunify huse

end Settle

/-! ## The values of derived tuples -/

/-- The values of the given rows that rules may read, and the constants of the heads. -/
def MaintainedComponent.domain (component : MaintainedComponent) (given : Collections) : List Value :=
  ((component.positiveRelations ++ component.targets).flatMap fun r => (given r).list.flatten) ++
    component.rules.flatMap fun rule => rule.headTerms.filterMap fun
      | .value v => some v
      | .var _ _ => none

/-- **Derived tuples have no new values.** -/
theorem derives_values {component : MaintainedComponent} {stored rows : Collections} {f : Fact}
    (hf : (component.system stored rows).Derives f)
    (hr : f.1 ∈ component.positiveRelations ++ component.targets) :
    ∀ v ∈ f.2, v ∈ component.domain (component.given stored rows) := by
  induction hf with
  | @given f hgiven =>
    intro v hv
    refine mem_append_left _ (mem_flatMap.mpr ⟨f.1, hr, mem_flatten.mpr ⟨f.2, ?_, hv⟩⟩)
    exact mem_list.mpr hgiven
  | @step body f hstep hbody ih =>
    intro v hv
    obtain ⟨rule, hrule, rows, b, -, rfl, hunify, -, -, -, hderives⟩ := hstep
    rcases (instantiateTerms_values (CompiledRule.instantiateHead_of_derives hderives)).2 v hv with
      hconst | ⟨slot, hslot⟩
    · exact mem_append_right _ (mem_flatMap.mpr
        ⟨rule, hrule, mem_filterMap.mpr ⟨_, hconst, rfl⟩⟩)
    · rcases get_unifyAll hunify slot v hslot with hunbound | ⟨g, hg, hvalue⟩
      · exact absurd hunbound (by simp)
      · obtain ⟨atom, hatom, hrelation⟩ := relation_of_mem_bodyFacts hg
        refine ih g hg (mem_append_left _ ?_) v hvalue
        exact mem_flatMap.mpr ⟨rule, hrule, mem_map.mpr ⟨atom, hatom, hrelation⟩⟩

theorem mem_sections_replicate {α : Type*} {values : List α} : ∀ {t : List α},
    (∀ v ∈ t, v ∈ values) → t ∈ (List.replicate t.length values).sections
  | [], _ => mem_sections.mpr .nil
  | v :: t, h => by
    obtain ⟨hfirst, hrest⟩ := forall_mem_cons.mp h
    exact mem_sections.mpr (.cons hfirst (mem_sections.mp (mem_sections_replicate hrest)))

namespace RecursiveAdvance

variable {advance : RecursiveAdvance} {component : MaintainedComponent} {arity : RelationId → ℕ}
  {stored overdeleted : Collections}

/-- The tuples that can be derived. -/
def derivable (advance : RecursiveAdvance) (component : MaintainedComponent)
    (arity : RelationId → ℕ) : List Fact :=
  component.targets.flatMap fun r => (List.replicate (arity r) (component.domain
    (component.given advance.extensional advance.collections))).sections.map fun t => (r, t)

theorem Consistent.mem_derivable (h : advance.Consistent component arity stored) {f : Fact}
    (hf : (advance.newSystem component).Infers {g | (advance.newSystem component).Derives g} f) :
    f ∈ advance.derivable component arity := by
  have hr := MaintainedComponent.target_of_infers hf
  have hderives := (Inference.isLeast_derives _).1.2 f hf
  refine mem_flatMap.mpr ⟨f.1, hr, mem_map.mpr ⟨f.2, ?_, rfl⟩⟩
  rw [← h.length_of_derives hderives]
  exact mem_sections_replicate (derives_values hderives (mem_append_right _ hr))

/-! ## The component -/

/-- The state that settling starts from. -/
def settleStart (advance : RecursiveAdvance) (component : MaintainedComponent)
    (overdeleted frontier : Collections) : SettleState where
  settled := advance.remainingRows component overdeleted
  arrangements :=
    advance.targetArrangements component (advance.remainingRows component overdeleted)
  derived := advance.remaining component overdeleted
  frontier := frontier

theorem Consistent.settleStart (h : advance.Consistent component arity stored)
    (hover : advance.Overdeletes component stored overdeleted) {frontier : Collections}
    (hfrontier : ∀ r t, t ∈ frontier r ↔ t ∉ advance.remaining component overdeleted r ∧
      (advance.newSystem component).Infers
        (factsOf (advance.remainingRows component overdeleted)) (r, t)) :
    (advance.settleStart component overdeleted frontier).Inv advance component where
  rows_iff _ _ := h.mem_remainingRows
  arranged := (Settled.remainingRows h hover).arranged
  fresh r t ht := ((hfrontier r t).mp ht).1
  saturating :=
    { sound := fun f hf => hover.infers h hf
      front_sound := fun f hf =>
        ((hfrontier f.1 f.2).mp hf).2.mono fun g hg => hover.derives h hg
      next := fun f hf => by
        by_cases hold : f ∈ factsOf (advance.remaining component overdeleted)
        · exact .inl hold
        · refine .inr ((hfrontier f.1 f.2).mpr ⟨hold, hf.mono fun g hg => ?_⟩)
          exact h.mem_remainingRows.mpr hg }

/-- **Settling ends**, with everything derived. -/
theorem Consistent.settle_spec (h : advance.Consistent component arity stored)
    (hfits : advance.CountsFit component) (hsafe : ∀ rule ∈ component.rules, rule.Safe) :
    ∃ fuel₀, ∀ fuel ≥ fuel₀, ∀ s : SettleState, s.Inv advance component →
      ∃ s', loopWhile (fun s => busy component s.frontier) (advance.settleStep component) fuel s =
          some (.ok s') ∧ s'.Inv advance component ∧ factsOf s'.frontier = ∅ := by
  let measure (s : SettleState) : ℕ :=
    missing (advance.derivable component arity) fun f => f.2 ∈ s.derived f.1
  have hstep : ∀ s : SettleState, s.Inv advance component → busy component s.frontier = true →
      ∃ s', advance.settleStep component s = .ok s' ∧ s'.Inv advance component ∧
        measure s' < measure s := by
    intro s hs hbusy
    obtain ⟨s', hok, hs', hderived⟩ := hs.step h hfits hsafe
    obtain ⟨r, -, t, ht⟩ := busy_iff.mp hbusy
    refine ⟨s', hok, hs', missing_lt (fun f hf => (hderived f.1 f.2).mpr (.inl hf))
      (h.mem_derivable (hs.saturating.front_sound (r, t) ht))
      ((hderived r t).mpr (.inr ht)) (hs.fresh r t ht)⟩
  refine ⟨(advance.derivable component arity).length, fun fuel hfuel s hs => ?_⟩
  obtain ⟨s', hrun, hs', hidle⟩ :=
    loopWhile_spec hstep hs (countP_le_length.trans hfuel : measure s ≤ fuel)
  refine ⟨s', hrun, hs', Set.eq_empty_iff_forall_notMem.mpr fun f hf => ?_⟩
  have hr := MaintainedComponent.target_of_infers (hs'.saturating.front_sound f hf)
  rw [busy_iff.mpr ⟨f.1, mem_append_right _ hr, f.2, hf⟩] at hidle
  cases hidle

/-- **What a recursive component is left with.**  Its rows are the least fixpoint of the new system,
its support is what the rules infer from them, its deltas are the changes from the old rows, and its
arrangements show the new rows. -/
structure Exact (advance : RecursiveAdvance) (component : MaintainedComponent)
    (outcome : RecursiveOutcome) : Prop where
  fixpoint : IsLeast {facts | (advance.newSystem component).Closed facts} (factsOf outcome.collections)
  below : ∀ r, r ∉ component.targets → outcome.collections r = advance.collections r
  support : ∀ target ∈ component.targets, ∀ t, 0 < (outcome.derivedSupport target).weight t ↔
    (advance.newSystem component).Infers (factsOf outcome.collections) (target, t)
  deltas : ∀ target ∈ component.targets, ∃ changes, outcome.relationDeltas target = some changes ∧
    Changes (advance.currentCollections target) (outcome.collections target) changes
  arranged : Arranged outcome.arrangements outcome.collections

theorem Consistent.outcome_exact (h : advance.Consistent component arity stored) {s : SettleState}
    (hs : s.Inv advance component) (hdone : factsOf s.frontier = ∅) :
    advance.Exact component (advance.outcome component s) := by
  have hsaturated : Saturating (advance.newSystem component) (factsOf s.derived) ∅ :=
    hdone ▸ hs.saturating
  obtain ⟨hall, hinferred⟩ := hsaturated.done
  have hrows : ∀ r t, t ∈ (advance.outcome component s).collections r ↔ t ∈ s.settled r := by
    intro r t
    change t ∈ (if r ∈ component.targets then s.settled r else advance.collections r) ↔ _
    split_ifs with hr
    · exact Iff.rfl
    · exact (hs.settled.above r hr t).symm
  have hfacts : factsOf (advance.outcome component s).collections =
      {f | (advance.newSystem component).Derives f} := by
    ext f
    exact (hrows f.1 f.2).trans ((hs.rows_iff f.1 f.2).trans (hall f))
  refine ⟨?_, fun r hr => if_neg hr, fun target htarget t => ?_, fun target htarget => ?_, ?_⟩
  · rw [hfacts]
    exact Inference.isLeast_derives _
  · rw [hfacts, ← hinferred (target, t)]
    change 0 < (if target ∈ component.targets then signedRows 1 one_ne_zero (s.derived target)
      else advance.derivedSupport target).weight t ↔ t ∈ s.derived target
    rw [if_pos htarget]
    exact signedRows_one_pos
  · refine ⟨_, if_pos htarget, ?_⟩
    change Changes _ (if target ∈ component.targets then s.settled target else _) _
    rw [if_pos htarget]
    exact changes_setDifferenceChanges _ _
  · intro spec arrangement hspec
    obtain ⟨hpositions, hexact⟩ := h.arranged_target hs.settled.above spec arrangement hspec
    exact ⟨hpositions, fun key t => (hexact key t).trans
      (and_congr_left fun _ => (hrows spec.relation t).symm)⟩

/-- **A recursive component is maintained exactly**: delete and rederive returns, and leaves the
least fixpoint over the new rows. -/
theorem recursive_component_exact (h : advance.Consistent component arity stored)
    (hfits : advance.CountsFit component) (hsafe : ∀ rule ∈ component.rules, rule.Safe) :
    ∃ fuel₀, ∀ fuel ≥ fuel₀, ∃ outcome,
      advance.advanceRecursiveComponent component fuel = some (.ok outcome) ∧
        advance.Exact component outcome := by
  obtain ⟨fuel₁, hdelete⟩ := h.overdeletion_spec hfits hsafe
  obtain ⟨fuel₂, hsettle⟩ := h.settle_spec hfits hsafe
  refine ⟨max fuel₁ fuel₂, fun fuel hfuel => ?_⟩
  obtain ⟨overdeleted, hok, hover⟩ := hdelete fuel ((le_max_left _ _).trans hfuel)
  obtain ⟨frontier, hseed, hfrontier⟩ := h.seed_spec hfits hsafe hover
  obtain ⟨s, hrun, hs, hdone⟩ := hsettle fuel ((le_max_right _ _).trans hfuel) _
    (h.settleStart hover hfrontier)
  refine ⟨advance.outcome component s, ?_, h.outcome_exact hs hdone⟩
  unfold advanceRecursiveComponent
  rw [hok, Option.bind_some]
  dsimp only
  rw [hseed]
  change Option.map _ (loopWhile _ _ fuel (advance.settleStart component overdeleted frontier)) = _
  rw [hrun]
  rfl

end RecursiveAdvance

/-! ## Reachability -/

/-- What is linked is reached, and so is what is linked to it. -/
def reachComponent : MaintainedComponent where
  targets := [.ofByte 2]
  rules := [compileRule ⟨.ofByte 2, [.var ⟨0⟩, .var ⟨1⟩],
      [.atom ⟨.ofByte 1, [.var ⟨0⟩, .var ⟨1⟩], false⟩]⟩,
    compileRule ⟨.ofByte 2, [.var ⟨0⟩, .var ⟨2⟩],
      [.atom ⟨.ofByte 2, [.var ⟨0⟩, .var ⟨1⟩], false⟩,
        .atom ⟨.ofByte 1, [.var ⟨1⟩, .var ⟨2⟩], false⟩]⟩]
  heads := by decide
  stratified := by decide

/-- The rows of the links and of what is reached. -/
def reachRows (links reached : List Tuple) : Collections := fun r =>
  SortedSet.ofList (if r = .ofByte 1 then links else if r = .ofByte 2 then reached else [])

/-- A cycle of two links reaches everything; then one of the links goes. -/
def reachAdvance : RecursiveAdvance :=
  let both : List Tuple := [[.bool false, .bool true], [.bool true, .bool false]]
  let all : List Tuple := [.bool false, .bool false] :: [.bool true, .bool true] :: both
  { currentCollections := reachRows both all
    currentSupport := fun _ => signedRows 1 Int.one_ne_zero (SortedSet.ofList all)
    currentArrangements := fun _ => none
    currentCounts := fun _ => none
    extensional := fun _ => SortedSet.empty
    factChanges := fun _ => []
    collections := reachRows [[.bool false, .bool true]] all
    derivedSupport := fun _ => signedRows 1 Int.one_ne_zero (SortedSet.ofList all)
    arrangements := fun _ => none
    relationDeltas := fun r => some (setDifferenceChanges (reachRows both all r)
      (reachRows [[.bool false, .bool true]] all r))
    negativeKeyCounts := fun _ => none
    version := 1
    context := .serial }

variable {links reached : List Tuple}

theorem mem_reachRows {f : Fact} :
    f ∈ factsOf (reachRows links reached) ↔
      f.1 = ⟨1, by decide⟩ ∧ f.2 ∈ links ∨ f.1 = ⟨2, by decide⟩ ∧ f.2 ∈ reached := by
  have hapart : Identity.ofByte 1 ≠ .ofByte 2 := by decide
  change f.2 ∈ SortedSet.ofList _ ↔ f.1 = .ofByte 1 ∧ _ ∨ f.1 = .ofByte 2 ∧ _
  rw [mem_ofList]
  split_ifs with h h'
  · simp [h, hapart]
  · simp [h', hapart.symm]
  · simp [h, h']

/-- Rows that have what the rules infer from them. -/
theorem reach_closed {stored rows : Collections}
    (hgiven : ∀ f ∈ (reachComponent.system stored rows).given, f ∈ factsOf (reachRows links reached))
    (hall : ∀ rule ∈ reachComponent.rules, ∀ b ∈ rule.derivations (reachRows links reached),
      ∀ t ∈ (rule.instantiateHead b).toOption, t ∈ reachRows links reached rule.headRelation) :
    (reachComponent.system stored rows).Closed (factsOf (reachRows links reached)) := by
  refine ⟨hgiven, fun f hf => ?_⟩
  obtain ⟨rule, hrule, hhead, b, hb, -, hderives⟩ := infers_iff.mp hf
  change f.2 ∈ reachRows links reached f.1
  rw [← hhead]
  refine hall rule hrule b hb f.2 ?_
  rw [CompiledRule.instantiateHead_of_derives hderives]
  rfl

/-- Without stored facts, the rows below are given. -/
theorem reach_given {f : Fact}
    (h : f ∈ (reachComponent.system (fun _ => SortedSet.empty) (reachRows links reached)).given) :
    f.1 = ⟨1, by decide⟩ ∧ f.2 ∈ links := by
  by_cases hr : f.1 ∈ reachComponent.targets
  · exact absurd ((MaintainedComponent.mem_given_target hr).mp h) (notMem_empty f.2)
  · refine (mem_reachRows.mp ((MaintainedComponent.mem_given_below hr).mp h)).resolve_right ?_
    exact fun htarget => hr (mem_singleton.mpr htarget.1)

/-- What is inferred from derived rows is derived. -/
theorem reach_derives {stored rows : Collections} {found : List Tuple} (reached : List Tuple)
    (h : ∀ f ∈ factsOf (reachRows links reached), (reachComponent.system stored rows).Derives f)
    (hfound : ∀ t ∈ found, ∃ rule ∈ reachComponent.rules, rule.headRelation = ⟨2, by decide⟩ ∧
      ∃ b ∈ rule.derivations (reachRows links reached), rule.blocked rows b = false ∧
        rule.derives t b = true) :
    ∀ f ∈ factsOf (reachRows links found), (reachComponent.system stored rows).Derives f := by
  intro f hf
  rcases mem_reachRows.mp hf with hlink | ⟨hr, ht⟩
  · exact h f (mem_reachRows.mpr (.inl hlink))
  · refine (Inference.isLeast_derives _).1.2 f (Inference.Infers.mono h (infers_iff.mpr ?_))
    rw [hr]
    exact hfound f.2 ht

theorem length_reachRows (hlinks : ∀ t ∈ links, t.length = 2)
    (hreached : ∀ t ∈ reached, t.length = 2) {r : RelationId} {t : Tuple}
    (ht : t ∈ reachRows links reached r) : t.length = 2 := by
  rcases (mem_reachRows (f := (r, t))).mp ht with ⟨-, ht⟩ | ⟨-, ht⟩
  · exact hlinks t ht
  · exact hreached t ht

/-- Before, everything is reached. -/
theorem reachAdvance_closed
    (hlinks : ∀ t ∈ links, t ∈ reachAdvance.currentCollections ⟨1, by decide⟩) :
    (reachComponent.system (fun _ => SortedSet.empty) (reachRows links reached)).Closed
      (factsOf reachAdvance.currentCollections) := by
  refine reach_closed (fun f hf => ?_) (by decide +kernel)
  obtain ⟨hr, ht⟩ := reach_given hf
  change f.2 ∈ reachAdvance.currentCollections f.1
  rw [hr]
  exact hlinks f.2 ht

theorem reachAdvance_fixpoint (f : Fact) : f ∈ factsOf reachAdvance.currentCollections ↔
    (reachAdvance.oldSystem reachComponent fun _ => SortedSet.empty).Derives f := by
  constructor
  · -- the links, then what they reach, then what is reached from there
    refine reach_derives [[.bool false, .bool true], [.bool true, .bool false]]
      (reach_derives [] (fun g hg => ?_) (by decide +kernel)) (by decide +kernel) f
    rcases mem_reachRows.mp hg with ⟨hr, ht⟩ | ⟨-, ht⟩
    · refine .given ((MaintainedComponent.mem_given_below ?_).mpr ?_)
      · rw [hr]
        decide
      · exact mem_reachRows.mpr (.inl ⟨hr, ht⟩)
    · cases ht
  · exact Inference.Closed.derives (reachAdvance_closed (by decide))

theorem reachAdvance_consistent : reachAdvance.Consistent reachComponent (fun _ => 2)
    fun _ => SortedSet.empty where
  heads := by decide
  atoms := by decide
  length_old r t := length_reachRows (by decide) (by decide)
  length_new r t := length_reachRows (by decide) (by decide)
  fixpoint := reachAdvance_fixpoint
  support target htarget t := by
    obtain rfl := mem_singleton.mp htarget
    have hpos : 0 < (reachAdvance.currentSupport ⟨2, by decide⟩).weight t ↔
        t ∈ reachAdvance.currentCollections ⟨2, by decide⟩ := signedRows_one_pos
    refine hpos.trans ⟨fun ht => infers_iff.mpr ?_, (reachAdvance_closed (by decide)).2 _⟩
    have hall : ∀ t ∈ (reachAdvance.currentCollections ⟨2, by decide⟩).list,
        ∃ rule ∈ reachComponent.rules, rule.headRelation = ⟨2, by decide⟩ ∧
          ∃ b ∈ rule.derivations reachAdvance.currentCollections,
            rule.blocked reachAdvance.currentCollections b = false ∧ rule.derives t b = true := by
      decide +kernel
    exact hall t (mem_list.mpr ht)
  changes r := changes_setDifferenceChanges _ _
  visible target htarget t := by
    obtain rfl := mem_singleton.mp htarget
    refine Iff.trans ?_ (or_iff_right (notMem_empty t)).symm
    exact signedRows_one_pos.symm
  retracted _ _ t ht := absurd ht (notMem_empty t)
  arranged_old _ _ h := nomatch h
  arranged_new _ _ h := nomatch h
  specs _ _ := rfl
  context := ExecutionContext.serial_correct

theorem reachAdvance_countsFit : reachAdvance.CountsFit reachComponent := by
  intro rule hrule rows hrows
  have hsub : ∀ r, ∀ t ∈ rows r, t ∈ reachAdvance.currentCollections r := fun r t ht =>
    (hrows r t ht).elim id (reachAdvance_closed (by decide)).derives
  have hfits : rule.Fits reachAdvance.currentCollections := by
    refine ⟨?_, fun head => ?_⟩
    · have hatoms : ∀ rule ∈ reachComponent.rules, rule.positiveAtoms.length ≤ 2 := by decide
      have hlength := hatoms rule hrule
      unfold maxDiff
      omega
    have hshort : ∀ rule ∈ reachComponent.rules, (rule.positiveAtoms.length + 1) *
        (rule.derivations reachAdvance.currentCollections).length ≤ 24 := by decide +kernel
    have hcount := (Nat.mul_le_mul_left (rule.positiveAtoms.length + 1) (countP_le_length
      (p := rule.derives head))).trans (hshort rule hrule)
    have hbound : (24 : ℤ) ≤ maxDiff := by decide
    exact (Int.ofNat_le.mpr hcount).trans hbound
  refine hfits.mono (reachAdvance_consistent.rowsFit (fun r t ht => ?_) hrule)
    fun atom _ => hsub atom.relation
  exact reachAdvance_consistent.length_old r t (hsub r t ht)

/-- The cycle is broken, and what it supported goes. -/
theorem recursive_component_exact_reach :
    ∃ fuel outcome, reachAdvance.advanceRecursiveComponent reachComponent fuel = some (.ok outcome) ∧
      reachAdvance.Exact reachComponent outcome ∧
      [.bool false, .bool false] ∉ outcome.collections ⟨2, by decide⟩ := by
  have hslots : ∀ rule ∈ reachComponent.rules, ∀ term ∈ rule.headTerms, ∀ slot ∈ term.slot?,
      ∃ atom ∈ rule.positiveAtoms, slot ∈ atom.slots := by decide
  have hpositive : ∀ rule ∈ reachComponent.rules, rule.negatedAtoms = [] := by decide
  have hsafe : ∀ rule ∈ reachComponent.rules, rule.Safe := fun rule hrule =>
    ⟨hslots rule hrule, fun atom hatom => (nomatch hpositive rule hrule ▸ hatom)⟩
  obtain ⟨fuel, h⟩ := RecursiveAdvance.recursive_component_exact reachAdvance_consistent
    reachAdvance_countsFit hsafe
  obtain ⟨outcome, hok, hexact⟩ := h fuel le_rfl
  refine ⟨fuel, outcome, hok, hexact, fun hmem => ?_⟩
  have hclosed : (reachAdvance.newSystem reachComponent).Closed
      (factsOf (reachRows [[.bool false, .bool true]] [[.bool false, .bool true]])) :=
    reach_closed (fun f hf => mem_reachRows.mpr (.inl (reach_given hf))) (by decide +kernel)
  have hless : factsOf outcome.collections ⊆
      factsOf (reachRows [[.bool false, .bool true]] [[.bool false, .bool true]]) :=
    hexact.fixpoint.2 hclosed
  have hnot : ([.bool false, .bool false] : Tuple) ∉
      reachRows [[.bool false, .bool true]] [[.bool false, .bool true]] ⟨2, by decide⟩ := by decide
  exact hnot (@hless (⟨2, by decide⟩, [.bool false, .bool false]) hmem)

end Mica
