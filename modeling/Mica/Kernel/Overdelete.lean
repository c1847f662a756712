import Mica.Kernel.FrontierDelta

/-!
# Kernel/Overdelete — what a recursive component keeps

A component is an inference system: its rules over the stored facts of its targets and the rows below
it.  A state is **consistent** (`RecursiveAdvance.Consistent`) when its rows are what the old system
derives and what is kept beside them shows the same rows.

Overdeletion reaches every tuple that may have lost its support: when it ends, a derived tuple that
is not overdeleted has kept every row of every old derivation, and no derivation is blocked anew
(`Overdeletes`).  So what remains is derived by the new system too (`Overdeletes.sound`).
-/

open SortedList List

namespace Mica

/-! ## The system of a component -/

/-- The rows that a component starts from: the stored facts of its targets, and the rows below. -/
def MaintainedComponent.given (component : MaintainedComponent) (stored rows : Collections) :
    Collections := fun relation =>
  if relation ∈ component.targets then stored relation else rows relation

/-- **The inference system of a component.** -/
def MaintainedComponent.system (component : MaintainedComponent) (stored rows : Collections) :
    Inference Fact :=
  ruleInference component.rules (component.given stored rows) rows

section System

variable {component : MaintainedComponent} {stored rows collections : Collections} {r : RelationId}
  {t : Tuple} {f : Fact}

theorem MaintainedComponent.mem_given_target (h : r ∈ component.targets) :
    (r, t) ∈ (component.system stored rows).given ↔ t ∈ stored r := by
  change t ∈ component.given stored rows r ↔ _
  rw [MaintainedComponent.given, if_pos h]

theorem MaintainedComponent.mem_given_below (h : r ∉ component.targets) :
    (r, t) ∈ (component.system stored rows).given ↔ t ∈ rows r := by
  change t ∈ component.given stored rows r ↔ _
  rw [MaintainedComponent.given, if_neg h]

/-- Steps lead to the targets. -/
theorem MaintainedComponent.target_of_infers {facts : Set Fact}
    (h : (component.system stored rows).Infers facts f) : f.1 ∈ component.targets := by
  obtain ⟨_, ⟨rule, hrule, _, _, _, _, _, _, _, hhead, _⟩, _⟩ := h
  exact hhead ▸ component.heads rule hrule

end System

/-! ## Arrangements of all relations -/

/-- Every arrangement is one of the rows of its relation. -/
def Arranged (arrangements : Arrangements) (rows : Collections) : Prop :=
  ∀ spec arrangement, arrangements spec = some arrangement →
    arrangement.spec.positions = spec.positions ∧ arrangement.Exact (rows spec.relation)

theorem Arranged.update {arrangements : Arrangements} {rows rows' : Collections}
    {changes : RelationId → WeightedRows} (h : Arranged arrangements rows)
    (hchanges : ∀ r t, t ∈ rows' r ↔
      0 < (changes r).weight t ∨ t ∈ rows r ∧ ¬ (changes r).weight t < 0) :
    Arranged (updateArrangements arrangements changes) rows' := by
  intro spec arrangement hspec
  obtain ⟨old, hold, rfl⟩ := Option.map_eq_some_iff.mp hspec
  obtain ⟨hpositions, hexact⟩ := h spec old hold
  exact ⟨hpositions, Arrangement.apply_exact_of_mem_iff (hchanges spec.relation) hexact⟩

/-- What an atom reads from arranged rows. -/
theorem Arranged.input_exact {arrangements : Arrangements} {rows : Collections} {atom : CompiledAtom}
    {context : ExecutionContext} (h : Arranged arrangements rows)
    (hlength : ∀ t ∈ rows atom.relation, t.length = atom.terms.length) (hcontext : context.Correct)
    (target : RelationId) (version : ℕ) :
    FullJoinInput.Exact atom
      ⟨rows atom.relation, arrangements, none, target, version, context⟩ where
  length_eq := hlength
  arrangements positions arrangement hspec := h ⟨atom.relation, positions⟩ arrangement hspec
  trace _ ht := nomatch ht
  context := hcontext

/-! ## Consistent states -/

namespace RecursiveAdvance

/-- The system before the changes. -/
def oldSystem (advance : RecursiveAdvance) (component : MaintainedComponent) (stored : Collections) :
    Inference Fact :=
  component.system stored advance.currentCollections

/-- The system after the changes. -/
def newSystem (advance : RecursiveAdvance) (component : MaintainedComponent) : Inference Fact :=
  component.system advance.extensional advance.collections

/-- **A consistent state, with its changes**: the old rows of the component are what the old system
derives from the facts that were stored, its support is what the rules infer, the rows below have
moved to their new values, and the rows of the targets have the new stored facts. -/
structure Consistent (advance : RecursiveAdvance) (component : MaintainedComponent)
    (arity : RelationId → ℕ) (stored : Collections) : Prop where
  heads : ∀ rule ∈ component.rules, rule.headTerms.length = arity rule.headRelation
  atoms : ∀ rule ∈ component.rules, ∀ atom ∈ rule.positiveAtoms,
    atom.terms.length = arity atom.relation
  length_old : ∀ r, ∀ t ∈ advance.currentCollections r, t.length = arity r
  length_new : ∀ r, ∀ t ∈ advance.collections r, t.length = arity r
  fixpoint : ∀ f, f ∈ factsOf advance.currentCollections ↔
    (advance.oldSystem component stored).Derives f
  support : ∀ target ∈ component.targets, ∀ t, 0 < (advance.currentSupport target).weight t ↔
    (advance.oldSystem component stored).Infers (factsOf advance.currentCollections) (target, t)
  changes : ∀ r, Changes (advance.currentCollections r) (advance.collections r) (advance.delta r)
  visible : ∀ target ∈ component.targets, ∀ t, t ∈ advance.collections target ↔
    t ∈ advance.extensional target ∨ 0 < (advance.currentSupport target).weight t
  retracted : ∀ target ∈ component.targets, ∀ t ∈ stored target, t ∉ advance.extensional target →
    ∃ change ∈ advance.factChanges target, change.kind = .retract
  arranged_old : Arranged advance.currentArrangements advance.currentCollections
  arranged_new : Arranged advance.arrangements advance.collections
  specs : ∀ spec, advance.currentArrangements spec = none → advance.arrangements spec = none
  context : advance.context.Correct

/-- **The counts of the component fit**, over all rows that were there or will be derived. -/
def CountsFit (advance : RecursiveAdvance) (component : MaintainedComponent) : Prop :=
  ∀ rule ∈ component.rules, ∀ rows : Collections,
    (∀ r, ∀ t ∈ rows r, t ∈ advance.currentCollections r ∨
      (advance.newSystem component).Derives (r, t)) → rule.Fits rows

section Consistent

variable {advance : RecursiveAdvance} {component : MaintainedComponent} {arity : RelationId → ℕ}
  {stored : Collections} {r : RelationId} {t : Tuple}

theorem Consistent.mem_oldDerived (h : advance.Consistent component arity stored)
    (hr : r ∈ component.targets) : t ∈ advance.oldDerived r ↔
      (advance.oldSystem component stored).Infers (factsOf advance.currentCollections) (r, t) :=
  mem_positiveRows.trans (h.support r hr t)

/-- A row of a target was stored or derived. -/
theorem Consistent.stored_or_derived (h : advance.Consistent component arity stored)
    (hr : r ∈ component.targets) (ht : t ∈ advance.currentCollections r) :
    t ∈ stored r ∨ t ∈ advance.oldDerived r := by
  rcases ((h.fixpoint (r, t)).mp ht).given_or_infers with hgiven | hinfers
  · exact .inl ((MaintainedComponent.mem_given_target hr).mp hgiven)
  · refine .inr ((h.mem_oldDerived hr).mpr (hinfers.mono fun g hg => ?_))
    exact (h.fixpoint g).mpr hg

/-- A derived tuple is a row. -/
theorem Consistent.mem_of_oldDerived (h : advance.Consistent component arity stored)
    (hr : r ∈ component.targets) (ht : t ∈ advance.oldDerived r) :
    t ∈ advance.currentCollections r := by
  refine (h.fixpoint (r, t)).mpr ((Inference.isLeast_derives _).1.2 _ ?_)
  exact ((h.mem_oldDerived hr).mp ht).mono fun g hg => (h.fixpoint g).mp hg

theorem Consistent.rowsFit (h : advance.Consistent component arity stored) {rows : Collections}
    (hlength : ∀ r, ∀ t ∈ rows r, t.length = arity r) {rule : CompiledRule}
    (hrule : rule ∈ component.rules) : rule.RowsFit rows := fun atom hatom t ht =>
  (hlength _ t ht).trans (h.atoms rule hrule atom hatom).symm

end Consistent

end RecursiveAdvance

/-! ## Overdeletion -/

/-- The rows after a round. -/
def OverdeleteState.next (s : OverdeleteState) : Collections := fun relation =>
  (s.collections relation).filter fun t => decide (t ∉ s.frontier relation)

theorem OverdeleteState.mem_next {s : OverdeleteState} {r : RelationId} {t : Tuple} :
    t ∈ s.next r ↔ t ∈ s.collections r ∧ t ∉ s.frontier r := by
  rw [OverdeleteState.next, SortedSet.mem_filter, decide_eq_true_eq]

/-- **The invariant of overdeletion.**  The rows in front are about to go; of the targets' rows, the
overdeleted ones that are not stored go; and whoever lost an old derivation is overdeleted. -/
structure OverdeleteState.Inv (s : OverdeleteState) (advance : RecursiveAdvance)
    (component : MaintainedComponent) : Prop where
  rows_sub : ∀ r, ∀ t ∈ s.collections r, t ∈ advance.currentCollections r
  front_sub : ∀ r, ∀ t ∈ s.frontier r, t ∈ s.collections r
  front_relations : ∀ r, ∀ t ∈ s.frontier r, r ∈ component.positiveRelations ++ component.targets
  next_iff : ∀ r ∈ component.targets, ∀ t ∈ advance.currentCollections r,
    t ∈ s.next r ↔ ¬ (t ∈ s.overdeleted r ∧ t ∉ advance.extensional r)
  below : ∀ r ∈ component.positiveRelations, r ∉ component.targets → ∀ t ∈ s.next r,
    t ∈ advance.collections r
  heads : ∀ rule ∈ component.rules, ∀ b ∈ rule.derivations advance.currentCollections,
    rule.blocked advance.currentCollections b = false → b ∉ rule.derivations s.collections →
      ∀ head, rule.derives head b = true → head ∈ s.overdeleted rule.headRelation
  arranged : Arranged s.arrangements s.collections

section Overdelete

variable {advance : RecursiveAdvance} {component : MaintainedComponent} {arity : RelationId → ℕ}
  {stored : Collections} {s : OverdeleteState} {rule : CompiledRule}

/-- Removing the rows in front is the change of a round. -/
theorem OverdeleteState.Inv.changes (h : s.Inv advance component) (r : RelationId) :
    Changes (s.collections r) (s.next r)
      (signedRows (-1) (neg_ne_zero.mpr one_ne_zero) (s.frontier r)) := by
  intro t
  rw [weight_signedRows]
  unfold Collection.presence
  by_cases hfront : t ∈ s.frontier r
  · rw [if_pos hfront, if_pos (h.front_sub r t hfront),
      if_neg fun hnext => (OverdeleteState.mem_next.mp hnext).2 hfront]
    rfl
  · have hsame : t ∈ s.next r ↔ t ∈ s.collections r :=
      OverdeleteState.mem_next.trans (and_iff_left hfront)
    rw [if_neg hfront, if_congr hsame rfl rfl, sub_self]

theorem OverdeleteState.Inv.consistent (h : s.Inv advance component)
    (hadvance : advance.Consistent component arity stored) (hrule : rule ∈ component.rules) :
    (advance.overdeleteEvaluation s s.next rule).Consistent rule.positiveAtoms := by
  have hold : rule.RowsFit s.collections := hadvance.rowsFit
    (fun r t ht => hadvance.length_old r t (h.rows_sub r t ht)) hrule
  have hnext : rule.RowsFit s.next := fun atom hatom t ht =>
    hold atom hatom t (OverdeleteState.mem_next.mp ht).1
  refine ⟨fun atom hatom => ?_, fun atom hatom => ?_, fun atom _ => ?_⟩
  · exact h.arranged.input_exact (hold atom hatom) hadvance.context _ _
  · exact (h.arranged.update fun r => (h.changes r).mem_iff).input_exact (hnext atom hatom)
      hadvance.context _ _
  · rw [DeltaEvaluation.delta]
    change Changes _ _ ((rowDeltas _ _ s.frontier atom.relation).getD WeightedMap.empty)
    rw [getD_rowDeltas]
    exact h.changes atom.relation

/-- **The candidates of a round**: a rule loses the active derivations that used a row in front. -/
theorem OverdeleteState.Inv.candidates (h : s.Inv advance component)
    (hadvance : advance.Consistent component arity stored) (hfits : advance.CountsFit component)
    (hsafe : rule.Safe) (hrule : rule ∈ component.rules) :
    ∃ rows, ruleCandidates rule (advance.overdeleteEvaluation s s.next rule) s.collections = .ok rows ∧
      ∀ head, rows.weight head =
        ((rule.activeIn s.collections (rule.derivations s.next)).countP (rule.derives head) : ℤ) -
          (rule.activeIn s.collections (rule.derivations s.collections)).countP
            (rule.derives head) := by
  have hconsistent := h.consistent hadvance hrule
  obtain ⟨bindings, hok, hweight⟩ := evaluatePositiveBindingDelta_spec hconsistent
  refine ruleCandidates_spec _ hsafe hok hweight ?_ ?_ ?_
  · rintro b (hb | hb)
    · exact CompiledRule.bound_of_mem_derivations
        (fun atom hatom => (hconsistent.new atom hatom).length_eq) hb
    · exact CompiledRule.bound_of_mem_derivations
        (fun atom hatom => (hconsistent.old atom hatom).length_eq) hb
  · exact (hfits rule hrule s.next fun r t ht =>
      .inl (h.rows_sub r t (OverdeleteState.mem_next.mp ht).1)).countsFit
  · exact (hfits rule hrule s.collections fun r t ht => .inl (h.rows_sub r t ht)).countsFit

/-- A derivation that is lost makes its head a candidate. -/
theorem weight_neg_of_lost {rows rows' : Collections} (hrows : rule.RowsFit rows)
    (hsub : ∀ r, ∀ t ∈ rows' r, t ∈ rows r) {negated : Collections} {b : Binding} {head : Tuple}
    (hb : b ∈ rule.derivations rows) (hblocked : rule.blocked negated b = false)
    (hlost : b ∉ rule.derivations rows') (hderives : rule.derives head b = true) :
    (rule.activeIn negated (rule.derivations rows')).countP (rule.derives head) <
      (rule.activeIn negated (rule.derivations rows)).countP (rule.derives head) := by
  have hrows' : rule.RowsFit rows' := fun atom hatom t ht => hrows atom hatom t (hsub _ t ht)
  have hmem : b ∈ rule.activeIn negated (rule.derivations rows) :=
    mem_filter.mpr ⟨hb, by rw [hblocked]; rfl⟩
  have hsubset : rule.activeIn negated (rule.derivations rows') ⊆
      (rule.activeIn negated (rule.derivations rows)).erase b := by
    intro c hc
    obtain ⟨hc, hactive⟩ := mem_filter.mp hc
    have hne : c ≠ b := by
      rintro rfl
      exact hlost hc
    refine (mem_erase_of_ne hne).mpr (mem_filter.mpr ⟨?_, hactive⟩)
    exact derivations_mono (fun atom _ => hsub atom.relation) hc
  have hle := countP_le_of_subset ((nodup_derivations hrows').filter _) hsubset (rule.derives head)
  have hone : 0 < (rule.activeIn negated (rule.derivations rows)).countP (rule.derives head) :=
    countP_pos_iff.mpr ⟨b, hmem, hderives⟩
  rw [countP_erase, if_pos ⟨hmem, hderives⟩] at hle
  exact lt_of_le_of_lt hle (Nat.sub_lt hone Nat.one_pos)

/-- What is marked in a round: derived tuples that lose an active derivation. -/
def OverdeleteState.Marked (s : OverdeleteState) (advance : RecursiveAdvance)
    (component : MaintainedComponent) (r : RelationId) (t : Tuple) : Prop :=
  t ∈ advance.oldDerived r ∧ ∃ rule ∈ component.rules, rule.headRelation = r ∧
    (rule.activeIn s.collections (rule.derivations s.next)).countP (rule.derives t) <
      (rule.activeIn s.collections (rule.derivations s.collections)).countP (rule.derives t)

/-- A round marks, moves the rows in front out and puts what it marked in front. -/
theorem OverdeleteState.Inv.overdeleteStep_spec (h : s.Inv advance component)
    (hadvance : advance.Consistent component arity stored) (hfits : advance.CountsFit component)
    (hsafe : ∀ rule ∈ component.rules, rule.Safe) :
    ∃ s', advance.overdeleteStep component s = .ok s' ∧ s'.collections = s.next ∧
      Arranged s'.arrangements s.next ∧
      Marks advance.extensional (s.Marked advance component)
        (s.overdeleted, fun _ => SortedSet.empty) (s'.overdeleted, s'.frontier) := by
  have hcandidates : ∀ rule ∈ component.rules, ∃ rows, ruleCandidates rule
      (advance.overdeleteEvaluation s s.next rule) s.collections = .ok rows ∧
        ∀ t, rows.weight t < 0 ↔
          (rule.activeIn s.collections (rule.derivations s.next)).countP (rule.derives t) <
            (rule.activeIn s.collections (rule.derivations s.collections)).countP
              (rule.derives t) := by
    intro rule hrule
    obtain ⟨rows, hok, hweight⟩ := h.candidates hadvance hfits (hsafe rule hrule) hrule
    refine ⟨rows, hok, fun t => ?_⟩
    rw [hweight t]
    omega
  obtain ⟨sets, hsets, hmarks⟩ : ∃ sets, overdeleteRules advance.oldDerived advance.extensional
      (fun rule => ruleCandidates rule (advance.overdeleteEvaluation s s.next rule) s.collections)
      component.rules (s.overdeleted, fun _ => SortedSet.empty) = .ok sets ∧
      Marks advance.extensional (s.Marked advance component)
        (s.overdeleted, fun _ => SortedSet.empty) sets := overdeleteRules_spec _ hcandidates
  refine ⟨⟨s.next, _, sets.1, sets.2⟩, ?_, rfl, h.arranged.update fun r => (h.changes r).mem_iff,
    hmarks⟩
  unfold RecursiveAdvance.overdeleteStep
  change Except.map _ (overdeleteRules _ _ (fun rule => ruleCandidates rule
    (advance.overdeleteEvaluation s s.next rule) s.collections) _ _) = _
  rw [hsets]
  rfl

theorem OverdeleteState.Marked.target {r : RelationId} {t : Tuple}
    (h : s.Marked advance component r t) : r ∈ component.targets := by
  obtain ⟨-, rule, hrule, rfl, -⟩ := h
  exact component.heads rule hrule

/-- Which rows stay after the next round, for one row. -/
theorem stays_iff {o e m : Prop} :
    (¬ (o ∧ ¬ e) ∧ ¬ (m ∧ ¬ o ∧ ¬ e)) ↔ ¬ ((o ∨ m) ∧ ¬ e) := by
  by_cases ho : o <;> by_cases hm : m <;> by_cases he : e <;> simp [ho, hm, he]

/-- Which rows of a target remain, for one row. -/
theorem keeps_iff {e d o : Prop} : ((e ∨ d) ∧ ¬ (o ∧ ¬ e)) ↔ e ∨ d ∧ ¬ o := by
  by_cases he : e <;> by_cases ho : o <;> simp [he, ho]

/-- **A round keeps the invariant.** -/
theorem OverdeleteState.Inv.step (h : s.Inv advance component)
    (hadvance : advance.Consistent component arity stored) {s' : OverdeleteState}
    (hrows : s'.collections = s.next) (harranged : Arranged s'.arrangements s.next)
    (hmarks : Marks advance.extensional (s.Marked advance component)
      (s.overdeleted, fun _ => SortedSet.empty) (s'.overdeleted, s'.frontier)) :
    s'.Inv advance component := by
  have hfront : ∀ r t, t ∈ s'.frontier r ↔ s.Marked advance component r t ∧
      t ∉ s.overdeleted r ∧ t ∉ advance.extensional r := fun r t =>
    (hmarks r t).2.trans (or_iff_right (SortedSet.notMem_empty t))
  have hsub : ∀ r, ∀ t ∈ s'.collections r, t ∈ s.collections r := fun r t ht =>
    (OverdeleteState.mem_next.mp (hrows ▸ ht)).1
  refine ⟨fun r t ht => h.rows_sub r t (hsub r t ht), fun r t ht => ?_, fun r t ht => ?_,
    fun r hr t ht => ?_, fun r hr hnot t ht => ?_, fun rule hrule b hb hblocked hlost head hhead => ?_,
    hrows ▸ harranged⟩
  · obtain ⟨hmarked, hnot, -⟩ := (hfront r t).mp ht
    rw [hrows]
    refine (h.next_iff r hmarked.target t ?_).mpr fun hgone => hnot hgone.1
    exact hadvance.mem_of_oldDerived hmarked.target hmarked.1
  · exact mem_append_right _ ((hfront r t).mp ht).1.target
  · rw [OverdeleteState.mem_next, hrows, h.next_iff r hr t ht, hfront r t, (hmarks r t).1]
    exact stays_iff
  · have hmem := OverdeleteState.mem_next.mp ht
    exact h.below r hr hnot t (hrows ▸ hmem.1)
  · refine (hmarks _ _).1.mpr ?_
    by_cases hbefore : b ∈ rule.derivations s.collections
    · refine .inr ⟨?_, rule, hrule, rfl, ?_⟩
      · refine (hadvance.mem_oldDerived (component.heads rule hrule)).mpr (infers_iff.mpr ?_)
        exact ⟨rule, hrule, rfl, b, hb, hblocked, hhead⟩
      · refine weight_neg_of_lost (hadvance.rowsFit (fun r t ht => hadvance.length_old r t
          (h.rows_sub r t ht)) hrule) (fun r t ht => (OverdeleteState.mem_next.mp ht).1) hbefore ?_
          (hrows ▸ hlost) hhead
        exact blocked_mono (fun atom _ => h.rows_sub atom.relation) hblocked
    · exact .inl (h.heads rule hrule b hb hblocked hbefore head hhead)

/-! ### The loop -/

theorem RecursiveAdvance.mem_retractions {r : RelationId} {t : Tuple} :
    t ∈ advance.retractions component r ↔
      r ∈ component.positiveRelations ∧ (advance.delta r).weight t < 0 := by
  unfold RecursiveAdvance.retractions
  split_ifs with hr
  · rw [SortedSet.mem_ofList, mem_map, ← exists_mem_list_iff (p := (· < 0)) (lt_irrefl 0),
      and_iff_right hr]
    constructor
    · rintro ⟨e, he, rfl⟩
      obtain ⟨hlist, hneg⟩ := mem_filter.mp he
      exact ⟨e.2, hlist, of_decide_eq_true hneg⟩
    · rintro ⟨d, hd, hneg⟩
      exact ⟨(t, d), mem_filter.mpr ⟨hd, decide_eq_true hneg⟩, rfl⟩
  · exact iff_of_false (SortedSet.notMem_empty t) fun h => hr h.1

/-- Nothing that is stored was lost. -/
theorem RecursiveAdvance.Consistent.stored_sub (h : advance.Consistent component arity stored)
    (hretracted : advance.targetSeedRetracted component = false) {r : RelationId}
    (hr : r ∈ component.targets) {t : Tuple} (ht : t ∈ stored r) : t ∈ advance.extensional r := by
  by_contra hnot
  obtain ⟨change, hchange, hkind⟩ := h.retracted r hr t ht hnot
  have htrue : advance.targetSeedRetracted component = true :=
    any_eq_true.mpr ⟨r, hr, any_eq_true.mpr ⟨change, hchange, decide_eq_true hkind⟩⟩
  rw [hretracted] at htrue
  cases htrue

/-- Then the rows of the targets only grew. -/
theorem RecursiveAdvance.Consistent.rows_grew (h : advance.Consistent component arity stored)
    (hretracted : advance.targetSeedRetracted component = false) {r : RelationId}
    (hr : r ∈ component.targets) {t : Tuple} (ht : t ∈ advance.currentCollections r) :
    t ∈ advance.collections r := by
  refine (h.visible r hr t).mpr ?_
  exact (h.stored_or_derived hr ht).imp (h.stored_sub hretracted hr) mem_positiveRows.mp

/-- The state that overdeletion starts from. -/
def RecursiveAdvance.overdeleteStart (advance : RecursiveAdvance) (component : MaintainedComponent) :
    OverdeleteState where
  collections := advance.currentCollections
  arrangements := advance.currentArrangements
  overdeleted := fun _ => SortedSet.empty
  frontier := advance.retractions component

theorem RecursiveAdvance.Consistent.overdeleteStart (h : advance.Consistent component arity stored)
    (hretracted : advance.targetSeedRetracted component = false) :
    (advance.overdeleteStart component).Inv advance component where
  rows_sub r t ht := ht
  front_sub r t ht := (((h.changes r).neg_iff t).mp (RecursiveAdvance.mem_retractions.mp ht).2).1
  front_relations r t ht := mem_append_left _ (RecursiveAdvance.mem_retractions.mp ht).1
  next_iff r hr t ht := by
    refine iff_of_true (OverdeleteState.mem_next.mpr ⟨ht, fun hfront => ?_⟩)
      fun hgone => SortedSet.notMem_empty t hgone.1
    have hneg := (RecursiveAdvance.mem_retractions.mp hfront).2
    exact (((h.changes r).neg_iff t).mp hneg).2 (h.rows_grew hretracted hr ht)
  below r hr _ t ht := by
    obtain ⟨hmem, hfront⟩ := OverdeleteState.mem_next.mp ht
    refine ((h.changes r).mem_iff t).mpr (.inr ⟨hmem, fun hneg => hfront ?_⟩)
    exact RecursiveAdvance.mem_retractions.mpr ⟨hr, hneg⟩
  heads rule _ b hb _ hlost := absurd hb hlost
  arranged := h.arranged_old

theorem RecursiveAdvance.busy_iff {frontier : Collections} :
    RecursiveAdvance.busy component frontier = true ↔
      ∃ r ∈ component.positiveRelations ++ component.targets, ∃ t, t ∈ frontier r := by
  unfold RecursiveAdvance.busy
  rw [any_eq_true]
  refine exists_congr fun r => and_congr_right fun _ => ?_
  rw [Bool.not_eq_true', Bool.eq_false_iff, ne_eq, List.isEmpty_iff]
  exact ⟨exists_mem_of_ne_nil _, fun ⟨t, ht⟩ => ne_nil_of_mem ht⟩

/-- The derived tuples of the targets. -/
def RecursiveAdvance.derivedFacts (advance : RecursiveAdvance) (component : MaintainedComponent) :
    List Fact :=
  component.targets.flatMap fun r => (advance.oldDerived r).list.map fun t => (r, t)

/-- **Overdeletion ends**, and its invariant holds with nothing in front. -/
theorem RecursiveAdvance.overdelete_spec (hadvance : advance.Consistent component arity stored)
    (hfits : advance.CountsFit component) (hsafe : ∀ rule ∈ component.rules, rule.Safe)
    (hretracted : advance.targetSeedRetracted component = false) :
    ∃ fuel₀, ∀ fuel ≥ fuel₀, ∃ s, advance.overdelete component fuel = some (.ok s) ∧
      s.Inv advance component ∧ ∀ r t, t ∉ s.frontier r := by
  -- a round that puts rows in front has overdeleted them
  let measure (s : OverdeleteState) : ℕ :=
    missing (advance.derivedFacts component) (fun f => f.2 ∈ s.overdeleted f.1) +
      if RecursiveAdvance.busy component s.frontier = true then 1 else 0
  have hstep : ∀ s : OverdeleteState, s.Inv advance component →
      RecursiveAdvance.busy component s.frontier = true →
      ∃ s', advance.overdeleteStep component s = .ok s' ∧ s'.Inv advance component ∧
        measure s' < measure s := by
    intro s hs hbusy
    obtain ⟨s', hok, hrows, harranged, hmarks⟩ := hs.overdeleteStep_spec hadvance hfits hsafe
    refine ⟨s', hok, hs.step hadvance hrows harranged hmarks, ?_⟩
    have hgrows : ∀ f : Fact, f.2 ∈ s.overdeleted f.1 → f.2 ∈ s'.overdeleted f.1 := fun f hf =>
      (hmarks f.1 f.2).1.mpr (.inl hf)
    have hle : missing (advance.derivedFacts component) (fun f => f.2 ∈ s'.overdeleted f.1) ≤
        missing (advance.derivedFacts component) (fun f => f.2 ∈ s.overdeleted f.1) :=
      missing_le hgrows
    change _ + _ < _ + ite _ _ _
    rw [if_pos hbusy]
    split_ifs with hbusy'
    · obtain ⟨r, -, t, ht⟩ := RecursiveAdvance.busy_iff.mp hbusy'
      obtain ⟨hmarked, hnot, -⟩ := ((hmarks r t).2.mp ht).resolve_left (SortedSet.notMem_empty t)
      have hfact : (r, t) ∈ advance.derivedFacts component :=
        mem_flatMap.mpr ⟨r, hmarked.target, mem_map.mpr ⟨t, hmarked.1, rfl⟩⟩
      have hlt := missing_lt hgrows hfact ((hmarks r t).1.mpr (.inr hmarked)) hnot
      omega
    · omega
  refine ⟨measure (advance.overdeleteStart component), fun fuel hfuel => ?_⟩
  obtain ⟨s, hrun, hs, hidle⟩ :=
    loopWhile_spec hstep (hadvance.overdeleteStart hretracted) hfuel
  refine ⟨s, hrun, hs, fun r t ht => ?_⟩
  rw [RecursiveAdvance.busy_iff.mpr ⟨r, hs.front_relations r t ht, t, ht⟩] at hidle
  cases hidle

/-! ## What remains -/

namespace RecursiveAdvance

variable {overdeleted : Collections} {r : RelationId} {t : Tuple}

theorem mem_remaining : t ∈ advance.remaining component overdeleted r ↔
    r ∈ component.targets ∧ t ∈ advance.oldDerived r ∧ t ∉ overdeleted r := by
  unfold remaining
  split_ifs with hr
  · rw [SortedSet.mem_filter, decide_eq_true_eq, and_iff_right hr]
  · exact iff_of_false (SortedSet.notMem_empty t) fun h => hr h.1

/-- The rows that remain: the given ones, and the derived tuples that remain. -/
theorem Consistent.mem_remainingRows (h : advance.Consistent component arity stored) :
    t ∈ advance.remainingRows component overdeleted r ↔
      (r, t) ∈ (advance.newSystem component).given ∨
        t ∈ advance.remaining component overdeleted r := by
  unfold remainingRows newSystem
  by_cases hr : r ∈ component.targets
  · rw [if_pos hr, MaintainedComponent.mem_given_target hr]
    split_ifs with hempty
    · refine (or_iff_left fun hmem => ?_).symm
      exact ne_nil_of_mem (SortedSet.mem_list.mpr hmem) (List.isEmpty_iff.mp hempty)
    · rw [SortedSet.mem_filter, decide_eq_true_eq, h.visible r hr, mem_remaining, and_iff_right hr,
        ← mem_positiveRows]
      exact keeps_iff
  · rw [if_neg hr, MaintainedComponent.mem_given_below hr, mem_remaining]
    exact (or_iff_left fun h => hr h.1).symm

/-- **What overdeletion achieves**: a step to a tuple that is not overdeleted is a step of the new
system, from rows that remain. -/
structure Overdeletes (advance : RecursiveAdvance) (component : MaintainedComponent)
    (stored overdeleted : Collections) : Prop where
  given : ∀ r ∈ component.targets, ∀ t ∈ stored r, t ∈ advance.oldDerived r → t ∉ overdeleted r →
    t ∈ advance.extensional r
  step : ∀ body head, (advance.oldSystem component stored).step body head →
    (∀ g ∈ body, g ∈ factsOf advance.currentCollections) → head.2 ∉ overdeleted head.1 →
      (advance.newSystem component).step body head ∧
        ∀ g ∈ body, g ∈ factsOf (advance.remainingRows component overdeleted)

/-- A negated relation that gained no row blocks nothing anew. -/
theorem Consistent.blocked_new (h : advance.Consistent component arity stored)
    (hnegative : advance.negativeBecamePresent component = false) (hrule : rule ∈ component.rules)
    {b : Binding} (hb : rule.blocked advance.currentCollections b = false) :
    rule.blocked advance.collections b = false := by
  refine blocked_mono (fun atom hatom t ht => ?_) hb
  by_contra hnot
  have hpos := ((h.changes atom.relation).pos_iff t).mpr ⟨hnot, ht⟩
  have htrue : advance.negativeBecamePresent component = true := by
    refine any_eq_true.mpr ⟨atom.relation, mem_flatMap.mpr ⟨rule, hrule,
      mem_map.mpr ⟨atom, hatom, rfl⟩⟩, any_eq_true.mpr ⟨(t, _), ?_, decide_eq_true hpos⟩⟩
    exact WeightedMap.mem_list.mpr ⟨rfl, hpos.ne'⟩
  rw [hnegative] at htrue
  cases htrue

/-- Overdeletion of everything. -/
theorem Consistent.overdeletes_all (h : advance.Consistent component arity stored) :
    advance.Overdeletes component stored fun relation =>
      if relation ∈ component.targets then advance.oldDerived relation else SortedSet.empty where
  given r hr t _ hderived hnot := absurd (by rwa [if_pos hr]) hnot
  step body head hstep hbody hnot := by
    have hinfers : (advance.oldSystem component stored).Infers
      (factsOf advance.currentCollections) head := ⟨body, hstep, hbody⟩
    have hr := MaintainedComponent.target_of_infers hinfers
    refine absurd ?_ hnot
    rw [if_pos hr]
    exact (h.mem_oldDerived hr).mpr hinfers

/-- The end of the loop. -/
theorem Consistent.overdeletes_of_inv (h : advance.Consistent component arity stored)
    (hretracted : advance.targetSeedRetracted component = false)
    (hnegative : advance.negativeBecamePresent component = false) (hs : s.Inv advance component)
    (hdone : ∀ r t, t ∉ s.frontier r) : advance.Overdeletes component stored s.overdeleted where
  given r hr t ht _ _ := h.stored_sub hretracted hr ht
  step body head hstep hbody hnot := by
    obtain ⟨rule, hrule, rows, b, hlen, rfl, hunify, hguards, hblocked, hhead, hderives⟩ := hstep
    have hrows := forall_bodyFacts.mp ⟨hlen, hbody⟩
    have hb : b ∈ rule.derivations advance.currentCollections :=
      mem_derivations.mpr ⟨⟨rows, hrows, hunify⟩, hguards⟩
    have hkept : b ∈ rule.derivations s.collections := by
      by_contra hlost
      exact hnot (hhead ▸ hs.heads rule hrule b hb hblocked hlost head.2 hderives)
    -- the binding determines its rows, so they are the rows that were kept
    obtain ⟨⟨rows', hrows', hunify'⟩, -⟩ := mem_derivations.mp hkept
    have hfit := h.rowsFit h.length_old hrule
    have hfit' : rule.RowsFit s.collections := fun atom hatom t ht =>
      hfit atom hatom t (hs.rows_sub _ t ht)
    obtain rfl := unifyAll_injective (hfit.lengths hrows) (hfit'.lengths hrows') hunify hunify'
    have hfacts := (forall_bodyFacts (F := factsOf s.collections)).mpr hrows'
    refine ⟨⟨rule, hrule, rows, b, hlen, rfl, hunify, hguards, h.blocked_new hnegative hrule hblocked,
      hhead, hderives⟩, fun g hg => h.mem_remainingRows.mpr ?_⟩
    have hnext : g.2 ∈ s.next g.1 := OverdeleteState.mem_next.mpr ⟨hfacts.2 g hg, hdone g.1 g.2⟩
    by_cases hr : g.1 ∈ component.targets
    · have hkeeps := (hs.next_iff g.1 hr g.2 (hbody g hg)).mp hnext
      rcases h.stored_or_derived hr (hbody g hg) with hstored | hderived
      · exact .inl ((MaintainedComponent.mem_given_target hr).mpr (h.stored_sub hretracted hr hstored))
      · by_cases hext : g.2 ∈ advance.extensional g.1
        · exact .inl ((MaintainedComponent.mem_given_target hr).mpr hext)
        · exact .inr (mem_remaining.mpr ⟨hr, hderived, fun hover => hkeeps ⟨hover, hext⟩⟩)
    · obtain ⟨atom, hatom, hrelation⟩ := relation_of_mem_bodyFacts hg
      refine .inl ((MaintainedComponent.mem_given_below hr).mpr (hs.below g.1 ?_ hr g.2 hnext))
      exact mem_flatMap.mpr ⟨rule, hrule, mem_map.mpr ⟨atom, hatom, hrelation⟩⟩

/-- **The overdeletion of a component ends**, by either way. -/
theorem Consistent.overdeletion_spec (h : advance.Consistent component arity stored)
    (hfits : advance.CountsFit component) (hsafe : ∀ rule ∈ component.rules, rule.Safe) :
    ∃ fuel₀, ∀ fuel ≥ fuel₀, ∃ overdeleted,
      advance.overdeletion component fuel = some (.ok overdeleted) ∧
        advance.Overdeletes component stored overdeleted := by
  unfold overdeletion
  by_cases hall : (advance.targetSeedRetracted component || advance.negativeBecamePresent component)
      = true
  · exact ⟨0, fun fuel _ => ⟨_, if_pos hall, h.overdeletes_all⟩⟩
  · obtain ⟨hretracted, hnegative⟩ := Bool.or_eq_false_iff.mp (Bool.not_eq_true _ ▸ hall)
    obtain ⟨fuel₀, hfuel⟩ := overdelete_spec h hfits hsafe hretracted
    refine ⟨fuel₀, fun fuel hge => ?_⟩
    obtain ⟨s, hrun, hs, hdone⟩ := hfuel fuel hge
    refine ⟨s.overdeleted, ?_, h.overdeletes_of_inv hretracted hnegative hs hdone⟩
    rw [if_neg hall, hrun]
    rfl

/-- **What remains is derived anew.** -/
theorem Overdeletes.derives (h : advance.Overdeletes component stored overdeleted)
    (hadvance : advance.Consistent component arity stored) {f : Fact}
    (hf : f ∈ factsOf (advance.remainingRows component overdeleted)) :
    (advance.newSystem component).Derives f := by
  rcases hadvance.mem_remainingRows.mp hf with hgiven | hremaining
  · exact .given hgiven
  obtain ⟨hr, hderived, hnot⟩ := mem_remaining.mp hremaining
  have hold := (hadvance.fixpoint f).mp (hadvance.mem_of_oldDerived hr hderived)
  refine Inference.derives_of_kept (fun g hg hgiven => ?_)
    (fun body head hstep hbody hhead => ?_) hold hf
  · rcases hadvance.mem_remainingRows.mp hg with hnew | hremains
    · exact .given hnew
    · obtain ⟨hr, hderived, hnot⟩ := mem_remaining.mp hremains
      have hstored := (MaintainedComponent.mem_given_target hr).mp hgiven
      exact .given ((MaintainedComponent.mem_given_target hr).mpr
        (h.given g.1 hr g.2 hstored hderived hnot))
  · rcases hadvance.mem_remainingRows.mp hhead with hnew | hremains
    · exact .inl (.given hnew)
    · exact .inr (h.step body head hstep (fun g hg => (hadvance.fixpoint g).mpr (hbody g hg))
        (mem_remaining.mp hremains).2.2)

/-- The derived tuples that remain are inferred anew. -/
theorem Overdeletes.infers (h : advance.Overdeletes component stored overdeleted)
    (hadvance : advance.Consistent component arity stored) {f : Fact}
    (hf : f ∈ factsOf (advance.remaining component overdeleted)) :
    (advance.newSystem component).Infers {g | (advance.newSystem component).Derives g} f := by
  obtain ⟨hr, hderived, hnot⟩ := mem_remaining.mp hf
  obtain ⟨body, hstep, hbody⟩ := (hadvance.mem_oldDerived hr).mp hderived
  obtain ⟨hnew, hremains⟩ := h.step body f hstep hbody hnot
  exact ⟨body, hnew, fun g hg => h.derives hadvance (hremains g hg)⟩

end RecursiveAdvance

end Overdelete

end Mica
