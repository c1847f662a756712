import Mica.Kernel.Restart

/-!
# Kernel/LogReplay — the log replays to the live state

What a commit checks live is checked again when the log is replayed, commit by commit.  It passes: the
replayed relations have the metadata of the live ones and the facts of those that are durable, and the
replayed rules are the live rules (`Replayed.Mirrors`).

* `Replayed.replay_facts` — the facts of a commit.
* `Replayed.Mirrors.stagedCatalog` — the catalogue of a staged commit of any length.
* `RootSystem.Runs.leavesReplay` — over every run, forks included.
-/

open SortedList List SortedMap SortedSet Option

namespace Mica

section Replay

variable {M : Type → Type} [ByteMap M]

/-- **What replay has of a live relation**: its facts if it is durable, and none if it is not. -/
structure RelationState.Mirrors (p l : RelationState M) : Prop where
  metadata : p.metadata = l.metadata
  rows : ∀ t, t ∈ p.rows ↔ t ∈ l.rows ∧ l.metadata.durability = .durable

namespace Replayed

variable {r r' : Replayed M} {a b : Root M}

/-- **A replayed state that mirrors a root**, buffers apart. -/
structure Mirrors (r : Replayed M) (root : Root M) : Prop where
  rules : r.rules = root.facts.rules
  relations : ∀ id, Option.Rel RelationState.Mirrors (r.relations.get? id)
    (root.facts.relations.get? id)

theorem Mirrors.of_live (h : r.Mirrors a) {id : RelationId} {l : RelationState M}
    (hl : a.facts.relations.get? id = some l) : ∃ p, r.relations.get? id = some p ∧ p.Mirrors l := by
  have hid := h.relations id
  rw [hl] at hid
  generalize r.relations.get? id = p at hid
  cases hid with
  | some hp => exact ⟨_, rfl, hp⟩

theorem Mirrors.of_replayed (h : r.Mirrors a) {id : RelationId} {p : RelationState M}
    (hp : r.relations.get? id = some p) :
    ∃ l, a.facts.relations.get? id = some l ∧ p.Mirrors l := by
  have hid := h.relations id
  rw [hp] at hid
  generalize a.facts.relations.get? id = l at hid
  cases hid with
  | some hl => exact ⟨_, rfl, hl⟩

end Replayed

/-- A rule that is checked stays so when relations are added. -/
theorem validateRuleAtom_grows {relations other : SortedMap RelationId (RelationState M)}
    (h : ∀ id state, relations.get? id = some state →
      ∃ state', other.get? id = some state' ∧ state'.metadata = state.metadata)
    {relation : RelationId} {terms : List Term}
    (hok : validateRuleAtom relations relation terms = .ok ()) :
    validateRuleAtom other relation terms = .ok () := by
  unfold validateRuleAtom at hok ⊢
  split at hok
  · cases hok
  rename_i state hstate
  obtain ⟨state', hstate', hmeta⟩ := h relation state hstate
  rw [hstate']
  dsimp only
  rwa [hmeta]

theorem forM_ok {ε α : Type} {f : α → Except ε Unit} : ∀ {l : List α},
    l.forM f = .ok () ↔ ∀ x ∈ l, f x = .ok ()
  | [] => iff_of_true rfl nofun
  | x :: l => by
    rw [forall_mem_cons, ← forM_ok]
    change (f x >>= fun _ => l.forM f) = .ok () ↔ _
    cases f x with
    | error e => exact iff_of_false nofun fun h => nomatch h.1
    | ok _ => exact ⟨fun h => ⟨rfl, h⟩, fun h => h.2⟩

theorem validateRule_grows {relations other : SortedMap RelationId (RelationState M)}
    (h : ∀ id state, relations.get? id = some state →
      ∃ state', other.get? id = some state' ∧ state'.metadata = state.metadata)
    {rule : Rule} (hok : validateRuleAgainstRelations relations rule = .ok ()) :
    validateRuleAgainstRelations other rule = .ok () := by
  unfold validateRuleAgainstRelations at hok ⊢
  split at hok
  · cases hok
  rename_i hhead
  rw [validateRuleAtom_grows h hhead]
  exact forM_ok.mpr fun atom hatom => validateRuleAtom_grows h (forM_ok.mp hok atom hatom)

/-- Fewer active rules are stratified too. -/
theorem validateActive_of_subset {rules rules' : List RuleDefinition}
    (hsubset : activeRules rules ⊆ activeRules rules') (h : validateActive rules' = .ok ()) :
    validateActive rules = .ok () := by
  have hok : RuleSet.validateStratified ⟨activeRules rules'⟩ = .ok () := by
    unfold validateActive at h
    split at h
    · cases h
    rename_i hok
    exact hok
  have hdepends : ∀ negated head body, RuleSet.DependsOn ⟨activeRules rules⟩ negated head body →
      RuleSet.DependsOn ⟨activeRules rules'⟩ negated head body :=
    fun _ _ _ ⟨rule, hrule, hrest⟩ => ⟨rule, hsubset hrule, hrest⟩
  have hfewer : RuleSet.validateStratified ⟨activeRules rules⟩ = .ok () := by
    refine RuleSet.validateStratified_iff.mpr fun ⟨head, body, hneg, hreach⟩ => ?_
    refine RuleSet.validateStratified_iff.mp hok ⟨head, body, hdepends _ _ _ hneg, ?_⟩
    exact Relation.ReflTransGen.mono (fun _ _ hdep => hdep.imp fun negated => hdepends negated _ _) _ _
      hreach
  unfold validateActive
  rw [hfewer]

/-! ## Facts -/

namespace Replayed

variable {r r' : Replayed M} {a b : Root M}

/-- **What facts make of some relations**: the metadata stay, and the rows are those that were
asserted and those that were there and not retracted. -/
structure Written (changes : List FactChange) (before after : SortedMap RelationId (RelationState M)) :
    Prop where
  known : ∀ id, (before.get? id).isSome ↔ (after.get? id).isSome
  rows : ∀ id p, before.get? id = some p → ∃ p', after.get? id = some p' ∧ p'.metadata = p.metadata ∧
    ∀ t, t ∈ p'.rows ↔ ⟨id, t, .assert⟩ ∈ changes ∨ t ∈ p.rows ∧ ⟨id, t, .retract⟩ ∉ changes

/-- One fact of a durable relation. -/
theorem factChange_ok {change : FactChange} {p : RelationState M}
    (hp : r.relations.get? change.relation = some p) (hdurable : p.metadata.durability = .durable)
    (harity : change.tuple.length = p.metadata.arity) :
    ∃ p', r.factChange change = .ok { r with relations := r.relations.insert change.relation p' } ∧
      p'.metadata = p.metadata ∧
      ∀ t, t ∈ p'.rows ↔ (change.kind = .assert ∧ t = change.tuple) ∨
        t ∈ p.rows ∧ ¬(change.kind = .retract ∧ t = change.tuple) := by
  unfold factChange
  rw [hp]
  dsimp only
  rw [if_neg (by rw [hdurable]; exact nofun), if_neg (not_not.mpr harity.symm)]
  cases hkind : change.kind with
  | assert =>
    refine ⟨(p.insert change.tuple).1, rfl, p.insert_metadata _, fun t => ?_⟩
    rw [RelationState.insert_rows, mem_insert]
    simp
  | retract =>
    refine ⟨(p.remove change.tuple).1, rfl, p.remove_metadata _, fun t => ?_⟩
    rw [RelationState.remove_rows, mem_erase]
    simp [and_comm]

/-- **The facts of a commit**, each of a durable relation and each once. -/
theorem factChanges_ok : ∀ {changes : List FactChange} {r : Replayed M},
    changes.Pairwise (fun c d => (c.relation, c.tuple) ≠ (d.relation, d.tuple)) →
    (∀ change ∈ changes, ∃ p, r.relations.get? change.relation = some p ∧
      p.metadata.durability = .durable ∧ change.tuple.length = p.metadata.arity) →
    ∃ r', r.factChanges changes = .ok r' ∧ r'.rules = r.rules ∧ r'.buffers = r.buffers ∧
      Written changes r.relations r'.relations
  | [], r, _, _ => by
    refine ⟨r, rfl, rfl, rfl, fun _ => Iff.rfl, fun id p hp => ⟨p, hp, rfl, fun t => ?_⟩⟩
    simp
  | change :: changes, r, hdistinct, hknown => by
    obtain ⟨hfirst, hrest⟩ := pairwise_cons.mp hdistinct
    obtain ⟨p, hp, hdurable, harity⟩ := hknown change mem_cons_self
    obtain ⟨p₁, hchange, hmeta, hrows⟩ := factChange_ok hp hdurable harity
    have hget : ∀ id q, r.relations.get? id = some q →
        ∃ q', (r.relations.insert change.relation p₁).get? id = some q' ∧
          q'.metadata = q.metadata := by
      intro id q hq
      by_cases hid : id = change.relation
      · subst hid
        obtain rfl := some.inj (hp.symm.trans hq)
        exact ⟨p₁, get?_insert_self, hmeta⟩
      · exact ⟨q, (get?_insert_of_ne hid).trans hq, rfl⟩
    obtain ⟨r', hr', hrules, hbuffers, hwritten⟩ := factChanges_ok
      (r := { r with relations := r.relations.insert change.relation p₁ }) hrest fun other hother => by
        obtain ⟨q, hq, hqdurable, hqarity⟩ := hknown other (mem_cons_of_mem _ hother)
        obtain ⟨q', hq', hqmeta⟩ := hget _ q hq
        exact ⟨q', hq', hqmeta ▸ hqdurable, hqmeta ▸ hqarity⟩
    refine ⟨r', ?_, hrules, hbuffers, fun id => ?_, fun id q hq => ?_⟩
    · unfold factChanges
      rwa [hchange]
    · rw [← hwritten.known id]
      dsimp only
      by_cases hid : id = change.relation
      · rw [hid, hp, get?_insert_self]
        exact iff_of_true rfl rfl
      · rw [get?_insert_of_ne hid]
    · by_cases hid : id = change.relation
      · subst hid
        obtain rfl := some.inj (hp.symm.trans hq)
        obtain ⟨p', hp', hmeta', hrows'⟩ := hwritten.rows _ p₁ get?_insert_self
        refine ⟨p', hp', hmeta'.trans hmeta, fun t => ?_⟩
        rw [hrows', hrows]
        -- the first change is the only one of its fact
        have halone : ∀ kind, t = change.tuple → (⟨change.relation, t, kind⟩ : FactChange) ∉ changes :=
          fun kind heq hmem => hfirst _ hmem (by rw [heq])
        obtain ⟨relation, u, kind⟩ := change
        simp only [mem_cons, FactChange.mk.injEq, true_and, not_or] at halone ⊢
        have hassert := halone .assert
        have hretract := halone .retract
        cases kind <;> simp only [reduceCtorEq, and_false, and_true, false_and, true_and, false_or,
          not_false_eq_true] <;> tauto
      · obtain ⟨q', hq', hqmeta, hqrows⟩ := hwritten.rows id q
          ((get?_insert_of_ne hid).trans hq)
        refine ⟨q', hq', hqmeta, fun t => ?_⟩
        rw [hqrows]
        have hother : ∀ kind, (⟨id, t, kind⟩ : FactChange) ∈ change :: changes ↔
            ⟨id, t, kind⟩ ∈ changes := by
          intro kind
          rw [mem_cons, or_iff_right]
          rintro rfl
          exact hid rfl
        rw [hother, hother]

theorem isDurable_iff {snapshot : Snapshot M} {relation : RelationId} :
    RelationKernel.isDurable snapshot relation = true ↔
      ∃ l, snapshot.relations.get? relation = some l ∧
      l.metadata.durability = .durable := by
  unfold RelationKernel.isDurable
  rw [Option.any_eq_true]
  exact exists_congr fun l => and_congr_right fun _ => decide_eq_true_iff

/-- **The persisted facts of a commit lead to the mirror of what it publishes.** -/
theorem replay_facts {before : RelationId → Tuple → Prop} {next snapshot : Snapshot M}
    {changes : List FactChange} (hnet : NetChanges before next.Holds changes) (hstored : next.Stored)
    (harity : ∀ relation t, before relation t → ∀ l, next.relations.get? relation = some l →
      t.length = l.metadata.arity)
    (hsnapshot : ∀ relation, RelationKernel.isDurable snapshot relation =
      RelationKernel.isDurable next relation)
    (hr : ∀ id, Option.Rel (fun p l : RelationState M => p.metadata = l.metadata ∧
      ∀ t, t ∈ p.rows ↔ before id t ∧ l.metadata.durability = .durable) (r.relations.get? id)
        (next.relations.get? id)) :
    ∃ r', r.factChanges (changes.filter fun c => RelationKernel.isDurable snapshot c.relation) =
      .ok r' ∧
      r'.rules = r.rules ∧ r'.buffers = r.buffers ∧
      ∀ id, Option.Rel RelationState.Mirrors (r'.relations.get? id) (next.relations.get? id) := by
  have hlive : ∀ {id l}, next.relations.get? id = some l → ∃ p, r.relations.get? id = some p ∧
      p.metadata = l.metadata ∧ ∀ t, t ∈ p.rows ↔ before id t ∧ l.metadata.durability = .durable := by
    intro id l hl
    have hid := hr id
    rw [hl] at hid
    generalize r.relations.get? id = p at hid
    cases hid with
    | some hp => exact ⟨_, rfl, hp⟩
  have hdistinct : (changes.filter fun c => RelationKernel.isDurable snapshot c.relation).Pairwise
      fun c d => (c.relation, c.tuple) ≠ (d.relation, d.tuple) := by
    refine (hnet.ordered.filter _).imp fun {c d} hbefore heq => ?_
    obtain ⟨hrelation, htuple⟩ := Prod.mk.inj heq
    rcases hbefore with hlt | ⟨-, hlt⟩
    · exact hlt.ne hrelation
    · exact hlt.ne htuple
  have hmem : ∀ {relation t kind}, ⟨relation, t, kind⟩ ∈
      changes.filter (fun c => RelationKernel.isDurable snapshot c.relation) ↔
        ⟨relation, t, kind⟩ ∈ changes ∧ ∃ l, next.relations.get? relation = some l ∧
          l.metadata.durability = .durable := by
    intro relation t kind
    rw [mem_filter, hsnapshot, isDurable_iff]
  obtain ⟨r', hr', hrules, hbuffers, hwritten⟩ := factChanges_ok hdistinct fun change hchange => by
    obtain ⟨relation, t, kind⟩ := change
    obtain ⟨hchange, l, hl, hdurable⟩ := hmem.mp hchange
    obtain ⟨p, hp, hmeta, -⟩ := hlive hl
    refine ⟨p, hp, hmeta ▸ hdurable, ?_⟩
    rw [hmeta]
    cases kind with
    | assert =>
      obtain ⟨-, state, hstate, ht⟩ := (hnet.assert_iff relation t).mp hchange
      obtain rfl := some.inj (hl.symm.trans hstate)
      exact (RelationMetadata.validateTuple_eq_ok.mp ((hstored relation l hl).1.validateTuple t ht)).1
    | retract => exact harity relation t ((hnet.retract_iff relation t).mp hchange).1 l hl
  refine ⟨r', hr', hrules, hbuffers, fun id => ?_⟩
  cases hl : next.relations.get? id with
  | none =>
    have hid := hr id
    rw [hl] at hid
    have hnone : r.relations.get? id = none := by
      generalize r.relations.get? id = p at hid
      cases hid with
      | none => rfl
    have hnone' : r'.relations.get? id = none := by
      rw [← not_isSome_iff_eq_none, ← hwritten.known id, hnone]
      exact nofun
    rw [hnone']
    exact .none
  | some l =>
    obtain ⟨p, hp, hmeta, hrows⟩ := hlive hl
    obtain ⟨p', hp', hmeta', hrows'⟩ := hwritten.rows id p hp
    rw [hp']
    refine .some ⟨hmeta'.trans hmeta, fun t => ?_⟩
    have hholds : next.Holds id t ↔ t ∈ l.rows :=
      ⟨fun ⟨state, hstate, ht⟩ => some.inj (hl.symm.trans hstate) ▸ ht, fun ht => ⟨l, hl, ht⟩⟩
    have hdurable : (∃ l', next.relations.get? id = some l' ∧ l'.metadata.durability = .durable) ↔
        l.metadata.durability = .durable :=
      ⟨fun ⟨l', hl', hd⟩ => some.inj (hl.symm.trans hl') ▸ hd, fun hd => ⟨l, hl, hd⟩⟩
    rw [hrows', hrows, hmem, hmem, hdurable, hnet.assert_iff, hnet.retract_iff, hholds]
    tauto

/-! ## The catalogue of a staged commit -/

theorem catalogChanges_append {r₁ r₂ : Replayed M} {changes' : List CatalogChange}
    (h' : r₁.catalogChanges changes' = .ok r₂) : ∀ {changes : List CatalogChange} {r : Replayed M},
      r.catalogChanges changes = .ok r₁ → r.catalogChanges (changes ++ changes') = .ok r₂
  | [], r, h => by
    obtain rfl := Except.ok.inj h
    exact h'
  | change :: changes, r, h => by
    rw [cons_append]
    unfold catalogChanges at h ⊢
    split at h
    · cases h
    exact catalogChanges_append h' h

/-- The relations that are created are empty. -/
theorem catalogChanges_created : ∀ {ms : List RelationMetadata} {r : Replayed M},
    (ms.map RelationMetadata.id).Nodup →
    (∀ m ∈ ms, ∃ state, (RelationState.empty m : Except KernelError (RelationState M)) = .ok state) →
    ∃ r', r.catalogChanges (ms.map CatalogChange.relationCreated) = .ok r' ∧ r'.rules = r.rules ∧
      (∀ id, (∀ m ∈ ms, m.id ≠ id) → r'.relations.get? id = r.relations.get? id) ∧
      ∀ m ∈ ms, ∃ p, r'.relations.get? m.id = some p ∧ p.metadata = m ∧ p.rows = SortedSet.empty
  | [], r, _, _ => ⟨r, rfl, rfl, fun _ _ => rfl, nofun⟩
  | m :: ms, r, hids, hempty => by
    rw [map_cons, nodup_cons] at hids
    obtain ⟨⟨state, hstate⟩, hrest⟩ := forall_mem_cons.mp hempty
    obtain ⟨r', hr', hrules, hother, hnew⟩ := catalogChanges_created
      (r := { r with relations := r.relations.insert m.id state }) hids.2 hrest
    have hnot : ∀ other ∈ ms, other.id ≠ m.id := fun other hmem heq =>
      hids.1 (mem_map.mpr ⟨other, hmem, heq⟩)
    refine ⟨r', ?_, hrules, fun id hid => ?_, fun other hmem => ?_⟩
    · rw [map_cons]
      simp only [catalogChanges, catalogChange, hstate]
      exact hr'
    · rw [hother id fun other hmem => hid other (mem_cons_of_mem _ hmem)]
      exact get?_insert_of_ne (hid m mem_cons_self).symm
    · rcases mem_cons.mp hmem with rfl | hmem
      · obtain ⟨hmeta, hrows, -⟩ := RelationState.empty_spec hstate
        exact ⟨state, (hother _ hnot).trans get?_insert_self, hmeta, hrows⟩
      · exact hnew other hmem

theorem disableRuleIn_append {id : Identity} {rule : RuleDefinition} (hid : rule.id = id) :
    ∀ {pre rest : List RuleDefinition}, (∀ other ∈ pre, other.id ≠ id) →
      disableRuleIn id (pre ++ rule :: rest) = .ok (pre ++ { rule with active := false } :: rest)
  | [], rest, _ => by
    rw [nil_append]
    unfold disableRuleIn
    rw [if_pos hid]
    rfl
  | first :: pre, rest, hother => by
    obtain ⟨hfirst, hpre⟩ := forall_mem_cons.mp hother
    rw [cons_append]
    unfold disableRuleIn
    rw [if_neg hfirst, disableRuleIn_append hid hpre]
    rfl

/-- The old rules of a staged commit, each disabled in its place where it is not active any more. -/
theorem catalogChanges_disabled (current : List RuleDefinition) :
    ∀ {cs os : List RuleDefinition} (pre : List RuleDefinition) {r : Replayed M},
      List.Forall₂ RuleDefinition.Kept cs os → r.rules = pre ++ cs →
      ((pre ++ cs).map RuleDefinition.id).Nodup →
      (∀ rule ∈ cs, RelationKernel.ruleOf current rule.id = some rule) →
      ∃ r', r.catalogChanges (os.filterMap (RelationKernel.stagedRuleChange current)) = .ok r' ∧
        r'.rules = pre ++ os ∧ r'.relations = r.relations
  | _, _, pre, r, .nil, hrules, _, _ => ⟨r, rfl, hrules, rfl⟩
  | c :: cs, o :: os, pre, r, .cons hkept hrest, hrules, hids, hcurrent => by
    obtain ⟨hc, hcs⟩ := forall_mem_cons.mp hcurrent
    have hchange : RelationKernel.stagedRuleChange current o =
        if c.active && !o.active then some (.ruleDisabled o.id) else none := by
      unfold RelationKernel.stagedRuleChange
      rw [hkept.id, hc]
    have hpre : ∀ other ∈ pre, other.id ≠ o.id := by
      intro other hother heq
      rw [map_append, map_cons] at hids
      refine (nodup_append.mp hids).2.2 _ (mem_map_of_mem hother) _ mem_cons_self ?_
      rw [heq, hkept.id]
    -- the rule of the staged commit in the place of the old one
    have hnext : ∀ r₁ : Replayed M, r₁.rules = pre ++ o :: cs → r₁.relations = r.relations →
        ∃ r', r₁.catalogChanges (os.filterMap (RelationKernel.stagedRuleChange current)) = .ok r' ∧
          r'.rules = pre ++ o :: os ∧ r'.relations = r.relations := by
      intro r₁ hr₁ hrelations
      obtain ⟨r', hr', hrules', hrelations'⟩ := catalogChanges_disabled current (pre ++ [o]) hrest
        (by rw [hr₁, append_assoc, singleton_append])
        (by
          rw [append_assoc, singleton_append, map_append, map_cons, hkept.id,
            ← map_cons, ← map_append]
          exact hids) hcs
      refine ⟨r', hr', ?_, hrelations'.trans hrelations⟩
      rw [hrules', append_assoc, singleton_append]
    by_cases hoff : (c.active && !o.active) = true
    · have hrule : ({ c with active := false } : RuleDefinition) = o := by
        rw [Bool.and_eq_true, Bool.not_eq_true'] at hoff
        rcases o with ⟨oid, orule, osource, oactive⟩
        obtain ⟨hid, hsame, hsource, -⟩ := hkept
        obtain rfl : oactive = false := hoff.2
        rw [RuleDefinition.mk.injEq]
        exact ⟨hid.symm, hsame.symm, hsource.symm, rfl⟩
      have hdisable : disableRuleIn o.id r.rules = .ok (pre ++ o :: cs) := by
        rw [hrules, disableRuleIn_append hkept.id.symm hpre, hrule]
      obtain ⟨r', hr', hrest'⟩ := hnext { r with rules := pre ++ o :: cs } rfl rfl
      refine ⟨r', ?_, hrest'⟩
      rw [filterMap_cons_some (hchange.trans (if_pos hoff))]
      simp only [catalogChanges, catalogChange, hdisable]
      exact hr'
    · have hrule : c = o := by
        rcases o with ⟨oid, orule, osource, oactive⟩
        rcases c with ⟨cid, crule, csource, cactive⟩
        obtain ⟨hid, hsame, hsource, hactive⟩ := hkept
        rw [RuleDefinition.mk.injEq]
        refine ⟨hid.symm, hsame.symm, hsource.symm, ?_⟩
        dsimp only at hoff hactive
        cases cactive <;> cases oactive <;> simp_all
      obtain ⟨r', hr', hrest'⟩ := hnext r (hrule ▸ hrules) rfl
      refine ⟨r', ?_, hrest'⟩
      rwa [filterMap_cons_none (hchange.trans (if_neg hoff))]

theorem activeRules_append (rules rules' : List RuleDefinition) :
    activeRules (rules ++ rules') = activeRules rules ++ activeRules rules' := by
  unfold activeRules
  rw [filter_append, map_append]

/-- The new rules of a staged commit, one after the other. -/
theorem catalogChanges_installed : ∀ (new : List RuleDefinition) {r : Replayed M},
    (∀ rule ∈ new, validateRuleAgainstRelations r.relations rule.rule = .ok ()) →
    validateActive (r.rules ++ new) = .ok () →
    ∃ r', r.catalogChanges (new.map CatalogChange.ruleInstalled) = .ok r' ∧
      r'.rules = r.rules ++ new ∧ r'.relations = r.relations
  | [], r, _, _ => ⟨r, rfl, (append_nil _).symm, rfl⟩
  | rule :: new, r, hvalid, hactive => by
    obtain ⟨hfirst, hrest⟩ := forall_mem_cons.mp hvalid
    have hone : validateActive (r.rules ++ [rule]) = .ok () := by
      refine validateActive_of_subset (fun x hx => ?_) hactive
      rw [← singleton_append, ← append_assoc, activeRules_append]
      exact mem_append_left _ hx
    obtain ⟨r', hr', hrules, hrelations⟩ := catalogChanges_installed new
      (r := { r with rules := r.rules ++ [rule] }) hrest
      (by rw [append_assoc, singleton_append]; exact hactive)
    refine ⟨r', ?_, ?_, hrelations⟩
    · rw [map_cons]
      simp only [catalogChanges, catalogChange, hfirst, hone]
      exact hr'
    · rw [hrules, append_assoc, singleton_append]

/-- A relation that holds facts was created. -/
theorem exists_empty_of_stored {state : RelationState M} (h : state.Stored) :
    ∃ p, (RelationState.empty state.metadata : Except KernelError (RelationState M)) = .ok p := by
  have hcheck : ∀ (metadata : RelationMetadata) (t : Tuple), metadata.validateTuple t = .ok () →
      t.length = metadata.arity := fun _ _ hok => (RelationMetadata.validateTuple_eq_ok.mp hok).1
  induction h with
  | @empty metadata state hempty => exact ⟨state, (RelationState.empty_spec hempty).1.symm ▸ hempty⟩
  | insert _ _ ih =>
    rwa [RelationState.insert_metadata]
  | remove _ ih =>
    rwa [RelationState.remove_metadata]
  | load hbuilt hempty ht ih =>
    have hvalid := (hbuilt.valid hcheck).applyOrderedAssertsToEmpty hempty fun t hmem =>
      hcheck _ t (ht t hmem)
    rwa [hvalid.2.1]

/-- What the replayed catalogue of a staged commit is: the staged rules and relations, with the
facts as they were. -/
structure Prepared (r : Replayed M) (before after : Snapshot M) : Prop where
  rules : r.rules = after.rules
  relations : ∀ id, Option.Rel (fun p l : RelationState M => p.metadata = l.metadata ∧
    ∀ t, t ∈ p.rows ↔ before.Holds id t ∧ l.metadata.durability = .durable) (r.relations.get? id)
      (after.relations.get? id)

/-- **The catalogue of a staged commit is replayed.** -/
theorem Mirrors.stagedCatalog (h : r.Mirrors a) (hgrows : a.Grows b) (hstored : b.facts.Stored)
    (hids : (b.facts.rules.map RuleDefinition.id).Nodup)
    (hvalid : ∀ rule ∈ b.facts.rules, validateRuleAgainstRelations b.facts.relations
      rule.rule = .ok ())
    (hactive : validateActive b.facts.rules = .ok ()) :
    ∃ r', r.catalogChanges (RelationKernel.stagedCatalogChanges a.facts b.facts) = .ok r' ∧
      r'.Prepared a.facts b.facts := by
  have hmetadata := RelationKernel.nodup_relationMetadata hstored
  have hcreate : ∀ m ∈ b.facts.relationMetadata.filter (fun m => (a.facts.relations.get? m.id).isNone),
      ∃ state, (RelationState.empty m : Except KernelError (RelationState M)) = .ok state := by
    intro m hm
    obtain ⟨state, hstate, hmeta⟩ :=
      (RelationKernel.mem_relationMetadata hstored).mp (mem_of_mem_filter hm)
    obtain ⟨p, hp⟩ := exists_empty_of_stored (hstored m.id state hstate).1
    exact ⟨p, hmeta ▸ hp⟩
  obtain ⟨r₁, hr₁, hrules₁, hother, hnew⟩ := catalogChanges_created (r := r)
    (hmetadata.sublist (filter_sublist.map _)) hcreate
  -- the relations are now those of the staged snapshot, with the facts as they were
  have hrelations : ∀ id, Option.Rel (fun p l : RelationState M => p.metadata = l.metadata ∧
      ∀ t, t ∈ p.rows ↔ a.facts.Holds id t ∧ l.metadata.durability = .durable) (r₁.relations.get? id)
        (b.facts.relations.get? id) := by
    intro id
    cases hold : a.facts.relations.get? id with
    | some old =>
      obtain ⟨l, hl, hmeta⟩ := hgrows.metadata id old hold
      obtain ⟨p, hp, hmirrors⟩ := h.of_live hold
      rw [hother id fun m hm heq => ?_, hp, hl]
      · refine .some ⟨hmirrors.metadata.trans hmeta.symm, fun t => ?_⟩
        rw [hmirrors.rows, Snapshot.holds_iff hold, hmeta]
      · have hnone := (mem_filter.mp hm).2
        rw [heq, hold] at hnone
        cases hnone
    | none =>
      have hnot : ∀ t, ¬a.facts.Holds id t := fun t ⟨state, hstate, _⟩ =>
        nomatch hold.symm.trans hstate
      cases hl : b.facts.relations.get? id with
      | none =>
        have hnone : r₁.relations.get? id = none := by
          rw [hother id fun m hm heq => ?_]
          · have hid := h.relations id
            rw [hold] at hid
            generalize r.relations.get? id = p at hid
            cases hid with
            | none => rfl
          · obtain ⟨state, hstate, -⟩ :=
              (RelationKernel.mem_relationMetadata hstored).mp (mem_of_mem_filter hm)
            rw [heq, hl] at hstate
            cases hstate
        rw [hnone]
        exact .none
      | some l =>
        have hid := (hstored id l hl).2
        obtain ⟨p, hp, hmeta, hrows⟩ := hnew l.metadata (mem_filter.mpr
          ⟨(RelationKernel.mem_relationMetadata hstored).mpr ⟨l, by rw [hid, hl], rfl⟩, by
            rw [hid, hold]; rfl⟩)
        rw [hid] at hp
        rw [hp]
        refine .some ⟨hmeta, fun t => ?_⟩
        rw [hrows]
        exact iff_of_false (notMem_empty t) fun hboth => hnot t hboth.1
  -- old rules are disabled in their places, and new ones come after them
  obtain ⟨old, new, hsplit, hkept⟩ := hgrows.rules
  have hsameIds := RelationKernel.forall₂_kept_ids hkept
  have hids' := hids
  rw [hsplit, map_append, hsameIds] at hids'
  have hcurrent : (a.facts.rules.map RuleDefinition.id).Nodup := (nodup_append.mp hids').1
  obtain ⟨r₂, hr₂, hrules₂, hrelations₂⟩ := catalogChanges_disabled a.facts.rules [] hkept
    (hrules₁.trans h.rules) hcurrent
    fun rule hrule => (RelationKernel.ruleOf_eq_some hcurrent).mpr ⟨hrule, rfl⟩
  rw [nil_append] at hrules₂
  have hinstall : new.filterMap (RelationKernel.stagedRuleChange a.facts.rules) =
      new.map CatalogChange.ruleInstalled := by
    rw [← filterMap_eq_map]
    refine filterMap_congr fun rule hrule => ?_
    unfold RelationKernel.stagedRuleChange
    rw [RelationKernel.ruleOf_eq_none.mpr fun other hother' hid =>
      (nodup_append.mp hids').2.2 _ (mem_map_of_mem hother') _ (mem_map_of_mem hrule) hid]
    rfl
  have hknown : ∀ id state, b.facts.relations.get? id = some state →
      ∃ state', r₂.relations.get? id = some state' ∧ state'.metadata = state.metadata := by
    intro id l hl
    have hid := hrelations id
    rw [hl] at hid
    rw [hrelations₂]
    generalize r₁.relations.get? id = p at hid
    cases hid with
    | some hp => exact ⟨_, rfl, hp.1⟩
  obtain ⟨r₃, hr₃, hrules₃, hrelations₃⟩ := catalogChanges_installed new (r := r₂)
    (fun rule hrule => validateRule_grows hknown
      (hvalid rule (by rw [hsplit]; exact mem_append_right _ hrule)))
    (by rw [hrules₂, ← hsplit]; exact hactive)
  refine ⟨r₃, ?_, by rw [hrules₃, hrules₂, hsplit], ?_⟩
  · unfold RelationKernel.stagedCatalogChanges
    rw [hsplit, filterMap_append, hinstall]
    exact catalogChanges_append (catalogChanges_append hr₃ hr₂) hr₁
  · rwa [hrelations₃, hrelations₂]

theorem Mirrors.with_buffers (h : r.Mirrors a) (buffers : BufferStates) :
    Mirrors { r with buffers := buffers } a := ⟨h.rules, h.relations⟩

/-- A relation that is created, with nothing in it. -/
theorem Mirrors.created (h : r.Mirrors a) {metadata : RelationMetadata} {state : RelationState M}
    (hempty : (RelationState.empty metadata : Except KernelError (RelationState M)) = .ok state)
    (hrules : b.facts.rules = a.facts.rules)
    (hrelations : b.facts.relations = a.facts.relations.insert metadata.id state) :
    Mirrors { r with relations := r.relations.insert metadata.id state } b := by
  refine ⟨h.rules.trans hrules.symm, fun id => ?_⟩
  dsimp only
  rw [hrelations, get?_insert, get?_insert]
  split
  · refine .some ⟨rfl, fun t => ?_⟩
    rw [(RelationState.empty_spec hempty).2.1]
    exact iff_of_false (notMem_empty t) fun ht => notMem_empty t ht.1
  · exact h.relations id

end Replayed

/-! ## Rules that stay valid -/

/-- **The rules of a root are checked**: each against the relations, and the active ones together. -/
structure Root.Ruled (root : Root M) : Prop where
  valid : ∀ rule ∈ root.facts.rules, validateRuleAgainstRelations root.facts.relations
    rule.rule = .ok ()
  active : validateActive root.facts.rules = .ok ()

theorem Root.Ruled.grows {a b : Root M} (h : a.Ruled) (hrules : b.facts.rules = a.facts.rules)
    (hmetadata : ∀ id state, a.facts.relations.get? id = some state →
      ∃ state', b.facts.relations.get? id = some state' ∧ state'.metadata = state.metadata) :
        b.Ruled :=
  ⟨fun rule hrule => validateRule_grows hmetadata (h.valid rule (hrules ▸ hrule)), hrules ▸ h.active⟩

theorem Root.Ruled.install {a b : Root M} (h : a.Ruled) {definition : RuleDefinition}
    (hvalid : validateRuleAgainstRelations a.facts.relations definition.rule = .ok ())
    (hactive : validateActive (a.facts.rules ++ [definition]) = .ok ())
    (hrules : b.facts.rules = a.facts.rules ++ [definition])
    (hrelations : b.facts.relations = a.facts.relations) : b.Ruled := by
  refine ⟨fun rule hrule => ?_, hrules ▸ hactive⟩
  rw [hrelations]
  rw [hrules] at hrule
  rcases mem_append.mp hrule with hold | hnew
  · exact h.valid rule hold
  · rwa [mem_singleton.mp hnew]

theorem Root.Ruled.disable {a b : Root M} (h : a.Ruled) {ruleId : Identity}
    (hdisable : disableRuleIn ruleId a.facts.rules = .ok b.facts.rules)
    (hactive : validateActive b.facts.rules = .ok ())
    (hrelations : b.facts.relations = a.facts.relations) : b.Ruled := by
  refine ⟨fun rule hrule => ?_, hactive⟩
  rw [hrelations]
  obtain ⟨hlen, hkept⟩ := forall₂_iff_get.mp (RulesGrow.disable hdisable).1
  obtain ⟨i, hi, rfl⟩ := mem_iff_getElem.mp hrule
  have hold := hkept i (hlen ▸ hi) hi
  exact (congrArg (validateRuleAgainstRelations a.facts.relations) hold.rule).trans
    (h.valid _ (get_mem _ _))

/-! ## Runs -/

theorem BufferStates.replayLog_append (supply : Supply) (log' : List RootCommit) :
    ∀ (log : List RootCommit) (states : BufferStates), states.replayLog supply (log ++ log') =
      (states.replayLog supply log).bind fun states => states.replayLog supply log'
  | [], _ => rfl
  | commit :: log, states => by
    rw [cons_append, replayLog, replayLog]
    cases states.replayAll supply commit.bufferChanges with
    | error e => rfl
    | ok states => exact replayLog_append supply log' log states

namespace RelationKernel

variable {kernel : RelationKernel M}

/-- **The log replays**, to what mirrors the root. -/
def Replays (kernel : RelationKernel M) : Prop :=
  ∀ supply, ∃ r : Replayed M, Replayed.empty.commits supply kernel.log = .ok r ∧ r.Mirrors kernel.root

theorem replays_new : (new : RelationKernel M).Replays := fun _ => ⟨.empty, rfl, rfl, fun _ => .none⟩

/-- **A commit that is published is replayed**, as far as it is persisted. -/
theorem Replays.published (h : kernel.Replays) {snapshot : Snapshot M} {next : Root M}
    {commit : RootCommit} {result : RelationKernel M × Except KernelError RootCommit}
    (hpublished : Published snapshot kernel next commit result) (hlogged : result.1.Logged)
    (hstep : ∀ r : Replayed M, r.Mirrors kernel.root →
      ∃ r₁ r₂, r.catalogChanges commit.facts.catalogChanges = .ok r₁ ∧
        r₁.factChanges (commit.facts.changes.filter fun c => isDurable snapshot c.relation) = .ok r₂ ∧
        r₂.Mirrors next) : result.1.Replays := by
  obtain ⟨persistent, hpersistent, rfl⟩ := hpublished
  intro supply
  obtain ⟨r, hr, hmirrors⟩ := h supply
  rcases persistentCommit_cases hpersistent with ⟨rfl, hcatalog, -, hchanges⟩ | rfl
  · obtain ⟨r₁, r₂, hr₁, hr₂, hnext⟩ := hstep r hmirrors
    rw [hcatalog] at hr₁
    obtain rfl := Except.ok.inj hr₁
    rw [hchanges] at hr₂
    obtain rfl := Except.ok.inj hr₂
    exact ⟨r, by simpa using hr, hnext⟩
  obtain ⟨buffers, hbuffers, -⟩ := hlogged.buffers supply
  dsimp only [toList_some] at hbuffers
  rw [BufferStates.replayLog_append, show BufferStates.empty.replayLog supply kernel.log =
    .ok r.buffers from (Replayed.commits_spec hr).1] at hbuffers
  change BufferStates.replayLog supply r.buffers [_] = .ok buffers at hbuffers
  unfold BufferStates.replayLog at hbuffers
  split at hbuffers
  · cases hbuffers
  rename_i replayed hreplayed
  obtain ⟨r₁, r₂, hr₁, hr₂, hnext⟩ := hstep _ (hmirrors.with_buffers replayed)
  refine ⟨r₂, ?_, hnext⟩
  dsimp only [toList_some]
  rw [Replayed.commits_append, hr]
  change Replayed.commits supply r [_] = .ok r₂
  unfold Replayed.commits Replayed.commit
  rw [hreplayed]
  dsimp only
  rw [hr₁]
  dsimp only
  rw [hr₂]
  rfl

end RelationKernel

namespace RootSystem

variable {s t u f : RootSystem M}

/-- **What a step leaves for the replay**: rules that are checked, and a log that replays. -/
structure LeavesReplay (s t : RootSystem M) : Prop where
  ruled : t.root.Ruled
  replays : s.kernel.Logged → s.kernel.Replays → t.kernel.Replays

theorem LeavesReplay.refl (h : s.root.Ruled) : LeavesReplay s s := ⟨h, fun _ hreplays => hreplays⟩

/-- A change of the catalogue, which names no fact. -/
theorem leavesReplay_published {change : CatalogChange}
    {relations : SortedMap RelationId (RelationState M)} {rules : List RuleDefinition}
    {result : RelationKernel M × Except KernelError RootCommit}
    (hpublished : RelationKernel.Published s.kernel.root.facts s.kernel
      (RelationKernel.catalogRoot relations rules change s.kernel.root)
      (RelationKernel.catalogCommit change s.kernel.root) result)
    (hleaves : Leaves s { s with kernel := result.1 })
    (hruled : (RelationKernel.catalogRoot relations rules change s.kernel.root).Ruled)
    (hchange : ∀ r : Replayed M, r.Mirrors s.kernel.root → ∃ r', r.catalogChange change = .ok r' ∧
      r'.Mirrors (RelationKernel.catalogRoot relations rules change s.kernel.root)) :
    LeavesReplay s { s with kernel := result.1 } := by
  refine ⟨?_, fun hlog hreplays => hreplays.published hpublished (hleaves.logged hlog) fun r hr => ?_⟩
  · obtain ⟨persistent, -, rfl⟩ := hpublished
    exact hruled
  obtain ⟨r', hr', hmirrors⟩ := hchange r hr
  refine ⟨r', r', ?_, rfl, hmirrors⟩
  unfold RelationKernel.catalogCommit Replayed.catalogChanges
  rw [hr']
  rfl

theorem Sound.leavesReplay_commit (h : s.Sound) (htidy : s.root.Tidy) (hruled : s.root.Ruled)
    {tx : RootTransaction M} (htx : tx ∈ s.transactions) (settled : Except KernelError Unit)
    (supply : Supply) (persisted : Except String Unit) :
    LeavesReplay s { s with kernel := (s.kernel.commit settled supply persisted tx).1 } := by
  have hleaves := h.leaves_commit htidy htx settled supply persisted
  rcases s.kernel.commit_cases settled supply persisted tx with
    ⟨e, he⟩ | ⟨next, commit, hprepare, hpublished⟩
  · rw [he]
    exact .refl hruled
  · obtain ⟨base, log, hbase, hrun, hbuffers, hsound⟩ := h.runs tx htx
    obtain ⟨hnext, hgrows⟩ := h.root.commit hbase hrun hbuffers hsound.alone hprepare
    obtain ⟨hfacts, -⟩ := RootTransaction.prepare_eq_ok hprepare
    have hnet := Transaction.prepare_netChanges hrun.tracks h.root.stored hbase.follows hfacts
    obtain ⟨hrows, hnone⟩ := Transaction.prepare_rows hrun.tracks h.root.stored hbase.follows hfacts
    obtain ⟨-, relations, changes, -, hcommit, hnextFacts⟩ := Transaction.prepare_eq_ok hfacts
    have hrules : next.facts.rules = s.root.facts.rules := by rw [hnextFacts]; rfl
    -- the relations are those of before, with other rows
    have hsame : ∀ relation, Option.Rel (fun old new : RelationState M => old.metadata = new.metadata)
        (s.root.facts.relations.get? relation) (next.facts.relations.get? relation) := by
      intro relation
      rcases hold : s.root.facts.relations.get? relation with _ | old
      · rw [hnone relation hold]; exact .none
      obtain ⟨state, hstate, -, hmeta, -⟩ := hrows relation old hold
      rw [hstate]
      exact .some hmeta.symm
    refine ⟨?_, fun hlog hreplays => hreplays.published hpublished
      (hleaves.logged hlog) fun r hr => ?_⟩
    · obtain ⟨persistent, -, hresult⟩ := hpublished
      rw [hresult]
      exact hruled.grows hrules hgrows.metadata
    have hprepared : ∀ id, Option.Rel (fun p l : RelationState M => p.metadata = l.metadata ∧
        ∀ t, t ∈ p.rows ↔ s.root.facts.Holds id t ∧ l.metadata.durability = .durable)
          (r.relations.get? id) (next.facts.relations.get? id) := by
      intro id
      have hid := hsame id
      cases hold : s.root.facts.relations.get? id with
      | none =>
        have hgone := hr.relations id
        rw [show s.kernel.root.facts.relations.get? id = none from hold] at hgone
        rw [hold] at hid
        generalize r.relations.get? id = p at hgone ⊢
        generalize next.facts.relations.get? id = l at hid ⊢
        cases hgone
        cases hid
        exact .none
      | some old =>
        obtain ⟨p, hp, hmirrors⟩ := hr.of_live hold
        rw [hold] at hid
        rw [hp]
        generalize next.facts.relations.get? id = l at hid ⊢
        cases hid with
        | some hmeta =>
          refine .some ⟨hmirrors.metadata.trans hmeta, fun t => ?_⟩
          rw [hmirrors.rows, Snapshot.holds_iff hold, hmeta]
    have harity : ∀ relation t, s.root.facts.Holds relation t →
        ∀ l, next.facts.relations.get? relation = some l → t.length = l.metadata.arity := by
      rintro relation t ⟨old, hold, ht⟩ l hl
      have hid := hsame relation
      rw [hold, hl] at hid
      cases hid with
      | some hmeta =>
        rw [← hmeta]
        exact (RelationMetadata.validateTuple_eq_ok.mp
          ((h.root.stored relation old hold).1.validateTuple t ht)).1
    have hdurable : ∀ relation, RelationKernel.isDurable s.kernel.root.facts relation =
        RelationKernel.isDurable next.facts relation := by
      intro relation
      have hid := hsame relation
      unfold RelationKernel.isDurable
      change (s.root.facts.relations.get? relation).any _ = _
      generalize s.root.facts.relations.get? relation = old at hid ⊢
      generalize next.facts.relations.get? relation = l at hid ⊢
      cases hid with
      | none => rfl
      | some hmeta => rw [any_some, any_some, hmeta]
    obtain ⟨r', hr', hrules', -, hmirrors⟩ :=
      Replayed.replay_facts hnet hnext.stored harity hdurable hprepared
    refine ⟨r, r', ?_, hr', hrules'.trans (hr.rules.trans hrules.symm), hmirrors⟩
    rw [hcommit]
    rfl

theorem Sound.leavesReplay_step (h : s.Sound) (htidy : s.root.Tidy) (hruled : s.root.Ruled)
    (action : RootAction M) : LeavesReplay s (s.step action) := by
  have hleaves := h.leaves_step htidy action
  cases action with
  | createRelation metadata persisted =>
    rcases s.kernel.createRelation_cases metadata persisted with
      ⟨e, he⟩ | ⟨state, hstate, hfresh, -, -, hpublished⟩
    · simp only [RootSystem.step, he]
      exact .refl hruled
    · refine leavesReplay_published hpublished hleaves
        (hruled.grows rfl (h.root.createRelation hstate hfresh).2.metadata) fun r hr => ?_
      refine ⟨_, ?_, hr.created hstate rfl rfl⟩
      simp only [Replayed.catalogChange, hstate]
  | installRule rule source settled persisted =>
    simp only [RootSystem.step] at hleaves ⊢
    rcases hresult : s.kernel.installRule rule source settled persisted with _ | result
    · exact .refl hruled
    rw [hresult, elim_some] at hleaves
    rw [elim_some]
    rcases s.kernel.installRule_cases rule source settled persisted hresult with
      ⟨e, rfl⟩ | ⟨definition, rfl, -, -, hvalid, hactive, hpublished⟩
    · exact .refl hruled
    · refine leavesReplay_published hpublished hleaves (hruled.install hvalid hactive rfl rfl)
        fun r hr => ⟨{ r with rules := r.rules ++ [definition] }, ?_, ?_, hr.relations⟩
      · have hknown : ∀ id state, s.kernel.root.facts.relations.get? id = some state →
            ∃ state', r.relations.get? id = some state' ∧ state'.metadata = state.metadata := by
          intro id state hstate
          obtain ⟨p, hp, hmirrors⟩ := hr.of_live hstate
          exact ⟨p, hp, hmirrors.metadata⟩
        simp only [Replayed.catalogChange, validateRule_grows hknown hvalid, hr.rules, hactive]
      · dsimp only [RelationKernel.catalogRoot]
        rw [hr.rules]
  | disableRule ruleId settled persisted =>
    rcases s.kernel.disableRule_cases ruleId settled persisted with
      ⟨e, he⟩ | ⟨rules, hrules, hactive, hpublished⟩
    · simp only [RootSystem.step, he]
      exact .refl hruled
    · refine leavesReplay_published hpublished hleaves (hruled.disable hrules hactive rfl)
        fun r hr => ⟨{ r with rules := rules }, ?_, rfl, hr.relations⟩
      simp only [Replayed.catalogChange, hr.rules, hrules]
  | begin => exact ⟨hruled, fun _ hreplays => hreplays⟩
  | act i action => exact ⟨hruled, fun _ hreplays => hreplays⟩
  | commit i settled supply persisted =>
    simp only [RootSystem.step]
    rcases htx : s.transactions[i]? with _ | tx
    · exact .refl hruled
    have hcommit := h.leavesReplay_commit htidy hruled (mem_of_getElem? htx) settled
      (supply.atLeast s.floor) persisted
    exact ⟨hcommit.ruled, hcommit.replays⟩

/-- **Every run leaves a log that replays**, staged commits of forks included. -/
theorem Runs.leavesReplay (h : Runs s t) : s.Sound → s.root.Tidy → s.root.Ruled →
    LeavesReplay s t := by
  induction h with
  | refl s => exact fun _ _ hruled => .refl hruled
  | @step s t hruns action ih =>
    intro hs htidy hruled
    have ht := ih hs htidy hruled
    have hleaves := hruns.leaves hs htidy
    have hstep := (hruns.progress hs).sound.leavesReplay_step hleaves.tidy ht.ruled action
    exact ⟨hstep.ruled, fun hlog hreplays => hstep.replays (hleaves.logged hlog)
      (ht.replays hlog hreplays)⟩
  | @staged s t u f hruns hfork hlater settled persisted ih ihfork ihlater =>
    intro hs htidy hruled
    have hleaves := hruns.leaves hs htidy
    have ht := ih hs htidy hruled
    have htp := hruns.progress hs
    have hf := ihfork htp.sound.fork hleaves.tidy ht.ruled
    have hu := ihlater htp.sound hleaves.tidy ht.ruled
    have hfp := hfork.progress htp.sound.fork
    have hup := hlater.progress htp.sound
    have hall : s.kernel.Logged → s.kernel.Replays → u.kernel.Replays := fun hlog hreplays =>
      hu.replays (hleaves.logged hlog) (ht.replays hlog hreplays)
    have hend := ((hruns.staged hfork hlater settled persisted).leaves hs htidy).logged
    rcases u.kernel.commitStagedSnapshot_cases t.root.facts.version f.root settled persisted with
      ⟨e, he⟩ | ⟨hversion, bufferChanges, changes, hvalid, hbuffers, hchanges, hpublished⟩
    · unfold commitStaged
      rw [he]
      exact ⟨hu.ruled, hall⟩
    · have hroot : u.kernel.root = t.root := hup.grows.eq hversion
      rcases Progress.commitStaged htp.sound hfp hup settled persisted with
        ⟨e, he⟩ | ⟨-, -, kernel, commit, hresult, hexact⟩
      · obtain ⟨persistent, -, hok⟩ := hpublished
        cases (congrArg Prod.snd he).symm.trans (congrArg Prod.snd hok)
      · obtain ⟨persistent, -, hok⟩ := id hpublished
        obtain ⟨rfl, hcommit⟩ := Prod.mk.inj (hresult.symm.trans hok)
        obtain rfl := Except.ok.inj hcommit
        refine ⟨?_, fun hlog hreplays => (hall hlog hreplays).published hpublished (hend hlog)
          fun r hr => ?_⟩
        · unfold commitStaged
          rw [hok]
          exact hf.ruled.grows rfl fun id state hstate => ⟨state, hstate, rfl⟩
        · have hr' : r.Mirrors t.root := hroot ▸ hr
          obtain ⟨r₁, hr₁, hprepared⟩ := hr'.stagedCatalog hfp.grows hfp.sound.root.stored
            hfp.sound.root.ruleIds hf.ruled.valid hf.ruled.active
          have hnet : NetChanges t.root.facts.Holds f.root.facts.Holds changes := by
            have hnet := hexact.changes
            rwa [show u.root = t.root from hroot] at hnet
          have harity : ∀ relation tuple, t.root.facts.Holds relation tuple →
              ∀ l, f.root.facts.relations.get? relation = some l →
                tuple.length = l.metadata.arity := by
            rintro relation tuple ⟨old, hold, htuple⟩ l hl
            obtain ⟨l', hl', hmeta⟩ := hfp.grows.metadata relation old hold
            obtain rfl := some.inj (hl.symm.trans hl')
            rw [hmeta]
            exact (RelationMetadata.validateTuple_eq_ok.mp
              ((htp.sound.root.stored relation old hold).1.validateTuple tuple htuple)).1
          have hdurable : ∀ relation, RelationKernel.isDurable
              (RelationKernel.stagedRoot u.kernel.root f.root changes).facts relation =
                RelationKernel.isDurable f.root.facts relation := fun _ => rfl
          obtain ⟨r₂, hr₂, hrules, -, hmirrors⟩ :=
            Replayed.replay_facts hnet hfp.sound.root.stored harity
            hdurable hprepared.relations
          refine ⟨r₁, r₂, ?_, hr₂, hrules.trans hprepared.rules, hmirrors⟩
          dsimp only [RelationKernel.stagedCommit]
          rwa [hroot]

theorem ruled_start : (start : RootSystem M).root.Ruled := by
  refine ⟨nofun, ?_⟩
  change validateActive [] = .ok ()
  decide

/-- **The rules of a kernel stay valid**: whatever it goes through, every rule fits the relations,
no two rules have one id, and the active ones have no cycle through a negation. -/
theorem rules_stay_valid (h : Runs start s) :
    (∀ rule ∈ s.root.facts.rules,
      validateRuleAgainstRelations s.root.facts.relations rule.rule = .ok ()) ∧
    RuleSet.validateStratified ⟨activeRules s.root.facts.rules⟩ = .ok () ∧
    (s.root.facts.rules.map RuleDefinition.id).Nodup := by
  have hruled := (h.leavesReplay sound_start tidy_start ruled_start).ruled
  refine ⟨hruled.valid, ?_, (h.progress sound_start).sound.root.ruleIds⟩
  have hactive := hruled.active
  unfold validateActive at hactive
  split at hactive
  · cases hactive
  · assumption

/-- A kernel with two relations and a rule from one to the other, on itself. -/
def oneRule : RootSystem Entries :=
  [RootAction.createRelation (.new (.ofByte 1) ⟨0⟩ 1) (.ok ()),
    .createRelation (.new (.ofByte 2) ⟨1⟩ 1) (.ok ()),
    .installRule ⟨.ofByte 2, [.var ⟨2⟩], [.atom ⟨.ofByte 1, [.var ⟨2⟩], false⟩,
      .atom ⟨.ofByte 2, [.var ⟨2⟩], false⟩]⟩ "" (.ok ()) (.ok ())].foldl step start

theorem rules_stay_valid_oneRule : oneRule.root.facts.rules.length = 1 ∧
    RuleSet.validateStratified ⟨activeRules oneRule.root.facts.rules⟩ = .ok () :=
  ⟨by decide +kernel, (rules_stay_valid ((Runs.refl _).foldl _)).2.1⟩

end RootSystem

end Replay

end Mica
