import Mica.Kernel.RelationRead
import Mica.Lib.Search

/-!
# Kernel/Delegation — the closure of the delegation edges

`Delegates` has a row for each edge from a child to a prototype.  `delegates_star_from` collects what
a child delegates to, at once or through further prototypes; `delegates_reaches` asks for one of them
and stops when it has found it.  Both mark prototypes when they put them on the stack, so both are a
marking search (`Search.Marking`), and both end, on every graph.
-/

open Relation SortedList Search

namespace Mica

/-! ## The code -/

/-- The prototypes that are marked, and those on the stack; the top comes first. -/
abbrev Frontier := SortedSet Value × List Value

/-- A prototype is marked and pushed once.  Rows have three columns, so none lacks the second. -/
def visitEdge (frontier : Frontier) (edge : Tuple) : Frontier :=
  match edge[1]? with
  | some proto => mark frontier proto
  | none => frontier

/-- The loop of `delegates_star_from`; `none` when the fuel runs out. -/
def delegatesStarLoop (reader : RelationReader) (delegates : RelationId) :
    ℕ → Frontier → Option (Except KernelError (SortedSet Value))
  | _, (seen, []) => some (.ok seen)
  | 0, (_, _ :: _) => none
  | n + 1, (seen, current :: stack) =>
    match reader.scanRelation delegates [some current, none, none] with
    | .error e => some (.error e)
    | .ok edges => delegatesStarLoop reader delegates n (edges.foldl visitEdge (seen, stack))

/-- `delegates_star_from`. -/
def delegatesStarFrom (n : ℕ) (reader : RelationReader) (delegates : RelationId) (child : Value) :
    Option (Except KernelError (SortedSet Value)) :=
  delegatesStarLoop reader delegates n (SortedSet.empty, [child])

/-- The visitor of `delegates_reaches`, with the flag `found` in its state. -/
def reachesVisitor (ancestor : Value) (edge : Tuple) (s : Bool × Frontier) :
    Except KernelError (ScanControl × (Bool × Frontier)) :=
  if edge[1]? = some ancestor then .ok (.stop, (true, s.2))
  else .ok (.goOn, (s.1, visitEdge s.2 edge))

/-- The loop of `delegates_reaches`; `none` when the fuel runs out. -/
def delegatesReachesLoop (reader : RelationReader) (delegates : RelationId) (ancestor : Value) :
    ℕ → Bool × Frontier → Option (Except KernelError Bool)
  | _, (true, _) => some (.ok true)
  | _, (false, (_, [])) => some (.ok false)
  | 0, (false, (_, _ :: _)) => none
  | n + 1, (false, (seen, current :: stack)) =>
    match reader.visitRelation delegates [some current, none, none] (reachesVisitor ancestor)
      (false, (seen, stack)) with
    | .error e => some (.error e)
    | .ok s => delegatesReachesLoop reader delegates ancestor n s

/-- `delegates_reaches`. -/
def delegatesReaches (n : ℕ) (reader : RelationReader) (delegates : RelationId)
    (child ancestor : Value) : Option (Except KernelError Bool) :=
  delegatesReachesLoop reader delegates ancestor n (false, (SortedSet.empty, [child]))

/-! ## Edges -/

/-- The stored edges. -/
def DelegationEdge (rows : Tuple → Prop) (child proto : Value) : Prop :=
  ∃ t, rows t ∧ t[0]? = some child ∧ t[1]? = some proto

/-- The prototypes that rows name. -/
def prototypes (rows : List Tuple) : List Value := rows.filterMap fun t => t[1]?

theorem mem_prototypes {rows : List Tuple} {proto : Value} :
    proto ∈ prototypes rows ↔ ∃ t ∈ rows, t[1]? = some proto := List.mem_filterMap

theorem foldl_visitEdge : ∀ (edges : List Tuple) (frontier : Frontier),
    edges.foldl visitEdge frontier = (prototypes edges).foldl mark frontier
  | [], _ => rfl
  | edge :: edges, frontier => by
    rw [List.foldl_cons, foldl_visitEdge, prototypes, prototypes, List.filterMap_cons, visitEdge]
    cases edge[1]? with
    | none => rfl
    | some proto => rfl

theorem matchesBindings_child {t : Tuple} {child : Value} :
    t.matchesBindings [some child, none, none] = true ↔ t[0]? = some child := by
  rw [Tuple.matchesBindings_iff]
  refine ⟨fun h => h 0 child rfl, fun h p w hp => ?_⟩
  match p, hp with
  | 0, hp =>
    obtain rfl : child = w := by simpa using hp
    exact h
  | 1, hp => simp at hp
  | 2, hp => simp at hp
  | p + 3, hp => simp at hp

/-- The rows that match a child name the ends of its edges. -/
theorem mem_prototypes_of_matching {rows : Tuple → Prop} {edges : List Tuple} {child : Value}
    (hedges : ∀ t, t ∈ edges ↔ rows t ∧ t.matchesBindings [some child, none, none] = true)
    (proto : Value) : proto ∈ prototypes edges ↔ DelegationEdge rows child proto := by
  simp only [mem_prototypes, hedges, matchesBindings_child, DelegationEdge, and_assoc]

/-! ## The searches -/

section Searches

variable {reader : RelationReader} {delegates : RelationId} {rows : SortedSet Tuple}

/-- The reader gives the rows of each child. -/
def ShowsEdges (reader : RelationReader) (delegates : RelationId) (rows : SortedSet Tuple) : Prop :=
  ∀ child, reader.Shows delegates (· ∈ rows) [some child, none, none]

/-- Every look marks prototypes of the rows, so the looks that are left only go down. -/
theorem looks_visit (seen : SortedSet Value) (child : Value) (stack : List Value)
    {edges : List Tuple} (hedges : ∀ t ∈ edges, t ∈ rows) :
    looks (prototypes rows.list).toFinset (edges.foldl visitEdge (seen, stack)) + 1 =
      looks (prototypes rows.list).toFinset (seen, child :: stack) := by
  rw [foldl_visitEdge, looks_foldl_mark fun proto hproto => ?_]
  · simp only [looks, List.length_cons]
    omega
  · obtain ⟨t, ht, hproto⟩ := mem_prototypes.mp hproto
    exact List.mem_toFinset.mpr (mem_prototypes.mpr ⟨t, hedges t ht, hproto⟩)

/-- **`delegates_star_from` ends, with what lies behind the child.** -/
theorem delegatesStarLoop_spec (hshows : ShowsEdges reader delegates rows) {child : Value} :
    ∀ {n : ℕ} {frontier : Frontier}, Marking (DelegationEdge (· ∈ rows)) child frontier →
      looks (prototypes rows.list).toFinset frontier ≤ n →
        ∃ star, delegatesStarLoop reader delegates n frontier = some (.ok star) ∧
          ∀ proto, proto ∈ star ↔ TransGen (DelegationEdge (· ∈ rows)) child proto
  | n, (seen, []), h, _ => by
    refine ⟨seen, ?_, h.done⟩
    rw [delegatesStarLoop]
  | 0, (seen, current :: stack), _, hlooks => by simp [looks] at hlooks
  | n + 1, (seen, current :: stack), h, hlooks => by
    obtain ⟨edges, hscan, hedges⟩ := (hshows current).scan
    have hnext := h.look (mem_prototypes_of_matching hedges)
    have hless := looks_visit seen current stack fun t ht => ((hedges t).mp ht).1
    rw [← foldl_visitEdge] at hnext
    rw [delegatesStarLoop, hscan]
    exact delegatesStarLoop_spec hshows hnext (by omega)

/-- The visitor finds the ancestor among the rows, or marks them all. -/
theorem visitRows_reaches (ancestor : Value) : ∀ (edges : List Tuple) (frontier : Frontier),
    ∃ control s, visitRows (fun _ => true) (reachesVisitor ancestor) edges (false, frontier) =
        .ok (control, s) ∧
      (ancestor ∈ prototypes edges → s.1 = true) ∧
      (ancestor ∉ prototypes edges → s = (false, edges.foldl visitEdge frontier))
  | [], frontier => ⟨.goOn, (false, frontier), rfl, nofun, fun _ => rfl⟩
  | edge :: edges, frontier => by
    rw [visitRows, if_pos rfl, reachesVisitor]
    by_cases hfound : edge[1]? = some ancestor
    · have hmem : ancestor ∈ prototypes (edge :: edges) :=
        mem_prototypes.mpr ⟨edge, List.mem_cons_self, hfound⟩
      rw [if_pos hfound]
      exact ⟨.stop, (true, frontier), rfl, fun _ => rfl, fun hnot => absurd hmem hnot⟩
    have hmem : ancestor ∈ prototypes (edge :: edges) ↔ ancestor ∈ prototypes edges := by
      simp only [mem_prototypes, List.mem_cons, or_and_right, exists_or, exists_eq_left, hfound,
        false_or]
    obtain ⟨control, s, hvisit, hyes, hno⟩ := visitRows_reaches ancestor edges
      (visitEdge frontier edge)
    rw [if_neg hfound, hmem]
    exact ⟨control, s, hvisit, hyes, hno⟩

/-- **`delegates_reaches` ends, and finds what lies behind the child.** -/
theorem delegatesReachesLoop_spec (hshows : ShowsEdges reader delegates rows)
    {child ancestor : Value} :
    ∀ {n : ℕ} {frontier : Frontier}, Marking (DelegationEdge (· ∈ rows)) child frontier →
      ancestor ∉ frontier.1 → looks (prototypes rows.list).toFinset frontier ≤ n →
        ∃ found, delegatesReachesLoop reader delegates ancestor n (false, frontier) =
            some (.ok found) ∧
          (found = true ↔ TransGen (DelegationEdge (· ∈ rows)) child ancestor)
  | n, (seen, []), h, hnew, _ => by
    refine ⟨false, by rw [delegatesReachesLoop], iff_of_false Bool.false_ne_true fun hreach => ?_⟩
    exact hnew ((h.done ancestor).mpr hreach)
  | 0, (seen, current :: stack), _, _, hlooks => by simp [looks] at hlooks
  | n + 1, (seen, current :: stack), h, hnew, hlooks => by
    obtain ⟨edges, hedges, hvisit⟩ := (hshows current).visit
    have hends := mem_prototypes_of_matching hedges
    obtain ⟨control, s, hrows, hyes, hno⟩ := visitRows_reaches ancestor edges (seen, stack)
    rw [delegatesReachesLoop, hvisit, hrows]
    dsimp only [Except.map]
    by_cases hfound : ancestor ∈ prototypes edges
    · obtain ⟨b, frontier⟩ := s
      obtain rfl : b = true := hyes hfound
      exact ⟨true, by rw [delegatesReachesLoop],
        iff_of_true rfl (h.transGen ((hends ancestor).mp hfound))⟩
    have hnext := h.look hends
    have hless := looks_visit seen current stack fun t ht => ((hedges t).mp ht).1
    have hnew' : ancestor ∉ (edges.foldl visitEdge (seen, stack)).1 := by
      rw [foldl_visitEdge, mem_foldl_mark_seen]
      exact not_or.mpr ⟨hnew, hfound⟩
    rw [← foldl_visitEdge] at hnext
    rw [hno hfound]
    exact delegatesReachesLoop_spec hshows hnext hnew' (by omega)

/-- **Both searches end and agree with the closure of the stored edges.** -/
theorem delegates_searches (hshows : ShowsEdges reader delegates rows) (child ancestor : Value) :
    ∃ fuel star, (∀ n ≥ fuel, delegatesStarFrom n reader delegates child = some (.ok star)) ∧
      (∀ n ≥ fuel, delegatesReaches n reader delegates child ancestor =
        some (.ok (decide (ancestor ∈ star)))) ∧
      ∀ proto, proto ∈ star ↔ TransGen (DelegationEdge (· ∈ rows)) child proto := by
  have hinit := Marking.init (DelegationEdge (· ∈ rows)) child
  obtain ⟨star, -, hstar⟩ := delegatesStarLoop_spec hshows hinit le_rfl
  refine ⟨looks (prototypes rows.list).toFinset (SortedSet.empty, [child]), star, fun n hn => ?_,
    fun n hn => ?_, hstar⟩
  · obtain ⟨star', hloop, hstar'⟩ := delegatesStarLoop_spec hshows hinit hn
    rw [delegatesStarFrom, hloop, SortedSet.ext_mem fun proto => (hstar' proto).trans
      (hstar proto).symm]
  · obtain ⟨found, hloop, hfound⟩ := delegatesReachesLoop_spec hshows hinit
      (SortedSet.notMem_empty ancestor) hn
    have hdecide : found = decide (ancestor ∈ star) := by
      rw [Bool.eq_iff_iff, hfound, ← hstar ancestor, decide_eq_true_iff]
    rw [delegatesReaches, hloop, hdecide]

end Searches

/-! ## The relation the runtime creates -/

/-- `Delegates` as `method_relation_metadata` declares it: three columns and the index `[0, 2, 1]`. -/
def delegatesMetadata (id : RelationId) (name : Symbol) : RelationMetadata :=
  { RelationMetadata.new id name 3 with
    indexes := (RelationMetadata.new id name 3).indexes ++ [⟨[0, 2, 1]⟩] }

theorem delegatesMetadata_faithful (id : RelationId) (name : Symbol) :
    (delegatesMetadata id name).FaithfulIndexes := by
  have hall : ∀ spec ∈ [TupleIndexSpec.allPositions 3, ⟨[0, 2, 1]⟩], spec.Faithful 3 := by decide
  exact hall

section Closure

variable {M : Type → Type} [ByteMap M]

/-- **Delegation closure**: over any contents of `Delegates` both searches end, agree, and find the
transitive closure of the stored edges. -/
theorem delegation_closure_exact (relations : RelationId → Option (RelationState M))
    (delegates : RelationId) (name : Symbol) (state : RelationState M)
    (hstate : relations delegates = some state)
    (hreached : state.Reached (delegatesMetadata delegates name)) (child ancestor : Value) :
    ∃ fuel star,
      (∀ n ≥ fuel, delegatesStarFrom n (extensionalReader relations) delegates child =
        some (.ok star)) ∧
      (∀ n ≥ fuel, delegatesReaches n (extensionalReader relations) delegates child ancestor =
        some (.ok (decide (ancestor ∈ star)))) ∧
      ∀ proto, proto ∈ star ↔ TransGen (DelegationEdge (· ∈ state.rows)) child proto := by
  have hfaithful : state.metadata.FaithfulIndexes :=
    hreached.1.symm ▸ delegatesMetadata_faithful delegates name
  refine delegates_searches (fun child => ?_) child ancestor
  exact extensionalReader_shows hstate hreached.valid hfaithful (by rw [hreached.1]; rfl)

/-- Two prototypes that delegate to each other, and one that delegates to itself. -/
def cyclicDelegates : RelationState Entries :=
  [[.bool false, .bool true, .bool true], [.bool true, .bool false, .bool true],
    [.int ⟨0, intMin_le_zero, zero_le_intMax⟩, .int ⟨0, intMin_le_zero, zero_le_intMax⟩,
      .bool true]].foldl
    (fun state t => (state.insert t).1)
    ⟨delegatesMetadata (.ofByte 30) ⟨1⟩, TupleStore.empty, [TupleIndex.empty ⟨[0, 2, 1]⟩ 3]⟩

theorem delegation_closure_exact_cyclic :
    ∃ fuel star,
      (∀ n ≥ fuel, delegatesStarFrom n (extensionalReader fun _ => some cyclicDelegates)
        ⟨30, by decide⟩ (.bool false) = some (.ok star)) ∧
      (∀ n ≥ fuel, delegatesReaches n (extensionalReader fun _ => some cyclicDelegates)
        ⟨30, by decide⟩ (.bool false) (.bool false) =
          some (.ok (decide (Value.bool false ∈ star)))) ∧
      ∀ proto, proto ∈ star ↔
        TransGen (DelegationEdge (· ∈ cyclicDelegates.rows)) (.bool false) proto := by
  have hempty : RelationState.empty (delegatesMetadata ⟨30, by decide⟩ ⟨1⟩) = .ok
      (⟨delegatesMetadata ⟨30, by decide⟩ ⟨1⟩, TupleStore.empty,
        [TupleIndex.empty ⟨[0, 2, 1]⟩ 3]⟩ : RelationState Entries) := rfl
  exact delegation_closure_exact _ _ ⟨1⟩ cyclicDelegates rfl
    ((((RelationState.reached_empty hempty).insert rfl).insert rfl).insert rfl) _ _

end Closure

end Mica
