import Mica.Kernel.AccessPaths

/-!
# Kernel/RelationRead — what reads relations

Dispatch, delegation and rules read relations through `RelationRead`: a scan returns the rows that
match, a visit shows them one after another until the visitor stops.  `Shows` is what a reader has to
keep for the code above it: both give the rows of the relation that match, in an order of their own.
The reader over relation states keeps it where the indexes are faithful.
-/

namespace Mica

/-- `RelationRead`, as far as every reader has it. -/
structure RelationReader where
  scanRelation : RelationId → Bindings → Except KernelError (List Tuple)
  visitRelation : ∀ {σ : Type}, RelationId → Bindings →
    (Tuple → σ → Except KernelError (ScanControl × σ)) → σ → Except KernelError σ

/-- **The reader gives exactly the rows that match.** -/
structure RelationReader.Shows (reader : RelationReader) (relation : RelationId)
    (rows : Tuple → Prop) (bindings : Bindings) : Prop where
  scan : ∃ out, reader.scanRelation relation bindings = .ok out ∧
    ∀ t, t ∈ out ↔ rows t ∧ t.matchesBindings bindings = true
  visit : ∃ out, (∀ t, t ∈ out ↔ rows t ∧ t.matchesBindings bindings = true) ∧
    ∀ (σ : Type) (visitor : Tuple → σ → Except KernelError (ScanControl × σ)) (s : σ),
      reader.visitRelation relation bindings visitor s =
        (visitRows (fun _ => true) visitor out s).map Prod.snd

section States

variable {M : Type → Type} [ByteMap M]

/-- The reader over the relations of a snapshot. -/
def extensionalReader (relations : RelationId → Option (RelationState M)) : RelationReader where
  scanRelation relation bindings :=
    match relations relation with
    | none => .error (.unknownRelation relation)
    | some state => state.scan bindings
  visitRelation relation bindings visitor s :=
    match relations relation with
    | none => .error (.unknownRelation relation)
    | some state => state.visit bindings visitor s

theorem extensionalReader_shows {relations : RelationId → Option (RelationState M)}
    {relation : RelationId} {state : RelationState M} (hstate : relations relation = some state)
    (hvalid : state.Valid) (hfaithful : state.metadata.FaithfulIndexes) {bindings : Bindings}
    (hlen : bindings.length = state.metadata.arity) :
    (extensionalReader relations).Shows relation (· ∈ state.rows) bindings where
  scan := by
    obtain ⟨out, hscan, -, hmem⟩ := (hvalid.agrees hfaithful).scan bindings hlen
    refine ⟨out, ?_, hmem⟩
    simp only [extensionalReader, hstate, hscan]
  visit := by
    obtain ⟨out, hlists, hvisit⟩ := RelationState.visit_spec hvalid hfaithful hlen
    refine ⟨out, hlists.2, fun σ visitor s => ?_⟩
    simp only [extensionalReader, hstate, hvisit]

end States

end Mica
