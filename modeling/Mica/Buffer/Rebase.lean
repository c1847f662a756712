import Mica.Buffer.Epoch
import Mica.Buffer.Exact

/-!
# Buffer/Rebase — what can stop a write that is moved behind others

Two deltas of the same base can be merged unless they conflict (`transformAfter_cases`), and what comes
out can be applied (`exists_apply_transformAfter`).  So a view that was edited from its base is
rebased on another one unless the two conflict or the budget is spent (`Materializing.edited_error`).
-/

open SortedList SpanEdit List

namespace Mica

namespace Delta

variable {d d' other : Delta} {n : ℕ}

/-- A replacement is moved behind a delta. -/
theorem shiftReplacement_eq (h : Spaced n 0 d.replacements) (r : Replacement) :
    shiftReplacement d r = .ok (shifted d.replacements r) := by
  have hstart := removed_le h r.start true
  have hstop := removed_le h r.stop false
  unfold shiftReplacement shift
  rw [if_neg (by omega), if_neg (by omega)]
  rfl

theorem mapM_shiftReplacement_eq (h : Spaced n 0 d.replacements) : ∀ rs : List Replacement,
    rs.mapM (shiftReplacement d) = .ok (rs.map (shifted d.replacements))
  | [] => rfl
  | r :: rs => by
    rw [mapM_cons, shiftReplacement_eq h, mapM_shiftReplacement_eq h rs]
    rfl

/-- Replacements that are in order are accepted. -/
theorem exists_newFrom : ∀ rs normalized : List Replacement,
    (∀ r ∈ rs, r.start ≤ r.stop) → rs.Pairwise (fun r s => r.stop ≤ s.start) →
    (∀ last ∈ normalized.getLast?, ∀ r ∈ rs, last.stop ≤ r.start) →
    ∃ out, newFrom normalized rs = .ok out
  | [], normalized, _, _, _ => ⟨normalized, rfl⟩
  | r :: rs, normalized, hle, horder, hlast => by
    obtain ⟨hfirst, horder'⟩ := pairwise_cons.mp horder
    obtain ⟨hr, hle'⟩ := forall_mem_cons.mp hle
    have hpush : ∃ out, newFrom (normalized ++ [r]) rs = .ok out :=
      exists_newFrom _ _ hle' horder' fun last hmem s hs => by
        rw [getLast?_concat] at hmem
        rw [← Option.some.inj hmem]
        exact hfirst s hs
    unfold newFrom
    rw [if_neg (not_lt.mpr hr)]
    split
    · exact exists_newFrom _ _ hle' horder' fun last hmem s hs =>
        hlast last hmem s (mem_cons_of_mem r hs)
    split
    · exact hpush
    rename_i previous hprevious
    have hbehind := hlast previous hprevious r mem_cons_self
    rw [if_neg (not_lt.mpr hbehind)]
    split
    · refine exists_newFrom _ _ hle' horder' fun last hmem s hs => ?_
      rw [getLast?_concat] at hmem
      rw [← Option.some.inj hmem]
      exact hfirst s hs
    · exact hpush

/-- **Two deltas are merged unless they conflict.** -/
theorem transformAfter_cases (hown : Spaced n 0 d.replacements)
    (hother : Spaced n 0 other.replacements) :
    (d.transformAfter other = .error .conflict ∧ d.conflicts other = true) ∨
      ∃ d', d.transformAfter other = .ok d' := by
  unfold transformAfter
  by_cases hconflicts : d.conflicts other = true
  · exact .inl ⟨if_pos hconflicts, hconflicts⟩
  right
  have hclear := conflictsFrom_spec hown hother (Bool.eq_false_iff.mpr hconflicts)
  rw [if_neg hconflicts, mapM_shiftReplacement_eq hother]
  obtain ⟨out, hout⟩ := exists_newFrom
    (d.replacements.map (shifted other.replacements)) []
    (fun r' hr' => by
      obtain ⟨r, hr, rfl⟩ := mem_map.mp hr'
      exact le_shifted hother (hclear r hr) (hown.le_stop r hr).1)
    (pairwise_map.mpr <| (pairwise_of_spaced hown).imp_of_mem fun {r s} hr _ hlt =>
      shifted_stop_le hother (hclear r hr) (hown.le_stop r hr).1 hlt) nofun
  dsimp only
  unfold new
  rw [hout]
  exact ⟨_, rfl⟩

theorem newFrom_stop_le {bound : ℕ} : ∀ {rs normalized out : List Replacement},
    newFrom normalized rs = .ok out → (∀ r ∈ normalized, r.stop ≤ bound) → (∀ r ∈ rs, r.stop ≤ bound) →
    ∀ r ∈ out, r.stop ≤ bound
  | [], normalized, out, h, hnormalized, _ => by
    rw [newFrom] at h
    exact Except.ok.inj h ▸ hnormalized
  | r :: rs, normalized, out, h, hnormalized, hrs => by
    obtain ⟨hr, hrs'⟩ := forall_mem_cons.mp hrs
    have hpush : ∀ {init : List Replacement} {last : Replacement}, (∀ x ∈ init, x.stop ≤ bound) →
        last.stop ≤ bound → ∀ x ∈ init ++ [last], x.stop ≤ bound := fun hinit hlast =>
      forall_mem_append.mpr ⟨hinit, by simpa using hlast⟩
    rw [newFrom] at h
    split at h
    · cases h
    split at h
    · exact newFrom_stop_le h hnormalized hrs'
    split at h
    · exact newFrom_stop_le h (hpush hnormalized hr) hrs'
    split at h
    · cases h
    split at h
    · refine newFrom_stop_le h (hpush (fun x hx => ?_) hr) hrs'
      exact hnormalized x ((dropLast_sublist normalized).subset hx)
    · exact newFrom_stop_le h (hpush hnormalized hr) hrs'

/-- **What was merged can be applied** to the text that the other delta has made. -/
theorem exists_apply_transformAfter {base view : Text} (hown : Spaced base.len 0 d.replacements)
    (hother : Of base view other) (h : d.transformAfter other = .ok d') (supply : Supply) :
    ∃ text, d'.apply view supply = .ok text := by
  unfold transformAfter at h
  split at h
  · cases h
  rename_i hconflicts
  have hclear := conflictsFrom_spec hown hother.spaced (Bool.eq_false_iff.mpr hconflicts)
  rw [mapM_shiftReplacement_eq hother.spaced] at h
  dsimp only at h
  unfold new at h
  split at h
  · cases h
  rename_i out hout
  obtain rfl := Except.ok.inj h
  have hlen : (renderFrom base.len 0 other.replacements).length = view.len := by
    rw [hother.render, Text.length_tokens]
  have hstop : ∀ r ∈ d.replacements.map (shifted other.replacements), r.stop ≤ view.len := by
    intro r' hr'
    obtain ⟨r, hr, rfl⟩ := mem_map.mp hr'
    obtain ⟨hle, hin⟩ := hown.le_stop r hr
    have hmoved := shift_le hother.spaced (Nat.zero_le r.stop) hin false fun s hs =>
      ((hclear r hr s hs).outside hle (hother.spaced.le_stop s hs).1).2
    have := removed_le hother.spaced r.stop false
    rw [hlen] at hmoved
    unfold shifted
    dsimp only
    omega
  have hapart := apart_newFrom Apart.nil hout
  have hspaced : Spaced view.len 0 out :=
    spaced_of_pairwise hapart.ordered (newFrom_stop_le hout nofun hstop) hapart.apart fun _ _ =>
      Nat.zero_le _
  obtain ⟨text, htext, -⟩ := exists_applyAll supply (Nat.zero_le _) hspaced
  exact ⟨text, htext⟩

end Delta

/-- What a delta makes of a view is edited from what the view was. -/
theorem Text.Edited.applyAll {base view : Text} {supply : Supply} (hsupply : base.bound ≤ supply.chunk)
    (hview : base.Edited view) : ∀ {rs : List Replacement} {view' : Text},
      Delta.applyAll supply view rs = .ok view' → base.Edited view'
  | [], _, h => Except.ok.inj h ▸ hview
  | r :: rs, _, h => by
    unfold Delta.applyAll at h
    split at h
    · cases h
    rename_i hrest
    split at h
    · cases h
    rename_i hreplace
    obtain rfl := Except.ok.inj h
    exact (hview.applyAll hsupply hrest).replace hreplace hsupply

/-! ## Writes -/

namespace Materializing

variable {s : Materializing} {id : Identity} {pending : PendingBuffer} {supply : Supply}
  {base latest : BufferState}

/-- Two views that were edited from one base, with edits that conflict. -/
def Conflicting (base view other : Text) : Prop :=
  ∃ own concurrent, Delta.Of base view own ∧ Delta.Of base other concurrent ∧
    own.conflicts concurrent = true

/-- **Only a conflict of the edits or the budget stops a rebase.** -/
theorem rebased_error (hview : base.text.Edited pending.text) (hlatest : base.text.Edited latest.text)
    {e : KernelError} (h : s.rebased supply id pending base latest = .error e) :
    e = .buffer id (.delta .budgetExceeded) ∨
      (e = .buffer id (.conflict base.revision latest.revision) ∧
        Conflicting base.text pending.text latest.text) := by
  unfold rebased at h
  rcases Delta.between_cases hview s.budget with ⟨hown, -⟩ | ⟨own, budget, hown⟩
  · rw [hown] at h
    exact .inl (Except.error.inj h).symm
  rw [hown] at h
  dsimp only at h
  rcases Delta.between_cases hlatest budget with ⟨hconcurrent, -⟩ | ⟨concurrent, rest, hconcurrent⟩
  · rw [hconcurrent] at h
    exact .inl (Except.error.inj h).symm
  rw [hconcurrent] at h
  dsimp only at h
  have hof := Delta.between_spec hown
  have hof' := Delta.between_spec hconcurrent
  rcases Delta.transformAfter_cases hof.spaced hof'.spaced with ⟨hmerge, hconflicts⟩ | ⟨d, hmerge⟩
  · rw [hmerge] at h
    exact .inr ⟨(Except.error.inj h).symm, own, concurrent, hof, hof', hconflicts⟩
  obtain ⟨text, htext⟩ := Delta.exists_apply_transformAfter hof.spaced hof' hmerge
    (supply.above base.text)
  rw [hmerge] at h
  dsimp only at h
  rw [htext] at h
  cases h

theorem complete_error {base view : Text} (hview : base.Edited view) {e : DeltaError}
    (h : Delta.complete base view = .error e) : e = .budgetExceeded := by
  unfold Delta.complete at h
  rcases Delta.between_cases hview .unbounded with ⟨hown, -⟩ | ⟨own, budget, hown⟩
  · rw [hown] at h
    exact (Except.error.inj h).symm
  · rw [hown] at h
    cases h

/-- What may stop a write that only edits, from a base that is not deleted and has kept its epoch: the
budget, or another edit since, where the policy does not let both stand. -/
theorem edited_error (hkept : pending.deleted = false) (hcompact : pending.compact = false)
    (hreverted : pending.reverted = false) (hlatest : s.states.get? id = some latest)
    (hepoch : latest.structureEpoch = base.structureEpoch) (hdeleted : latest.deleted = false)
    (hview : base.text.Edited pending.text)
    (hspan : pending.metadata.conflict = .span → base.text.Edited latest.text) {e : KernelError}
    (h : s.edited supply id pending base = .error e) :
    e = .buffer id (.delta .budgetExceeded) ∨
      (e = .buffer id (.conflict base.revision latest.revision) ∧ latest.revision ≠ base.revision ∧
        (pending.metadata.conflict = .reject ∨
          pending.metadata.conflict = .span ∧ Conflicting base.text pending.text latest.text)) := by
  unfold edited at h
  rw [hlatest] at h
  dsimp only at h
  rw [if_neg (not_not.mpr hepoch), hdeleted, hkept, hcompact, hreverted] at h
  simp only [Bool.false_or, Bool.false_eq_true, if_false] at h
  split at h
  · next hrejected =>
    rw [Bool.and_eq_true, bne_iff_ne, decide_eq_true_eq] at hrejected
    exact .inr ⟨(Except.error.inj h).symm, hrejected.1, .inl hrejected.2⟩
  split at h
  · split at h
    · next hcomplete =>
      rw [complete_error hview hcomplete] at h
      exact .inl (Except.error.inj h).symm
    · cases h
  rename_i hmoved
  split at h
  · obtain ⟨out, hout⟩ := Delta.exists_newFrom [⟨0, latest.text.len, pending.text.toText⟩] []
      (forall_mem_singleton.mpr (Nat.zero_le _)) (pairwise_singleton _ _) nofun
    unfold Delta.new at h
    rw [hout] at h
    cases h
  rename_i hrejected hwhole
  rw [Bool.and_eq_true, bne_iff_ne, decide_eq_true_eq, not_and] at hrejected
  have hpolicy : pending.metadata.conflict = .span := by
    cases hconflict : pending.metadata.conflict with
    | reject => exact absurd hconflict (hrejected hmoved)
    | span => rfl
    | whole => exact absurd hconflict hwhole
  rcases rebased_error hview (hspan hpolicy) h with hbudget | ⟨hconflict, hboth⟩
  · exact .inl hbudget
  · exact .inr ⟨hconflict, hmoved, .inr ⟨hpolicy, hboth⟩⟩

end Materializing

end Mica
