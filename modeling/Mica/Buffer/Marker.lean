import Mica.Buffer.Provenance
import Mica.Lib.SpanMarker

/-!
# Buffer/Marker — a marker behind a delta

A marker stands between two characters.  `Delta::rebase_marker` walks over the replacements with two
running totals and leaves the loop at the first one that is behind the marker; no replacement
touches the one before it, so that no insertion at the marker is missed (`rebaseFrom_eq`).
`markers_follow_edits` compares where the marker goes with the text that `Delta::apply` gives.
-/

open SpanEdit

namespace Mica

/-- `InsertionAffinity`. -/
inductive InsertionAffinity where
  | before
  | after
  deriving DecidableEq

/-- Insertions at the marker push it. -/
def InsertionAffinity.pushed : InsertionAffinity → Bool
  | .before => false
  | .after => true

namespace Delta

variable {base view : Text} {d : Delta} {r : Replacement} {rs : List Replacement}
  {low n position removed inserted : ℕ} {affinity : InsertionAffinity} {supply : Supply}

/-- `usize::checked_add`. -/
def checkedAdd (a b : ℕ) : Except DeltaError ℕ :=
  if a + b < 2 ^ 64 then .ok (a + b) else .error .invalidRange

theorem checkedAdd_of_lt {a b : ℕ} (h : a + b < 2 ^ 64) : checkedAdd a b = .ok (a + b) := if_pos h

/-- The loop of `Delta::rebase_marker`, with the totals of what the replacements before have removed
and inserted. -/
def rebaseFrom (position : ℕ) (affinity : InsertionAffinity) :
    List Replacement → ℕ → ℕ → Except DeltaError ℕ
  | [], removed, inserted => checkedAdd (position - removed) inserted
  | r :: rest, removed, inserted =>
    if r.stop ≤ r.start then
      if r.start < position ∨ (r.start = position ∧ affinity = .after) then
        match checkedAdd inserted r.text.length with
        | .error e => .error e
        | .ok inserted => rebaseFrom position affinity rest removed inserted
      else rebaseFrom position affinity rest removed inserted
    -- the `break`
    else if position ≤ r.start then checkedAdd (position - removed) inserted
    else if position < r.stop then checkedAdd (r.start - removed) inserted
    else
      match checkedAdd inserted r.text.length with
      | .error e => .error e
      | .ok inserted =>
        rebaseFrom position affinity rest (removed + (r.stop - r.start)) inserted

/-- `Delta::rebase_marker`. -/
def rebaseMarker (d : Delta) (position : ℕ) (affinity : InsertionAffinity) : Except DeltaError ℕ :=
  rebaseFrom position affinity d.replacements 0 0

/-! ## The loop -/

/-- Insertions that are behind the marker do nothing. -/
theorem rebaseFrom_of_behind (h : ∀ r ∈ rs, r.start ≤ r.stop ∧ position < r.start) :
    rebaseFrom position affinity rs removed inserted = checkedAdd (position - removed) inserted := by
  induction rs with
  | nil => rfl
  | cons r rs ih =>
    obtain ⟨hle, hlt⟩ := h r List.mem_cons_self
    rw [rebaseFrom]
    split
    · rw [if_neg (by omega)]
      exact ih fun s hs => h s (List.mem_cons_of_mem r hs)
    · rw [if_pos hlt.le]

/-- A marker that a span leaves before it. -/
theorem rebaseFrom_of_stays (hrest : Spaced n (r.stop + 1) rs) (hle : r.start ≤ r.stop)
    (hstays : Stays affinity.pushed r position) :
    rebaseFrom position affinity (r :: rs) removed inserted =
      checkedAdd (position - removed) inserted := by
  have hposition := le_start_of_stays hstays
  rw [rebaseFrom]
  by_cases hempty : r.stop ≤ r.start
  · have hnot : ¬ (r.start < position ∨ (r.start = position ∧ affinity = .after)) := by
      rintro (hlt | ⟨heq, rfl⟩)
      · omega
      · rcases hstays with hlt | ⟨-, hpush⟩
        · omega
        · exact hpush ⟨by omega, rfl⟩
    rw [if_pos hempty, if_neg hnot]
    refine rebaseFrom_of_behind fun s hs => ⟨(hrest.le_stop s hs).1, ?_⟩
    have := hrest.le_start s hs
    omega
  · rw [if_neg hempty, if_pos hposition]

/-- A marker that is behind a span takes its totals along. -/
theorem rebaseFrom_of_not_stays (hle : r.start ≤ r.stop) (hnot : ¬ Stays affinity.pushed r position)
    (hbehind : r.stop ≤ position) (hsum : inserted + r.text.length < 2 ^ 64) :
    rebaseFrom position affinity (r :: rs) removed inserted =
      rebaseFrom position affinity rs (removed + (r.stop - r.start)) (inserted + r.text.length) := by
  rw [rebaseFrom]
  by_cases hempty : r.stop ≤ r.start
  · have hcounts : r.start < position ∨ (r.start = position ∧ affinity = .after) := by
      rcases Nat.eq_or_lt_of_le (hle.trans hbehind) with heq | hlt
      · refine .inr ⟨heq, ?_⟩
        by_contra hbefore
        refine hnot (.inr ⟨heq.symm, fun hpush => ?_⟩)
        cases affinity with
        | before => exact nomatch hpush.2
        | after => exact hbefore rfl
      · exact .inl hlt
    rw [if_pos hempty, if_pos hcounts, checkedAdd_of_lt hsum, Nat.sub_eq_zero_of_le hempty,
      Nat.add_zero]
  · rw [if_neg hempty, if_neg (by omega), if_neg (by omega), checkedAdd_of_lt hsum]

/-- **The loop computes where the marker goes.**  What has been removed is from before the replacements
that are left. -/
theorem rebaseFrom_eq (h : Spaced n low rs) (hlow : low ≤ position) (hremoved : removed ≤ low)
    (hsum : low - removed + inserted + land affinity.pushed low rs position < 2 ^ 64) :
    rebaseFrom position affinity rs removed inserted =
      .ok (low - removed + inserted + land affinity.pushed low rs position) := by
  induction rs generalizing low removed inserted with
  | nil =>
    rw [land] at hsum ⊢
    rw [rebaseFrom, checkedAdd_of_lt (by omega)]
    congr 1
    omega
  | cons r rs ih =>
    obtain ⟨hstart, hle, hstop, hrest⟩ := h
    rcases stays_or affinity.pushed r position with hstays | ⟨hin, hin'⟩ | ⟨hnot, hbehind⟩
    · rw [land_of_stays hstays] at hsum ⊢
      rw [rebaseFrom_of_stays hrest hle hstays, checkedAdd_of_lt (by omega)]
      congr 1
      omega
    · rw [land_of_inside hin hin'] at hsum ⊢
      rw [rebaseFrom, if_neg (by omega), if_neg (by omega), if_pos hin', checkedAdd_of_lt (by omega)]
      congr 1
      omega
    · rw [land_of_behind hnot hbehind] at hsum ⊢
      rw [rebaseFrom_of_not_stays hle hnot hbehind (by omega),
        ih (hrest.mono (Nat.le_succ _)) hbehind (by omega) (by omega)]
      congr 1
      omega

/-! ## Deltas for a text -/

/-- The deltas that `Delta::new` and `Delta::between` produce for a text: of those that are checked,
the ones with all ranges in the text. -/
inductive MadeFor (base : Text) : Delta → Prop
  | new {rs : List Replacement} {d : Delta} (h : Delta.new rs = .ok d)
      (hrange : ∀ r ∈ d.replacements, r.stop ≤ base.len) : MadeFor base d
  | between {view : Text} {budget budget' : DeltaBudget} {d : Delta}
      (h : Delta.between base view budget = .ok (d, budget')) : MadeFor base d

theorem MadeFor.spaced (h : MadeFor base d) : Spaced base.len 0 d.replacements := by
  cases h with
  | new h hrange =>
    have hapart := (Built.new h).apart
    exact spaced_of_pairwise hapart.ordered hrange hapart.apart fun r _ => Nat.zero_le r.start
  | between h => exact (between_spec h).spaced

/-- What applying such a delta gives, character by character. -/
theorem MadeFor.tokens (h : MadeFor base d) (happly : d.apply base supply = .ok view)
    (hsupply : base.bound ≤ supply.chunk) :
    base.tokens view = renderFrom base.len 0 d.replacements ∧ base.Shows view := by
  obtain ⟨htokens, -, hshows⟩ := applyAll_spec base hsupply happly
  refine ⟨?_, hshows base.shows_self⟩
  rw [htokens, Text.tokens_self, spliceAll_eq_renderFrom h.spaced (Nat.zero_le _), keptRange,
    Nat.sub_self]
  exact List.nil_append _

/-- Where a marker goes. -/
theorem MadeFor.rebaseMarker_eq (h : MadeFor base d) (happly : d.apply base supply = .ok view)
    (hsupply : base.bound ≤ supply.chunk) (hlen : view.len < 2 ^ 64) (affinity : InsertionAffinity)
    (hposition : position ≤ base.len) :
    d.rebaseMarker position affinity = .ok (land affinity.pushed 0 d.replacements position) ∧
      land affinity.pushed 0 d.replacements position ≤ view.len := by
  have hbound : land affinity.pushed 0 d.replacements position ≤
      (renderFrom base.len 0 d.replacements).length :=
    land_le_length h.spaced (Nat.zero_le _) hposition
  rw [← (h.tokens happly hsupply).1, Text.length_tokens] at hbound
  have hloop : rebaseFrom position affinity d.replacements 0 0 =
      .ok (0 - 0 + 0 + land affinity.pushed 0 d.replacements position) :=
    rebaseFrom_eq h.spaced (Nat.zero_le position) le_rfl (by omega)
  rw [Nat.sub_self, Nat.add_zero, Nat.zero_add] at hloop
  exact ⟨hloop, hbound⟩

/-- A character of the base that stands at a position of a view. -/
def KeptAt (base view : Text) (i k : ℕ) : Prop :=
  (base.tokens view)[k]? = some (.kept i) ∧ view.toText[k]? = base.toText[i]?

theorem keptAt_of_tokens {i k : ℕ} (hshows : base.Shows view) (hi : i < base.len)
    (h : (base.tokens view)[k]? = some (.kept i)) : KeptAt base view i k := by
  refine ⟨h, ?_⟩
  have hlen : i < base.toText.length := by rwa [base.length_toText]
  rw [hshows, List.getElem?_map, h, Option.map_some, List.getElem?_eq_getElem hlen]
  simp [Text.value, Token.value, hlen]

/-- **Markers follow edits.**  A delta that was made for a text can be applied to it, and behind it
every marker is in the new text; markers keep their order; one with affinity `after` stays in front
of its character, and one with affinity `before` behind it, if the character is kept; a marker
inside a replaced range goes to the front of the new text of the range; and the affinity only
matters at an insertion. -/
theorem markers_follow_edits (h : MadeFor base d) (hsupply : base.bound ≤ supply.chunk) :
    ∃ view, d.apply base supply = .ok view ∧ (view.len < 2 ^ 64 →
      (∀ affinity, ∀ p ≤ base.len, ∃ q ≤ view.len, d.rebaseMarker p affinity = .ok q) ∧
      (∀ affinity p p' q q', p ≤ p' → p' ≤ base.len → d.rebaseMarker p affinity = .ok q →
        d.rebaseMarker p' affinity = .ok q' → q ≤ q') ∧
      (∀ p < base.len, Free d.replacements p →
        ∃ q, d.rebaseMarker p .after = .ok q ∧ KeptAt base view p q) ∧
      (∀ p < base.len, Free d.replacements p →
        ∃ q, d.rebaseMarker (p + 1) .before = .ok (q + 1) ∧ KeptAt base view p q) ∧
      (∀ affinity, ∀ r ∈ d.replacements, ∀ p, r.start < p → p < r.stop →
        ∃ q X Y, d.rebaseMarker p affinity = .ok q ∧ X.length = q ∧
          base.tokens view = X ++ r.text.map .fresh ++ Y ∧
          (∀ i, .kept i ∈ X → i < r.start) ∧ ∀ i, .kept i ∈ Y → r.stop ≤ i) ∧
      ∀ p ≤ base.len, (∀ r ∈ d.replacements, r.start = r.stop → r.start ≠ p) →
        d.rebaseMarker p .after = d.rebaseMarker p .before) := by
  obtain ⟨view, happly, -⟩ := exists_applyAll supply (Nat.zero_le _) h.spaced
  refine ⟨view, happly, fun hlen => ?_⟩
  obtain ⟨htokens, hshows⟩ := h.tokens happly hsupply
  have hmarker := fun affinity p (hp : p ≤ base.len) =>
    h.rebaseMarker_eq happly hsupply hlen affinity hp
  refine ⟨fun affinity p hp => ?_, fun affinity p p' q q' hle hp' hq hq' => ?_, fun p hp hfree => ?_,
    fun p hp hfree => ?_, fun affinity r hr p hstart hstop => ?_, fun p hp hnone => ?_⟩
  · obtain ⟨hok, hbound⟩ := hmarker affinity p hp
    exact ⟨_, hbound, hok⟩
  · rw [(hmarker affinity p (hle.trans hp')).1] at hq
    rw [(hmarker affinity p' hp').1] at hq'
    rw [← Except.ok.inj hq, ← Except.ok.inj hq']
    exact land_mono h.spaced (Nat.zero_le _) hle
  · refine ⟨_, (hmarker .after p hp.le).1, keptAt_of_tokens hshows hp ?_⟩
    rw [htokens]
    exact land_after h.spaced (Nat.zero_le _) hp hfree
  · obtain ⟨k, hk, hget⟩ := land_before h.spaced (Nat.zero_le _) hp hfree
    refine ⟨k, ?_, keptAt_of_tokens hshows hp ?_⟩
    · rw [(hmarker .before (p + 1) hp).1]
      exact congrArg Except.ok hk
    · rwa [htokens]
  · have hrange := (h.spaced.le_stop r hr).2
    obtain ⟨X, Y, heq, hX, hbefore, hbehind⟩ : ∃ X Y, renderFrom base.len 0 d.replacements =
        X ++ r.text.map .fresh ++ Y ∧ X.length = land affinity.pushed 0 d.replacements p ∧
        (∀ i, .kept i ∈ X → i < r.start) ∧ ∀ i, .kept i ∈ Y → r.stop ≤ i :=
      land_inside h.spaced hr hstart hstop
    exact ⟨_, X, Y, (hmarker affinity p (by omega)).1, hX, htokens.trans heq, hbefore, hbehind⟩
  · rw [(hmarker .after p hp).1, (hmarker .before p hp).1]
    exact congrArg Except.ok (land_sides hnone)

/-- Two of three characters are replaced by one. -/
theorem markers_follow_edits_replacement :
    ∃ view, (⟨[⟨1, 3, ['x']⟩]⟩ : Delta).apply (Text.fromText ['a', 'b', 'c'] ⟨1, 0⟩)
      ⟨2, 1⟩ = .ok view ∧
      view.toText = ['a', 'x'] ∧
      ∃ q ≤ view.len, (⟨[⟨1, 3, ['x']⟩]⟩ : Delta).rebaseMarker 2 .after = .ok q := by
  have hmade : MadeFor (Text.fromText ['a', 'b', 'c'] ⟨1, 0⟩) ⟨[⟨1, 3, ['x']⟩]⟩ :=
    .new (show Delta.new [⟨1, 3, ['x']⟩] = .ok ⟨[⟨1, 3, ['x']⟩]⟩ from rfl) (by decide)
  have hsupply : (Text.fromText ['a', 'b', 'c'] ⟨1, 0⟩).bound ≤ (⟨2, 1⟩ : Supply).chunk := by decide
  obtain ⟨view, happly, hall⟩ := markers_follow_edits hmade hsupply
  have htext : view.toText = ['a', 'x'] := (applyAll_spec Text.empty (Nat.zero_le _) happly).2.1
  have hlen : view.len = 2 := by rw [← view.length_toText, htext]; rfl
  exact ⟨view, happly, htext, (hall (by omega)).1 .after 2 (by decide)⟩

end Delta

end Mica
