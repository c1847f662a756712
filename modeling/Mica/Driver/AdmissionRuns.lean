import Mathlib.Algebra.Ring.Nat
import Mathlib.Data.List.Nodup
import Mica.Driver.Admission

/-!
# Driver/AdmissionRuns — who is admitted, and who is woken

The futures that wait stand in a line of their own (`Sound`), one for each waiter, in the same
order.  A waiter whose wake is due at the front is woken, or its waker has been taken; the only
thing that can break this is a number that two waiters share.

* `admission_fair` — in every run in which no waiter gets the number of one that is still in line, the
  occupied slots are the permits and the reserved workers, futures are admitted in order, parallel work
  leaves a slot and waits for nobody, and no wake is lost.
* `shared_number_overtakes` — numbers wrap around, and then one waiter takes the place of another.
-/

open List Option Function

namespace Mica

namespace World

/-- The entry of a waiting future. -/
def Stands (w : World) (f : ℕ) (e : TaskWaiter) : Prop :=
  w.acquires f = some ⟨some e.id, false⟩ ∧ e.waker = w.lastWaker f

/-- The invariant: `line` are the futures that wait, from the front. -/
structure Sound (capacity : ℕ) (w : World) (line : List ℕ) : Prop where
  occupied : w.state.occupied = w.permits + w.reserved.sum
  parallel : w.parallelOccupied = w.reserved.sum
  le : w.state.occupied ≤ capacity
  stands : List.Forall₂ w.Stands line w.state.waiters
  distinct : (w.state.waiters.map TaskWaiter.id).Nodup
  mem_line : ∀ f id completed, w.acquires f = some ⟨some id, completed⟩ → f ∈ line
  order : (w.admitted ++ line).Sublist w.waited
  nodup : w.waited.Nodup
  fresh : ∀ f, w.acquires f = some ⟨none, false⟩ → f ∉ w.waited
  woken : ∀ f ∈ line.head?, w.state.occupied < capacity → w.woken f ∨ w.lastWaker f ∈ w.wakes

section Steps

variable {capacity f workers : ℕ} {waker : Waker} {w w' : World} {line l l₁ l₂ : List ℕ}
  {ws ws₁ ws₂ : List TaskWaiter} {e : TaskWaiter} {a : Acquire} {id : UInt64}

theorem Sound.nodup_line (h : w.Sound capacity line) : line.Nodup :=
  ((sublist_append_right _ _).trans h.order).nodup h.nodup

/-- Futures that a step leaves alone keep their places. -/
theorem stands_congr (h : List.Forall₂ w.Stands l ws)
    (hsame : ∀ g ∈ l, w'.acquires g = w.acquires g ∧ w'.lastWaker g = w.lastWaker g) :
    List.Forall₂ w'.Stands l ws := by
  induction h with
  | nil => exact .nil
  | cons hfirst _ ih =>
    obtain ⟨hacquire, hwaker⟩ := hsame _ mem_cons_self
    exact .cons ⟨hacquire.trans hfirst.1, hfirst.2.trans hwaker.symm⟩
      (ih fun g hg => hsame g (mem_cons_of_mem _ hg))

theorem forall₂_append_left {α β : Type} {r : α → β → Prop} : ∀ {l₁ l₂ : List α} {us : List β},
    List.Forall₂ r (l₁ ++ l₂) us →
      ∃ us₁ us₂, us = us₁ ++ us₂ ∧ List.Forall₂ r l₁ us₁ ∧ List.Forall₂ r l₂ us₂
  | [], _, us, h => ⟨[], us, rfl, .nil, h⟩
  | _ :: _, _, _, .cons hfirst hrest => by
    obtain ⟨us₁, us₂, rfl, hus₁, hus₂⟩ := forall₂_append_left hrest
    exact ⟨_ :: us₁, us₂, rfl, .cons hfirst hus₁, hus₂⟩

/-- **A waiting future has one entry**, which is found by its number. -/
theorem Sound.split (h : w.Sound capacity line) {completed : Bool}
    (hf : w.acquires f = some ⟨some id, completed⟩) :
    ∃ l₁ l₂ ws₁ e ws₂, line = l₁ ++ f :: l₂ ∧ w.state.waiters = ws₁ ++ e :: ws₂ ∧
      List.Forall₂ w.Stands l₁ ws₁ ∧ w.Stands f e ∧ List.Forall₂ w.Stands l₂ ws₂ ∧ e.id = id ∧
      w.state.position id = some ws₁.length ∧ (∀ g ∈ l₁, g ≠ f) ∧ ∀ g ∈ l₂, g ≠ f := by
  obtain ⟨l₁, l₂, rfl⟩ := append_of_mem (h.mem_line f id completed hf)
  obtain ⟨ws₁, ws₂', hwaiters, hws₁, hws₂'⟩ := forall₂_append_left h.stands
  obtain ⟨e, ws₂, hstands, hws₂, rfl⟩ := forall₂_cons_left_iff.mp hws₂'
  have hid : e.id = id := by
    simpa using congrArg (Option.map Acquire.waiterId) (hstands.1.symm.trans hf)
  obtain ⟨-, hnodup, hapart⟩ := nodup_append.mp h.nodup_line
  refine ⟨l₁, l₂, ws₁, e, ws₂, rfl, hwaiters, hws₁, hstands, hws₂, hid, ?_,
    fun g hg => hapart g hg f mem_cons_self, fun g hg heq => (nodup_cons.mp hnodup).1 (heq ▸ hg)⟩
  have hdistinct := h.distinct
  rw [hwaiters, map_append, map_cons, nodup_append] at hdistinct
  have hbefore : ∀ x ∈ ws₁, ¬(x.id == id) := fun x hx heq =>
    hdistinct.2.2 x.id (mem_map_of_mem hx) e.id mem_cons_self
      ((beq_iff_eq.mp heq).trans hid.symm)
  rw [Admission.position, hwaiters, findIdx?_append, findIdx?_eq_none_iff.mpr (by simpa using hbefore),
    findIdx?_cons, if_pos (by simp [hid])]
  simp

/-- The waker that is taken is that of the front. -/
theorem nextWaker_eq {s : Admission} (hstands : List.Forall₂ w.Stands line s.waiters)
    (hf : f ∈ line.head?) (hfree : s.occupied < capacity) :
    s.nextWaker capacity = some (w.lastWaker f) := by
  obtain ⟨occupied, next, waiters⟩ := s
  cases hstands with
  | nil => exact (nomatch hf)
  | cons hfirst _ =>
    obtain rfl := some.inj hf
    rw [Admission.nextWaker, if_pos hfree]
    exact congrArg some hfirst.2

/-- A poll leaves the other futures alone. -/
theorem stands_afterPoll {p : Polled} (h : List.Forall₂ w.Stands l ws) (hne : ∀ g ∈ l, g ≠ f) :
    List.Forall₂ (w.afterPoll f waker a p).Stands l ws :=
  stands_congr h fun g hg =>
    ⟨update_of_ne (hne g hg) _ _, update_of_ne (hne g hg) _ _⟩

/-- A future has what it was given last. -/
theorem update_eq_some {g : ℕ} {o : Option Acquire}
    (hg : Function.update w.acquires f o g = some a) : g = f ∧ o = some a ∨ g ≠ f ∧
      w.acquires g = some a := by
  by_cases hgf : g = f
  · exact .inl ⟨hgf, by rwa [hgf, update_self] at hg⟩
  · exact .inr ⟨hgf, (update_of_ne hgf _ _).symm.trans hg⟩

/-- A waiting future that is admitted leaves the front, and its successor is woken if it can follow. -/
theorem Sound.admit (h : w.Sound capacity line) (hf : w.acquires f = some ⟨some id, false⟩)
    (hposition : w.state.position id = some 0) (hfree : w.state.occupied < capacity) :
    ∃ line', (w.afterPoll f waker ⟨some id, false⟩
      ⟨{ w.state with waiters := w.state.waiters.tail, occupied := w.state.occupied + 1 },
        ⟨none, true⟩, true,
        Admission.nextWaker capacity
          { w.state with waiters := w.state.waiters.tail, occupied := w.state.occupied + 1 }⟩).Sound
      capacity line' := by
  obtain ⟨l₁, l₂, ws₁, e, ws₂, rfl, hwaiters, hws₁, -, hws₂, -, hlength, -, hne⟩ := h.split hf
  obtain rfl : ws₁ = [] := length_eq_zero_iff.mp (some.inj (hlength.symm.trans hposition))
  obtain rfl : l₁ = [] := forall₂_nil_right_iff.mp hws₁
  have htail : w.state.waiters.tail = ws₂ := by rw [hwaiters]; rfl
  rw [htail]
  refine ⟨l₂, ?_, h.parallel, hfree, ?_, ?_, ?_, ?_, ?_, ?_, ?_⟩
  · change w.state.occupied + 1 = w.permits + 1 + w.reserved.sum
    rw [h.occupied]
    omega
  · exact stands_afterPoll hws₂ hne
  · have hdistinct := h.distinct
    rw [hwaiters] at hdistinct
    exact (nodup_cons.mp hdistinct).2
  · intro g id' completed hg
    obtain ⟨-, hg⟩ | ⟨hgf, hg⟩ := update_eq_some hg
    · exact nomatch hg
    · exact (mem_cons.mp (h.mem_line g id' completed hg)).resolve_left hgf
  · change ((w.admitted ++ [f]) ++ l₂).Sublist w.waited
    rw [append_assoc]
    exact h.order
  · exact h.nodup
  · intro g hg
    obtain ⟨-, hg⟩ | ⟨-, hg⟩ := update_eq_some hg
    · exact nomatch hg
    · exact h.fresh g hg
  · intro g hg hfree'
    refine .inr ?_
    have hgf := hne g (mem_of_head? hg)
    have hwake := nextWaker_eq (s := { w.state with waiters := ws₂, occupied := w.state.occupied + 1 })
      hws₂ hg hfree'
    change Function.update w.lastWaker f waker g ∈ w.wakes ++ _
    rw [update_of_ne hgf, hwake]
    exact mem_append_right _ (mem_singleton_self _)

/-- A waiting future that is not admitted keeps its place, with its new waker. -/
theorem Sound.wait (h : w.Sound capacity line) (hf : w.acquires f = some ⟨some id, false⟩) {n : ℕ}
    (hposition : w.state.position id = some n) (hwait : ¬(n = 0 ∧ w.state.occupied < capacity)) :
    (w.afterPoll f waker ⟨some id, false⟩
      ⟨{ w.state with waiters := w.state.waiters.modify n fun e => { e with waker := waker } },
        ⟨some id, false⟩, false, none⟩).Sound capacity line := by
  obtain ⟨l₁, l₂, ws₁, e, ws₂, rfl, hwaiters, hws₁, -, hws₂, hid, hlength, hne₁, hne₂⟩ := h.split hf
  obtain rfl : n = ws₁.length := some.inj (hposition.symm.trans hlength)
  have hmodify : w.state.waiters.modify ws₁.length (fun e => { e with waker := waker }) =
      ws₁ ++ { e with waker := waker } :: ws₂ := by
    rw [hwaiters, modify_eq_take_cons_drop (by simp)]
    simp
  have hsame (g : ℕ) : (Function.update w.acquires f (some ⟨some id, false⟩)) g = w.acquires g := by
    by_cases hgf : g = f
    · rw [hgf, update_self, hf]
    · exact update_of_ne hgf _ _
  rw [hmodify]
  refine ⟨h.occupied, h.parallel, h.le, ?_, ?_, ?_, h.order, h.nodup, ?_, ?_⟩
  · refine rel_append (stands_afterPoll hws₁ hne₁) (.cons ⟨?_, ?_⟩ (stands_afterPoll hws₂ hne₂))
    · exact (update_self _ _ _).trans (by rw [← hid])
    · exact (update_self (f := w.lastWaker) f waker).symm
  · have hdistinct := h.distinct
    rw [hwaiters, map_append, map_cons] at hdistinct
    change (List.map TaskWaiter.id (ws₁ ++ { e with waker := waker } :: ws₂)).Nodup
    rwa [map_append, map_cons]
  · exact fun g id' completed hg => h.mem_line g id' completed ((hsame g).symm.trans hg)
  · exact fun g hg => h.fresh g ((hsame g).symm.trans hg)
  · intro g hg hfree
    by_cases hgf : g = f
    · -- the front polls, and is admitted if there is room
      subst hgf
      cases l₁ with
      | nil =>
        obtain rfl : ws₁ = [] := forall₂_nil_left_iff.mp hws₁
        exact absurd ⟨rfl, hfree⟩ hwait
      | cons k l₁ => exact absurd (some.inj hg) (hne₁ k mem_cons_self)
    · change Function.update w.woken f false g ∨ Function.update w.lastWaker f waker g ∈ w.wakes ++ []
      rw [update_of_ne hgf, update_of_ne hgf, append_nil]
      exact h.woken g hg hfree

/-- Who finds a slot and nobody in line is admitted at once. -/
theorem Sound.admitNow (h : w.Sound capacity line) (hempty : w.state.waiters = [])
    (hfree : w.state.occupied < capacity) :
    (w.afterPoll f waker ⟨none, false⟩
      ⟨{ w.state with occupied := w.state.occupied + 1 }, ⟨none, true⟩, true, none⟩).Sound
        capacity line := by
  have hstands := h.stands
  rw [hempty] at hstands
  obtain rfl : line = [] := forall₂_nil_right_iff.mp hstands
  refine ⟨?_, h.parallel, hfree, ?_, h.distinct, ?_, ?_, ?_, ?_, nofun⟩
  · change w.state.occupied + 1 = w.permits + 1 + w.reserved.sum
    rw [h.occupied]
    omega
  · change List.Forall₂ _ [] w.state.waiters
    rw [hempty]
    exact .nil
  · intro g id' completed hg
    obtain ⟨-, hg⟩ | ⟨-, hg⟩ := update_eq_some hg
    · exact nomatch hg
    · exact h.mem_line g id' completed hg
  · simpa [afterPoll] using h.order
  · simpa [afterPoll] using h.nodup
  · intro g hg
    obtain ⟨-, hg⟩ | ⟨-, hg⟩ := update_eq_some hg
    · exact nomatch hg
    · simpa [afterPoll] using h.fresh g hg

/-- Who finds no slot, or others in line, goes to the back. -/
theorem Sound.register (h : w.Sound capacity line) (hf : w.acquires f = some ⟨none, false⟩)
    (hfree : w.IdFree)
    (hfull : ¬(w.state.waiters = [] ∧ w.state.occupied < capacity)) :
    (w.afterPoll f waker ⟨none, false⟩
      ⟨{ w.state with
          nextWaiterId := w.state.nextWaiterId + 1
          waiters := w.state.waiters ++ [⟨w.state.nextWaiterId, waker⟩] },
        ⟨some w.state.nextWaiterId, false⟩, false, none⟩).Sound capacity (line ++ [f]) := by
  have hnew : f ∉ w.waited := h.fresh f hf
  have hsub : line.Sublist w.waited := (sublist_append_right _ _).trans h.order
  have hline : ∀ g ∈ line, g ≠ f := fun g hg heq => hnew (heq ▸ hsub.subset hg)
  refine ⟨h.occupied, h.parallel, h.le, ?_, ?_, ?_, ?_, ?_, ?_, ?_⟩
  · refine rel_append (stands_afterPoll h.stands hline) (.cons ⟨?_, ?_⟩ .nil)
    · exact update_self _ _ _
    · exact (update_self (f := w.lastWaker) f waker).symm
  · change (List.map TaskWaiter.id (w.state.waiters ++ [⟨w.state.nextWaiterId, waker⟩])).Nodup
    rw [map_append, nodup_append]
    refine ⟨h.distinct, nodup_singleton _, ?_⟩
    intro x hx y hy
    obtain ⟨e, he, rfl⟩ := mem_map.mp hx
    obtain rfl : y = w.state.nextWaiterId := by simpa using hy
    exact hfree e he
  · intro g id' completed hg
    obtain ⟨hgf, -⟩ | ⟨-, hg⟩ := update_eq_some hg
    · exact mem_append_right _ (mem_singleton.mpr hgf)
    · exact mem_append_left _ (h.mem_line g id' completed hg)
  · change (w.admitted ++ (line ++ [f])).Sublist (w.waited ++ [f])
    rw [← append_assoc]
    exact h.order.append (List.Sublist.refl [f])
  · change (w.waited ++ [f]).Nodup
    refine nodup_append.mpr ⟨h.nodup, nodup_singleton f, ?_⟩
    intro x hx y hy heq
    obtain rfl : y = f := by simpa using hy
    exact hnew (heq ▸ hx)
  · intro g hg
    obtain ⟨-, hg⟩ | ⟨hgf, hg⟩ := update_eq_some hg
    · exact nomatch hg
    · have hgw := h.fresh g hg
      change g ∉ w.waited ++ [f]
      simp [hgw, hgf]
  · intro g hg hroom
    cases line with
    | nil =>
      have hempty : w.state.waiters = [] := forall₂_nil_left_iff.mp h.stands
      exact absurd ⟨hempty, hroom⟩ hfull
    | cons k line =>
      have hgf : g ≠ f := by
        obtain rfl : k = g := some.inj hg
        exact hline k mem_cons_self
      change Function.update w.woken f false g ∨ Function.update w.lastWaker f waker g ∈ w.wakes ++ []
      rw [update_of_ne hgf, update_of_ne hgf, append_nil]
      exact h.woken g hg hroom

/-- **A poll keeps the invariant**, if a new number is free. -/
theorem Sound.poll (h : w.Sound capacity line) (hfresh : w.Fresh (.poll f waker))
    (hstep : w.poll capacity f waker = some w') : ∃ line', w'.Sound capacity line' := by
  obtain ⟨a, ha, hstep⟩ := bind_eq_some_iff.mp hstep
  obtain ⟨p, hp, rfl⟩ := map_eq_some_iff.mp hstep
  obtain ⟨waiterId, completed⟩ := a
  unfold Admission.poll at hp
  cases completed with
  | true => cases hp
  | false =>
    rw [if_neg (by simp)] at hp
    cases waiterId with
    | some id =>
      obtain ⟨-, -, ws₁, -, -, -, -, -, -, -, -, hposition, -⟩ := h.split ha
      simp only [hposition] at hp
      by_cases hfree : ws₁.length = 0 ∧ w.state.occupied < capacity
      · rw [if_pos hfree] at hp
        obtain rfl := some.inj hp
        exact h.admit ha (hposition.trans (by rw [hfree.1])) hfree.2
      · rw [if_neg hfree] at hp
        obtain rfl := some.inj hp
        exact ⟨line, h.wait ha hposition hfree⟩
    | none =>
      simp only [List.isEmpty_iff] at hp
      by_cases hnow : w.state.waiters = [] ∧ w.state.occupied < capacity
      · rw [if_pos hnow] at hp
        obtain rfl := some.inj hp
        exact ⟨line, h.admitNow hnow.1 hnow.2⟩
      · rw [if_neg hnow] at hp
        obtain rfl := some.inj hp
        exact ⟨line ++ [f], h.register ha (hfresh ⟨_, ha, rfl⟩) hnow⟩

theorem dropped {g : ℕ} (hg : Function.update w.acquires f none g = some a) :
    g ≠ f ∧ w.acquires g = some a :=
  (update_eq_some hg).resolve_left fun h => nomatch h.2

/-- A future that does not wait is dropped without a trace. -/
theorem Sound.forget (h : w.Sound capacity line)
    (hf : ∀ id completed, w.acquires f ≠ some ⟨some id, completed⟩) :
    World.Sound capacity
      { w with acquires := Function.update w.acquires f none, wakes := w.wakes ++ [] } line := by
  refine ⟨h.occupied, h.parallel, h.le, h.stands.imp fun g e hstands => ⟨?_, hstands.2⟩, h.distinct,
    fun g id completed hg => h.mem_line g id completed (dropped hg).2, h.order, h.nodup,
    fun g hg => h.fresh g (dropped hg).2, ?_⟩
  · intro g hg hroom
    change w.woken g ∨ w.lastWaker g ∈ w.wakes ++ []
    rw [append_nil]
    exact h.woken g hg hroom
  · have hgf : g ≠ f := fun heq => hf e.id false (heq ▸ hstands.1)
    exact (update_of_ne hgf _ _).trans hstands.1

/-- **A cancelled wait** leaves the line, and hands a wake on that it may have had. -/
theorem Sound.cancel (h : w.Sound capacity line) (hf : w.acquires f = some ⟨some id, false⟩) {n : ℕ}
    (hposition : w.state.position id = some n) :
    ∃ line', World.Sound capacity
      { w with
        state := { w.state with waiters := w.state.waiters.eraseIdx n }
        acquires := Function.update w.acquires f none
        wakes := w.wakes ++ (if n = 0 then
          Admission.nextWaker capacity { w.state with waiters := w.state.waiters.eraseIdx n }
          else none).toList } line' := by
  obtain ⟨l₁, l₂, ws₁, e, ws₂, rfl, hwaiters, hws₁, -, hws₂, -, hlength, hne₁, hne₂⟩ := h.split hf
  obtain rfl : n = ws₁.length := some.inj (hposition.symm.trans hlength)
  have herase : w.state.waiters.eraseIdx ws₁.length = ws₁ ++ ws₂ := by
    rw [hwaiters, eraseIdx_append_of_length_le (Nat.le_refl _), Nat.sub_self]
    rfl
  have hkeep {l : List ℕ} {ws : List TaskWaiter} {state : Admission} {wakes : List Waker}
      (hl : List.Forall₂ w.Stands l ws) (hne : ∀ g ∈ l, g ≠ f) : List.Forall₂ (World.Stands
        { w with state := state, acquires := Function.update w.acquires f none, wakes := wakes })
          l ws :=
    stands_congr hl fun g hg => ⟨update_of_ne (hne g hg) _ _, rfl⟩
  rw [herase]
  refine ⟨l₁ ++ l₂, h.occupied, h.parallel, h.le,
    rel_append (hkeep hws₁ hne₁) (hkeep hws₂ hne₂), ?_, ?_, ?_, h.nodup,
    fun g hg => h.fresh g (dropped hg).2, ?_⟩
  · have hdistinct := h.distinct
    rw [hwaiters] at hdistinct
    exact ((List.Sublist.refl ws₁).append (sublist_cons_self e ws₂)).map _ |>.nodup hdistinct
  · intro g id' completed hg
    obtain ⟨hgf, hg⟩ := dropped hg
    rcases mem_append.mp (h.mem_line g id' completed hg) with hmem | hmem
    · exact mem_append_left _ hmem
    · exact mem_append_right _ ((mem_cons.mp hmem).resolve_left hgf)
  · exact ((List.Sublist.refl w.admitted).append
      ((List.Sublist.refl l₁).append (sublist_cons_self f l₂))).trans h.order
  · intro g hg hroom
    cases l₁ with
    | nil =>
      -- the front is gone, and the next one may have to come
      obtain rfl : ws₁ = [] := forall₂_nil_left_iff.mp hws₁
      refine .inr ?_
      have hwake := nextWaker_eq (s := { w.state with waiters := [] ++ ws₂ }) hws₂ hg hroom
      change w.lastWaker g ∈ w.wakes ++ _
      rw [length_nil, if_pos rfl, hwake]
      exact mem_append_right _ (mem_singleton_self _)
    | cons k l₁ =>
      exact (h.woken g hg hroom).imp_right fun hmem => mem_append_left _ hmem

theorem Sound.dropAcquire (h : w.Sound capacity line) (hstep : w.dropAcquire capacity f = some w') :
    ∃ line', w'.Sound capacity line' := by
  obtain ⟨a, ha, rfl⟩ := map_eq_some_iff.mp hstep
  obtain ⟨waiterId, completed⟩ := a
  cases waiterId with
  | none =>
    have hdrop : w.state.dropAcquire capacity ⟨none, completed⟩ = (w.state, none) := by
      cases completed <;> rfl
    rw [hdrop]
    refine ⟨line, h.forget fun id completed' hf => ?_⟩
    cases ha.symm.trans hf
  | some id =>
    obtain ⟨-, -, ws₁, e, -, -, -, -, hstands, -, -, hposition, -⟩ := h.split ha
    obtain rfl : completed = false := by
      simpa using congrArg (Option.map Acquire.completed) (ha.symm.trans hstands.1)
    have hdrop : w.state.dropAcquire capacity ⟨some id, false⟩ =
        ({ w.state with waiters := w.state.waiters.eraseIdx ws₁.length },
          if ws₁.length = 0 then
            Admission.nextWaker capacity { w.state with
              waiters := w.state.waiters.eraseIdx ws₁.length }
          else none) := by
      simp [Admission.dropAcquire, hposition]
    rw [hdrop]
    exact h.cancel ha hposition

/-- **Slots are given back**, and whoever is at the front is woken. -/
theorem Sound.release (h : w.Sound capacity line) {n permits parallelOccupied : ℕ} {reserved : List ℕ}
    (hn : w.state.occupied = n + (permits + reserved.sum))
    (hparallel : parallelOccupied = reserved.sum) :
    World.Sound capacity
      { w with
        state := (w.state.release capacity n).1
        permits := permits
        parallelOccupied := parallelOccupied
        reserved := reserved
        wakes := w.wakes ++ (w.state.release capacity n).2.toList } line := by
  refine ⟨?_, hparallel, ?_, ?_, h.distinct, h.mem_line, h.order, h.nodup, h.fresh, ?_⟩
  · change w.state.occupied - n = permits + reserved.sum
    omega
  · exact Nat.le_trans (Nat.sub_le _ _) h.le
  · exact stands_congr h.stands fun g _ => ⟨rfl, rfl⟩
  · intro g hg hroom
    refine .inr ?_
    have hwake := nextWaker_eq (s := { w.state with occupied := w.state.occupied - n })
      h.stands hg hroom
    change w.lastWaker g ∈ w.wakes ++ _
    rw [Admission.release, hwake]
    exact mem_append_right _ (mem_singleton_self _)

theorem Sound.dropPermit (h : w.Sound capacity line) (hstep : w.dropPermit capacity = some w') :
    w'.Sound capacity line := by
  unfold World.dropPermit at hstep
  split_ifs at hstep with hnone
  obtain rfl := some.inj hstep
  have hocc := h.occupied
  exact h.release (by omega) h.parallel

theorem Sound.wake (h : w.Sound capacity line) (hstep : w.wake waker = some w') :
    w'.Sound capacity line := by
  unfold World.wake at hstep
  split_ifs at hstep with hmem
  obtain rfl := some.inj hstep
  refine ⟨h.occupied, h.parallel, h.le, stands_congr h.stands fun g _ => ⟨rfl, rfl⟩,
    h.distinct, h.mem_line,
    h.order, h.nodup, h.fresh, ?_⟩
  intro g hg hroom
  change (w.woken g || w.lastWaker g = waker) ∨ w.lastWaker g ∈ w.wakes.erase waker
  by_cases hwaker : w.lastWaker g = waker
  · exact .inl (by simp [hwaker])
  · rcases h.woken g hg hroom with hwoken | hwakes
    · exact .inl (by simp [hwoken])
    · exact .inr ((mem_erase_of_ne hwaker).mpr hwakes)

/-- **Parallel work** is admitted while nobody waits, and leaves a slot. -/
theorem Sound.reserveParallel {c : CpuAdmission} (h : w.Sound c.dispatchCapacity line) :
    (w.reserveParallel c workers).Sound c.dispatchCapacity line := by
  unfold World.reserveParallel
  split_ifs with hfree
  · obtain ⟨⟨hempty, hparallel⟩, hroom⟩ : (w.state.waiters = [] ∧
        w.parallelOccupied + workers < c.relationParallelism) ∧
        w.state.occupied + workers + 1 ≤ c.dispatchCapacity := by
      simpa [CpuAdmission.admitsParallel] using hfree
    have hline : line = [] := by
      have hstands := h.stands
      rw [hempty] at hstands
      exact forall₂_nil_right_iff.mp hstands
    refine ⟨?_, ?_, ?_, stands_congr h.stands fun g _ => ⟨rfl, rfl⟩, h.distinct, h.mem_line,
      h.order, h.nodup,
      h.fresh, fun g hg => ?_⟩
    · change w.state.occupied + workers = w.permits + (workers :: w.reserved).sum
      rw [sum_cons, h.occupied]
      omega
    · change w.parallelOccupied + workers = (workers :: w.reserved).sum
      rw [sum_cons, h.parallel]
      omega
    · change w.state.occupied + workers ≤ c.dispatchCapacity
      omega
    · rw [hline] at hg
      exact (nomatch hg)
  · exact h

theorem Sound.releaseParallel {c : CpuAdmission} (h : w.Sound c.dispatchCapacity line)
    (hstep : w.releaseParallel c workers = some w') : w'.Sound c.dispatchCapacity line := by
  unfold World.releaseParallel at hstep
  split_ifs at hstep with hmem
  obtain rfl := some.inj hstep
  have hsum : w.reserved.sum = workers + (w.reserved.erase workers).sum :=
    (perm_cons_erase hmem).sum_nat.trans sum_cons
  have hocc := h.occupied
  have hparallel := h.parallel
  exact h.release (by omega) (by omega)

theorem Sound.start (capacity : ℕ) : World.start.Sound capacity [] where
  occupied := rfl
  parallel := rfl
  le := Nat.zero_le _
  stands := .nil
  distinct := nodup_nil
  mem_line := fun f id completed h => by cases h
  order := List.Sublist.refl []
  nodup := nodup_nil
  fresh := fun f _ => not_mem_nil
  woken := nofun

theorem Sound.cpuStep {c : CpuAdmission} {event : AdmissionEvent} (h : w.Sound c.dispatchCapacity line)
    (hfresh : w.Fresh event) (hstep : w.cpuStep c event = some w') :
    ∃ line', w'.Sound c.dispatchCapacity line' := by
  cases event with
  | poll f waker => exact h.poll hfresh hstep
  | dropAcquire f => exact h.dropAcquire hstep
  | dropPermit => exact ⟨line, h.dropPermit hstep⟩
  | reserveParallel workers =>
    obtain rfl := some.inj hstep
    exact ⟨line, h.reserveParallel⟩
  | releaseParallel workers => exact ⟨line, h.releaseParallel hstep⟩
  | wake waker => exact ⟨line, h.wake hstep⟩

theorem Sound.externalStep {event : AdmissionEvent} (h : w.Sound capacity line)
    (hfresh : w.Fresh event) (hstep : w.externalStep capacity event = some w') :
    ∃ line', w'.Sound capacity line' := by
  cases event with
  | poll f waker => exact h.poll hfresh hstep
  | dropAcquire f => exact h.dropAcquire hstep
  | dropPermit => exact ⟨line, h.dropPermit hstep⟩
  | reserveParallel workers => cases hstep
  | releaseParallel workers => cases hstep
  | wake waker => exact ⟨line, h.wake hstep⟩

/-- An external request takes one slot, and nothing else does. -/
theorem reserved_of_externalStep {event : AdmissionEvent}
    (hstep : w.externalStep capacity event = some w') :
    w'.reserved = w.reserved := by
  cases event with
  | poll f waker =>
    obtain ⟨a, -, hstep⟩ := bind_eq_some_iff.mp hstep
    obtain ⟨p, -, rfl⟩ := map_eq_some_iff.mp hstep
    rfl
  | dropAcquire f =>
    obtain ⟨a, -, rfl⟩ := map_eq_some_iff.mp hstep
    rfl
  | dropPermit =>
    simp only [World.externalStep, World.dropPermit] at hstep
    split_ifs at hstep
    obtain rfl := some.inj hstep
    rfl
  | reserveParallel workers => cases hstep
  | releaseParallel workers => cases hstep
  | wake waker =>
    simp only [World.externalStep, World.wake] at hstep
    split_ifs at hstep
    obtain rfl := some.inj hstep
    rfl

/-! ## Runs -/

/-- What an admission promises. -/
structure Fair (capacity : ℕ) (w : World) : Prop where
  /-- The slots are those of the permits and of the reserved workers. -/
  occupied : w.state.occupied = w.permits + w.reserved.sum
  le : w.state.occupied ≤ capacity
  inOrder : w.InOrder
  /-- If there is room for the front, it has been woken, or its waker has been taken to be called. -/
  woken : w.state.occupied < capacity → ∀ e ∈ w.state.waiters.head?,
    ∃ f, w.acquires f = some ⟨some e.id, false⟩ ∧ (w.woken f ∨ w.lastWaker f ∈ w.wakes)
  /-- No poll of a future that is not completed panics. -/
  polls : ∀ f a waker, w.acquires f = some a → a.completed = false →
    (w.state.poll capacity a waker).isSome

theorem not_before_of_nodup {f g : ℕ} : ∀ {l : List ℕ}, l.Nodup → [f, g].Sublist l → ¬[g, f].Sublist l
  | x :: l, hnodup, h₁, h₂ => by
    obtain ⟨hx, hnodup⟩ := nodup_cons.mp hnodup
    cases h₁ with
    | cons _ h₁ =>
      cases h₂ with
      | cons _ h₂ => exact not_before_of_nodup hnodup h₁ h₂
      | cons_cons _ h₂ => exact hx (h₁.subset (by simp))
    | cons_cons _ h₁ =>
      cases h₂ with
      | cons _ h₂ => exact hx (h₂.subset (by simp))
      | cons_cons _ h₂ => exact hx (h₁.subset (by simp))

theorem Sound.inOrder (h : w.Sound capacity line) : w.InOrder := by
  refine ⟨(sublist_append_left _ _).trans h.order, fun f g hbefore hg hwaits => ?_⟩
  obtain ⟨id, hf⟩ := hwaits
  have hline : [f].Sublist line := singleton_sublist.mpr (h.mem_line f id false hf)
  have hadmitted : [g].Sublist w.admitted := singleton_sublist.mpr hg
  exact not_before_of_nodup h.nodup hbefore ((hadmitted.append hline).trans h.order)

theorem Sound.fair (h : w.Sound capacity line) : w.Fair capacity where
  occupied := h.occupied
  le := h.le
  inOrder := h.inOrder
  woken := by
    intro hroom e he
    have hstands := h.stands
    obtain ⟨rest, hrest⟩ := head?_eq_some_iff.mp he
    rw [hrest] at hstands
    obtain ⟨f, line', hf, -, hline⟩ := forall₂_cons_right_iff.mp hstands
    exact ⟨f, hf.1, h.woken f (by rw [hline]; rfl) hroom⟩
  polls := by
    intro f a waker ha hcompleted
    obtain ⟨waiterId, completed⟩ := a
    obtain rfl : completed = false := hcompleted
    unfold Admission.poll
    rw [if_neg (by simp)]
    cases waiterId with
    | none =>
      dsimp only
      split_ifs <;> rfl
    | some id =>
      obtain ⟨-, -, ws₁, -, -, -, -, -, -, -, -, hposition, -⟩ := h.split ha
      simp only [hposition]
      split_ifs <;> rfl

/-- **The invariant holds in every run.** -/
theorem sound_of_reaches {step : World → AdmissionEvent → Option World}
    (hstep : ∀ {w w' : World} {e : AdmissionEvent} {line : List ℕ}, w.Sound capacity line → w.Fresh e →
      step w e = some w' → ∃ line', w'.Sound capacity line') (h : Reaches step Fresh w) :
    ∃ line, w.Sound capacity line := by
  induction h with
  | start => exact ⟨[], Sound.start capacity⟩
  | next _ hok hnext ih =>
    obtain ⟨line, ih⟩ := ih
    exact hstep ih hok hnext

end Steps

/-- **Admission is safe and fair and loses no wake**, for both kinds, in every run in which no
waiter gets the number of one that is still in line; parallel work is admitted only while nobody
waits, and leaves a slot. -/
theorem admission_fair :
    (∀ (c : CpuAdmission) (w : World), Reaches (cpuStep c) Fresh w →
      w.Fair c.dispatchCapacity ∧ w.parallelOccupied = w.reserved.sum ∧
        ∀ workers, c.admitsParallel w.state w.parallelOccupied workers →
          w.state.waiters = [] ∧ (w.reserveParallel c workers).state.occupied + 1 ≤
            c.dispatchCapacity) ∧
      ∀ (capacity : ℕ) (w : World), Reaches (externalStep capacity) Fresh w →
        w.Fair capacity ∧ w.reserved = [] := by
  refine ⟨fun c w h => ?_, fun capacity w h => ?_⟩
  · obtain ⟨line, hsound⟩ := sound_of_reaches (fun h => h.cpuStep) h
    refine ⟨hsound.fair, hsound.parallel, fun workers hfree => ?_⟩
    rw [reserveParallel, if_pos hfree]
    obtain ⟨⟨hempty, -⟩, hroom⟩ : (w.state.waiters = [] ∧
        w.parallelOccupied + workers < c.relationParallelism) ∧
        w.state.occupied + workers + 1 ≤ c.dispatchCapacity := by
      simpa [CpuAdmission.admitsParallel] using hfree
    exact ⟨hempty, hroom⟩
  obtain ⟨line, hsound⟩ := sound_of_reaches (fun h => h.externalStep) h
  refine ⟨hsound.fair, ?_⟩
  clear hsound
  induction h with
  | start => rfl
  | next _ _ hstep ih => exact (reserved_of_externalStep hstep).trans ih

/-- Steps that only give out numbers that no waiter in line has. -/
def runFree (step : World → AdmissionEvent → Option World) : List AdmissionEvent → World → Option World
  | [], w => some w
  | e :: es, w => if ∀ x ∈ w.state.waiters, x.id ≠ w.state.nextWaiterId then
      (step w e).bind (runFree step es) else none

theorem Reaches.runFree {step : World → AdmissionEvent → Option World} :
    ∀ {es : List AdmissionEvent} {w w' : World}, Reaches step Fresh w → runFree step es w = some w' →
      Reaches step Fresh w'
  | [], _, _, h, hrun => some.inj hrun ▸ h
  | e :: es, w, w', h, hrun => by
    rw [World.runFree] at hrun
    split at hrun
    · next hfree =>
      obtain ⟨next, hstep, hrest⟩ := bind_eq_some_iff.mp hrun
      exact (h.next (by cases e <;> first | exact fun _ => hfree | trivial) hstep).runFree hrest
    · cases hrun

/-- Two requests wait behind a permit; the first is woken when it is given back, and cancelled
before it polls, so the second is woken and admitted. -/
def handedOn : List AdmissionEvent :=
  [.poll 0 0, .poll 1 5, .poll 2 6, .dropPermit, .wake 5, .dropAcquire 1, .wake 6, .poll 2 6]

/-- The same of tasks, where parallel workers have held the second slot and given it back. -/
def handedOnByWorkers : List AdmissionEvent :=
  [.reserveParallel 1, .poll 0 0, .poll 1 5, .poll 2 6, .releaseParallel 1, .dropAcquire 1, .wake 5,
    .wake 6, .poll 2 6]

theorem admission_fair_handedOn :
    (∃ w, runFree (externalStep 1) handedOn start = some w ∧ w.Fair 1 ∧ w.admitted = [2]) ∧
      ∃ w, runFree (cpuStep ⟨2, 2⟩) handedOnByWorkers start = some w ∧ w.Fair 2 ∧
        w.admitted = [2] := by
  have hexternal : (runFree (externalStep 1) handedOn start).map World.admitted = some [2] := by
    decide +kernel
  have hcpu : (runFree (cpuStep ⟨2, 2⟩) handedOnByWorkers start).map World.admitted = some [2] := by
    decide +kernel
  obtain ⟨w, hw, hadmitted⟩ := map_eq_some_iff.mp hexternal
  obtain ⟨v, hv, hadmitted'⟩ := map_eq_some_iff.mp hcpu
  exact ⟨⟨w, hw, (admission_fair.2 1 w (Reaches.start.runFree hw)).1, hadmitted⟩,
    v, hv, (admission_fair.1 ⟨2, 2⟩ v (Reaches.start.runFree hv)).1, hadmitted'⟩

/-! ## Numbers wrap around -/

/-- One request holds the only slot, the future `1` waits first with the number zero, and `n` others
have waited and been cancelled behind it. -/
structure Cancelled (n : ℕ) (w : World) : Prop where
  reaches : Reaches (externalStep 1) (fun _ _ => True) w
  state : w.state = ⟨1, UInt64.ofNat (n + 1), [⟨0, 0⟩]⟩
  waits : w.acquires 1 = some ⟨some 0, false⟩
  unused : ∀ f, n + 2 ≤ f → w.acquires f = some ⟨none, false⟩
  permits : w.permits = 1
  waited : ∃ t, w.waited = 1 :: t

theorem Cancelled.start : ∃ w, Cancelled 0 w := by
  refine ⟨_, ((Reaches.start.next (e := .poll 0 0) trivial rfl).next (e := .poll 1 0) trivial rfl),
    rfl, rfl,
    fun f hf => ?_, rfl, [], rfl⟩
  change Function.update (Function.update _ 0 _) 1 _ f = _
  rw [update_of_ne (by omega), update_of_ne (by omega)]
  rfl

/-- One more request waits and is cancelled. -/
theorem Cancelled.next {n : ℕ} {w : World} (h : Cancelled n w) (hn : n + 1 < 2 ^ 64) :
    ∃ w', Cancelled (n + 1) w' := by
  have hunused := h.unused (n + 2) le_rfl
  obtain ⟨id, hidn⟩ : ∃ id, id = UInt64.ofNat (n + 1) := ⟨_, rfl⟩
  have hid : ¬(0 : UInt64) = id := fun heq => by
    have hnat := congrArg UInt64.toNat (heq.trans hidn)
    rw [UInt64.toNat_ofNat_of_lt' hn] at hnat
    exact absurd hnat (Nat.succ_ne_zero n).symm
  have hnext : id + 1 = UInt64.ofNat (n + 1 + 1) := by
    rw [hidn, ← UInt64.ofNat_one, ← UInt64.ofNat_add]
  have hstart : w.state = ⟨1, id, [⟨0, 0⟩]⟩ := h.state.trans (by rw [hidn])
  obtain ⟨w₁, hw₁⟩ : ∃ w₁, w₁ = w.afterPoll (n + 2) 0 ⟨none, false⟩
      ⟨⟨1, id + 1, [⟨0, 0⟩, ⟨id, 0⟩]⟩, ⟨some id, false⟩, false, none⟩ := ⟨_, rfl⟩
  have hpoll : externalStep 1 w (.poll (n + 2) 0) = some w₁ := by
    rw [hw₁]
    simp [externalStep, World.poll, hunused, Admission.poll, hstart]
  have hstate : w₁.state = ⟨1, id + 1, [⟨0, 0⟩, ⟨id, 0⟩]⟩ := by
    rw [hw₁]
    rfl
  have hself : w₁.acquires (n + 2) = some ⟨some id, false⟩ := by
    rw [hw₁]
    exact update_self _ _ _
  have hothers : ∀ f, f ≠ n + 2 → w₁.acquires f = w.acquires f := fun f hf => by
    rw [hw₁]
    exact update_of_ne hf _ _
  have hdrop : w₁.state.dropAcquire 1 ⟨some id, false⟩ = (⟨1, id + 1, [⟨0, 0⟩]⟩, none) := by
    simp [Admission.dropAcquire, Admission.position, hstate, findIdx?_cons, hid]
  have hcancel : externalStep 1 w₁ (.dropAcquire (n + 2)) =
      some { w₁ with
        state := ⟨1, id + 1, [⟨0, 0⟩]⟩
        acquires := Function.update w₁.acquires (n + 2) none
        wakes := w₁.wakes ++ [] } := by
    rw [externalStep, World.dropAcquire, hself, map_some, hdrop]
    rfl
  refine ⟨_, (h.reaches.next trivial hpoll).next trivial hcancel, ?_, ?_, ?_, ?_, ?_⟩
  · rw [hnext]
  · exact (update_of_ne (show 1 ≠ n + 2 by omega) none w₁.acquires).trans
      ((hothers 1 (by omega)).trans h.waits)
  · intro f hf
    have hne : f ≠ n + 2 := by omega
    exact (update_of_ne hne none w₁.acquires).trans
      ((hothers f hne).trans (h.unused f (by omega)))
  · rw [hw₁]
    exact h.permits
  · obtain ⟨t, ht⟩ := h.waited
    refine ⟨t ++ [n + 2], ?_⟩
    rw [hw₁]
    change w.waited ++ [n + 2] = _
    rw [ht]
    rfl

theorem Cancelled.exists : ∀ n, n < 2 ^ 64 → ∃ w, Cancelled n w
  | 0, _ => Cancelled.start
  | n + 1, hn => by
    obtain ⟨w, hw⟩ := Cancelled.exists n (by omega)
    exact hw.next hn

/-- A request that gets the number of one in line takes its place. -/
theorem shared_number_overtakes :
    ¬∀ (capacity : ℕ) (w : World), Reaches (externalStep capacity) (fun _ _ => True) w →
      w.InOrder := by
  intro h
  obtain ⟨w, hw⟩ := Cancelled.exists (2 ^ 64 - 1) (by decide)
  obtain ⟨t, ht⟩ := hw.waited
  have hstart : w.state = ⟨1, 0, [⟨0, 0⟩]⟩ := hw.state
  obtain ⟨f, hf⟩ : ∃ f, f = 2 ^ 64 + 1 := ⟨_, rfl⟩
  have hne : 1 ≠ f := by omega
  have hunused := hw.unused f (by omega)
  -- the next one is given the number of the first
  obtain ⟨w₁, hw₁⟩ : ∃ w₁, w₁ = w.afterPoll f 0 ⟨none, false⟩
      ⟨⟨1, 1, [⟨0, 0⟩, ⟨0, 0⟩]⟩, ⟨some 0, false⟩, false, none⟩ := ⟨_, rfl⟩
  have hpoll : externalStep 1 w (.poll f 0) = some w₁ := by
    rw [hw₁]
    simp [externalStep, World.poll, hunused, Admission.poll, hstart]
  have hstate : w₁.state = ⟨1, 1, [⟨0, 0⟩, ⟨0, 0⟩]⟩ := by
    rw [hw₁]
    rfl
  have hself : w₁.acquires f = some ⟨some 0, false⟩ := by
    rw [hw₁]
    exact update_self _ _ _
  have hfirst : w₁.acquires 1 = some ⟨some 0, false⟩ := by
    rw [hw₁]
    exact (update_of_ne hne _ _).trans hw.waits
  have hpermits : w₁.permits = 1 := by
    rw [hw₁]
    exact hw.permits
  have hwaited : w₁.waited = 1 :: (t ++ [f]) := by
    rw [hw₁]
    change w.waited ++ [f] = _
    rw [ht]
    rfl
  -- the slot is given back
  obtain ⟨w₂, hw₂⟩ : ∃ w₂, w₁.dropPermit 1 = some w₂ := by
    rw [World.dropPermit, hpermits]
    exact ⟨_, rfl⟩
  obtain rfl :
    w₂ = { w₁ with state := ⟨0, 1, [⟨0, 0⟩, ⟨0, 0⟩]⟩, permits := 0, wakes := w₁.wakes ++ [0] } := by
    rw [World.dropPermit, hpermits, hstate] at hw₂
    exact (some.inj hw₂).symm
  -- and is taken from the front by the other
  have htake := ((hw.reaches.next trivial hpoll).next (e := .dropPermit) trivial hw₂).next
    (e := .poll f 0)
    trivial (by rw [externalStep, World.poll, hself]; rfl)
  refine (h 1 _ htake).2 1 f ?_ (mem_append_right _ (mem_singleton_self f)) ⟨0, ?_⟩
  · change [1, f].Sublist w₁.waited
    rw [hwaited]
    exact (sublist_append_right t [f]).cons_cons 1
  · exact (update_of_ne hne _ _).trans hfirst

/-- **Admission is not as fair as it may seem**: numbers wrap around, and a slot that has been given
back is free before the waker of the front is called. -/
theorem overtaken_or_not_yet_woken :
    (¬∀ (capacity : ℕ) (w : World), Reaches (externalStep capacity) (fun _ _ => True) w → w.InOrder) ∧
      ¬∀ (capacity : ℕ) (w : World), Reaches (externalStep capacity) Fresh w →
        w.state.occupied < capacity → ∀ e ∈ w.state.waiters.head?,
          ∃ f, w.acquires f = some ⟨some e.id, false⟩ ∧ w.woken f := by
  refine ⟨shared_number_overtakes, fun h => ?_⟩
  obtain ⟨w, hw, hstate⟩ := map_eq_some_iff.mp (show
    (runFree (externalStep 1) [.poll 0 0, .poll 1 5, .dropPermit] start).map (fun w =>
      (decide (w.state.occupied < 1), w.state.waiters.head?)) = some (true, some ⟨0, 5⟩) by
        decide +kernel)
  obtain ⟨hroom, hfront⟩ := Prod.mk.inj hstate
  obtain ⟨f, -, hwoken⟩ := h 1 w (Reaches.start.runFree hw) (of_decide_eq_true hroom) _ hfront
  obtain rfl := some.inj hw
  have hnone : Function.update (Function.update (fun _ => false) 0 false) 1 false f = true := hwoken
  simp [Function.update_apply] at hnone

end World

end Mica
