import Mathlib.Algebra.BigOperators.Group.Finset.Basic
import Mathlib.Logic.Relation
import Mica.Lib.SortedList

/-!
# Lib/Search — what a node depends on, and an order that respects it

A graph is given by the list of nodes that each node depends on.

* `closure` keeps a stack of nodes to look at and a set of those it has seen; `mem_closure` says
  that it collects exactly what its start leads to.
* `mark` marks nodes when they are put on the stack; `Marking.done` says that such a search finds what
  lies behind its start.
* `visit` goes depth first and puts a node behind all that it depends on; `visit_spec` says so for a
  graph in which dependencies descend along a rank.
-/

open SortedList List SortedSet

namespace Search

variable {α : Type} [LinearOrder α] {deps : α → List α}

/-- One node depends on the other, at once or through further nodes. -/
def Leads (deps : α → List α) : α → α → Prop := Relation.ReflTransGen fun x y => y ∈ deps x

omit [LinearOrder α] in
theorem Leads.cases {x z : α} (h : Leads deps x z) : z = x ∨ ∃ y ∈ deps x, Leads deps y z :=
  (Relation.ReflTransGen.cases_head h).imp Eq.symm fun ⟨y, hy, hz⟩ => ⟨y, hy, hz⟩

omit [LinearOrder α] in
/-! ## The closure of a start -/

section Closure

/-- Look at the top of the stack; a node that was not seen before puts its own on it. -/
def closure (deps : α → List α) : ℕ → SortedSet α → List α → SortedSet α
  | 0, seen, _ => seen
  | _ + 1, seen, [] => seen
  | n + 1, seen, x :: pending =>
    if x ∈ seen then closure deps n seen pending
    else closure deps n (seen.insert x) ((deps x).reverse ++ pending)

/-- The looks that are left: what is on the stack, and what unseen nodes may yet put on it. -/
def work (deps : α → List α) (nodes : Finset α) (seen : SortedSet α) (pending : List α) : ℕ :=
  pending.length + ∑ x ∈ nodes.filter (· ∉ seen), (deps x).length

variable {nodes : Finset α} {seen : SortedSet α} {pending : List α}

theorem work_skip (x : α) : work deps nodes seen (x :: pending) =
    work deps nodes seen pending + 1 := by
  simp only [work, length_cons]
  omega

theorem work_see {x : α} (hx : x ∈ nodes) (hseen : x ∉ seen) :
    work deps nodes seen (x :: pending) =
      work deps nodes (seen.insert x) ((deps x).reverse ++ pending) + 1 := by
  have herase : nodes.filter (· ∉ seen.insert x) = (nodes.filter (· ∉ seen)).erase x := by
    ext y
    simp only [Finset.mem_filter, mem_insert, Finset.mem_erase, not_or]
    tauto
  have hsum := Finset.add_sum_erase (nodes.filter (· ∉ seen)) (fun x => (deps x).length)
    (Finset.mem_filter.mpr ⟨hx, hseen⟩)
  simp only [work, herase, length_append, length_reverse, length_cons] at hsum ⊢
  omega

/-- What a seen node depends on was seen or is still on the stack. -/
def Covered (deps : α → List α) (seen : SortedSet α) (pending : List α) : Prop :=
  ∀ x ∈ seen, ∀ y ∈ deps x, y ∈ seen ∨ y ∈ pending

theorem Covered.leads (h : Covered deps seen pending) {x z : α} (hx : x ∈ seen)
    (hz : Leads deps x z) : z ∈ seen ∨ ∃ y ∈ pending, Leads deps y z := by
  induction hz with
  | refl => exact .inl hx
  | tail _ hz ih =>
    rcases ih with hseen | ⟨y, hy, hlead⟩
    · exact (h _ hseen _ hz).imp_right fun hp => ⟨_, hp, Relation.ReflTransGen.refl⟩
    · exact .inr ⟨y, hy, hlead.tail hz⟩

/-- **The search collects what it has seen and all that its stack leads to.** -/
theorem mem_closure_of_work (hnodes : ∀ x ∈ nodes, ∀ y ∈ deps x, y ∈ nodes) {n : ℕ} {z : α}
    (hpending : ∀ x ∈ pending, x ∈ nodes) (hcovered : Covered deps seen pending)
    (hwork : work deps nodes seen pending ≤ n) :
    z ∈ closure deps n seen pending ↔ z ∈ seen ∨ ∃ y ∈ pending, Leads deps y z := by
  induction n generalizing seen pending with
  | zero =>
    have hempty : pending = [] := length_eq_zero_iff.mp (by unfold work at hwork; omega)
    simp [closure, hempty]
  | succ n ih =>
    cases pending with
    | nil => simp [closure]
    | cons x pending =>
      have hrest : ∀ y ∈ pending, y ∈ nodes := fun y hy => hpending y (mem_cons_of_mem x hy)
      have hx : x ∈ nodes := hpending x mem_cons_self
      simp only [closure]
      by_cases hseen : x ∈ seen
      · have hskip : Covered deps seen pending := fun v hv y hy =>
          (hcovered v hv y hy).elim .inl fun h =>
            (mem_cons.mp h).elim (fun h => .inl (h ▸ hseen)) .inr
        rw [work_skip] at hwork
        rw [if_pos hseen, ih hrest hskip (by omega)]
        refine ⟨fun h => h.imp_right fun ⟨y, hy, hlead⟩ => ⟨y, mem_cons_of_mem x hy, hlead⟩, ?_⟩
        rintro (h | ⟨y, hy, hlead⟩)
        · exact .inl h
        · rcases mem_cons.mp hy with rfl | hy
          · exact hskip.leads hseen hlead
          · exact .inr ⟨y, hy, hlead⟩
      · have hsee : Covered deps (seen.insert x) ((deps x).reverse ++ pending) := by
          intro v hv y hy
          simp only [mem_insert, mem_append, mem_reverse] at hv ⊢
          rcases hv with rfl | hv
          · exact .inr (.inl hy)
          · have hold := hcovered v hv y hy
            rw [mem_cons] at hold
            tauto
        have hnew : ∀ y ∈ (deps x).reverse ++ pending, y ∈ nodes := fun y hy =>
          (mem_append.mp hy).elim (fun h => hnodes x hx y (mem_reverse.mp h)) (hrest y)
        rw [work_see hx hseen] at hwork
        rw [if_neg hseen, ih hnew hsee (by omega)]
        simp only [mem_insert, mem_append, mem_reverse]
        constructor
        · rintro ((rfl | h) | ⟨y, hy | hy, hlead⟩)
          · exact .inr ⟨z, mem_cons_self, Relation.ReflTransGen.refl⟩
          · exact .inl h
          · exact .inr ⟨x, mem_cons_self, hlead.head hy⟩
          · exact .inr ⟨y, mem_cons_of_mem x hy, hlead⟩
        rintro (h | ⟨y, hy, hlead⟩)
        · exact .inl (.inr h)
        rcases mem_cons.mp hy with rfl | hy
        · rcases hlead.cases with rfl | ⟨w, hw, hlead⟩
          · exact .inl (.inl rfl)
          · exact .inr ⟨w, .inl hw, hlead⟩
        · exact .inr ⟨y, .inr hy, hlead⟩

/-- **The closure of a start is what it leads to.** -/
theorem mem_closure (hnodes : ∀ x ∈ nodes, ∀ y ∈ deps x, y ∈ nodes) {start z : α}
    (hstart : start ∈ nodes) :
    z ∈ closure deps (1 + ∑ x ∈ nodes, (deps x).length) SortedSet.empty [start] ↔
      Leads deps start z := by
  have hwork : work deps nodes SortedSet.empty [start] = 1 + ∑ x ∈ nodes, (deps x).length := by
    unfold work
    rw [Finset.filter_true_of_mem fun x _ => notMem_empty x]
    rfl
  have hcovered : Covered deps SortedSet.empty [start] :=
    fun x hx => absurd hx (notMem_empty x)
  rw [mem_closure_of_work hnodes (by simpa using hstart) hcovered hwork.le]
  simp [notMem_empty]

end Closure

/-! ## Marking what is pushed

A search that marks a node when it puts it on the stack looks at each node once; its start is not
marked, so it is found again only along a cycle. -/

section Marking

/-- Mark a node and put it on the stack, unless it is marked. -/
def mark (s : SortedSet α × List α) (y : α) : SortedSet α × List α :=
  if y ∈ s.1 then s else (s.1.insert y, y :: s.2)

variable {seen : SortedSet α} {stack : List α} {s : SortedSet α × List α} {x y start : α}

theorem mem_mark_seen : y ∈ (mark s x).1 ↔ y ∈ s.1 ∨ y = x := by
  unfold mark
  split
  · next hx => exact ⟨.inl, fun h => h.elim id fun h => h ▸ hx⟩
  · rw [mem_insert, or_comm]

theorem mem_mark_stack : y ∈ (mark s x).2 ↔ y ∈ s.2 ∨ y = x ∧ x ∉ s.1 := by
  unfold mark
  split
  · next hx => exact ⟨.inl, fun h => h.elim id fun h => absurd hx h.2⟩
  · next hx => rw [mem_cons, or_comm, and_iff_left hx]

theorem mem_foldl_mark_seen : ∀ {l : List α} {s : SortedSet α × List α},
    y ∈ (l.foldl mark s).1 ↔ y ∈ s.1 ∨ y ∈ l
  | [], s => by simp
  | x :: l, s => by
    rw [foldl_cons, mem_foldl_mark_seen, mem_mark_seen, mem_cons, or_assoc]

theorem mem_foldl_mark_stack : ∀ {l : List α} {s : SortedSet α × List α},
    y ∈ (l.foldl mark s).2 ↔ y ∈ s.2 ∨ y ∈ l ∧ y ∉ s.1
  | [], s => by simp
  | x :: l, s => by
    rw [foldl_cons, mem_foldl_mark_stack, mem_mark_stack, mem_mark_seen, mem_cons]
    by_cases hyx : y = x
    · subst hyx
      simp
    · simp [hyx]

/-- The looks that are left: the stack, and the nodes that may yet be put on it. -/
def looks (nodes : Finset α) (s : SortedSet α × List α) : ℕ :=
  s.2.length + (nodes.filter (· ∉ s.1)).card

variable {nodes : Finset α}

theorem looks_mark (hx : x ∈ nodes) : looks nodes (mark s x) = looks nodes s := by
  unfold mark
  split
  · rfl
  rename_i hseen
  have herase : nodes.filter (· ∉ s.1.insert x) = (nodes.filter (· ∉ s.1)).erase x := by
    ext y
    simp only [Finset.mem_filter, mem_insert, Finset.mem_erase, not_or]
    tauto
  have hmem : x ∈ nodes.filter (· ∉ s.1) := Finset.mem_filter.mpr ⟨hx, hseen⟩
  have hpos : 0 < (nodes.filter (· ∉ s.1)).card := Finset.card_pos.mpr ⟨x, hmem⟩
  simp only [looks, herase, Finset.card_erase_of_mem hmem, length_cons]
  omega

theorem looks_foldl_mark : ∀ {l : List α} {s : SortedSet α × List α}, (∀ x ∈ l, x ∈ nodes) →
    looks nodes (l.foldl mark s) = looks nodes s
  | [], _, _ => rfl
  | x :: l, s, h => by
    rw [foldl_cons, looks_foldl_mark fun y hy => h y (mem_cons_of_mem x hy),
      looks_mark (h x mem_cons_self)]

/-- **The invariant of a marking search**: what is marked lies behind the start, and a node that was
looked at has all its edges end in marked nodes. -/
structure Marking (step : α → α → Prop) (start : α) (s : SortedSet α × List α) : Prop where
  reached : ∀ y ∈ s.1, Relation.TransGen step start y
  stacked : ∀ x ∈ s.2, x = start ∨ x ∈ s.1
  looked : ∀ x, x = start ∨ x ∈ s.1 → x ∉ s.2 → ∀ y, step x y → y ∈ s.1

variable {step : α → α → Prop}

theorem Marking.init (step : α → α → Prop) (start : α) :
    Marking step start (SortedSet.empty, [start]) where
  reached y hy := absurd hy (notMem_empty y)
  stacked _ hx := .inl (mem_singleton.mp hx)
  looked x hx hnot :=
    hx.elim (fun h => absurd (mem_singleton.mpr h) hnot)
      fun h => absurd h (notMem_empty x)

theorem Marking.transGen (h : Marking step start (seen, x :: stack)) (hy : step x y) :
    Relation.TransGen step start y := by
  rcases h.stacked x mem_cons_self with rfl | hx
  · exact .single hy
  · exact (h.reached x hx).tail hy

/-- **One look**: the ends of the node's edges are marked. -/
theorem Marking.look (h : Marking step start (seen, x :: stack)) {ends : List α}
    (hends : ∀ y, y ∈ ends ↔ step x y) : Marking step start (ends.foldl mark (seen, stack)) where
  reached y hy := by
    rcases mem_foldl_mark_seen.mp hy with hy | hy
    · exact h.reached y hy
    · exact h.transGen ((hends y).mp hy)
  stacked z hz := by
    rw [mem_foldl_mark_seen]
    rcases mem_foldl_mark_stack.mp hz with hz | ⟨hz, -⟩
    · exact (h.stacked z (mem_cons_of_mem x hz)).imp_right .inl
    · exact .inr (.inr hz)
  looked z hz hnot y hy := by
    rw [mem_foldl_mark_seen] at hz ⊢
    rw [mem_foldl_mark_stack, not_or, not_and, not_not] at hnot
    by_cases hzx : z = x
    · exact .inr ((hends y).mpr (hzx ▸ hy))
    · -- a node that was marked just now is on the stack, so this one was known before
      have hold : z = start ∨ z ∈ seen := hz.imp_right fun hz => hz.elim id hnot.2
      have hoff : z ∉ x :: stack := fun hin => (mem_cons.mp hin).elim hzx hnot.1
      exact .inl (h.looked z hold hoff y hy)

/-- **With an empty stack the marked nodes are those behind the start.** -/
theorem Marking.done (h : Marking step start (seen, [])) (y : α) :
    y ∈ seen ↔ Relation.TransGen step start y := by
  refine ⟨h.reached y, fun hy => ?_⟩
  induction hy with
  | single hy => exact h.looked start (.inl rfl) not_mem_nil _ hy
  | tail _ hz ih => exact h.looked _ (.inr ih) not_mem_nil _ hz

end Marking

/-! ## Depth first -/

section Visit

/-- Mark the node, visit all that it depends on, and put it behind them. -/
def visit (deps : α → List α) : ℕ → SortedSet α × List α → α → SortedSet α × List α
  | 0, s, _ => s
  | n + 1, s, x =>
    if x ∈ s.1 then s
    else
      let s := (deps x).foldl (visit deps n) (s.1.insert x, s.2)
      (s.1, s.2 ++ [x])

omit [LinearOrder α] in
/-- **Every node stands behind all that it depends on.** -/
def Ordered (deps : α → List α) (l : List α) : Prop :=
  ∀ before x after, l = before ++ x :: after → ∀ y ∈ deps x, y ∈ before

omit [LinearOrder α] in
theorem Ordered.append_one {l : List α} {x : α} (h : Ordered deps l) (hx : ∀ y ∈ deps x, y ∈ l) :
    Ordered deps (l ++ [x]) := by
  intro before y after heq
  rcases eq_nil_or_concat after with rfl | ⟨after, z, rfl⟩
  · obtain ⟨rfl, hxy⟩ := append_inj' heq rfl
    obtain rfl := head_eq_of_cons_eq hxy
    exact hx
  · rw [concat_eq_append, ← cons_append, ← append_assoc] at heq
    exact h before y after (append_inj' heq rfl).1

omit [LinearOrder α] in
theorem Ordered.pairwise {l : List α} (h : Ordered deps l) (hl : l.Nodup) :
    l.Pairwise fun x y => x ≠ y ∧ y ∉ deps x := by
  induction l using List.reverseRecOn with
  | nil => exact List.Pairwise.nil
  | append_singleton l z ih =>
    obtain ⟨hl, -, hz⟩ := nodup_append.mp hl
    have hinit : Ordered deps l := fun before x after heq =>
      h before x (after ++ [z]) (by rw [heq, append_assoc, cons_append])
    refine pairwise_append.mpr ⟨ih hinit hl, pairwise_singleton _ _, fun x hx y hy => ?_⟩
    obtain rfl := mem_singleton.mp hy
    refine ⟨hz x hx y mem_cons_self, fun hdep => ?_⟩
    obtain ⟨before, after, rfl⟩ := append_of_mem hx
    have hmem := h before x (after ++ [y]) (by simp) y hdep
    exact hz y (mem_append_left _ hmem) y mem_cons_self rfl

/-- What holds of a search between visits: the order is sound so far, and its nodes are marked. -/
structure Good (deps : α → List α) (nodes : α → Prop) (s : SortedSet α × List α) : Prop where
  ordered : Ordered deps s.2
  nodup : s.2.Nodup
  marked : ∀ x ∈ s.2, x ∈ s.1
  inside : ∀ x ∈ s.1, nodes x

/-- A search has gone on: it marked exactly the nodes that it appended, all of a rank below `k`. -/
def Grows (rank : α → ℕ) (k : ℕ) (s s' : SortedSet α × List α) : Prop :=
  ∃ l, s'.2 = s.2 ++ l ∧ (∀ x, x ∈ s'.1 ↔ x ∈ s.1 ∨ x ∈ l) ∧ ∀ x ∈ l, rank x < k

/-- A node that is marked but not yet in the order has a rank of at least `k`: it is being visited. -/
def Above (rank : α → ℕ) (k : ℕ) (s : SortedSet α × List α) : Prop :=
  ∀ x ∈ s.1, x ∉ s.2 → k ≤ rank x

variable {nodes : α → Prop} {rank : α → ℕ} {j k : ℕ} {s t u : SortedSet α × List α}

theorem Grows.refl : Grows rank k s s := ⟨[], by simp, by simp, by simp⟩

theorem Grows.trans (h : Grows rank k s t) (h' : Grows rank k t u) : Grows rank k s u := by
  obtain ⟨l, hl, hmem, hrank⟩ := h
  obtain ⟨m, hm, hmem', hrank'⟩ := h'
  refine ⟨l ++ m, by rw [hm, hl, append_assoc], fun x => ?_, fun x hx => ?_⟩
  · rw [hmem', hmem, mem_append, or_assoc]
  · exact (mem_append.mp hx).elim (hrank x) (hrank' x)

theorem Grows.mono (h : Grows rank j s t) (hjk : j ≤ k) : Grows rank k s t :=
  h.imp fun _ h => ⟨h.1, h.2.1, fun x hx => (h.2.2 x hx).trans_le hjk⟩

theorem Grows.subset (h : Grows rank k s t) {x : α} (hx : x ∈ s.2) : x ∈ t.2 := by
  obtain ⟨l, hl, -⟩ := h
  exact hl ▸ mem_append_left l hx

theorem Above.of_grows (h : Above rank k s) (hgrows : Grows rank j s t) : Above rank k t := by
  obtain ⟨l, hl, hmem, -⟩ := hgrows
  intro x hx hout
  rw [hl, mem_append, not_or] at hout
  exact h x (((hmem x).mp hx).resolve_right hout.2) hout.1

/-- Visits one after another do what each of them does. -/
theorem foldl_spec {f : SortedSet α × List α → α → SortedSet α × List α} {xs : List α}
    (hstep : ∀ s, ∀ x ∈ xs, Good deps nodes s → Above rank k s →
      Good deps nodes (f s x) ∧ Grows rank k s (f s x) ∧ x ∈ (f s x).2)
    (hgood : Good deps nodes s) (habove : Above rank k s) :
    Good deps nodes (xs.foldl f s) ∧ Grows rank k s (xs.foldl f s) ∧
      ∀ x ∈ xs, x ∈ (xs.foldl f s).2 := by
  induction xs generalizing s with
  | nil => exact ⟨hgood, Grows.refl, by simp⟩
  | cons x xs ih =>
    obtain ⟨hgood', hgrows, hx⟩ := hstep s x mem_cons_self hgood habove
    obtain ⟨hgood'', hgrows', hxs⟩ := ih (fun s y hy => hstep s y (mem_cons_of_mem x hy))
      hgood' (habove.of_grows hgrows)
    exact ⟨hgood'', hgrows.trans hgrows', forall_mem_cons.mpr ⟨hgrows'.subset hx, hxs⟩⟩

/-- **A visit puts a node into the order**, given that no node of its rank is being visited. -/
theorem visit_spec (hrank : ∀ x, nodes x → ∀ y ∈ deps x, rank y < rank x)
    (hclosed : ∀ x, nodes x → ∀ y ∈ deps x, nodes y) {n : ℕ} {x : α} (hx : nodes x)
    (hn : rank x < n) (hgood : Good deps nodes s) (habove : Above rank (rank x + 1) s) :
    Good deps nodes (visit deps n s x) ∧ Grows rank (rank x + 1) s (visit deps n s x) ∧
      x ∈ (visit deps n s x).2 := by
  induction n generalizing x s with
  | zero => omega
  | succ n ih =>
    simp only [visit]
    by_cases hmarked : x ∈ s.1
    · rw [if_pos hmarked]
      refine ⟨hgood, Grows.refl, ?_⟩
      by_contra hout
      have hle := habove x hmarked hout
      omega
    rw [if_neg hmarked]
    have hout : x ∉ s.2 := fun h => hmarked (hgood.marked x h)
    have hmark : Good deps nodes (s.1.insert x, s.2) := ⟨hgood.ordered, hgood.nodup,
      fun y hy => mem_insert.mpr (.inr (hgood.marked y hy)), fun y hy =>
        (mem_insert.mp hy).elim (fun h => h ▸ hx) (hgood.inside y)⟩
    have habove' : Above rank (rank x) (s.1.insert x, s.2) := by
      intro y hy hyout
      rcases mem_insert.mp hy with rfl | hy
      · exact le_rfl
      · exact (Nat.le_succ _).trans (habove y hy hyout)
    have hstep : ∀ s, ∀ y ∈ deps x, Good deps nodes s → Above rank (rank x) s →
        Good deps nodes (visit deps n s y) ∧ Grows rank (rank x) s (visit deps n s y) ∧
          y ∈ (visit deps n s y).2 := by
      intro s y hy hgood habove
      have hlt := hrank x hx y hy
      obtain ⟨hgood', hgrows, hmem⟩ := ih (hclosed x hx y hy) (by omega) hgood
        fun z hz hzout => (Nat.succ_le_of_lt hlt).trans (habove z hz hzout)
      exact ⟨hgood', hgrows.mono (Nat.succ_le_of_lt hlt), hmem⟩
    obtain ⟨hgood', ⟨l, hl, hmem, hlow⟩, hall⟩ := foldl_spec hstep hmark habove'
    generalize (deps x).foldl (visit deps n) (s.1.insert x, s.2) = t at hgood' hl hmem hall
    have hfresh : x ∉ t.2 := by
      rw [hl, mem_append, not_or]
      exact ⟨hout, fun h => lt_irrefl _ (hlow x h)⟩
    refine ⟨⟨hgood'.ordered.append_one hall, ?_, ?_, hgood'.inside⟩, ⟨l ++ [x], ?_, ?_, ?_⟩, ?_⟩
    · exact nodup_append.mpr ⟨hgood'.nodup, by simp, by
        rintro y hy z hz rfl
        exact hfresh (mem_singleton.mp hz ▸ hy)⟩
    · intro y hy
      rcases mem_append.mp hy with hy | hy
      · exact hgood'.marked y hy
      · rw [mem_singleton.mp hy]
        exact (hmem x).mpr (.inl (mem_insert.mpr (.inl rfl)))
    · simp [hl]
    · intro y
      rw [hmem, mem_insert, mem_append, mem_singleton]
      tauto
    · intro y hy
      rcases mem_append.mp hy with hy | hy
      · exact (hlow y hy).trans (Nat.lt_succ_self _)
      · rw [mem_singleton.mp hy]
        exact Nat.lt_succ_self _
    · exact mem_append_right _ mem_cons_self

/-- **Visiting every node gives an order of all of them** in which each stands behind all that it
depends on. -/
theorem visit_all (nodes : α → Prop) (rank : α → ℕ)
    (hrank : ∀ x, nodes x → ∀ y ∈ deps x, rank y < rank x)
    (hclosed : ∀ x, nodes x → ∀ y ∈ deps x, nodes y) {n : ℕ} (hn : ∀ x, nodes x → rank x < n)
    {xs : List α} (hxs : ∀ x ∈ xs, nodes x) :
    Good deps nodes (xs.foldl (visit deps n) (SortedSet.empty, [])) ∧
      ∀ x ∈ xs, x ∈ (xs.foldl (visit deps n) (SortedSet.empty, [])).2 := by
  have hempty : Good deps nodes (SortedSet.empty, []) :=
    ⟨fun before x after h => by simp at h, nodup_nil, by simp,
      fun x hx => absurd hx (notMem_empty x)⟩
  have hstep : ∀ s, ∀ x ∈ xs, Good deps nodes s → Above rank n s →
      Good deps nodes (visit deps n s x) ∧ Grows rank n s (visit deps n s x) ∧
        x ∈ (visit deps n s x).2 := by
    intro s x hx hgood habove
    have hlt := hn x (hxs x hx)
    obtain ⟨hgood', hgrows, hmem⟩ := visit_spec hrank hclosed (hxs x hx) hlt hgood
      fun z hz hzout => (Nat.succ_le_of_lt hlt).trans (habove z hz hzout)
    exact ⟨hgood', hgrows.mono (Nat.succ_le_of_lt hlt), hmem⟩
  obtain ⟨hgood, -, hall⟩ := foldl_spec hstep hempty
    fun x hx => absurd hx (notMem_empty x)
  exact ⟨hgood, hall⟩

end Visit

end Search
