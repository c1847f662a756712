import Mathlib.Algebra.Group.Defs
import Mathlib.Order.Lattice
import Mathlib.Tactic.Ring

/-!
# Lib/JoinTree — balanced trees of leaves that are joined and taken apart

Every node keeps a summary of the items below it and its height.  Trees are put together by `join`,
which goes down the taller of the two until the heights fit, and rotates on the way back.  A node whose
children are read is a branch; the functions answer `none` where it is not.
-/

/-- A tree with items at its leaves. -/
inductive JoinTree (σ α : Type*)
  | leaf (summary : σ) (height : ℕ) (item : α)
  | branch (summary : σ) (height : ℕ) (left right : JoinTree σ α)

namespace JoinTree

variable {σ α : Type*}

def summary : JoinTree σ α → σ
  | leaf s _ _ => s
  | branch s _ _ _ => s

def height : JoinTree σ α → ℕ
  | leaf _ h _ => h
  | branch _ h _ _ => h

@[simp] theorem height_leaf (s : σ) (h : ℕ) (a : α) : (leaf s h a).height = h := rfl

@[simp] theorem height_branch (s : σ) (h : ℕ) (left right : JoinTree σ α) :
    (branch s h left right).height = h := rfl

def children : JoinTree σ α → Option (JoinTree σ α × JoinTree σ α)
  | leaf _ _ _ => none
  | branch _ _ left right => some (left, right)

/-- The items from left to right. -/
def items : JoinTree σ α → List α
  | leaf _ _ a => [a]
  | branch _ _ left right => left.items ++ right.items

/-- The height, counted. -/
def depth : JoinTree σ α → ℕ
  | leaf _ _ _ => 1
  | branch _ _ left right => max left.depth right.depth + 1

/-- A tree and all trees below it. -/
def subtrees : JoinTree σ α → List (JoinTree σ α)
  | leaf s h a => [leaf s h a]
  | branch s h left right => branch s h left right :: (left.subtrees ++ right.subtrees)

section Operations

variable [Add σ]

/-- A branch whose summary and height are those of its children. -/
def node (left right : JoinTree σ α) : JoinTree σ α :=
  branch (left.summary + right.summary) (max left.height right.height + 1) left right

/-- A branch of two trees whose heights differ by two at most. -/
def balance (left right : JoinTree σ α) : Option (JoinTree σ α) :=
  if right.height + 1 < left.height then do
    let (a, b) ← left.children
    if b.height ≤ a.height then some (node a (node b right))
    else do
      let (b₁, b₂) ← b.children
      some (node (node a b₁) (node b₂ right))
  else if left.height + 1 < right.height then do
    let (b, c) ← right.children
    if b.height ≤ c.height then some (node (node left b) c)
    else do
      let (b₁, b₂) ← b.children
      some (node (node left b₁) (node b₂ c))
  else some (node left right)

/-- Two trees one after the other. -/
def join (left right : JoinTree σ α) : Option (JoinTree σ α) :=
  if right.height + 1 < left.height then
    match left with
    | leaf _ _ _ => none
    | branch _ _ a b => do balance a (← join b right)
  else if left.height + 1 < right.height then
    match right with
    | leaf _ _ _ => none
    | branch _ _ b c => do balance (← join left b) c
  else some (node left right)
termination_by sizeOf left + sizeOf right

/-- Two trees one after the other, each of them possibly missing. -/
def joinRoots : Option (JoinTree σ α) → Option (JoinTree σ α) → Option (Option (JoinTree σ α))
  | none, right => some right
  | left, none => some left
  | some left, some right => (join left right).map some

@[simp] theorem height_node (left right : JoinTree σ α) :
    (node left right).height = max left.height right.height + 1 := rfl

@[simp] theorem items_node (left right : JoinTree σ α) :
    (node left right).items = left.items ++ right.items := rfl

end Operations

/-- The items of a tree that may be missing. -/
def rootItems (root : Option (JoinTree σ α)) : List α := root.elim [] items

@[simp] theorem rootItems_none : rootItems (none : Option (JoinTree σ α)) = [] := rfl

@[simp] theorem rootItems_some (t : JoinTree σ α) : rootItems (some t) = t.items := rfl

/-! ## Trees whose caches are right -/

section Check

variable [Add σ] {measure : α → σ} {t left right : JoinTree σ α}

/-- Every node keeps the summary and the height of what is below it, and the heights of two children
differ by one at most. -/
def Check (measure : α → σ) : JoinTree σ α → Prop
  | leaf s h a => s = measure a ∧ h = 1
  | branch s h left right => left.Check measure ∧ right.Check measure ∧
      left.height ≤ right.height + 1 ∧ right.height ≤ left.height + 1 ∧
      h = max left.height right.height + 1 ∧ s = left.summary + right.summary

theorem Check.height_pos (h : t.Check measure) : 0 < t.height := by
  match t, h with
  | leaf _ _ _, h => exact h.2 ▸ Nat.one_pos
  | branch _ _ _ _, h => exact h.2.2.2.2.1 ▸ Nat.succ_pos _

theorem Check.node (hleft : left.Check measure) (hright : right.Check measure)
    (h : left.height ≤ right.height + 1) (h' : right.height ≤ left.height + 1) :
    (node left right).Check measure := ⟨hleft, hright, h, h', rfl, rfl⟩

/-- A tree that is higher than a leaf has children. -/
theorem Check.exists_children (h : t.Check measure) (hheight : 1 < t.height) :
    ∃ a b, t.children = some (a, b) ∧ a.Check measure ∧ b.Check measure ∧
      a.height ≤ b.height + 1 ∧ b.height ≤ a.height + 1 ∧ t.height = max a.height b.height + 1 ∧
      t.items = a.items ++ b.items := by
  match t, h with
  | leaf _ _ _, h => exact absurd h.2 (Nat.ne_of_gt hheight)
  | branch _ _ a b, h => exact ⟨a, b, rfl, h.1, h.2.1, h.2.2.1, h.2.2.2.1, h.2.2.2.2.1, rfl⟩

theorem Check.depth_eq : ∀ {t : JoinTree σ α}, t.Check measure → t.depth = t.height
  | leaf _ _ _, h => h.2.symm
  | branch _ _ _ _, h => by
    obtain ⟨hleft, hright, -, -, hheight, -⟩ := h
    rw [depth, hleft.depth_eq, hright.depth_eq, height_branch, hheight]

/-- What is below a tree that is right, is right. -/
theorem Check.of_mem_subtrees : ∀ {t u : JoinTree σ α}, t.Check measure → u ∈ t.subtrees →
    u.Check measure ∧ u.items ⊆ t.items
  | leaf _ _ _, u, h, hu => by
    obtain rfl := List.mem_singleton.mp hu
    exact ⟨h, fun _ hx => hx⟩
  | branch _ _ left right, u, h, hu => by
    rcases List.mem_cons.mp hu with rfl | hu
    · exact ⟨h, fun _ hx => hx⟩
    rcases List.mem_append.mp hu with hu | hu
    · obtain ⟨hcheck, hitems⟩ := h.1.of_mem_subtrees hu
      exact ⟨hcheck, fun _ hx => List.mem_append_left _ (hitems hx)⟩
    · obtain ⟨hcheck, hitems⟩ := h.2.1.of_mem_subtrees hu
      exact ⟨hcheck, fun _ hx => List.mem_append_right _ (hitems hx)⟩

/-- What is known of two trees put together. -/
structure Joined (measure : α → σ) (left right t : JoinTree σ α) : Prop where
  check : t.Check measure
  items : t.items = left.items ++ right.items
  le_height : max left.height right.height ≤ t.height
  height_le : t.height ≤ max left.height right.height + 1

/-- **Rotations** restore the balance of two trees whose heights differ by two. -/
theorem exists_balance (hleft : left.Check measure) (hright : right.Check measure)
    (h : left.height ≤ right.height + 2) (h' : right.height ≤ left.height + 2) :
    ∃ t, balance left right = some t ∧ Joined measure left right t ∧
      (left.height ≤ right.height + 1 → right.height ≤ left.height + 1 →
        t.height = max left.height right.height + 1) := by
  have hl := hleft.height_pos
  have hr := hright.height_pos
  unfold balance
  split
  · next htall =>
    obtain ⟨a, b, hchildren, ha, hb, hab, hba, hheight, hitems⟩ := hleft.exists_children (by omega)
    have hpos := ha.height_pos
    rw [hchildren, Option.bind_eq_bind, Option.bind_some]
    dsimp only
    split
    · next hle =>
      exact ⟨_, rfl, ⟨ha.node (hb.node hright (by omega) (by omega)) (by simp; omega) (by simp; omega),
        by simp [hitems], by simp; omega, by simp; omega⟩, fun _ _ => by omega⟩
    rename_i hgt
    obtain ⟨b₁, b₂, hchildren', hb₁, hb₂, hb₁₂, hb₂₁, hheight', hitems'⟩ :=
      hb.exists_children (by omega)
    rw [hchildren', Option.bind_some]
    exact ⟨_, rfl, ⟨(ha.node hb₁ (by omega) (by omega)).node (hb₂.node hright (by omega) (by omega))
      (by simp; omega) (by simp; omega), by simp [hitems, hitems'], by simp; omega, by simp; omega⟩,
      fun _ _ => by omega⟩
  · next hshort =>
    split
    · next htall =>
      obtain ⟨b, c, hchildren, hb, hc, hbc, hcb, hheight, hitems⟩ := hright.exists_children (by omega)
      have hpos := hc.height_pos
      rw [hchildren, Option.bind_eq_bind, Option.bind_some]
      dsimp only
      split
      · next hle =>
        exact ⟨_, rfl, ⟨(hleft.node hb (by omega) (by omega)).node hc (by simp; omega)
          (by simp; omega),
          by simp [hitems], by simp; omega, by simp; omega⟩, fun _ _ => by omega⟩
      rename_i hgt
      obtain ⟨b₁, b₂, hchildren', hb₁, hb₂, hb₁₂, hb₂₁, hheight', hitems'⟩ :=
        hb.exists_children (by omega)
      rw [hchildren', Option.bind_some]
      exact ⟨_, rfl, ⟨(hleft.node hb₁ (by omega) (by omega)).node (hb₂.node hc (by omega) (by omega))
        (by simp; omega) (by simp; omega), by simp [hitems, hitems'], by simp; omega, by simp; omega⟩,
        fun _ _ => by omega⟩
    · next hlong =>
      exact ⟨_, rfl, ⟨hleft.node hright (by omega) (by omega), rfl, Nat.le_succ _, le_rfl⟩,
        fun _ _ => rfl⟩

/-- **Joining** keeps the tree balanced and its items in order. -/
theorem exists_join (left right : JoinTree σ α) (hleft : left.Check measure)
    (hright : right.Check measure) : ∃ t, join left right = some t ∧ Joined measure left right t := by
  rw [join.eq_def]
  split
  · next htall =>
    match left, hleft with
    | leaf _ _ _, hleft => exact absurd htall (by rw [height_leaf, hleft.2]; omega)
    | branch s h a b, hleft =>
      obtain ⟨ha, hb, hab, hba, hheight, -⟩ := hleft
      rw [height_branch] at htall
      -- what is joined below is as high as `b`, or higher by one
      obtain ⟨t, hjoin, hjoined⟩ := exists_join b right hb hright
      have hlow := hjoined.le_height
      have hhigh := hjoined.height_le
      obtain ⟨t', hbalance, hjoined', hflat⟩ := exists_balance ha hjoined.check (by omega) (by omega)
      have hlow' := hjoined'.le_height
      have hhigh' := hjoined'.height_le
      refine ⟨t', ?_, hjoined'.check, ?_, ?_, ?_⟩
      · dsimp only
        rwa [hjoin, Option.bind_eq_bind, Option.bind_some]
      · rw [hjoined'.items, hjoined.items, items, List.append_assoc]
      · rw [height_branch]
        omega
      · rw [height_branch]
        omega
  · next hshort =>
    split
    · next htall =>
      match right, hright with
      | leaf _ _ _, hright => exact absurd htall (by rw [height_leaf, hright.2]; omega)
      | branch s h b c, hright =>
        obtain ⟨hb, hc, hbc, hcb, hheight, -⟩ := hright
        rw [height_branch] at htall
        obtain ⟨t, hjoin, hjoined⟩ := exists_join left b hleft hb
        have hlow := hjoined.le_height
        have hhigh := hjoined.height_le
        obtain ⟨t', hbalance, hjoined', hflat⟩ := exists_balance hjoined.check hc (by omega) (by omega)
        have hlow' := hjoined'.le_height
        have hhigh' := hjoined'.height_le
        refine ⟨t', ?_, hjoined'.check, ?_, ?_, ?_⟩
        · dsimp only
          rwa [hjoin, Option.bind_eq_bind, Option.bind_some]
        · rw [hjoined'.items, hjoined.items, items, List.append_assoc]
        · rw [height_branch]
          omega
        · rw [height_branch]
          omega
    · next hlong =>
      exact ⟨_, rfl, hleft.node hright (by omega) (by omega), rfl, Nat.le_succ _, le_rfl⟩
termination_by sizeOf left + sizeOf right

/-- A tree that may be missing and is balanced if it is there. -/
def RootCheck (measure : α → σ) (root : Option (JoinTree σ α)) : Prop := ∀ t ∈ root, t.Check measure

theorem rootCheck_none : RootCheck measure none := nofun

theorem rootCheck_some (h : t.Check measure) : RootCheck measure (some t) := by
  rintro t' ⟨⟩
  exact h

theorem exists_joinRoots {left right : Option (JoinTree σ α)} (hleft : RootCheck measure left)
    (hright : RootCheck measure right) : ∃ root, joinRoots left right = some root ∧
      RootCheck measure root ∧ rootItems root = rootItems left ++ rootItems right := by
  match left, right with
  | none, right => exact ⟨right, rfl, hright, rfl⟩
  | some left, none => exact ⟨some left, rfl, hleft, (List.append_nil _).symm⟩
  | some left, some right =>
    obtain ⟨t, hjoin, hjoined⟩ := exists_join left right (hleft left rfl) (hright right rfl)
    exact ⟨some t, by rw [joinRoots, hjoin, Option.map_some], rootCheck_some hjoined.check,
                        hjoined.items⟩

/-- **The summary of the root sums up the items**, read by any part of the summary that adds up. -/
theorem Check.summary_eq (f : σ → ℕ) (hf : ∀ s s', f (s + s') = f s + f s') :
    ∀ {t : JoinTree σ α}, t.Check measure → f t.summary = (t.items.map fun a => f (measure a)).sum
  | leaf _ _ _, h => by simp [summary, items, h.1]
  | branch _ _ left right, h => by
    obtain ⟨hl, hr, -, -, -, hsummary⟩ := h
    rw [summary, hsummary, hf, hl.summary_eq f hf, hr.summary_eq f hf, items, List.map_append,
      List.sum_append]

/-- **A balanced tree is low**: its items double whenever its height grows by two. -/
theorem Check.two_pow_le : ∀ {t : JoinTree σ α}, t.Check measure → 2 ^ (t.height / 2) ≤ t.items.length
  | leaf _ _ _, h => by simp [height, items, h.2]
  | branch _ _ left right, h => by
    obtain ⟨hl, hr, hlr, hrl, hheight, -⟩ := h
    have hleft := hl.two_pow_le
    have hright := hr.two_pow_le
    rw [height, hheight, items, List.length_append]
    have hlow : (max left.height right.height - 1) / 2 ≤ left.height / 2 ∧
        (max left.height right.height - 1) / 2 ≤ right.height / 2 := by omega
    have hleft' := (Nat.pow_le_pow_right Nat.two_pos hlow.1).trans hleft
    have hright' := (Nat.pow_le_pow_right Nat.two_pos hlow.2).trans hright
    have hpos := hl.height_pos
    have hsucc : (max left.height right.height + 1) / 2 =
      (max left.height right.height - 1) / 2 + 1 := by
      omega
    rw [hsucc, Nat.pow_succ]
    omega

end Check

end JoinTree
