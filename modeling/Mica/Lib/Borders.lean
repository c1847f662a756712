import Mathlib.Data.List.Infix

/-!
# Lib/Borders — finding a word in a text by the borders of the word

The search reads a text once and keeps the length of the longest beginning of the word that the text
read so far ends with.  Where the next item does not go on with that beginning, it falls back to the
next shorter one, which a table of borders tells.  The table is built by the same steps, reading the
word without its first item.
-/

open List

namespace Borders

variable {α : Type*} [DecidableEq α] {word text text' : List α} {prefixes : List ℕ} {x : α} {k m : ℕ}

/-! ## The search -/

/-- The loop that falls back to shorter beginnings; each round shortens them. -/
def fallback (word : List α) (prefixes : List ℕ) (x : α) : ℕ → ℕ → ℕ
  | 0, matched => matched
  | fuel + 1, matched =>
    if 0 < matched ∧ word[matched]? ≠ some x then
      fallback word prefixes x fuel (prefixes.getD (matched - 1) 0)
    else matched

/-- One more item. -/
def advance (word : List α) (prefixes : List ℕ) (x : α) (matched : ℕ) : ℕ :=
  let matched := fallback word prefixes x matched matched
  if word[matched]? = some x then matched + 1 else matched

/-- One entry of the table. -/
def fill (word : List α) (state : List ℕ × ℕ) (index : ℕ) : List ℕ × ℕ :=
  match word[index]? with
  | some x =>
    let matched := advance word state.1 x state.2
    (state.1.set index matched, matched)
  | none => state

/-- The table of borders. -/
def table (word : List α) : List ℕ :=
  ((List.range' 1 (word.length - 1)).foldl (fill word) (List.replicate word.length 0, 0)).1

/-- A search under way. -/
structure Progress where
  matched : ℕ
  position : ℕ
  found : Option ℕ

/-- A part of the text; the result tells whether to go on. -/
def visit (word : List α) (prefixes : List ℕ) : Progress → List α → Progress × Bool
  | state, [] => (state, true)
  | state, x :: text =>
    let matched := advance word prefixes x state.matched
    let position := state.position + 1
    if matched = word.length then (⟨matched, position, some (position - matched)⟩, false)
    else visit word prefixes ⟨matched, position, state.found⟩ text

/-! ## The longest beginning a text ends with -/

/-- The longest beginning of a word that a text ends with. -/
structure Longest (word text : List α) (k : ℕ) : Prop where
  le : k ≤ word.length
  suffix : word.take k <:+ text
  max : ∀ j ≤ word.length, word.take j <:+ text → j ≤ k

/-- The entries of the table that are known: those below a number. -/
def Known (word : List α) (prefixes : List ℕ) (n : ℕ) : Prop :=
  ∀ i < n, Longest word (word.tail.take i) (prefixes.getD i 0)

omit [DecidableEq α] in
theorem Longest.nil (word : List α) : Longest word [] 0 where
  le := Nat.zero_le _
  suffix := nil_suffix
  max j hj h := by
    have hlen := h.length_le
    rw [length_take, length_nil] at hlen
    omega

omit [DecidableEq α] in
/-- A beginning grows by the item that it is followed by. -/
theorem take_succ_suffix_iff (hk : k < word.length) :
    word.take (k + 1) <:+ text ++ [x] ↔ word.take k <:+ text ∧ word[k]? = some x := by
  rw [take_add_one, getElem?_eq_getElem hk, Option.toList_some]
  have hinj : word.take k ++ [word[k]] <:+ text ++ [x] ↔ word.take k <:+ text ∧ [word[k]] = [x] :=
    suffix_append_inj_of_length_eq rfl
  rw [hinj, singleton_inj, Option.some_inj]

/-- What falling back keeps: the text ends with the beginning, and no longer one goes on. -/
structure Candidate (word text : List α) (x : α) (k : ℕ) : Prop where
  lt : k < word.length
  suffix : word.take k <:+ text
  max : ∀ j < word.length, word.take (j + 1) <:+ text ++ [x] → j ≤ k

omit [DecidableEq α] in
theorem Longest.candidate (h : Longest word text k) (hlt : k < word.length) :
    Candidate word text x k where
  lt := hlt
  suffix := h.suffix
  max j hj hend := h.max j hj.le ((take_succ_suffix_iff hj).mp hend).1

omit [DecidableEq α] in
/-- The next shorter beginning that the text ends with is the longest border. -/
theorem Candidate.shorten (h : Candidate word text x k) (hknown : Known word prefixes k) (hk : 0 < k)
    (hne : word[k]? ≠ some x) : Candidate word text x (prefixes.getD (k - 1) 0) := by
  have hborder := hknown (k - 1) (Nat.sub_lt hk Nat.one_pos)
  have htail : word.tail.take (k - 1) = (word.take k).tail := by
    rw [← drop_one, ← drop_one, drop_take]
  have hlen : (word.tail.take (k - 1)).length ≤ k - 1 := length_take_le _ _
  have hshort : prefixes.getD (k - 1) 0 ≤ k - 1 := by
    have hle := hborder.suffix.length_le
    rw [length_take, min_eq_left hborder.le] at hle
    omega
  have hk' := h.lt
  refine ⟨by omega, ?_, fun j hj hend => ?_⟩
  · rw [htail] at hborder
    exact hborder.suffix.trans ((tail_suffix _).trans h.suffix)
  obtain ⟨hsuffix, hnext⟩ := (take_succ_suffix_iff hj).mp hend
  have hle := h.max j hj hend
  have hjk : j ≠ k := by
    rintro rfl
    exact hne hnext
  refine hborder.max j hj.le ?_
  rw [htail]
  -- both are suffixes of the text, and the longer beginning without its first item is long enough
  refine suffix_of_suffix_length_le hsuffix ((tail_suffix _).trans h.suffix) ?_
  rw [length_tail, length_take, length_take]
  omega

theorem candidate_fallback : ∀ {fuel k : ℕ}, k ≤ fuel → Known word prefixes k →
    Candidate word text x k →
    Candidate word text x (fallback word prefixes x fuel k) ∧
      (fallback word prefixes x fuel k = 0 ∨ word[fallback word prefixes x fuel k]? = some x)
  | 0, k, hle, _, h => by
    obtain rfl := Nat.le_zero.mp hle
    exact ⟨h, .inl rfl⟩
  | fuel + 1, k, hle, hknown, h => by
    rw [fallback]
    split
    · next hback =>
      have hshort : prefixes.getD (k - 1) 0 < k := by
        have hborder := hknown (k - 1) (Nat.sub_lt hback.1 Nat.one_pos)
        have hlen := hborder.suffix.length_le
        rw [length_take, length_take, min_eq_left hborder.le] at hlen
        omega
      exact candidate_fallback (by omega) (fun i hi => hknown i (hi.trans hshort))
        (h.shorten hknown hback.1 hback.2)
    · next hstay =>
      rw [not_and_or, not_lt, Nat.le_zero, not_not] at hstay
      exact ⟨h, hstay⟩

/-- **One more item**: the search keeps the longest beginning that the text ends with. -/
theorem Longest.advance (h : Longest word text k) (hlt : k < word.length)
    (hknown : Known word prefixes k) : Longest word (text ++ [x]) (advance word prefixes x k) := by
  obtain ⟨hcand, hexit⟩ := candidate_fallback le_rfl hknown (h.candidate (x := x) hlt)
  unfold Borders.advance
  dsimp only
  generalize fallback word prefixes x k k = r at hcand hexit
  have hmax : ∀ j ≤ word.length, word.take j <:+ text ++ [x] → j ≤ r + 1 := by
    intro j hj hend
    match j with
    | 0 => exact Nat.zero_le _
    | j + 1 => exact Nat.succ_le_succ (hcand.max j hj hend)
  split
  · next hnext => exact ⟨hcand.lt, (take_succ_suffix_iff hcand.lt).mpr ⟨hcand.suffix, hnext⟩, hmax⟩
  rename_i hnext
  obtain rfl := hexit.resolve_right hnext
  refine ⟨Nat.zero_le _, nil_suffix, fun j hj hend => ?_⟩
  match j with
  | 0 => exact le_rfl
  | j + 1 =>
    have hzero := Nat.le_zero.mp (hcand.max j hj hend)
    subst hzero
    exact absurd ((take_succ_suffix_iff hj).mp hend).2 hnext

/-! ## The table -/

omit [DecidableEq α] in
theorem Known.set {n : ℕ} (h : Known word prefixes n) (hn : n < prefixes.length)
    (hk : Longest word (word.tail.take n) k) : Known word (prefixes.set n k) (n + 1) := by
  intro i hi
  rw [getD_eq_getElem?_getD, getElem?_set]
  split
  · next heq =>
    subst heq
    exact hk
  · next hne =>
    rw [← getD_eq_getElem?_getD]
    exact h i (by omega)

/-- The table after some of its entries are filled. -/
structure Filled (word : List α) (n : ℕ) (state : List ℕ × ℕ) : Prop where
  length : state.1.length = word.length
  known : Known word state.1 (n + 1)
  longest : Longest word (word.tail.take n) state.2

theorem Filled.fill {n : ℕ} {state : List ℕ × ℕ} (h : Filled word n state)
    (hn : n + 1 < word.length) : Filled word (n + 1) (fill word state (n + 1)) := by
  have htail : word.tail.take (n + 1) = word.tail.take n ++ [word[n + 1]] := by
    rw [take_add_one, getElem?_tail, getElem?_eq_getElem hn]
    rfl
  have hshort : state.2 ≤ n := by
    have hlen := h.longest.suffix.length_le
    rw [length_take, length_take, min_eq_left h.longest.le] at hlen
    omega
  have hlongest : Longest word (word.tail.take (n + 1))
    (advance word state.1 word[n + 1] state.2) := by
    rw [htail]
    exact h.longest.advance (by omega) fun i hi => h.known i (by omega)
  unfold Borders.fill
  rw [getElem?_eq_getElem hn]
  refine ⟨?_, h.known.set ?_ hlongest, hlongest⟩
  · rw [length_set]
    exact h.length
  · rwa [h.length]

/-- **Every entry of the table is the longest border.** -/
theorem known_table (word : List α) : Known word (table word) word.length := by
  have hrun : ∀ n, n < word.length →
      Filled word n ((List.range' 1 n).foldl (Borders.fill word)
        (List.replicate word.length 0, 0)) := by
    intro n
    induction n with
    | zero =>
      refine fun _ => ⟨length_replicate, fun i hi => ?_, Longest.nil word⟩
      obtain rfl := Nat.lt_one_iff.mp hi
      have hzero : (List.replicate word.length 0).getD 0 0 = 0 := by
        cases word.length <;> rfl
      change Longest word [] ((List.replicate word.length 0).getD 0 0)
      rw [hzero]
      exact Longest.nil word
    | succ n ih =>
      intro hn
      rw [range'_concat, foldl_append, Nat.one_mul, Nat.add_comm 1 n]
      exact (ih (by omega)).fill hn
  intro i hi
  have hlast := (hrun (word.length - 1) (by omega)).known
  exact hlast i (by omega)

/-! ## Where the word stands first -/

/-- The first place of a word in a text. -/
def FirstAt (word text : List α) (i : ℕ) : Prop :=
  word <+: text.drop i ∧ ∀ j < i, ¬ word <+: text.drop j

/-- A search that has read a text in which the word does not stand. -/
structure Scanned (word text : List α) (base : ℕ) (state : Progress) : Prop where
  longest : Longest word text state.matched
  position : state.position = base + text.length
  found : state.found = none
  absent : ¬ word <:+: text

omit [DecidableEq α] in
theorem Scanned.lt {base : ℕ} {state : Progress} (h : Scanned word text base state) :
    state.matched < word.length := by
  refine lt_of_le_of_ne h.longest.le fun heq => h.absent ?_
  have hsuffix := h.longest.suffix
  rw [heq, take_length] at hsuffix
  exact hsuffix.isInfix

omit [DecidableEq α] in
theorem Scanned.start (hword : word ≠ []) (base : ℕ) : Scanned word [] base ⟨0, base, none⟩ where
  longest := Longest.nil word
  position := rfl
  found := rfl
  absent h := hword (infix_nil.mp h)

omit [DecidableEq α] in
/-- The first end of the word in a text is the end of its first place. -/
theorem firstAt_of_suffix (habsent : ¬ word <:+: text) (hend : word <:+ text ++ [x])
    (rest : List α) : FirstAt word (text ++ x :: rest) (text.length + 1 - word.length) := by
  obtain ⟨before, heq⟩ := hend
  have hlen := congrArg List.length heq
  rw [length_append, length_append, length_singleton] at hlen
  have hwhole : text ++ x :: rest = before ++ (word ++ rest) := by
    rw [← append_assoc, heq, append_assoc, singleton_append]
  have hplace : text.length + 1 - word.length = before.length := by omega
  refine ⟨?_, fun j hj hearlier => habsent ?_⟩
  · rw [hplace, hwhole, drop_left]
    exact prefix_append _ _
  -- an earlier place ends before the last item
  have hfits : j ≤ text.length := by omega
  rw [drop_append_of_le_length hfits] at hearlier
  have hin : word <+: text.drop j := by
    refine prefix_of_prefix_length_le hearlier (prefix_append _ _) ?_
    rw [length_drop]
    omega
  exact hin.isInfix.trans (drop_suffix j text).isInfix

/-- **The search** goes on while the word is absent, and stops at its first place. -/
theorem Scanned.visit {base : ℕ} (hknown : Known word prefixes word.length) :
    ∀ (text' : List α) {text : List α} {state : Progress}, Scanned word text base state →
      (∃ state', visit word prefixes state text' = (state', true) ∧
          Scanned word (text ++ text') base state') ∨
      (∃ state' i, visit word prefixes state text' = (state', false) ∧
          state'.found = some (base + i) ∧ FirstAt word (text ++ text') i)
  | [], text, state, h => by
    refine .inl ⟨state, rfl, ?_⟩
    rwa [append_nil]
  | x :: text', text, state, h => by
    have hlongest : Longest word (text ++ [x]) (Borders.advance word prefixes x state.matched) :=
      h.longest.advance h.lt fun i hi => hknown i (hi.trans h.lt)
    rw [Borders.visit]
    split
    · next hall =>
      rw [hall] at hlongest
      have hend := hlongest.suffix
      rw [take_length] at hend
      refine .inr ⟨_, text.length + 1 - word.length, rfl, ?_, firstAt_of_suffix h.absent hend text'⟩
      have hlen := hend.length_le
      rw [length_append, length_singleton] at hlen
      rw [hall, h.position, ← Nat.add_sub_assoc hlen, Nat.add_assoc]
    rename_i hpart
    have hassoc : text ++ x :: text' = text ++ [x] ++ text' := by simp
    rw [hassoc]
    refine Scanned.visit hknown text' ⟨hlongest, ?_, h.found, fun hin => ?_⟩
    · rw [h.position, length_append, length_singleton, Nat.add_assoc]
    rcases infix_concat_iff.mp hin with hend | hin
    · refine hpart (le_antisymm hlongest.le (hlongest.max _ le_rfl ?_))
      rwa [take_length]
    · exact h.absent hin

/-- Two parts of the text, one after the other. -/
theorem visit_append : ∀ (text text' : List α) (state : Progress),
    visit word prefixes state (text ++ text') =
      if (visit word prefixes state text).2 then visit word prefixes
        (visit word prefixes state text).1 text'
      else visit word prefixes state text
  | [], text', state => rfl
  | x :: text, text', state => by
    rw [cons_append, visit, visit]
    split
    · rfl
    · exact visit_append text text' _

/-- **What a search finds** is the first place of the word. -/
theorem found_visit_iff (hword : word ≠ []) (base n : ℕ) :
    (visit word (table word) ⟨0, base, none⟩ text).1.found = some n ↔
      ∃ i, n = base + i ∧ FirstAt word text i := by
  rcases (Scanned.start hword base).visit (known_table word) text with
    ⟨state, hvisit, hscanned⟩ | ⟨state, i, hvisit, hfound, hfirst⟩
  · rw [hvisit, hscanned.found]
    refine ⟨nofun, ?_⟩
    rintro ⟨i, -, hfirst⟩
    exact absurd (hfirst.1.isInfix.trans (drop_suffix i text).isInfix) hscanned.absent
  · rw [hvisit, hfound, Option.some_inj]
    rw [nil_append] at hfirst
    refine ⟨fun h => ⟨i, h.symm, hfirst⟩, ?_⟩
    rintro ⟨j, rfl, hfirst'⟩
    rcases Nat.lt_trichotomy i j with hlt | rfl | hlt
    · exact absurd hfirst.1 (hfirst'.2 i hlt)
    · rfl
    · exact absurd hfirst'.1 (hfirst.2 j hlt)

end Borders
