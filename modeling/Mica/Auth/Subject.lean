import Mathlib.Data.List.DropRight
import Mathlib.Data.List.TakeWhile

/-!
# Auth/Subject — the name of an account

`stable_subject_symbol` makes one name of a provider and a subject: letters and digits in lower case,
everything between them one underscore.  What is left of a text is its words, and whether it begins
with anything else (`subjectWords`).

* `stableSubjectSymbol_eq` — the name spells the words of the provider and then those of the subject.
* `stableSubjectSymbol_inj` — two names are the same exactly if those words are.
-/

open List

namespace Mica

/-! ## The name -/

/-- `char::is_ascii_alphanumeric`. -/
def isAsciiAlphanumeric (c : Char) : Bool :=
  ('0' ≤ c && c ≤ '9') || ('A' ≤ c && c ≤ 'Z') || ('a' ≤ c && c ≤ 'z')

/-- `char::to_ascii_lowercase`. -/
def toAsciiLowercase (c : Char) : Char :=
  if 'A' ≤ c ∧ c ≤ 'Z' then Char.ofNat (c.toNat + 32) else c

/-- The loop of `push_sanitized`. -/
def pushCharacters (out : List Char) (lastWasSeparator : Bool) : List Char → List Char
  | [] => out
  | c :: cs =>
    if isAsciiAlphanumeric c then pushCharacters (out ++ [toAsciiLowercase c]) false cs
    else if !lastWasSeparator then pushCharacters (out ++ ['_']) true cs
    else pushCharacters out lastWasSeparator cs

/-- The underscores at the end are popped. -/
def popUnderscores (out : List Char) : List Char := out.rdropWhile (· == '_')

/-- `push_sanitized`. -/
def pushSanitized (out value : List Char) : List Char :=
  popUnderscores (pushCharacters out false value)

/-- `stable_subject_symbol`. -/
def stableSubjectSymbol (start provider providerSub : List Char) : List Char :=
  pushSanitized (pushSanitized (start ++ ['_']) provider ++ ['_']) providerSub

/-! ## Words -/

/-- The words of a text: its letters and digits, cut at anything else, in lower case. -/
def words (value : List Char) : List (List Char) :=
  ((value.splitOnP fun c => !isAsciiAlphanumeric c).filter fun w => !w.isEmpty).map
    (List.map toAsciiLowercase)

/-- Whether a text begins with anything but a letter or a digit. -/
def beginsApart (value : List Char) : Bool := value.head?.any fun c => !isAsciiAlphanumeric c

/-- The words of a text, the first marked if something else comes before it. -/
def subjectWords (value : List Char) : List (Bool × List Char) :=
  match words value with
  | [] => []
  | w :: ws => (beginsApart value, w) :: ws.map fun w => (false, w)

/-- The marked words as they stand in a name. -/
def spell (marked : List (Bool × List Char)) : List Char :=
  marked.flatMap fun w => (if w.1 then ['_', '_'] else ['_']) ++ w.2

section Words

variable {c : Char} {cs value : List Char}

theorem words_nil : words [] = [] := rfl

theorem words_cons_of_not (h : isAsciiAlphanumeric c = false) : words (c :: cs) = words cs := by
  rw [words, splitOnP_cons_eq_if_modifyHead, h]
  rfl

/-- A letter or digit goes on with the first word, or is one of its own. -/
theorem words_cons_of_alphanumeric (h : isAsciiAlphanumeric c = true) :
    words (c :: cs) = if cs.head?.any isAsciiAlphanumeric then
      (words cs).modifyHead (toAsciiLowercase c :: ·) else [toAsciiLowercase c] :: words cs := by
  obtain ⟨w, ws, hsplit⟩ :=
    exists_cons_of_ne_nil (splitOnP_ne_nil (fun c => !isAsciiAlphanumeric c) cs)
  have hhead : w.isEmpty = !cs.head?.any isAsciiAlphanumeric := by
    cases cs with
    | nil =>
      obtain ⟨rfl, -⟩ := List.cons.inj hsplit
      rfl
    | cons d ds =>
      rw [splitOnP_cons_eq_if_modifyHead] at hsplit
      cases hd : isAsciiAlphanumeric d with
      | false =>
        rw [hd] at hsplit
        obtain ⟨rfl, -⟩ := List.cons.inj hsplit
        simp [hd]
      | true =>
        rw [hd] at hsplit
        obtain ⟨w', ws', hsplit'⟩ :=
          exists_cons_of_ne_nil (splitOnP_ne_nil (fun c => !isAsciiAlphanumeric c) ds)
        rw [hsplit'] at hsplit
        obtain ⟨rfl, -⟩ := List.cons.inj hsplit
        simp [hd]
  unfold words
  rw [splitOnP_cons_eq_if_modifyHead, h, hsplit]
  cases hany : cs.head?.any isAsciiAlphanumeric with
  | false =>
    rw [hany] at hhead
    obtain rfl := List.isEmpty_iff.mp hhead
    simp
  | true =>
    rw [hany] at hhead
    have hne : w ≠ [] := fun heq => by simp [heq] at hhead
    simp [hne]

theorem ne_nil_of_mem_words {w : List Char} (h : w ∈ words value) : w ≠ [] := by
  obtain ⟨w', hw', rfl⟩ := mem_map.mp h
  have hne := (mem_filter.mp hw').2
  simpa using hne

theorem underscore_ne_toAsciiLowercase (h : isAsciiAlphanumeric c = true) :
    toAsciiLowercase c ≠ '_' := by
  unfold toAsciiLowercase
  split
  · next hupper =>
    intro heq
    have hle : c.toNat ≤ 90 := hupper.2
    have hge : 65 ≤ c.toNat := hupper.1
    have hvalid : (c.toNat + 32).isValidChar := Or.inl (by omega)
    rw [Char.ofNat, dif_pos hvalid] at heq
    have hnat : c.toNat + 32 = 95 := congrArg Char.toNat heq
    omega
  · rintro rfl
    exact absurd h (by decide)

/-- No underscore is in a word. -/
theorem underscore_notMem_words : ∀ {value : List Char}, ∀ w ∈ words value, '_' ∉ w
  | [] => nofun
  | c :: cs => by
    intro w hw
    cases hc : isAsciiAlphanumeric c with
    | false =>
      rw [words_cons_of_not hc] at hw
      exact underscore_notMem_words w hw
    | true =>
      rw [words_cons_of_alphanumeric hc] at hw
      have hlower := underscore_ne_toAsciiLowercase hc
      split at hw
      · cases hwords : words cs with
        | nil =>
          rw [hwords] at hw
          cases hw
        | cons v vs =>
          rw [hwords, modifyHead_cons] at hw
          rcases mem_cons.mp hw with rfl | hw
          · rw [mem_cons, not_or]
            exact ⟨hlower.symm, underscore_notMem_words v (hwords ▸ mem_cons_self)⟩
          · exact underscore_notMem_words w (hwords ▸ mem_cons_of_mem v hw)
      · rcases mem_cons.mp hw with rfl | hw
        · simpa using hlower.symm
        · exact underscore_notMem_words w hw

end Words

/-! ## What is pushed -/

/-- What the loop of `push_sanitized` pushes. -/
def sanitize (lastWasSeparator : Bool) : List Char → List Char
  | [] => []
  | c :: cs =>
    if isAsciiAlphanumeric c then toAsciiLowercase c :: sanitize false cs
    else if lastWasSeparator then sanitize true cs else '_' :: sanitize true cs

theorem pushCharacters_eq : ∀ (value out : List Char) (last : Bool),
    pushCharacters out last value = out ++ sanitize last value
  | [], out, _ => (append_nil out).symm
  | c :: cs, out, last => by
    unfold pushCharacters sanitize
    split
    · rw [pushCharacters_eq cs, append_assoc, singleton_append]
    cases last with
    | false =>
      simp only [Bool.not_false, if_true, Bool.false_eq_true, if_false]
      rw [pushCharacters_eq cs, append_assoc, singleton_append]
    | true =>
      simp only [Bool.not_true, Bool.false_eq_true, if_false, if_true]
      rw [pushCharacters_eq cs]

theorem popUnderscores_append (out value : List Char) :
    popUnderscores (out ++ value) =
      if popUnderscores value = [] then popUnderscores out else out ++ popUnderscores value := by
  unfold popUnderscores List.rdropWhile
  rw [reverse_append, dropWhile_append]
  cases hvalue : value.reverse.dropWhile (· == '_') with
  | nil => simp
  | cons c cs => simp

theorem popUnderscores_singleton {c : Char} (h : c ≠ '_') : popUnderscores [c] = [c] := by
  simp [popUnderscores, List.rdropWhile, h]

/-- Words with an underscore before every one but the first. -/
def joined : List (List Char) → List Char
  | [] => []
  | w :: ws => w ++ ws.flatMap ('_' :: ·)

theorem joined_modifyHead (c : Char) {ws : List (List Char)} (h : ws ≠ []) :
    joined (ws.modifyHead (c :: ·)) = c :: joined ws := by
  cases ws with
  | nil => exact absurd rfl h
  | cons w ws => rfl

theorem joined_cons (w : List Char) {ws : List (List Char)} (h : ws ≠ []) :
    joined (w :: ws) = w ++ '_' :: joined ws := by
  cases ws with
  | nil => exact absurd rfl h
  | cons v vs => simp [joined]

theorem words_ne_nil_of_head {cs : List Char} (h : cs.head?.any isAsciiAlphanumeric = true) :
    words cs ≠ [] := by
  cases cs with
  | nil => exact nomatch h
  | cons c cs =>
    rw [words_cons_of_alphanumeric (by simpa using h)]
    split
    · next hhead =>
      have hne := words_ne_nil_of_head hhead
      cases hwords : words cs with
      | nil => exact absurd hwords hne
      | cons w ws => simp
    · simp

theorem beginsApart_of_not_head {cs : List Char} (h : cs.head?.any isAsciiAlphanumeric = false)
    (hwords : words cs ≠ []) : beginsApart cs = true := by
  cases cs with
  | nil => exact absurd words_nil hwords
  | cons c cs =>
    have hc : isAsciiAlphanumeric c = false := by simpa using h
    simp [beginsApart, hc]

theorem not_beginsApart_of_head {cs : List Char} (h : cs.head?.any isAsciiAlphanumeric = true) :
    beginsApart cs = false := by
  cases cs with
  | nil => exact nomatch h
  | cons c cs =>
    have hc : isAsciiAlphanumeric c = true := by simpa using h
    simp [beginsApart, hc]

theorem joined_ne_nil : ∀ {ws : List (List Char)}, (∀ w ∈ ws, w ≠ []) → ws ≠ [] → joined ws ≠ []
  | w :: ws, h, _ => by
    have hw := h w mem_cons_self
    simp [joined, hw]

theorem joined_words_eq_nil {value : List Char} : joined (words value) = [] ↔ words value = [] := by
  refine ⟨fun h => ?_, fun h => by rw [h]; rfl⟩
  by_contra hne
  exact joined_ne_nil (fun _ => ne_nil_of_mem_words) hne h

/-- **What is left of a text**: its words, after an underscore if something else comes first. -/
theorem popUnderscores_sanitize : ∀ value : List Char,
    popUnderscores (sanitize true value) = joined (words value) ∧
      popUnderscores (sanitize false value) = if words value = [] then [] else
        (if beginsApart value then ['_'] else []) ++ joined (words value)
  | [] => by simp [sanitize, words_nil, popUnderscores, joined]
  | c :: cs => by
    obtain ⟨htrue, hfalse⟩ := popUnderscores_sanitize cs
    cases hc : isAsciiAlphanumeric c with
    | false =>
      have hapart : beginsApart (c :: cs) = true := by simp [beginsApart, hc]
      rw [words_cons_of_not hc, hapart]
      refine ⟨by simpa [sanitize, hc] using htrue, ?_⟩
      have hsanitize : sanitize false (c :: cs) = ['_'] ++ sanitize true cs := by simp [sanitize, hc]
      rw [hsanitize, popUnderscores_append, htrue]
      simp only [joined_words_eq_nil, if_true]
      split
      · rfl
      · rfl
    | true =>
      have hapart : beginsApart (c :: cs) = false := by simp [beginsApart, hc]
      have hlower := underscore_ne_toAsciiLowercase hc
      -- a letter or digit is pushed whatever came before it
      have hboth : popUnderscores ([toAsciiLowercase c] ++ sanitize false cs) =
          joined (words (c :: cs)) := by
        rw [popUnderscores_append, hfalse, words_cons_of_alphanumeric hc,
          popUnderscores_singleton hlower]
        cases hhead : cs.head?.any isAsciiAlphanumeric with
        | true =>
          have hne := words_ne_nil_of_head hhead
          rw [not_beginsApart_of_head hhead]
          simp [hne, joined_words_eq_nil, joined_modifyHead _ hne]
        | false =>
          by_cases hne : words cs = []
          · simp [hne, joined]
          · rw [beginsApart_of_not_head hhead hne]
            simp [hne, joined_cons _ hne]
      have hne : words (c :: cs) ≠ [] := words_ne_nil_of_head (by simpa using hc)
      have hsanitize : ∀ last, sanitize last (c :: cs) = [toAsciiLowercase c] ++ sanitize false cs :=
        fun last => by simp [sanitize, hc]
      rw [hsanitize, hsanitize, hboth, hapart]
      simp [hne]

/-- What `push_sanitized` adds, as marked words. -/
theorem pushSanitized_eq {out : List Char} (hout : popUnderscores out = out) (value : List Char) :
    pushSanitized (out ++ ['_']) value = out ++ spell (subjectWords value) := by
  have hbody := (popUnderscores_sanitize value).2
  have hempty : popUnderscores (out ++ ['_']) = out := by
    rw [popUnderscores_append, if_pos (by decide), hout]
  rw [pushSanitized, subjectWords, pushCharacters_eq, popUnderscores_append, hbody]
  cases hwords : words value with
  | nil => simpa [spell] using hempty
  | cons w ws =>
    have hw : w ≠ [] := ne_nil_of_mem_words (hwords ▸ mem_cons_self)
    cases beginsApart value <;> simp [spell, joined, hw, flatMap_map]

/-- Nothing is popped after a word. -/
theorem popUnderscores_spell {out : List Char} (hout : popUnderscores out = out) (value : List Char) :
    popUnderscores (out ++ spell (subjectWords value)) = out ++ spell (subjectWords value) := by
  rw [← pushSanitized_eq hout]
  exact rdropWhile_idempotent _ _

theorem spell_append (l l' : List (Bool × List Char)) : spell (l ++ l') = spell l ++ spell l' :=
  flatMap_append

/-- **A name spells the words of the provider and then those of the subject.** -/
theorem stableSubjectSymbol_eq {start : List Char} (hstart : popUnderscores start = start)
    (provider providerSub : List Char) : stableSubjectSymbol start provider providerSub =
      start ++ spell (subjectWords provider ++ subjectWords providerSub) := by
  rw [stableSubjectSymbol, pushSanitized_eq hstart,
    pushSanitized_eq (popUnderscores_spell hstart provider),
    append_assoc, spell_append]

/-! ## Reading the words back -/

/-- A marked word as it can stand in a name. -/
def IsWord (w : Bool × List Char) : Prop := w.2 ≠ [] ∧ '_' ∉ w.2

theorem isWord_of_mem_subjectWords {value : List Char} {w : Bool × List Char}
    (h : w ∈ subjectWords value) : IsWord w := by
  unfold subjectWords at h
  split at h
  · cases h
  rename_i v vs hwords
  have hall : ∀ u ∈ v :: vs, u ≠ [] ∧ '_' ∉ u := fun u hu =>
    ⟨ne_nil_of_mem_words (hwords ▸ hu), underscore_notMem_words u (hwords ▸ hu)⟩
  rcases mem_cons.mp h with rfl | h
  · exact hall v mem_cons_self
  · obtain ⟨u, hu, rfl⟩ := mem_map.mp h
    exact hall u (mem_cons_of_mem v hu)

/-- What comes after a word: nothing, or an underscore. -/
theorem spell_head (l : List (Bool × List Char)) : spell l = [] ∨ ∃ rest, spell l = '_' :: rest := by
  cases l with
  | nil => exact Or.inl rfl
  | cons w l =>
    right
    obtain ⟨marked, w⟩ := w
    cases marked <;> exact ⟨_, rfl⟩

/-- The first word ends at the next underscore. -/
theorem takeWhile_word {w rest : List Char} (hw : '_' ∉ w)
    (hrest : rest = [] ∨ ∃ tail, rest = '_' :: tail) :
    (w ++ rest).takeWhile (· != '_') = w := by
  have hall : ∀ c ∈ w, (c != '_') = true := by
    intro c hc
    rw [bne_iff_ne]
    rintro rfl
    exact hw hc
  rw [takeWhile_append_of_pos hall]
  rcases hrest with rfl | ⟨tail, rfl⟩ <;> simp

theorem spell_injective : ∀ {l l' : List (Bool × List Char)}, (∀ w ∈ l, IsWord w) →
    (∀ w ∈ l', IsWord w) → spell l = spell l' → l = l'
  | [], [], _, _, _ => rfl
  | [], w :: l', _, _, h => by
    obtain ⟨marked, w⟩ := w
    cases marked <;> exact nomatch h
  | w :: l, [], _, _, h => by
    obtain ⟨marked, w⟩ := w
    cases marked <;> exact nomatch h
  | (marked, w) :: l, (marked', w') :: l', hl, hl', h => by
    obtain ⟨hword, hrest⟩ := forall_mem_cons.mp hl
    obtain ⟨hword', hrest'⟩ := forall_mem_cons.mp hl'
    -- a second underscore is the mark, as no word begins with one
    have hmark : ∀ {v : List Char} {k : List (Bool × List Char)} {rest : List Char},
        IsWord (false, v) → v ++ spell k ≠ '_' :: rest := by
      intro v k rest hv heq
      cases v with
      | nil => exact hv.1 rfl
      | cons c v => exact hv.2 ((List.cons.inj heq).1 ▸ mem_cons_self)
    have hbody : w ++ spell l = w' ++ spell l' ∧ marked = marked' := by
      cases marked <;> cases marked'
      · exact ⟨(List.cons.inj h).2, rfl⟩
      · exact absurd (List.cons.inj h).2 (hmark hword)
      · exact absurd (List.cons.inj h).2.symm (hmark hword')
      · exact ⟨(List.cons.inj (List.cons.inj h).2).2, rfl⟩
    have hw : w = w' :=
      calc w = (w ++ spell l).takeWhile (· != '_') := (takeWhile_word hword.2 (spell_head l)).symm
        _ = (w' ++ spell l').takeWhile (· != '_') := by rw [hbody.1]
        _ = w' := takeWhile_word hword'.2 (spell_head l')
    subst hw
    rw [spell_injective hrest hrest' (append_cancel_left hbody.1), hbody.2]

/-- **Two names are the same exactly if their words are.** -/
theorem stableSubjectSymbol_inj {start : List Char} (hstart : popUnderscores start = start)
    {provider providerSub provider' providerSub' : List Char} :
    stableSubjectSymbol start provider providerSub = stableSubjectSymbol start provider' providerSub' ↔
      subjectWords provider ++ subjectWords providerSub =
        subjectWords provider' ++ subjectWords providerSub' := by
  rw [stableSubjectSymbol_eq hstart, stableSubjectSymbol_eq hstart]
  refine ⟨fun h => ?_, fun h => by rw [h]⟩
  refine spell_injective (fun w hw => ?_) (fun w hw => ?_) (append_cancel_left h)
  · rcases mem_append.mp hw with hw | hw <;> exact isWord_of_mem_subjectWords hw
  · rcases mem_append.mp hw with hw | hw <;> exact isWord_of_mem_subjectWords hw

end Mica
