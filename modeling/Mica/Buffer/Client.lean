import Mica.Buffer.Growth

/-!
# Buffer/Client — the table of client applies

A client tags an apply with a token.  The table holds an entry for it: pending until the transaction
has ended, then with its outcome.  There is room for so many entries and so many bytes; what has
completed first goes first.

* `ClientResults.reserve_cases`, `ClientResults.finish_spec` — pending entries stay, every other
  entry is in the queue of the completed ones, and the bytes are those of the entries.
* `ClientResults.Keeps` — the books: the pending entries are those that are owed, and every reservation
  is owed or has one outcome.
-/

open List

namespace Mica

/-- `NonZeroU64`. -/
abbrev Token := { n : UInt64 // n ≠ 0 }

inductive BufferApplyStatus where
  | staged | stale
  deriving DecidableEq

/-- The delta comes with the bytes that it retains: its capacities. -/
inductive BufferApplyOutcome where
  | pending
  | ok (applied : Delta) (retained : ℕ)
  | resync | conflict | aborted
  deriving DecidableEq

structure BufferApplyResult where
  token : Token
  buffer : Identity
  revision : ℕ
  outcome : BufferApplyOutcome
  deriving DecidableEq

/-- `retained_bytes`. -/
def BufferApplyResult.retainedBytes (result : BufferApplyResult) : ℕ :=
  match result.outcome with
  | .ok _ retained => retained
  | _ => 0

/-- The entries, the tokens of the completed ones in their order, and the bytes. -/
structure ClientResults where
  entries : List BufferApplyResult
  completed : List Token
  bytes : ℕ
  deriving DecidableEq

namespace ClientResults

/-- `MAX_RESULTS`. -/
def maxResults : ℕ := 1024

/-- `MAX_RESULT_BYTES`. -/
def maxResultBytes : ℕ := 8 * 1024 * 1024

/-- `ClientResults::default`. -/
def empty : ClientResults := ⟨[], [], 0⟩

/-- `buffer_apply_result`. -/
def get? (r : ClientResults) (token : Token) : Option BufferApplyResult :=
  r.entries.find? fun e => e.token = token

/-- The entries of all other tokens. -/
def others (entries : List BufferApplyResult) (token : Token) : List BufferApplyResult :=
  entries.filter fun e => e.token ≠ token

/-- `evict_completed`; `none` if nothing has completed. -/
def evictCompleted (r : ClientResults) : Option ClientResults :=
  match r.completed with
  | [] => none
  | token :: completed =>
    match r.get? token with
    | none => some { r with completed := completed }
    | some result => some ⟨others r.entries token, completed, r.bytes - result.retainedBytes⟩

/-- The loops around `evict_completed`, which end when nothing more has completed. -/
def evictWhile (full : ClientResults → Bool) : ℕ → ClientResults → ClientResults
  | 0, r => r
  | n + 1, r =>
    if full r then
      match r.evictCompleted with
      | none => r
      | some r => evictWhile full n r
    else r

/-- `reserve`; the table may have made room also when it fails. -/
def reserve (r : ClientResults) (token : Token) (buffer : Identity) (revision : ℕ) :
    ClientResults × Except KernelError Unit :=
  if (r.get? token).isSome then (r, .error (.buffer buffer .tokenInUse))
  else
    let r := r.evictWhile (fun r => maxResults ≤ r.entries.length) r.completed.length
    if maxResults ≤ r.entries.length then (r, .error (.buffer buffer .resultsFull))
    else ({ r with entries := ⟨token, buffer, revision, .pending⟩ :: r.entries }, .ok ())

/-- A result as it is stored: without a delta that is too large. -/
def stored (result : BufferApplyResult) : BufferApplyResult :=
  if maxResultBytes < result.retainedBytes then { result with outcome := .resync } else result

/-- `finish`. -/
def finish (r : ClientResults) (result : BufferApplyResult) : ClientResults :=
  let result := stored result
  let r := r.evictWhile (fun r => maxResultBytes < r.bytes + result.retainedBytes) r.completed.length
  ⟨result :: others r.entries result.token, r.completed ++ [result.token],
    r.bytes + result.retainedBytes⟩

/-! ## What holds of the table -/

/-- **The invariant of the table.** -/
structure Valid (r : ClientResults) : Prop where
  tokens : (r.entries.map BufferApplyResult.token).Nodup
  completed : r.completed.Nodup
  mem_completed : ∀ token, token ∈ r.completed ↔
    ∃ e ∈ r.entries, e.token = token ∧ e.outcome ≠ .pending
  bytes : r.bytes = (r.entries.map BufferApplyResult.retainedBytes).sum
  bytes_le : r.bytes ≤ maxResultBytes
  length_le : r.entries.length ≤ maxResults

/-- What eviction does to the entries. -/
structure Evicts (r r' : ClientResults) : Prop where
  subset : ∀ e ∈ r'.entries, e ∈ r.entries
  pending : ∀ e ∈ r.entries, e.outcome = .pending → e ∈ r'.entries

variable {r r' : ClientResults} {token : Token} {e : BufferApplyResult}

theorem Evicts.refl (r : ClientResults) : r.Evicts r := ⟨fun _ h => h, fun _ h _ => h⟩

theorem Evicts.trans {r'' : ClientResults} (h : r.Evicts r') (h' : r'.Evicts r'') : r.Evicts r'' where
  subset e he := h.subset e (h'.subset e he)
  pending e he hpending := h'.pending e (h.pending e he hpending) hpending

theorem valid_empty : empty.Valid :=
  ⟨.nil, .nil, by simp [empty], rfl, Nat.zero_le _, Nat.zero_le _⟩

@[simp] theorem mem_others {entries : List BufferApplyResult} :
    e ∈ others entries token ↔ e ∈ entries ∧ e.token ≠ token := by
  simp [others]

/-- An entry stands before those of all other tokens. -/
theorem perm_others : ∀ {entries : List BufferApplyResult},
    (entries.map BufferApplyResult.token).Nodup → e ∈ entries →
      entries.Perm (e :: others entries e.token)
  | x :: entries, hnodup, he => by
    rw [map_cons, nodup_cons, mem_map] at hnodup
    obtain ⟨hx, hnodup⟩ := hnodup
    unfold others
    rcases mem_cons.mp he with rfl | he
    · rw [filter_cons_of_neg (by simp), filter_eq_self.mpr fun y hy => ?_]
      exact decide_eq_true fun heq => hx ⟨y, hy, heq⟩
    · have hne : x.token ≠ e.token := fun heq => hx ⟨e, he, heq.symm⟩
      rw [filter_cons_of_pos (by simpa using hne)]
      exact ((perm_others hnodup he).cons x).trans (.swap e x _)

theorem Valid.get?_eq_some (h : r.Valid) : r.get? token = some e ↔ e ∈ r.entries ∧
    e.token = token := by
  unfold get?
  constructor
  · intro hfind
    have hsame := find?_some hfind
    exact ⟨mem_of_find?_eq_some hfind, of_decide_eq_true hsame⟩
  rintro ⟨he, rfl⟩
  cases hfind : r.entries.find? fun x => x.token = e.token with
  | none => exact absurd (decide_eq_true rfl) (find?_eq_none.mp hfind e he)
  | some x =>
    have hsame := find?_some hfind
    exact congrArg some (inj_on_of_nodup_map h.tokens (mem_of_find?_eq_some hfind) he
      (of_decide_eq_true hsame))

theorem get?_eq_none : r.get? token = none ↔ ∀ e ∈ r.entries, e.token ≠ token := by
  simp [get?, find?_eq_none]

/-- **Eviction takes no pending entry.** -/
theorem Valid.evictCompleted (h : r.Valid) (hr : r.evictCompleted = some r') :
    r'.Valid ∧ r.Evicts r' ∧ r'.completed.length + 1 = r.completed.length := by
  unfold ClientResults.evictCompleted at hr
  split at hr
  · cases hr
  rename_i token completed hcompleted
  have hnodup := h.completed
  rw [hcompleted, nodup_cons] at hnodup
  obtain ⟨e, he, rfl, hout⟩ := (h.mem_completed token).mp (hcompleted ▸ mem_cons_self)
  rw [h.get?_eq_some.mpr ⟨he, rfl⟩] at hr
  obtain rfl := Option.some.inj hr
  have hperm := perm_others h.tokens he
  have hsum : r.bytes = e.retainedBytes +
      ((others r.entries e.token).map BufferApplyResult.retainedBytes).sum := by
    rw [h.bytes, (hperm.map _).sum_eq, map_cons, sum_cons]
  refine ⟨⟨?_, hnodup.2, fun token => ?_, ?_, ?_, ?_⟩, ⟨?_, ?_⟩, ?_⟩
  · exact h.tokens.sublist (filter_sublist.map _)
  · have hmem := h.mem_completed token
    rw [hcompleted, mem_cons] at hmem
    constructor
    · intro htoken
      obtain ⟨x, hx, rfl, hxout⟩ := hmem.mp (.inr htoken)
      exact ⟨x, mem_others.mpr ⟨hx, fun heq => hnodup.1 (heq ▸ htoken)⟩, rfl, hxout⟩
    · rintro ⟨x, hx, rfl, hxout⟩
      obtain ⟨hx, hne⟩ := mem_others.mp hx
      exact (hmem.mpr ⟨x, hx, rfl, hxout⟩).resolve_left hne
  · dsimp only
    omega
  · exact (Nat.sub_le _ _).trans h.bytes_le
  · exact (length_filter_le _ _).trans h.length_le
  · exact fun x hx => (mem_others.mp hx).1
  · refine fun x hx hpending => mem_others.mpr ⟨hx, fun heq => hout ?_⟩
    rwa [← inj_on_of_nodup_map h.tokens hx he heq]
  · rw [hcompleted, length_cons]

theorem evictCompleted_eq_none : r.evictCompleted = none ↔ r.completed = [] := by
  unfold evictCompleted
  split
  · next h => exact iff_of_true rfl h
  · next h =>
    refine iff_of_false ?_ (by rw [h]; exact cons_ne_nil _ _)
    split <;> exact nofun

/-- The loops keep the invariant, and end with room or with nothing that has completed. -/
theorem Valid.evictWhile (full : ClientResults → Bool) : ∀ {n : ℕ} {r : ClientResults}, r.Valid →
    r.completed.length ≤ n → (r.evictWhile full n).Valid ∧ r.Evicts (r.evictWhile full n) ∧
      (full (r.evictWhile full n) = true → (r.evictWhile full n).completed = [])
  | 0, r, h, hlen => ⟨h, .refl r, fun _ => length_eq_zero_iff.mp (Nat.le_zero.mp hlen)⟩
  | n + 1, r, h, hlen => by
    unfold ClientResults.evictWhile
    by_cases hfull : full r = true
    · rw [if_pos hfull]
      cases hevict : r.evictCompleted with
      | none => exact ⟨h, .refl r, fun _ => evictCompleted_eq_none.mp hevict⟩
      | some r' =>
        obtain ⟨h', hkeeps, hlen'⟩ := h.evictCompleted hevict
        obtain ⟨hvalid, hrest, hdone⟩ := h'.evictWhile full (n := n) (by omega)
        exact ⟨hvalid, hkeeps.trans hrest, hdone⟩
    · rw [if_neg hfull]
      exact ⟨h, .refl r, fun hfull' => absurd hfull' hfull⟩

/-- **A token is reserved, or the table only makes room.** -/
theorem Valid.reserve_cases (h : r.Valid) (token : Token) (buffer : Identity) (revision : ℕ) :
    (∃ e, (r.reserve token buffer revision).2 = .error (.buffer buffer e) ∧
        (r.reserve token buffer revision).1.Valid ∧ r.Evicts (r.reserve token buffer revision).1) ∨
      (r.reserve token buffer revision).2 = .ok () ∧ r.get? token = none ∧
        (r.reserve token buffer revision).1.Valid ∧ ∃ r', r.Evicts r' ∧
          (r.reserve token buffer revision).1.entries =
            ⟨token, buffer, revision, .pending⟩ :: r'.entries := by
  unfold reserve
  by_cases hused : (r.get? token).isSome = true
  · rw [if_pos hused]
    exact .inl ⟨_, rfl, h, .refl r⟩
  rw [if_neg hused]
  have hnone : r.get? token = none := by simpa using hused
  obtain ⟨h', hkeeps, -⟩ := h.evictWhile (fun r => maxResults ≤ r.entries.length) le_rfl
  dsimp only
  generalize r.evictWhile (fun r => maxResults ≤ r.entries.length) r.completed.length = r' at *
  by_cases hfull : maxResults ≤ r'.entries.length
  · rw [if_pos hfull]
    exact .inl ⟨_, rfl, h', hkeeps⟩
  rw [if_neg hfull]
  have hfresh : ∀ e ∈ r'.entries, e.token ≠ token := fun e he =>
    get?_eq_none.mp hnone e (hkeeps.subset e he)
  refine .inr ⟨rfl, hnone, ⟨?_, h'.completed, fun t => ?_, ?_, h'.bytes_le, ?_⟩, r', hkeeps, rfl⟩
  · rw [map_cons, nodup_cons, mem_map]
    exact ⟨fun ⟨e, he, heq⟩ => hfresh e he heq, h'.tokens⟩
  · rw [h'.mem_completed]
    simp
  · rw [map_cons, sum_cons, ← h'.bytes]
    exact (Nat.zero_add _).symm
  · rw [length_cons]
    omega

theorem stored_token (result : BufferApplyResult) : (stored result).token = result.token := by
  unfold stored
  split <;> rfl

theorem stored_buffer (result : BufferApplyResult) : (stored result).buffer = result.buffer := by
  unfold stored
  split <;> rfl

theorem stored_outcome {result : BufferApplyResult} (h : result.outcome ≠ .pending) :
    (stored result).outcome ≠ .pending := by
  unfold stored
  split
  · exact nofun
  · exact h

/-- Only a delta that is stored is reported. -/
theorem stored_eq_of_ok {result : BufferApplyResult} {applied : Delta} {retained : ℕ}
    (h : (stored result).outcome = .ok applied retained) : stored result = result := by
  unfold stored at h ⊢
  split
  · next hlarge =>
    rw [if_pos hlarge] at h
    cases h
  · rfl

theorem retainedBytes_stored_le (result : BufferApplyResult) :
    (stored result).retainedBytes ≤ maxResultBytes := by
  unfold stored
  split
  · exact Nat.zero_le _
  · next hsmall => exact not_lt.mp hsmall

/-- Where nothing has completed, nothing is retained. -/
theorem Valid.bytes_eq_zero (h : r.Valid) (hnil : r.completed = []) : r.bytes = 0 := by
  rw [h.bytes]
  refine sum_eq_zero fun n hn => ?_
  obtain ⟨e, he, rfl⟩ := mem_map.mp hn
  have hpending : e.outcome = .pending := by
    by_contra hout
    have hmem := (h.mem_completed e.token).mpr ⟨e, he, rfl, hout⟩
    rw [hnil] at hmem
    cases hmem
  unfold BufferApplyResult.retainedBytes
  rw [hpending]

/-- **A pending entry gets its outcome.** -/
theorem Valid.finish_spec (h : r.Valid) {result before : BufferApplyResult}
    (hbefore : r.get? result.token = some before) (hpending : before.outcome = .pending)
    (hfinal : result.outcome ≠ .pending) :
    (r.finish result).Valid ∧ ∃ r', r.Evicts r' ∧
      (r.finish result).entries = stored result :: others r'.entries result.token := by
  obtain ⟨hmem, hsame⟩ := h.get?_eq_some.mp hbefore
  obtain ⟨h', hkeeps, hdone⟩ :=
    h.evictWhile (fun r => maxResultBytes < r.bytes + (stored result).retainedBytes) le_rfl
  have hsmall := retainedBytes_stored_le result
  unfold finish
  dsimp only
  rw [stored_token]
  generalize r.evictWhile (fun r => maxResultBytes < r.bytes + (stored result).retainedBytes)
    r.completed.length = r' at *
  have hmem' := hkeeps.pending before hmem hpending
  have hperm := perm_others h'.tokens hmem'
  rw [hsame] at hperm
  have hlt : (others r'.entries result.token).length + 1 = r'.entries.length := by
    rw [hperm.length_eq, length_cons]
  have hsum : r'.bytes =
      ((others r'.entries result.token).map BufferApplyResult.retainedBytes).sum := by
    rw [h'.bytes, (hperm.map _).sum_eq, map_cons, sum_cons]
    unfold BufferApplyResult.retainedBytes
    rw [hpending, Nat.zero_add]
  refine ⟨⟨?_, ?_, fun token => ?_, ?_, ?_, ?_⟩, r', hkeeps, rfl⟩
  · rw [map_cons, nodup_cons, stored_token]
    refine ⟨fun htoken => ?_, h'.tokens.sublist (filter_sublist.map _)⟩
    obtain ⟨e, he, heq⟩ := mem_map.mp htoken
    exact (mem_others.mp he).2 heq
  · refine nodup_append.mpr ⟨h'.completed, nodup_singleton _, ?_⟩
    rintro token htoken _ htoken' rfl
    -- the entry of the token is pending, so the token is not in the queue
    rw [mem_singleton.mp htoken'] at htoken
    obtain ⟨e, he, heq, hout⟩ := (h'.mem_completed _).mp htoken
    exact hout (inj_on_of_nodup_map h'.tokens he hmem' (heq.trans hsame.symm) ▸ hpending)
  · rw [mem_append, mem_singleton, h'.mem_completed]
    constructor
    · rintro (⟨e, he, rfl, hout⟩ | rfl)
      · refine ⟨e, mem_cons_of_mem _ (mem_others.mpr ⟨he, fun heq => hout ?_⟩), rfl, hout⟩
        exact inj_on_of_nodup_map h'.tokens he hmem' (heq.trans hsame.symm) ▸ hpending
      · exact ⟨stored result, mem_cons_self, stored_token result, stored_outcome hfinal⟩
    · rintro ⟨e, he, rfl, hout⟩
      rcases mem_cons.mp he with rfl | he
      · exact .inr (stored_token result)
      · exact .inl ⟨e, (mem_others.mp he).1, rfl, hout⟩
  · rw [map_cons, sum_cons, ← hsum, Nat.add_comm]
  · by_cases hfull : maxResultBytes < r'.bytes + (stored result).retainedBytes
    · have hzero := h'.bytes_eq_zero (hdone (decide_eq_true hfull))
      dsimp only
      omega
    · exact not_lt.mp hfull
  · rw [length_cons, hlt]
    exact h'.length_le

end ClientResults

/-! ## The books -/

/-- What happens to the table: a token is reserved, or its entry, as it was, gets a result. -/
inductive ClientEvent where
  | reserved (token : Token) (buffer : Identity) (expected : ℕ)
  | finished (before : Option BufferApplyResult) (result : BufferApplyResult)
  deriving DecidableEq

namespace ClientEvent

/-- Whether an event reserves a token. -/
def reserves (token : Token) : ClientEvent → Bool
  | reserved t _ _ => t = token
  | finished _ _ => false

/-- Whether an event settles a token. -/
def finishes (token : Token) : ClientEvent → Bool
  | reserved _ _ _ => false
  | finished _ result => result.token = token

end ClientEvent

namespace ClientResults

/-- `finish`, once for every result. -/
def finishAll (r : ClientResults) : List BufferApplyResult → ClientResults × List ClientEvent
  | [] => (r, [])
  | result :: results =>
    let (r', events) := (r.finish result).finishAll results
    (r', .finished (r.get? result.token) (stored result) :: events)

/-- A result that settles an entry. -/
structure Settles (e result : BufferApplyResult) : Prop where
  token : result.token = e.token
  buffer : result.buffer = e.buffer
  outcome : result.outcome ≠ .pending

/-- **The books are in order**: the pending entries are the owed ones, every reservation is owed or has
one outcome, and the outcomes are as they should be. -/
structure Keeps (r : ClientResults) (owed : List BufferApplyResult) (log : List ClientEvent)
    (truth : BufferApplyResult → BufferApplyResult → Prop) : Prop where
  valid : r.Valid
  pending : ∀ e, e ∈ r.entries ∧ e.outcome = .pending ↔ e ∈ owed
  nodup : (owed.map BufferApplyResult.token).Nodup
  once : ∀ token, log.countP (ClientEvent.reserves token) =
    log.countP (ClientEvent.finishes token) + (owed.map BufferApplyResult.token).count token
  reserved : ∀ e ∈ owed, .reserved e.token e.buffer e.revision ∈ log
  finished : ∀ before result, .finished before result ∈ log → ∃ e, before = some e ∧
    e.outcome = .pending ∧ Settles e result ∧ .reserved e.token e.buffer e.revision ∈ log ∧
    truth e result

variable {r r' : ClientResults} {owed owed' : List BufferApplyResult} {log : List ClientEvent}
  {truth truth' : BufferApplyResult → BufferApplyResult → Prop} {e : BufferApplyResult}

theorem keeps_empty : empty.Keeps [] [] truth where
  valid := valid_empty
  pending _ := by simp [empty]
  nodup := .nil
  once _ := rfl
  reserved := nofun
  finished := nofun

theorem Keeps.perm (h : r.Keeps owed log truth) (hperm : owed.Perm owed') : r.Keeps owed' log truth :=
  { h with
    pending := fun e => (h.pending e).trans hperm.mem_iff
    nodup := (hperm.map _).nodup_iff.mp h.nodup
    once := fun token => by rw [h.once, (hperm.map _).count_eq]
    reserved := fun e he => h.reserved e (hperm.mem_iff.mpr he) }

theorem Keeps.mono (h : r.Keeps owed log truth)
    (htruth : ∀ e result, truth e result → truth' e result) :
    r.Keeps owed log truth' :=
  { h with
    finished := fun before result hmem => by
      obtain ⟨e, hbefore, hpending, hsettles, hreserved, htrue⟩ := h.finished before result hmem
      exact ⟨e, hbefore, hpending, hsettles, hreserved, htruth e result htrue⟩ }

/-- Eviction makes no difference to the books. -/
theorem Keeps.evicts (h : r.Keeps owed log truth) (hvalid : r'.Valid) (hkeeps : r.Evicts r') :
    r'.Keeps owed log truth :=
  { h with
    valid := hvalid
    pending := fun e => by
      rw [← h.pending]
      exact ⟨fun ⟨he, hpending⟩ => ⟨hkeeps.subset e he, hpending⟩,
        fun ⟨he, hpending⟩ => ⟨hkeeps.pending e he hpending, hpending⟩⟩ }

/-- A reservation is owed. -/
theorem Keeps.reserve (h : r.Keeps owed log truth) {token : Token} {buffer : Identity} {revision : ℕ}
    (hnone : r.get? token = none) (hvalid : r'.Valid) {kept : ClientResults} (hkeeps : r.Evicts kept)
    (hentries : r'.entries = ⟨token, buffer, revision, .pending⟩ :: kept.entries) :
    r'.Keeps (⟨token, buffer, revision, .pending⟩ :: owed) (log ++ [.reserved token buffer revision])
      truth where
  valid := hvalid
  pending e := by
    rw [hentries, mem_cons, mem_cons, ← h.pending]
    constructor
    · rintro ⟨rfl | he, hpending⟩
      · exact .inl rfl
      · exact .inr ⟨hkeeps.subset e he, hpending⟩
    · rintro (rfl | ⟨he, hpending⟩)
      · exact ⟨.inl rfl, rfl⟩
      · exact ⟨.inr (hkeeps.pending e he hpending), hpending⟩
  nodup := by
    rw [map_cons, nodup_cons, mem_map]
    refine ⟨fun ⟨e, he, htoken⟩ => ?_, h.nodup⟩
    exact get?_eq_none.mp hnone e ((h.pending e).mpr he).1 htoken
  once t := by
    rw [countP_append, countP_append, h.once, map_cons, count_cons,
      countP_singleton, countP_singleton]
    simp only [ClientEvent.reserves, ClientEvent.finishes, decide_eq_true_eq, beq_iff_eq,
      Bool.false_eq_true, if_false]
    omega
  reserved e he := by
    rcases mem_cons.mp he with rfl | he
    · exact mem_append_right _ (mem_singleton_self _)
    · exact mem_append_left _ (h.reserved e he)
  finished before result hmem := by
    rcases mem_append.mp hmem with hmem | hmem
    · obtain ⟨e, hbefore, hpending, hsettles, hreserved, htrue⟩ := h.finished before result hmem
      exact ⟨e, hbefore, hpending, hsettles, mem_append_left _ hreserved, htrue⟩
    · cases mem_singleton.mp hmem

/-- What is owed is settled. -/
theorem Keeps.finish (h : r.Keeps (e :: owed) log truth) {result : BufferApplyResult}
    (hsettles : Settles e result) (htrue : truth e (stored result)) :
    (r.finish result).Keeps owed (log ++ [.finished (r.get? result.token) (stored result)]) truth := by
  obtain ⟨hmem, hpending⟩ := (h.pending e).mpr mem_cons_self
  have hbefore : r.get? result.token = some e := h.valid.get?_eq_some.mpr ⟨hmem, hsettles.token.symm⟩
  obtain ⟨hvalid, kept, hkeeps, hentries⟩ := h.valid.finish_spec hbefore hpending hsettles.outcome
  have hnodup := h.nodup
  rw [map_cons, nodup_cons, mem_map] at hnodup
  have hreserved := h.reserved e mem_cons_self
  refine ⟨hvalid, fun x => ?_, hnodup.2, fun token => ?_, fun x hx => ?_, fun before res hfin => ?_⟩
  · rw [hentries, mem_cons, mem_others]
    constructor
    · rintro ⟨rfl | ⟨hx, hne⟩, hout⟩
      · exact absurd hout (stored_outcome hsettles.outcome)
      · rcases mem_cons.mp ((h.pending x).mp ⟨hkeeps.subset x hx, hout⟩) with rfl | hx
        · exact absurd hsettles.token.symm hne
        · exact hx
    · intro hx
      obtain ⟨hin, hout⟩ := (h.pending x).mpr (mem_cons_of_mem e hx)
      refine ⟨.inr ⟨hkeeps.pending x hin hout, fun htoken => ?_⟩, hout⟩
      exact hnodup.1 ⟨x, hx, htoken.trans hsettles.token⟩
  · have hstored : (stored result).token = e.token := (stored_token result).trans hsettles.token
    rw [countP_append, countP_append, h.once, map_cons, count_cons,
      countP_singleton, countP_singleton]
    simp only [ClientEvent.reserves, ClientEvent.finishes, hstored, decide_eq_true_eq, beq_iff_eq,
      Bool.false_eq_true, if_false]
    omega
  · exact mem_append_left _ (h.reserved x (mem_cons_of_mem e hx))
  · rcases mem_append.mp hfin with hold | hnew
    · obtain ⟨x, hx, hout, hsettles', hreserved', htrue'⟩ := h.finished before res hold
      exact ⟨x, hx, hout, hsettles', mem_append_left _ hreserved', htrue'⟩
    · obtain ⟨rfl, rfl⟩ := ClientEvent.finished.inj (mem_singleton.mp hnew)
      exact ⟨e, hbefore, hpending, ⟨(stored_token result).trans hsettles.token,
        (stored_buffer result).trans hsettles.buffer, stored_outcome hsettles.outcome⟩,
        mem_append_left _ hreserved, htrue⟩

/-- Every result is written. -/
theorem exists_finished : ∀ {results : List BufferApplyResult} {result : BufferApplyResult}
    (r : ClientResults), result ∈ results →
      ∃ before, .finished before (stored result) ∈ (r.finishAll results).2
  | x :: results, result, r, h => by
    rcases mem_cons.mp h with rfl | h
    · exact ⟨_, mem_cons_self⟩
    · obtain ⟨before, hbefore⟩ := exists_finished (r.finish x) h
      exact ⟨before, mem_cons_of_mem _ hbefore⟩

theorem Keeps.finishAll : ∀ {settled : List (BufferApplyResult × BufferApplyResult)}
    {r : ClientResults} {log : List ClientEvent}, r.Keeps (settled.map Prod.fst ++ owed) log truth →
    (∀ p ∈ settled, Settles p.1 p.2 ∧ truth p.1 (stored p.2)) →
      (r.finishAll (settled.map Prod.snd)).1.Keeps owed
        (log ++ (r.finishAll (settled.map Prod.snd)).2) truth
  | [], r, log, h, _ => by
    rwa [map_nil, ClientResults.finishAll, append_nil]
  | (e, result) :: settled, r, log, h, hall => by
    obtain ⟨⟨hsettles, htrue⟩, hrest⟩ := forall_mem_cons.mp hall
    have hlater := (Keeps.finish h hsettles htrue).finishAll hrest
    rwa [append_assoc] at hlater

end ClientResults

end Mica
