import Mathlib.Data.Fin.VecNotation
import Mathlib.Data.Finset.Insert
import Mathlib.Logic.Function.Basic
import Mica.Auth.Subject

/-!
# Auth/Session — accounts and their identities

An account is a provider and a subject.  Its user and its person are identities, found by the names
that `stableSubjectSymbol` makes of the account.  Each operation issues a few sources that run as one
transaction each (`AuthStep`), and those of different operations may come in any order.

* `AuthState.accounts_separate` — as long as no two accounts have the same words, they have different
  users and persons, a step changes the account it is about and no other, and a login succeeds only
  with the password that was last set for it.
* `AuthState.one_user_for_two` — two logins that differ in a separator share one user and one password.
-/

open List Function
open Option (some.inj)

namespace Mica

/-- A provider and a subject. -/
abbrev Subject := List Char × List Char

/-- `AuthSchema::namespaced`, of which the prefixes of the names matter. -/
structure AuthSchema where
  userIdentityPrefix : List Char
  personIdentityPrefix : List Char

def AuthSchema.namespaced (space : List Char) : AuthSchema :=
  ⟨space ++ "/user".toList, space ++ "/person".toList⟩

/-- `stable_user_symbol`. -/
def AuthSchema.stableUserSymbol (schema : AuthSchema) (subject : Subject) : List Char :=
  stableSubjectSymbol schema.userIdentityPrefix subject.1 subject.2

/-- `stable_person_symbol`. -/
def AuthSchema.stablePersonSymbol (schema : AuthSchema) (subject : Subject) : List Char :=
  stableSubjectSymbol schema.personIdentityPrefix subject.1 subject.2

/-- The relations of the schema, and the names of the identities.  `Hash` are password hashes. -/
structure AuthState (Hash : Type) where
  names : List (List Char × ℕ)
  user : Finset ℕ
  /-- Functional in the provider and the subject. -/
  userExternalIdentity : Subject → Option ℕ
  /-- A provider is asserted after all others are retracted. -/
  userProvider : ℕ → Option (List Char)
  userLogin : ℕ → Option (List Char)
  /-- The users that have the role of a viewer. -/
  viewer : Finset ℕ
  localPasswordHash : ℕ → Option Hash
  person : Finset ℕ
  userPerson : Finset (ℕ × ℕ)
  defaultUserPerson : ℕ → Option ℕ
  displayName : ℕ → Option (List Char)
  description : ℕ → Option (List Char)

namespace AuthState

variable {Hash : Type}

/-- The relations before anything is asserted. -/
def empty : AuthState Hash :=
  ⟨[], ∅, fun _ => none, fun _ => none, fun _ => none, ∅, fun _ => none, ∅, ∅, fun _ => none,
    fun _ => none, fun _ => none⟩

/-- `make_identity`: the identity of a name, or a new one.  `fresh` is what the search for an identity
without a name comes to. -/
def makeIdentity (name : List Char) (fresh : Option ℕ) (s : AuthState Hash) :
    Option (ℕ × AuthState Hash) :=
  match s.names.lookup name with
  | some identity => some (identity, s)
  | none =>
    match fresh with
    | none => none
    | some identity =>
      if s.names.any fun e => e.2 = identity then none
      else some (identity, { s with names := (name, identity) :: s.names })

/-- The source of `ensure_user_exists`; `none` if it is aborted. -/
def ensureUserExists (schema : AuthSchema) (login : List Char) (subject : Subject) (fresh : Option ℕ)
    (s : AuthState Hash) : Option (AuthState Hash) :=
  match s.makeIdentity (schema.stableUserSymbol subject) fresh with
  | none => none
  | some (identity, s) =>
    -- the relation is functional, so another identity cannot be asserted
    if (s.userExternalIdentity subject).any (· ≠ identity) then none
    else some { s with
      userExternalIdentity := Function.update s.userExternalIdentity subject (some identity)
      user := insert identity s.user
      userProvider := Function.update s.userProvider identity (some subject.1)
      userLogin := Function.update s.userLogin identity (some login)
      viewer := insert identity s.viewer }

/-- What is said of a person who has logged in. -/
def presence (displayName : List Char) : List Char :=
  displayName ++ ", present through authenticated login.".toList

/-- The end of `ensure_user_person`: the person gets the display name. -/
def present (user actor : ℕ) (displayName : List Char) (s : AuthState Hash) : AuthState Hash :=
  { s with
    userPerson := insert (user, actor) s.userPerson
    displayName := Function.update s.displayName actor (some displayName)
    description := Function.update s.description actor (some (presence displayName)) }

/-- The source of `ensure_user_person`, with the name of a user. -/
def ensureUserPerson (schema : AuthSchema) (userId : List Char) (subject : Subject)
    (displayName : List Char) (freshUser freshPerson : Option ℕ) (s : AuthState Hash) :
    Option (AuthState Hash) :=
  match s.makeIdentity userId freshUser with
  | none => none
  | some (user, s) =>
    match s.defaultUserPerson user with
    | some current => some (s.present user current displayName)
    | none =>
      match s.makeIdentity (schema.stablePersonSymbol subject) freshPerson with
      | none => none
      | some (person, s) =>
        let s : AuthState Hash := { s with
          person := insert person s.person
          userPerson := insert (user, person) s.userPerson
          defaultUserPerson := Function.update s.defaultUserPerson user (some person) }
        some (s.present user person displayName)

/-- The source of `set_local_password_hash`. -/
def setLocalPasswordHash (userId : List Char) (passwordHash : Hash) (fresh : Option ℕ)
    (s : AuthState Hash) : Option (AuthState Hash) :=
  match s.makeIdentity userId fresh with
  | none => none
  | some (user, s) => some { s with
      localPasswordHash := Function.update s.localPasswordHash user (some passwordHash) }

end AuthState

/-! ## Operations -/

/-- `char::is_whitespace`. -/
def isWhitespace (c : Char) : Bool :=
  let n := c.toNat
  (0x09 ≤ n && n ≤ 0x0d) || n = 0x20 || n = 0x85 || n = 0xa0 || n = 0x1680 ||
    (0x2000 ≤ n && n ≤ 0x200a) || n = 0x2028 || n = 0x2029 || n = 0x202f || n = 0x205f || n = 0x3000

/-- `normalize_local_login`. -/
def normalizeLocalLogin (login : List Char) : Option (List Char) :=
  let normalized := ((login.dropWhile isWhitespace).rdropWhile isWhitespace).map toAsciiLowercase
  if normalized.isEmpty then none else some normalized

/-- The provider of local accounts. -/
def localProvider : List Char := "local".toList

/-- A source that an operation issues.  The user of a password or a person is named by what
`ensure_user_exists` has returned for the account. -/
inductive AuthStep (Hash : Type) where
  | ensureUserExists (login : List Char) (subject : Subject) (fresh : Option ℕ)
  | setLocalPasswordHash (providerSub password : List Char) (passwordHash : Hash) (fresh : Option ℕ)
  | ensureUserPerson (subject : Subject) (displayName : List Char) (freshUser freshPerson : Option ℕ)

/-- The account that a step is about. -/
def AuthStep.subject {Hash : Type} : AuthStep Hash → Subject
  | .ensureUserExists _ subject _ => subject
  | .setLocalPasswordHash providerSub _ _ _ => (localProvider, providerSub)
  | .ensureUserPerson subject _ _ _ => subject

namespace AuthState

variable {Hash : Type} (schema : AuthSchema)

/-- What a step does, unless it is aborted. -/
def tryStep (s : AuthState Hash) : AuthStep Hash → Option (AuthState Hash)
  | .ensureUserExists login subject fresh => s.ensureUserExists schema login subject fresh
  | .setLocalPasswordHash providerSub _ passwordHash fresh =>
    s.setLocalPasswordHash (schema.stableUserSymbol (localProvider, providerSub)) passwordHash fresh
  | .ensureUserPerson subject displayName freshUser freshPerson =>
    s.ensureUserPerson schema (schema.stableUserSymbol subject) subject displayName
      freshUser freshPerson

/-- **One step**; one that is aborted changes nothing. -/
def step (s : AuthState Hash) (a : AuthStep Hash) : AuthState Hash := (s.tryStep schema a).getD s

/-- A run from the empty relations. -/
def run (steps : List (AuthStep Hash)) : AuthState Hash := steps.foldl (step schema) empty

/-- The steps of `upsert_local_user`, with the hash of the password and the identities that are
found. -/
def upsertLocalUser (login password displayName : List Char) (passwordHash : Hash)
    (fresh : Fin 4 → Option ℕ) : Option (List (AuthStep Hash)) :=
  (normalizeLocalLogin login).map fun providerSub =>
    [.ensureUserExists login (localProvider, providerSub) (fresh 0),
      .setLocalPasswordHash providerSub password passwordHash (fresh 1),
      .ensureUserPerson (localProvider, providerSub) displayName (fresh 2) (fresh 3)]

/-- The steps of `create_local_user`: none if there is a user of the login. -/
def createLocalUser (login password displayName : List Char) (passwordHash : Hash)
    (fresh : Fin 4 → Option ℕ) (s : AuthState Hash) : Option (List (AuthStep Hash)) :=
  match normalizeLocalLogin login with
  | none => none
  | some providerSub =>
    if (s.userExternalIdentity (localProvider, providerSub)).isSome then none
    else upsertLocalUser login password displayName passwordHash fresh

/-- `authenticate_local_user`: the name of the user, if the password is right. -/
def authenticateLocalUser (verifyPassword : List Char → Hash → Bool) (login password : List Char)
    (s : AuthState Hash) : Option (List Char) :=
  match normalizeLocalLogin login with
  | none => none
  | some providerSub =>
    match s.userExternalIdentity (localProvider, providerSub) with
    | none => none
    | some user =>
      match s.localPasswordHash user with
      | none => none
      | some passwordHash =>
        if verifyPassword password passwordHash then
          some (schema.stableUserSymbol (localProvider, providerSub))
        else none

end AuthState

/-! ## Names -/

/-- **No two accounts have the same words.** -/
def Separate (subjects : Subject → Prop) : Prop :=
  ∀ a b, subjects a → subjects b → a ≠ b →
    subjectWords a.1 ++ subjectWords a.2 ≠ subjectWords b.1 ++ subjectWords b.2

section Names

variable {space : List Char} {subjects : Subject → Prop} {a b : Subject}

theorem popUnderscores_user (space : List Char) :
    popUnderscores (space ++ "/user".toList) = space ++ "/user".toList := by
  rw [popUnderscores_append, if_neg (by decide)]
  rfl

theorem popUnderscores_person (space : List Char) :
    popUnderscores (space ++ "/person".toList) = space ++ "/person".toList := by
  rw [popUnderscores_append, if_neg (by decide)]
  rfl

theorem Separate.eq_of_user (h : Separate subjects) (ha : subjects a) (hb : subjects b)
    (heq : (AuthSchema.namespaced space).stableUserSymbol a =
      (AuthSchema.namespaced space).stableUserSymbol b) : a = b := by
  by_contra hne
  exact h a b ha hb hne ((stableSubjectSymbol_inj (popUnderscores_user space)).mp heq)

theorem Separate.eq_of_person (h : Separate subjects) (ha : subjects a) (hb : subjects b)
    (heq : (AuthSchema.namespaced space).stablePersonSymbol a =
      (AuthSchema.namespaced space).stablePersonSymbol b) : a = b := by
  by_contra hne
  exact h a b ha hb hne ((stableSubjectSymbol_inj (popUnderscores_person space)).mp heq)

/-- A user and a person never have the same name. -/
theorem stableUserSymbol_ne_stablePersonSymbol (a b : Subject) :
    (AuthSchema.namespaced space).stableUserSymbol a ≠
      (AuthSchema.namespaced space).stablePersonSymbol b := by
  unfold AuthSchema.stableUserSymbol AuthSchema.stablePersonSymbol AuthSchema.namespaced
  rw [stableSubjectSymbol_eq (popUnderscores_user space),
    stableSubjectSymbol_eq (popUnderscores_person space), append_assoc, append_assoc]
  intro heq
  cases append_cancel_left heq

end Names

namespace AuthState

variable {Hash : Type} {s s' : AuthState Hash}

/-- No identity has two names. -/
def NamesInjective (s : AuthState Hash) : Prop :=
  ∀ n n' i, s.names.lookup n = some i → s.names.lookup n' = some i → n = n'

/-- **What `make_identity` has done**: the name has the identity, and no other name has changed. -/
structure Named (s s' : AuthState Hash) (name : List Char) (identity : ℕ) : Prop where
  rest : s' = { s with names := s'.names }
  lookup : s'.names.lookup name = some identity
  other : ∀ n, n ≠ name → s'.names.lookup n = s.names.lookup n
  kept : ∀ n i, s.names.lookup n = some i → s'.names.lookup n = some i
  injective : s.NamesInjective → s'.NamesInjective

theorem mem_of_lookup {n : List Char} {i : ℕ} : ∀ {l : List (List Char × ℕ)},
    l.lookup n = some i → ∃ e ∈ l, e.2 = i
  | e :: l, h => by
    rw [lookup_cons] at h
    split at h
    · exact ⟨e, mem_cons_self, some.inj h⟩
    · obtain ⟨f, hf, heq⟩ := mem_of_lookup h
      exact ⟨f, mem_cons_of_mem _ hf, heq⟩

theorem makeIdentity_cases {name : List Char} {fresh : Option ℕ} {identity : ℕ}
    (h : s.makeIdentity name fresh = some (identity, s')) : Named s s' name identity := by
  unfold makeIdentity at h
  cases hlookup : s.names.lookup name with
  | some known =>
    rw [hlookup] at h
    obtain ⟨rfl, rfl⟩ := Prod.mk.inj (some.inj h)
    exact ⟨rfl, hlookup, fun _ _ => rfl, fun _ _ h => h, fun h => h⟩
  | none =>
    rw [hlookup] at h
    dsimp only at h
    split at h
    · cases h
    rename_i new
    split at h
    · cases h
    rename_i hunused
    obtain ⟨rfl, rfl⟩ := Prod.mk.inj (some.inj h)
    have hself : ((name, new) :: s.names).lookup name = some new := by simp
    have hother : ∀ n, n ≠ name → ((name, new) :: s.names).lookup n = s.names.lookup n := by
      intro n hne
      rw [lookup_cons, beq_false_of_ne hne]
    have hfresh : ∀ n, s.names.lookup n ≠ some new := by
      intro n hn
      obtain ⟨e, he, heq⟩ := mem_of_lookup hn
      exact hunused (any_eq_true.mpr ⟨e, he, decide_eq_true heq⟩)
    refine ⟨rfl, hself, hother, fun n i hn => ?_, fun hinjective n n' i hn hn' => ?_⟩
    · rw [← hn]
      exact hother n fun heq => nomatch (heq ▸ hn).symm.trans hlookup
    by_cases hname : n = name <;> by_cases hname' : n' = name
    · rw [hname, hname']
    · rw [hname, hself] at hn
      rw [hother n' hname', ← hn] at hn'
      exact absurd hn' (hfresh n')
    · rw [hname', hself] at hn'
      rw [hother n hname, ← hn'] at hn
      exact absurd hn (hfresh n)
    · rw [hother n hname] at hn
      rw [hother n' hname'] at hn'
      exact hinjective n n' i hn hn'

/-! ## Runs -/

/-- What an account shows. -/
structure Account (Hash : Type) where
  passwordHash : Option Hash
  login : Option (List Char)
  provider : Option (List Char)
  displayName : Option (List Char)

/-- The account of a subject, once it has a user. -/
def account (schema : AuthSchema) (s : AuthState Hash) (subject : Subject) : Option (Account Hash) :=
  (s.names.lookup (schema.stableUserSymbol subject)).map fun user =>
    ⟨s.localPasswordHash user, s.userLogin user, s.userProvider user,
      (s.defaultUserPerson user).bind s.displayName⟩

/-- The passwords that have been set so far, by normalized login. -/
def passwordsAfter (schema : AuthSchema) (s : AuthState Hash)
    (passwords : List Char → Option (List Char))
    (a : AuthStep Hash) : List Char → Option (List Char) :=
  match a with
  | .setLocalPasswordHash providerSub password _ _ =>
    if (s.tryStep schema a).isSome then Function.update passwords providerSub (some password)
    else passwords
  | _ => passwords

/-- The password that was last set for a normalized login, after steps from a state. -/
def lastPasswords (schema : AuthSchema) : AuthState Hash → (List Char → Option (List Char)) →
    List (AuthStep Hash) → List Char → Option (List Char)
  | _, passwords, [] => passwords
  | s, passwords, a :: steps =>
    lastPasswords schema (s.step schema a) (passwordsAfter schema s passwords a) steps

/-- A hash verifies the password it was made of, and no other. -/
def HashesTruly (verifyPassword : List Char → Hash → Bool) : AuthStep Hash → Prop
  | .setLocalPasswordHash _ password passwordHash _ =>
    ∀ p, verifyPassword p passwordHash = true ↔ p = password
  | _ => True

section Runs

variable {space : List Char} {subjects : Subject → Prop} {verifyPassword : List Char → Hash → Bool}
  {passwords : List Char → Option (List Char)} {a : AuthStep Hash}

/-- **What every step keeps**: identities are found by the names of the accounts, and a password
hash is that of the last password. -/
structure Sound (space : List Char) (subjects : Subject → Prop)
    (verifyPassword : List Char → Hash → Bool) (s : AuthState Hash)
    (passwords : List Char → Option (List Char)) : Prop where
  names : s.NamesInjective
  external : ∀ subject i, s.userExternalIdentity subject = some i →
    subjects subject ∧
      s.names.lookup ((AuthSchema.namespaced space).stableUserSymbol subject) = some i
  password : ∀ i hash, s.localPasswordHash i = some hash → ∃ providerSub password,
    subjects (localProvider, providerSub) ∧ s.names.lookup
      ((AuthSchema.namespaced space).stableUserSymbol (localProvider, providerSub)) = some i ∧
    passwords providerSub = some password ∧ ∀ p, verifyPassword p hash = true ↔ p = password
  person : ∀ i p, s.defaultUserPerson i = some p → ∃ subject, subjects subject ∧
    s.names.lookup ((AuthSchema.namespaced space).stableUserSymbol subject) = some i ∧
    s.names.lookup ((AuthSchema.namespaced space).stablePersonSymbol subject) = some p

theorem sound_empty : Sound space subjects verifyPassword (empty : AuthState Hash) fun _ => none :=
  ⟨nofun, nofun, nofun, nofun⟩

/-- New names leave what was found as it is. -/
theorem Sound.named (h : Sound space subjects verifyPassword s passwords) {name : List Char}
    {identity : ℕ} (hnamed : Named s s' name identity) :
    Sound space subjects verifyPassword s' passwords := by
  have hkept := hnamed.kept
  refine ⟨hnamed.injective h.names, fun subject i hi => ?_, fun i hash hi => ?_, fun i p hi => ?_⟩
  · rw [hnamed.rest] at hi
    obtain ⟨hsubject, hlookup⟩ := h.external subject i hi
    exact ⟨hsubject, hkept _ _ hlookup⟩
  · rw [hnamed.rest] at hi
    obtain ⟨providerSub, password, hsubject, hlookup, hrest⟩ := h.password i hash hi
    exact ⟨providerSub, password, hsubject, hkept _ _ hlookup, hrest⟩
  · rw [hnamed.rest] at hi
    obtain ⟨subject, hsubject, huser, hperson⟩ := h.person i p hi
    exact ⟨subject, hsubject, hkept _ _ huser, hkept _ _ hperson⟩

/-- A subject whose user is the identity of another is that other. -/
theorem Sound.eq_of_user (h : Sound space subjects verifyPassword s passwords)
    (hseparate : Separate subjects) {a b : Subject} (ha : subjects a) (hb : subjects b) {i : ℕ}
    (hai : s.names.lookup ((AuthSchema.namespaced space).stableUserSymbol a) = some i)
    (hbi : s.names.lookup ((AuthSchema.namespaced space).stableUserSymbol b) = some i) : a = b :=
  hseparate.eq_of_user ha hb (h.names _ _ i hai hbi)

theorem Sound.eq_of_person (h : Sound space subjects verifyPassword s passwords)
    (hseparate : Separate subjects) {a b : Subject} (ha : subjects a) (hb : subjects b) {i : ℕ}
    (hai : s.names.lookup ((AuthSchema.namespaced space).stablePersonSymbol a) = some i)
    (hbi : s.names.lookup ((AuthSchema.namespaced space).stablePersonSymbol b) = some i) : a = b :=
  hseparate.eq_of_person ha hb (h.names _ _ i hai hbi)

variable {subject : Subject}

/-- The account of another subject looks at other identities. -/
theorem account_named {schema : AuthSchema} {name : List Char} {identity : ℕ}
    (hnamed : Named s s' name identity) (hne : schema.stableUserSymbol subject ≠ name) :
    account schema s' subject = account schema s subject := by
  unfold account
  rw [hnamed.other _ hne, hnamed.rest]

theorem account_congr {schema : AuthSchema} (hnames : s'.names = s.names)
    (h : ∀ i, s.names.lookup (schema.stableUserSymbol subject) = some i →
      s'.localPasswordHash i = s.localPasswordHash i ∧ s'.userLogin i = s.userLogin i ∧
        s'.userProvider i = s.userProvider i ∧ (s'.defaultUserPerson i).bind s'.displayName =
          (s.defaultUserPerson i).bind s.displayName) :
    account schema s' subject = account schema s subject := by
  unfold account
  rw [hnames]
  rcases hlookup : s.names.lookup (schema.stableUserSymbol subject) with _ | i
  · rfl
  obtain ⟨hhash, hlogin, hprovider, hdisplay⟩ := h i hlookup
  rw [Option.map_some, Option.map_some, hhash, hlogin, hprovider, hdisplay]

/-- What a step does to the accounts. -/
structure Progress (space : List Char) (subjects : Subject → Prop)
    (verifyPassword : List Char → Hash → Bool) (s s' : AuthState Hash)
    (passwords' : List Char → Option (List Char)) (changed : Subject) : Prop where
  sound : Sound space subjects verifyPassword s' passwords'
  other : ∀ subject, subjects subject → subject ≠ changed →
    account (AuthSchema.namespaced space) s' subject = account (AuthSchema.namespaced space) s subject

/-- A step on a user that has been named. -/
theorem Progress.of_named (hseparate : Separate subjects) {changed : Subject} {i : ℕ}
    {s₁ : AuthState Hash} (hchanged : subjects changed)
    (hnamed : Named s s₁ ((AuthSchema.namespaced space).stableUserSymbol changed) i)
    {passwords' : List Char → Option (List Char)}
    (h : Progress space subjects verifyPassword s₁ s' passwords' changed) :
    Progress space subjects verifyPassword s s' passwords' changed := by
  refine ⟨h.sound, fun subject hsubject hne => ?_⟩
  rw [h.other subject hsubject hne]
  exact account_named hnamed fun heq => hne (hseparate.eq_of_user hsubject hchanged heq)

theorem Sound.ensureUserExists (h : Sound space subjects verifyPassword s passwords)
    (hseparate : Separate subjects) {login : List Char} {fresh : Option ℕ}
    (hsubject : subjects subject)
    (hstep : s.ensureUserExists (AuthSchema.namespaced space) login subject fresh = some s') :
    Progress space subjects verifyPassword s s' passwords subject := by
  unfold AuthState.ensureUserExists at hstep
  split at hstep
  · cases hstep
  rename_i i s₁ hmake
  split at hstep
  · cases hstep
  obtain rfl := some.inj hstep
  have hnamed := makeIdentity_cases hmake
  have h₁ := h.named hnamed
  refine .of_named hseparate hsubject hnamed ⟨⟨h₁.names, fun other j hj => ?_, h₁.password, h₁.person⟩,
    fun other hother hne => account_congr rfl fun j hj => ?_⟩
  · dsimp only at hj
    rw [update_apply] at hj
    split at hj
    · next heq =>
      rw [heq, ← some.inj hj]
      exact ⟨hsubject, hnamed.lookup⟩
    · exact h₁.external other j hj
  · have hji : j ≠ i := by
      rintro rfl
      exact hne (h₁.eq_of_user hseparate hother hsubject hj hnamed.lookup)
    exact ⟨rfl, update_of_ne hji _ _, update_of_ne hji _ _, rfl⟩

theorem Sound.setLocalPasswordHash (h : Sound space subjects verifyPassword s passwords)
    (hseparate : Separate subjects) {providerSub password : List Char} {hash : Hash}
    {fresh : Option ℕ} (hsubject : subjects (localProvider, providerSub))
    (hhash : ∀ p, verifyPassword p hash = true ↔ p = password)
    (hstep : s.setLocalPasswordHash
      ((AuthSchema.namespaced space).stableUserSymbol (localProvider, providerSub)) hash
        fresh = some s') :
    Progress space subjects verifyPassword s s' (Function.update passwords providerSub (some password))
      (localProvider, providerSub) := by
  unfold AuthState.setLocalPasswordHash at hstep
  split at hstep
  · cases hstep
  rename_i i s₁ hmake
  obtain rfl := some.inj hstep
  have hnamed := makeIdentity_cases hmake
  have h₁ := h.named hnamed
  refine .of_named hseparate hsubject hnamed ⟨⟨h₁.names, h₁.external, fun j old hj => ?_, h₁.person⟩,
    fun other hother hne => account_congr rfl fun j hj => ?_⟩
  · dsimp only at hj
    rw [update_apply] at hj
    split at hj
    · next heq =>
      obtain rfl := some.inj hj
      exact ⟨providerSub, password, hsubject, heq ▸ hnamed.lookup, update_self .., hhash⟩
    rename_i hne
    obtain ⟨sub, pw, hsub, hlookup, hpw, hverify⟩ := h₁.password j old hj
    refine ⟨sub, pw, hsub, hlookup, ?_, hverify⟩
    rw [update_of_ne ?_]
    · exact hpw
    · rintro rfl
      exact hne (some.inj (hlookup.symm.trans hnamed.lookup))
  · have hji : j ≠ i := by
      rintro rfl
      exact hne (h₁.eq_of_user hseparate hother hsubject hj hnamed.lookup)
    exact ⟨update_of_ne hji _ _, rfl, rfl, rfl⟩

/-- A person gets a display name; the person of another account is another. -/
theorem Sound.present (h : Sound space subjects verifyPassword s passwords)
    (hseparate : Separate subjects) (hsubject : subjects subject) {i actor : ℕ}
    (hactor : s.names.lookup ((AuthSchema.namespaced space).stablePersonSymbol subject) = some actor)
    (displayName : List Char) :
    Progress space subjects verifyPassword s (s.present i actor displayName) passwords subject := by
  refine ⟨⟨h.names, h.external, h.password, h.person⟩, fun other hother hne =>
    account_congr rfl fun j hj => ⟨rfl, rfl, rfl, ?_⟩⟩
  dsimp only [AuthState.present]
  rcases hdefault : s.defaultUserPerson j with _ | p
  · rfl
  obtain ⟨known, hknown, huser, hperson⟩ := h.person j p hdefault
  obtain rfl := h.eq_of_user hseparate hknown hother huser hj
  have hp : p ≠ actor := by
    rintro rfl
    exact hne (h.eq_of_person hseparate hother hsubject hperson hactor)
  exact update_of_ne hp _ _

theorem Sound.ensureUserPerson (h : Sound space subjects verifyPassword s passwords)
    (hseparate : Separate subjects) {displayName : List Char}
    {freshUser freshPerson : Option ℕ} (hsubject : subjects subject)
    (hstep : s.ensureUserPerson (AuthSchema.namespaced space)
      ((AuthSchema.namespaced space).stableUserSymbol subject) subject displayName
        freshUser freshPerson =
        some s') :
    Progress space subjects verifyPassword s s' passwords subject := by
  unfold AuthState.ensureUserPerson at hstep
  split at hstep
  · cases hstep
  rename_i i s₁ hmake
  have hnamed := makeIdentity_cases hmake
  have h₁ := h.named hnamed
  refine .of_named hseparate hsubject hnamed ?_
  split at hstep
  · next current hdefault =>
    obtain rfl := some.inj hstep
    obtain ⟨known, hknown, huser, hperson⟩ := h₁.person i current hdefault
    obtain rfl := h₁.eq_of_user hseparate hknown hsubject huser hnamed.lookup
    exact h₁.present hseparate hsubject hperson displayName
  rename_i hdefault
  split at hstep
  · cases hstep
  rename_i person s₂ hmake'
  obtain rfl := some.inj hstep
  have hnamed' := makeIdentity_cases hmake'
  have h₂ := h₁.named hnamed'
  have huser := hnamed'.kept _ _ hnamed.lookup
  -- the new default is found by the names of the account
  have h₃ : Sound space subjects verifyPassword ({ s₂ with
      person := insert person s₂.person
      userPerson := insert (i, person) s₂.userPerson
      defaultUserPerson := Function.update s₂.defaultUserPerson i (some person) } : AuthState Hash)
      passwords := by
    refine ⟨h₂.names, h₂.external, h₂.password, fun j p hj => ?_⟩
    dsimp only at hj
    rw [update_apply] at hj
    split at hj
    · next heq =>
      rw [heq, ← some.inj hj]
      exact ⟨subject, hsubject, huser, hnamed'.lookup⟩
    · exact h₂.person j p hj
  have hpresent := h₃.present (i := i) hseparate hsubject hnamed'.lookup displayName
  refine ⟨hpresent.sound, fun other hother hne => ?_⟩
  rw [hpresent.other other hother hne,
    ← account_named hnamed' (stableUserSymbol_ne_stablePersonSymbol other subject)]
  refine account_congr rfl fun j hj => ⟨rfl, rfl, rfl, ?_⟩
  have hji : j ≠ i := by
    rintro rfl
    exact hne (h₂.eq_of_user hseparate hother hsubject hj huser)
  dsimp only
  rw [update_of_ne hji]

/-- **Every step keeps the invariant and changes one account only.** -/
theorem Sound.step (h : Sound space subjects verifyPassword s passwords)
    (hseparate : Separate subjects) (hsubject : subjects a.subject)
    (hhash : HashesTruly verifyPassword a) :
    Progress space subjects verifyPassword s (s.step (AuthSchema.namespaced space) a)
      (passwordsAfter (AuthSchema.namespaced space) s passwords a) a.subject := by
  unfold AuthState.step
  cases hstep : s.tryStep (AuthSchema.namespaced space) a with
  | none =>
    have hpasswords : passwordsAfter (AuthSchema.namespaced space) s passwords a = passwords := by
      unfold passwordsAfter
      split
      · rw [hstep]
        rfl
      · rfl
    rw [hpasswords]
    exact ⟨h, fun _ _ _ => rfl⟩
  | some s' =>
    rw [Option.getD_some]
    cases a with
    | ensureUserExists login subject fresh => exact h.ensureUserExists hseparate hsubject hstep
    | setLocalPasswordHash providerSub password hash fresh =>
      have hset := h.setLocalPasswordHash hseparate hsubject hhash hstep
      unfold passwordsAfter
      rwa [hstep]
    | ensureUserPerson subject displayName freshUser freshPerson =>
      exact h.ensureUserPerson hseparate hsubject hstep

/-- The invariant after a run, and what its steps have left alone. -/
theorem Sound.run (hseparate : Separate subjects) : ∀ {steps : List (AuthStep Hash)}
    {s : AuthState Hash} {passwords : List Char → Option (List Char)},
    Sound space subjects verifyPassword s passwords → (∀ a ∈ steps, subjects a.subject) →
    (∀ a ∈ steps, HashesTruly verifyPassword a) →
      Sound space subjects verifyPassword (steps.foldl
        (AuthState.step (AuthSchema.namespaced space)) s)
        (lastPasswords (AuthSchema.namespaced space) s passwords steps)
  | [], _, _, h, _, _ => h
  | a :: steps, _, _, h, hsubjects, hhashes => by
    obtain ⟨hsubject, hsubjects⟩ := forall_mem_cons.mp hsubjects
    obtain ⟨hhash, hhashes⟩ := forall_mem_cons.mp hhashes
    have hrest := Sound.run hseparate (h.step hseparate hsubject hhash).sound hsubjects hhashes
    exact hrest

end Runs

/-- **What is promised of the accounts of a run.** -/
structure AccountsSeparate (space : List Char) (verifyPassword : List Char → Hash → Bool)
    (steps : List (AuthStep Hash)) : Prop where
  /-- Different accounts have different users. -/
  users : ∀ a ∈ steps, ∀ b ∈ steps, a.subject ≠ b.subject → ∀ i,
    (run (AuthSchema.namespaced space) steps).names.lookup
      ((AuthSchema.namespaced space).stableUserSymbol a.subject) = some i →
    (run (AuthSchema.namespaced space) steps).names.lookup
      ((AuthSchema.namespaced space).stableUserSymbol b.subject) ≠ some i
  /-- Different accounts have different persons. -/
  persons : ∀ a ∈ steps, ∀ b ∈ steps, a.subject ≠ b.subject → ∀ i,
    (run (AuthSchema.namespaced space) steps).names.lookup
      ((AuthSchema.namespaced space).stablePersonSymbol a.subject) = some i →
    (run (AuthSchema.namespaced space) steps).names.lookup
      ((AuthSchema.namespaced space).stablePersonSymbol b.subject) ≠ some i
  /-- The users that the relation of external identities holds are those. -/
  external : ∀ a ∈ steps, ∀ b ∈ steps, a.subject ≠ b.subject → ∀ i,
    (run (AuthSchema.namespaced space) steps).userExternalIdentity a.subject = some i →
    (run (AuthSchema.namespaced space) steps).userExternalIdentity b.subject ≠ some i
  /-- A step changes no other account. -/
  other : ∀ before a after, steps = before ++ a :: after → ∀ b ∈ steps, b.subject ≠ a.subject →
    account (AuthSchema.namespaced space) (run (AuthSchema.namespaced space) (before ++ [a]))
        b.subject =
      account (AuthSchema.namespaced space) (run (AuthSchema.namespaced space) before) b.subject
  /-- Only the last password of a login is accepted. -/
  authenticate : ∀ login password, ((run (AuthSchema.namespaced space) steps).authenticateLocalUser
      (AuthSchema.namespaced space) verifyPassword login password).isSome = true →
    ∃ providerSub, normalizeLocalLogin login = some providerSub ∧
      lastPasswords (AuthSchema.namespaced space) empty (fun _ => none) steps providerSub =
        some password

/-- **Accounts never share an identity**, in any run in which no two of them have the same words. -/
theorem accounts_separate (space : List Char) (verifyPassword : List Char → Hash → Bool)
    (steps : List (AuthStep Hash)) (hhashes : ∀ a ∈ steps, HashesTruly verifyPassword a)
    (hseparate : Separate fun subject => ∃ a ∈ steps, a.subject = subject) :
    AccountsSeparate space verifyPassword steps := by
  have hsubjects : ∀ a ∈ steps, ∃ b ∈ steps, b.subject = a.subject := fun a ha => ⟨a, ha, rfl⟩
  have hsound : Sound space (fun subject => ∃ a ∈ steps, a.subject = subject) verifyPassword
      (run (AuthSchema.namespaced space) steps)
      (lastPasswords (AuthSchema.namespaced space) empty (fun _ => none) steps) :=
    sound_empty.run hseparate hsubjects hhashes
  refine ⟨fun a ha b hb hne i hai hbi => ?_, fun a ha b hb hne i hai hbi => ?_,
    fun a ha b hb hne i hai hbi => ?_, fun before a after hsteps b hb hne => ?_,
    fun login password hok => ?_⟩
  · exact hne (hsound.eq_of_user hseparate (hsubjects a ha) (hsubjects b hb) hai hbi)
  · exact hne (hsound.eq_of_person hseparate (hsubjects a ha) (hsubjects b hb) hai hbi)
  · exact hne (hsound.eq_of_user hseparate (hsubjects a ha) (hsubjects b hb)
      (hsound.external _ i hai).2 (hsound.external _ i hbi).2)
  · have hbefore : Sound space (fun subject => ∃ a ∈ steps, a.subject = subject) verifyPassword
        (run (AuthSchema.namespaced space) before)
        (lastPasswords (AuthSchema.namespaced space) empty (fun _ => none) before) := by
      refine sound_empty.run hseparate (fun c hc => hsubjects c ?_) fun c hc => hhashes c ?_
      · exact hsteps ▸ mem_append_left _ hc
      · exact hsteps ▸ mem_append_left _ hc
    have ha : a ∈ steps := hsteps ▸ mem_append_right _ mem_cons_self
    have hstep := (hbefore.step hseparate (hsubjects a ha) (hhashes a ha)).other b.subject
      (hsubjects b hb) hne
    rw [← hstep]
    unfold AuthState.run
    rw [foldl_append]
    rfl
  · unfold authenticateLocalUser at hok
    split at hok
    · cases hok
    rename_i providerSub hlogin
    refine ⟨providerSub, hlogin, ?_⟩
    split at hok
    · cases hok
    rename_i user huser
    split at hok
    · cases hok
    rename_i hash hhash
    split at hok
    · next hverify =>
      obtain ⟨hsubject, hlookup⟩ := hsound.external _ user huser
      obtain ⟨sub, pw, hsub, hlookup', hpw, hexact⟩ := hsound.password user hash hhash
      obtain ⟨-, rfl⟩ := Prod.mk.inj (hsound.eq_of_user hseparate hsub hsubject hlookup' hlookup)
      rwa [(hexact password).mp hverify]
    · cases hok

/-- The steps of a local account with a password; here a hash is the password itself. -/
def localAccount (login password : String) (user person : ℕ) : List (AuthStep (List Char)) :=
  (upsertLocalUser login.toList password.toList login.toList password.toList
    ![some user, none, none, some person]).getD []

theorem hashesTruly_localAccount (login password : String) (user person : ℕ) :
    ∀ a ∈ localAccount login password user person,
      HashesTruly (fun p hash => decide (p = hash)) a := by
  unfold localAccount upsertLocalUser
  cases normalizeLocalLogin login.toList with
  | none => nofun
  | some providerSub => simp [HashesTruly]

theorem accounts_separate_alice_bob :
    AccountsSeparate "app".toList (fun p hash => decide (p = hash))
      (localAccount "Alice" "one" 0 1 ++ localAccount "bob" "two" 2 3) := by
  refine accounts_separate _ _ _ (forall_mem_append.mpr
    ⟨hashesTruly_localAccount _ _ _ _, hashesTruly_localAccount _ _ _ _⟩) ?_
  have hwords : ∀ a ∈ localAccount "Alice" "one" 0 1 ++ localAccount "bob" "two" 2 3,
      ∀ b ∈ localAccount "Alice" "one" 0 1 ++ localAccount "bob" "two" 2 3, a.subject ≠ b.subject →
        subjectWords a.subject.1 ++ subjectWords a.subject.2 ≠
          subjectWords b.subject.1 ++ subjectWords b.subject.2 := by
    decide +kernel
  rintro _ _ ⟨a, ha, rfl⟩ ⟨b, hb, rfl⟩ hne
  exact hwords a ha b hb hne

/-- **Two logins that differ in a separator share a user**: the second one takes the password over. -/
theorem one_user_for_two :
    (∀ a ∈ localAccount "a.b" "one" 0 1 ++ localAccount "a-b" "two" 2 3,
        HashesTruly (fun p hash => decide (p = hash)) a) ∧
      ¬ AccountsSeparate "app".toList (fun p hash => decide (p = hash))
        (localAccount "a.b" "one" 0 1 ++ localAccount "a-b" "two" 2 3) := by
  refine ⟨forall_mem_append.mpr
    ⟨hashesTruly_localAccount _ _ _ _, hashesTruly_localAccount _ _ _ _⟩, fun h => ?_⟩
  have hok : ((run (AuthSchema.namespaced "app".toList) (localAccount "a.b" "one" 0 1 ++
      localAccount "a-b" "two" 2 3)).authenticateLocalUser (AuthSchema.namespaced "app".toList)
      (fun p hash => decide (p = hash)) "a.b".toList "two".toList).isSome = true := by
    decide +kernel
  obtain ⟨providerSub, hlogin, hlast⟩ := h.authenticate _ _ hok
  obtain rfl : "a.b".toList = providerSub := some.inj hlogin
  exact absurd hlast (by decide +kernel)

end AuthState

end Mica
