import Mica.Lib.LittleEndian

/-!
# Lib/ByteCodec — encoders that append, decoders that walk

An encoder threads some output state and may fail.  It **appends** a result (`Appends`) when from any
state it appends exactly those bytes, or fails with exactly that error; such steps compose along
`>>=` as the bytes do along `join`.  Two encoders that append the same result agree, whatever their
states are.

A decoder is a state monad over an offset into a fixed slice and whatever else reading moves.  It
**reads** a run of bytes (`Reads`) when, wherever the run lies in the slice and whatever follows, it
returns a known value and stands behind the run.  It **restores** what an encoder wrote (`Restores`)
when it reads every run that the encoder can append.  It **stays** in the slice (`Stays`) when,
whatever the bytes are, it never stands behind their end and fails only in ways that are expected.
-/

open List
open Except (ok.inj)

namespace ByteCodec

open OrderCode (Bytes)
open LittleEndian

/-! ## Appending -/

section Appends

variable {ε σ α : Type}

/-- Two encodings one after the other; the first failure wins. -/
def join (r r' : Except ε Bytes) : Except ε Bytes := r >>= fun a => r' >>= fun b => .ok (a ++ b)

theorem join_eq_ok {r r' : Except ε Bytes} {out : Bytes} (h : join r r' = .ok out) :
    ∃ a b, r = .ok a ∧ r' = .ok b ∧ out = a ++ b := by
  match r, r', h with
  | .ok a, .ok b, h => exact ⟨a, b, rfl, rfl, (ok.inj h).symm⟩

theorem join_assoc (r r' r'' : Except ε Bytes) : join (join r r') r'' = join r (join r' r'') := by
  match r, r', r'' with
  | .error _, _, _ => rfl
  | .ok _, .error _, _ => rfl
  | .ok _, .ok _, .error _ => rfl
  | .ok a, .ok b, .ok c => exact congrArg Except.ok (append_assoc a b c)

theorem join_nil (r : Except ε Bytes) : join r (.ok []) = r := by
  cases r with
  | error e => rfl
  | ok a => exact congrArg Except.ok (append_nil a)

theorem join_nil_left (r : Except ε Bytes) : join (.ok []) r = r := by cases r <;> rfl

/-- Writing fields from the front is reading them from the front. -/
theorem foldl_join (r : Except ε Bytes) : ∀ fields : List (Except ε Bytes),
    fields.foldl join r = join r (fields.foldr join (.ok []))
  | [] => (join_nil r).symm
  | field :: fields => by
    rw [foldl_cons, foldl_join (join r field) fields, join_assoc, foldr_cons]

/-- **`f` appends the bytes of `r` to what its state shows**, or fails as `r` does. -/
def Appends (view : σ → Bytes) (f : σ → Except ε σ) (r : Except ε Bytes) : Prop :=
  ∀ s, (f s).map view = r.map (view s ++ ·)

variable {view : σ → Bytes} {f g : σ → Except ε σ} {r r' : Except ε Bytes}

theorem Appends.put {put : σ → σ} {out : Bytes} (h : ∀ s, view (put s) = view s ++ out) :
    Appends view (fun s => (.ok (put s) : Except ε σ)) (.ok out) :=
  fun s => congrArg Except.ok (h s)

theorem Appends.error (e : ε) : Appends view (fun _ => .error e) (.error e) := fun _ => rfl

theorem Appends.bind (hf : Appends view f r) (hg : Appends view g r') :
    Appends view (fun s => f s >>= g) (join r r') := by
  intro s
  have hs := hf s
  dsimp only
  match hfs : f s, r with
  | .error e, .error e' =>
    rw [hfs] at hs
    exact congrArg Except.error (Except.error.inj hs)
  | .error e, .ok a => rw [hfs] at hs; cases hs
  | .ok t, .error e' => rw [hfs] at hs; cases hs
  | .ok t, .ok a =>
    rw [hfs] at hs
    have hview : view t = view s ++ a := ok.inj hs
    have ht : (g t).map view = r'.map (view t ++ ·) := hg t
    change (g t).map view = _
    rw [ht, hview]
    cases r' with
    | error e => rfl
    | ok b => exact congrArg Except.ok (append_assoc _ _ _)

/-- From a state that shows nothing. -/
theorem Appends.start (h : Appends view f r) {s : σ} (hs : view s = []) : (f s).map view = r := by
  rw [h s, hs]
  cases r <;> rfl

/-- An encoder that first computes something, such as a checked length. -/
theorem Appends.guard {c : Except ε α} {f : α → σ → Except ε σ} {r : α → Except ε Bytes}
    (h : ∀ a, c = .ok a → Appends view (f a) (r a)) :
    Appends view (fun s => c >>= fun a => f a s) (c >>= r) := by
  intro s
  cases c with
  | error e => rfl
  | ok a => exact h a rfl s

end Appends

/-! ## Walking -/

/-- Where a decoder stands in the slice, and what else reading moves. -/
structure Cursor (τ : Type) where
  offset : ℕ
  env : τ

section Reads

variable {ε τ α β : Type} {bytes out out' : Bytes} {env env' env'' : τ}

/-- **The decoder returns `a` for the run `out`**, wherever the run lies in the slice. -/
def Reads (bytes : Bytes) (env env' : τ) (read : StateT (Cursor τ) (Except ε) α) (out : Bytes)
    (a : α) : Prop :=
  ∀ pre post, bytes = pre ++ (out ++ post) →
    read ⟨pre.length, env⟩ = .ok (a, ⟨pre.length + out.length, env'⟩)

theorem Reads.pure (a : α) :
    Reads bytes env env (Pure.pure a : StateT (Cursor τ) (Except ε) α) [] a := fun _ _ _ => rfl

theorem Reads.bind {read : StateT (Cursor τ) (Except ε) α} {a : α}
    {next : α → StateT (Cursor τ) (Except ε) β} {b : β} (h : Reads bytes env env' read out a)
    (h' : Reads bytes env' env'' (next a) out' b) :
    Reads bytes env env'' (read >>= next) (out ++ out') b := by
  intro pre post hbytes
  have hfirst := h pre (out' ++ post) (by rw [hbytes, append_assoc])
  have hrest := h' (pre ++ out) post (by rw [hbytes]; simp only [append_assoc])
  rw [length_append] at hrest
  change (read ⟨pre.length, env⟩ >>= fun p => next p.1 p.2) = _
  rwa [hfirst, length_append, ← Nat.add_assoc]

theorem Reads.map {read : StateT (Cursor τ) (Except ε) α} {a : α} (f : α → β)
    (h : Reads bytes env env' read out a) : Reads bytes env env' (f <$> read) out (f a) := by
  intro pre post hbytes
  change (read ⟨pre.length, env⟩ >>= fun p => Except.ok (f p.1, p.2)) = _
  rw [h pre post hbytes]
  rfl

/-- The next `len` bytes of the slice; `overrun` is the error when there are fewer. -/
def readExact (bytes : Bytes) (overrun : ℕ → ℕ → ℕ → ε) (len : ℕ) :
    StateT (Cursor τ) (Except ε) Bytes := fun c =>
  if c.offset + len > bytes.length then .error (overrun len c.offset bytes.length)
  else .ok ((bytes.drop c.offset).take len, { c with offset := c.offset + len })

theorem reads_readExact (overrun : ℕ → ℕ → ℕ → ε) (run : Bytes) :
    Reads bytes env env (readExact bytes overrun run.length) run run := by
  intro pre post hbytes
  have hlen : ¬pre.length + run.length > bytes.length := by
    rw [hbytes]
    simp only [length_append]
    omega
  rw [readExact, if_neg hlen, hbytes, drop_left, take_left]

/-- A little-endian number of `w` bytes. -/
def readLE (bytes : Bytes) (overrun : ℕ → ℕ → ℕ → ε) (w : ℕ) : StateT (Cursor τ) (Except ε) ℕ :=
  ofLE <$> readExact bytes overrun w

theorem reads_readLE (overrun : ℕ → ℕ → ℕ → ε) {w n : ℕ} (h : n < 256 ^ w) :
    Reads bytes env env (readLE bytes overrun w) (toLE w n) n := by
  have hexact : Reads bytes env env (readExact bytes overrun w) (toLE w n) (toLE w n) := by
    have hrun : Reads bytes env env (readExact bytes overrun (toLE w n).length)
      (toLE w n) (toLE w n) :=
      reads_readExact overrun (toLE w n)
    rwa [length_toLE] at hrun
  have hmap := hexact.map ofLE
  rwa [ofLE_toLE h] at hmap

/-- **The decoder reads back what an encoder would write**, if it writes at all. -/
def ReadsBack {ε' : Type} (bytes : Bytes) (env env' : τ) (r : Except ε' Bytes)
    (read : StateT (Cursor τ) (Except ε) α) (a : α) : Prop :=
  ∀ out, r = .ok out → Reads bytes env env' read out a

section ReadsBack

variable {ε' : Type} {r r' : Except ε' Bytes} {read : StateT (Cursor τ) (Except ε) α} {a : α}

theorem ReadsBack.pure (a : α) :
    ReadsBack bytes env env (.ok [] : Except ε' Bytes)
      (Pure.pure a : StateT (Cursor τ) (Except ε) α) a := by
  intro out h
  rw [← ok.inj h]
  exact Reads.pure a

theorem ReadsBack.bind {next : α → StateT (Cursor τ) (Except ε) β} {b : β}
    (h : ReadsBack bytes env env' r read a) (h' : ReadsBack bytes env' env'' r' (next a) b) :
    ReadsBack bytes env env'' (join r r') (read >>= next) b := by
  intro out hout
  obtain ⟨x, y, hx, hy, rfl⟩ := join_eq_ok hout
  exact (h x hx).bind (h' y hy)

theorem ReadsBack.map (f : α → β) (h : ReadsBack bytes env env' r read a) :
    ReadsBack bytes env env' r (f <$> read) (f a) := fun out hout => (h out hout).map f

theorem Reads.back (h : Reads bytes env env' read out a) :
    ReadsBack bytes env env' (.ok out : Except ε' Bytes) read a := by
  intro out' hout'
  rwa [← ok.inj hout']

end ReadsBack

end Reads

/-! ## Restoring -/

section Restores

variable {ε ε' τ α β : Type} {fits : Bytes → Prop} {env env' env'' : τ}
  {write write' : Bytes → Except ε' Bytes} {read : Bytes → StateT (Cursor τ) (Except ε) α} {a : α}

/-- **Whatever `write` appends, `read` reads back**, in every slice that fits. -/
def Restores (fits : Bytes → Prop) (env env' : τ) (write : Bytes → Except ε' Bytes)
    (read : Bytes → StateT (Cursor τ) (Except ε) α) (a : α) : Prop :=
  ∀ start out, write start = .ok out →
    ∃ run, out = start ++ run ∧ ∀ bytes, fits bytes → Reads bytes env env' (read bytes) run a

theorem Restores.nil (a : α) :
    Restores fits env env (Except.ok : Bytes → Except ε' Bytes)
      (fun _ => (Pure.pure a : StateT (Cursor τ) (Except ε) α)) a := by
  intro start out h
  rw [← ok.inj h]
  exact ⟨[], (append_nil start).symm, fun _ _ => Reads.pure a⟩

theorem Restores.bind {next : Bytes → α → StateT (Cursor τ) (Except ε) β} {b : β}
    (h : Restores fits env env' write read a)
    (h' : Restores fits env' env'' write' (fun bytes => next bytes a) b) :
    Restores fits env env'' (fun out => write out >>= write')
      (fun bytes => read bytes >>= next bytes) b := by
  intro start out hout
  match hfirst : write start with
  | .error e =>
    dsimp only at hout
    rw [hfirst] at hout
    cases hout
  | .ok middle =>
    dsimp only at hout
    rw [hfirst] at hout
    obtain ⟨run, rfl, hrun⟩ := h start middle hfirst
    obtain ⟨run', rfl, hrun'⟩ := h' _ out hout
    exact ⟨run ++ run', append_assoc _ _ _,
      fun bytes hbytes => (hrun bytes hbytes).bind (hrun' bytes hbytes)⟩

/-- A step of the decoder that reads nothing more. -/
theorem Restores.follow {next : Bytes → α → StateT (Cursor τ) (Except ε) β} {b : β}
    (h : Restores fits env env' write read a) (h' : ∀ bytes, next bytes a = Pure.pure b) :
    Restores fits env env' write (fun bytes => read bytes >>= next bytes) b := by
  intro start out hout
  obtain ⟨run, hrun, hreads⟩ := h start out hout
  refine ⟨run, hrun, fun bytes hbytes => ?_⟩
  have hnext : Reads bytes env' env' (next bytes a) [] b := by
    rw [h' bytes]
    exact Reads.pure b
  have hboth := (hreads bytes hbytes).bind hnext
  rwa [append_nil] at hboth

theorem Restores.map (f : α → β) (h : Restores fits env env' write read a) :
    Restores fits env env' write (fun bytes => f <$> read bytes) (f a) := by
  intro start out hout
  obtain ⟨run, hrun, hreads⟩ := h start out hout
  exact ⟨run, hrun, fun bytes hbytes => (hreads bytes hbytes).map f⟩

/-- `for _ in 0..n`, collecting what each turn reads. -/
def many (read : StateT (Cursor τ) (Except ε) α) : ℕ → StateT (Cursor τ) (Except ε) (List α)
  | 0 => pure []
  | n + 1 => do
    let a ← read
    let as ← many read n
    pure (a :: as)

/-- Writing the items of a list one after the other. -/
def writeEach (write : α → Bytes → Except ε' Bytes) : List α → Bytes → Except ε' Bytes
  | [], out => .ok out
  | a :: as, out => write a out >>= writeEach write as

theorem Restores.many {write : α → Bytes → Except ε' Bytes} : ∀ {as : List α},
    (∀ a ∈ as, Restores fits env env (write a) read a) →
      Restores fits env env (writeEach write as)
        (fun bytes => ByteCodec.many (read bytes) as.length) as
  | [], _ => Restores.nil []
  | a :: as, h => by
    have hrest : Restores fits env env (writeEach write as)
        (fun bytes => (a :: ·) <$> ByteCodec.many (read bytes) as.length) (a :: as) :=
      (Restores.many fun b hb => h b (mem_cons_of_mem a hb)).map _
    exact (h a mem_cons_self).bind hrest

end Restores

/-! ## Staying in the slice -/

section Stays

variable {ε τ α β : Type} {bytes : Bytes} {expected : ε → Prop}

/-- **The decoder stays in the slice**, and fails only as expected. -/
def Stays (bytes : Bytes) (expected : ε → Prop) (read : StateT (Cursor τ) (Except ε) α) : Prop :=
  ∀ c, c.offset ≤ bytes.length →
    (∃ a c', read c = .ok (a, c') ∧ c'.offset ≤ bytes.length) ∨ ∃ e, read c = .error e ∧ expected e

theorem Stays.pure (a : α) : Stays bytes expected (Pure.pure a : StateT (Cursor τ) (Except ε) α) :=
  fun c hc => .inl ⟨a, c, rfl, hc⟩

theorem Stays.throw {e : ε} (he : expected e) :
    Stays bytes expected (throw e : StateT (Cursor τ) (Except ε) α) :=
  fun _ _ => .inr ⟨e, rfl, he⟩

theorem Stays.bind {read : StateT (Cursor τ) (Except ε) α}
    {next : α → StateT (Cursor τ) (Except ε) β} (h : Stays bytes expected read)
    (h' : ∀ a, Stays bytes expected (next a)) : Stays bytes expected (read >>= next) := by
  intro c hc
  change (∃ b c', (read c >>= fun p => next p.1 p.2) = .ok (b, c') ∧ _) ∨
    ∃ e, (read c >>= fun p => next p.1 p.2) = .error e ∧ _
  rcases h c hc with ⟨a, c', ha, hc'⟩ | ⟨e, he, hexpected⟩
  · rw [ha]
    exact h' a c' hc'
  · rw [he]
    exact .inr ⟨e, rfl, hexpected⟩

theorem Stays.map {read : StateT (Cursor τ) (Except ε) α} (f : α → β)
    (h : Stays bytes expected read) : Stays bytes expected (f <$> read) := by
  intro c hc
  change (∃ b c', (read c >>= fun p => Except.ok (f p.1, p.2)) = .ok (b, c') ∧ _) ∨
    ∃ e, (read c >>= fun p => Except.ok (f p.1, p.2)) = .error e ∧ _
  rcases h c hc with ⟨a, c', ha, hc'⟩ | ⟨e, he, hexpected⟩
  · rw [ha]
    exact .inl ⟨f a, c', rfl, hc'⟩
  · rw [he]
    exact .inr ⟨e, rfl, hexpected⟩

theorem Stays.many {read : StateT (Cursor τ) (Except ε) α} (h : Stays bytes expected read) :
    ∀ n, Stays bytes expected (ByteCodec.many read n)
  | 0 => Stays.pure []
  | n + 1 => h.bind fun a => (Stays.many h n).bind fun as => Stays.pure (a :: as)

end Stays

end ByteCodec
