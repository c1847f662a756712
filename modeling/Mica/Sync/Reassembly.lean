import Mica.Sync.Datagram
import Mathlib.Data.Finset.Card

/-!
# Sync/Reassembly — chunked envelopes come out as they went in

The client's entry for a message is determined by which of its datagrams have come
(`SyncEnvelopeRef.entryOf`), so an envelope comes out with the last of its datagrams, byte for byte,
and nothing else comes out (`chunked_envelopes_reassemble`).
-/

open OrderCode (Bytes)
open Option (some.inj)
open LittleEndian List

namespace Mica

/-! ## Reading what was written -/

/-- A word in a row of words is read where it stands. -/
theorem getLE_words (w : ℕ) (rest : Bytes) {n : ℕ} (hn : n < 256 ^ w) :
    ∀ (before : Bytes) (ns : List ℕ) (k : ℕ), ns[k]? = some n →
      getLE w (before ++ ns.flatMap (toLE w) ++ rest) (before.length + w * k) = some n
  | before, m :: ns, 0, h => by
    obtain rfl := some.inj h
    have hdrop : (before ++ (m :: ns).flatMap (toLE w) ++ rest).drop (before.length + w * 0) =
        toLE w m ++ (ns.flatMap (toLE w) ++ rest) := by
      rw [Nat.mul_zero, Nat.add_zero, append_assoc, drop_left, flatMap_cons, append_assoc]
    have htake : (toLE w m ++ (ns.flatMap (toLE w) ++ rest)).take w = toLE w m := by
      rw [take_append_of_le_length (length_toLE w m).ge, take_of_length_le (length_toLE w m).le]
    have hbound : before.length + w * 0 + w ≤
      (before ++ (m :: ns).flatMap (toLE w) ++ rest).length := by
      simp only [length_append, flatMap_cons, length_toLE]
      omega
    rw [getLE, if_pos hbound, hdrop, htake, ofLE_toLE hn]
  | before, m :: ns, k + 1, h => by
    have hnext := getLE_words w rest hn (before ++ toLE w m) ns k h
    rw [length_append, length_toLE] at hnext
    rw [flatMap_cons, ← append_assoc, Nat.mul_add_one, ← hnext]
    congr 1
    omega

theorem getLE_isSome {w offset : ℕ} {data : Bytes} (h : offset + w ≤ data.length) :
    ∃ n, getLE w data offset = some n := ⟨_, if_pos h⟩

theorem hasMagic_append (magic rest : Bytes) : hasMagic (magic ++ rest) magic = true :=
  isPrefixOf_iff_prefix.mpr (prefix_append magic rest)

namespace SyncEnvelopeRef

variable {e : SyncEnvelopeRef} {encoded : Bytes} {index : ℕ}

theorem length_encoded (e : SyncEnvelopeRef) :
    e.encoded.length = syncHeaderLen + e.payload.length := by
  simp only [SyncEnvelopeRef.encoded, words, syncMagic, syncHeaderLen, length_append, length_cons,
    length_nil, flatMap_cons, flatMap_nil, length_toLE]

theorem hasMagic_encoded (e : SyncEnvelopeRef) : hasMagic e.encoded syncMagic = true := by
  rw [SyncEnvelopeRef.encoded, append_assoc, append_assoc]
  exact hasMagic_append _ _

theorem not_chunk_encoded (e : SyncEnvelopeRef) : hasMagic e.encoded chunkMagic = false := rfl

/-- What the client makes of an envelope. -/
def received {τ : Type} (decodeText : Bytes → τ) (e : SyncEnvelopeRef) : DecodedEnvelope τ :=
  .envelope (kindName e.kind.raw) (toString e.sessionId.toNat) (toString e.viewId.toNat)
    (toString e.clientRevision.toNat) (toString e.clientSignature.toNat)
    (toString e.serverRevision.toNat) (toString e.serverSignature.toNat) (decodeText e.payload)

theorem decode_encoded {τ : Type} (decodeText : Bytes → τ) (e : SyncEnvelopeRef) :
    decodeSyncEnvelope decodeText e.encoded = some (e.received decodeText) := by
  have hlen : ¬ (e.encoded.length < syncHeaderLen ∨ ¬ hasMagic e.encoded syncMagic) := by
    rw [hasMagic_encoded, length_encoded]
    simp
  have hword : ∀ (k : ℕ) (x : UInt64), e.words[k]? = some x.toNat →
      getLE 8 e.encoded (8 + 8 * k) = some x.toNat := fun k x hk =>
    getLE_words 8 e.payload x.toNat_lt (syncMagic ++ [e.kind.raw, 0, 0, 0]) e.words k hk
  have hkind : e.encoded[4]? = some e.kind.raw := rfl
  have hpayload : e.encoded.drop syncHeaderLen = e.payload := by
    refine drop_left' ?_
    have h := length_encoded e
    rw [SyncEnvelopeRef.encoded, length_append] at h
    omega
  rw [decodeSyncEnvelope, if_neg hlen, hkind, hpayload]
  simp only [hword 0 e.sessionId rfl, hword 1 e.viewId rfl, hword 2 e.clientRevision rfl,
    hword 3 e.clientSignature rfl, hword 4 e.serverRevision rfl, hword 5 e.serverSignature rfl,
    Option.bind_eq_bind, Option.bind_some, received]

/-! ## Chunks -/

theorem flatten_chunks (encoded : Bytes) (n : ℕ) :
    ((range n).map (chunkAt encoded)).flatten = encoded.take (syncChunkPayloadLen * n) := by
  induction n with
  | zero => rfl
  | succ n ih =>
    rw [range_succ, map_append, flatten_append, ih, map_singleton, flatten_singleton, chunkAt,
      Nat.mul_add_one, take_add]

/-- **The chunks spell the encoding.** -/
theorem flatten_chunkAt (encoded : Bytes) :
    ((range (chunkCount encoded)).map (chunkAt encoded)).flatten = encoded := by
  rw [flatten_chunks, take_of_length_le]
  unfold chunkCount syncChunkPayloadLen syncDatagramMaxLen chunkHeaderLen
  omega

theorem chunkCount_le (encoded : Bytes) : chunkCount encoded ≤ encoded.length := by
  unfold chunkCount syncChunkPayloadLen syncDatagramMaxLen chunkHeaderLen
  omega

theorem length_chunkAt_le (encoded : Bytes) (index : ℕ) :
    (chunkAt encoded index).length ≤ encoded.length := by
  rw [chunkAt, length_take, length_drop]
  omega

theorem combine_somes : ∀ (parts : List Bytes) (combined : Bytes) {totalLen : ℕ},
    (combined ++ parts.flatten).length = totalLen →
      combine totalLen (parts.map some) combined = some (combined ++ parts.flatten)
  | [], combined, totalLen, h => by
    rw [flatten_nil, append_nil] at h ⊢
    exact if_pos h
  | part :: parts, combined, totalLen, h => by
    have hlen : ¬ totalLen < combined.length + part.length := by
      rw [← h, flatten_cons, length_append, length_append]
      omega
    rw [flatten_cons, ← append_assoc] at h ⊢
    rw [map_cons, combine, if_neg hlen]
    exact combine_somes parts _ h

/-- **The header of a chunk is read as it was written**, below four gigabytes. -/
theorem getLE_chunkDatagram (messageId : UInt32) (hsize : encoded.length < 2 ^ 32)
    (hindex : index < chunkCount encoded) :
    getLE 4 (chunkDatagram messageId encoded index) 4 = some messageId.toNat ∧
      getLE 4 (chunkDatagram messageId encoded index) 8 = some index ∧
      getLE 4 (chunkDatagram messageId encoded index) 12 = some (chunkCount encoded) ∧
      getLE 4 (chunkDatagram messageId encoded index) 16 = some encoded.length ∧
      getLE 4 (chunkDatagram messageId encoded index) 20 = some (chunkAt encoded index).length := by
  have hcount := chunkCount_le encoded
  have hchunk := length_chunkAt_le encoded index
  have hword : ∀ (k n : ℕ), n < 256 ^ 4 → [messageId.toNat, index, chunkCount encoded, encoded.length,
      (chunkAt encoded index).length][k]? = some n →
        getLE 4 (chunkDatagram messageId encoded index) (4 + 4 * k) = some n := fun k n hn hk =>
    getLE_words 4 _ hn chunkMagic _ k hk
  exact ⟨hword 0 _ messageId.toNat_lt rfl, hword 1 _ (by omega) rfl, hword 2 _ (by omega) rfl,
    hword 3 _ (by omega) rfl, hword 4 _ (by omega) rfl⟩

theorem hasMagic_chunkDatagram (messageId : UInt32) (encoded : Bytes) (index : ℕ) :
    hasMagic (chunkDatagram messageId encoded index) chunkMagic = true := by
  rw [chunkDatagram, append_assoc]
  exact hasMagic_append _ _

theorem length_chunkDatagram (messageId : UInt32) (encoded : Bytes) (index : ℕ) :
    (chunkDatagram messageId encoded index).length =
      chunkHeaderLen + (chunkAt encoded index).length := by
  simp only [chunkDatagram, chunkMagic, chunkHeaderLen, length_append, length_cons, length_nil,
    flatMap_cons, flatMap_nil, length_toLE]

theorem drop_chunkDatagram (messageId : UInt32) (encoded : Bytes) (index : ℕ) :
    ((chunkDatagram messageId encoded index).drop chunkHeaderLen).take
      (chunkAt encoded index).length = chunkAt encoded index := by
  have hlen := length_chunkDatagram messageId encoded index
  rw [chunkDatagram] at hlen ⊢
  rw [drop_left' (by rw [length_append] at hlen; omega), take_length]

theorem chunkDatagram_inj {messageId messageId' : UInt32} {encoded' : Bytes} {index' : ℕ}
    (hsize : encoded.length < 2 ^ 32) (hsize' : encoded'.length < 2 ^ 32)
    (hindex : index < chunkCount encoded) (hindex' : index' < chunkCount encoded')
    (h : chunkDatagram messageId encoded index = chunkDatagram messageId' encoded' index') :
    messageId = messageId' ∧ index = index' := by
  obtain ⟨hid, hat, -⟩ := getLE_chunkDatagram messageId hsize hindex
  obtain ⟨hid', hat', -⟩ := getLE_chunkDatagram messageId' hsize' hindex'
  rw [h, hid'] at hid
  rw [h, hat'] at hat
  exact ⟨UInt32.toNat_inj.mp (some.inj hid).symm, (some.inj hat).symm⟩

/-! ## What the client keeps -/

/-- The indices of the chunks. -/
def indices (encoded : Bytes) : Finset ℕ := Finset.range (chunkCount encoded)

/-- The entry of a message of which the chunks in `I` have come. -/
def entryWith (encoded : Bytes) (I : Finset ℕ) : ChunkEntry where
  count := chunkCount encoded
  totalLen := encoded.length
  received := I.card
  parts index := if index ∈ I then some (chunkAt encoded index) else none

def entryOf (encoded : Bytes) (I : Finset ℕ) : Option ChunkEntry :=
  if I = ∅ then none else some (entryWith encoded I)

theorem getD_entryOf (encoded : Bytes) (I : Finset ℕ) :
    (entryOf encoded I).getD ⟨chunkCount encoded, encoded.length, 0, fun _ => none⟩ =
      entryWith encoded I := by
  rcases eq_or_ne I ∅ with rfl | hI
  · simp [entryOf, entryWith]
  · rw [entryOf, if_neg hI, Option.getD_some]

theorem file_entryWith (encoded : Bytes) (I : Finset ℕ) (index : ℕ) :
    (entryWith encoded I).file index (chunkAt encoded index) = entryWith encoded (insert index I) := by
  by_cases hmem : index ∈ I
  · rw [Finset.insert_eq_of_mem hmem, ChunkEntry.file, if_pos (by simp [entryWith, hmem])]
  rw [ChunkEntry.file, if_neg (by simp [entryWith, hmem])]
  simp only [entryWith, Finset.card_insert_of_notMem hmem, ChunkEntry.mk.injEq, true_and]
  funext i
  by_cases hi : i = index
  · subst hi
    simp
  · simp [Finset.mem_insert, hi]

theorem combine_entryWith (encoded : Bytes) :
    combine encoded.length
      ((range (chunkCount encoded)).map (entryWith encoded (indices encoded)).parts)
        [] = some encoded := by
  have hparts : (range (chunkCount encoded)).map
      (entryWith encoded (indices encoded)).parts =
        ((range (chunkCount encoded)).map (chunkAt encoded)).map some := by
    rw [map_map]
    refine map_congr_left fun i hi => ?_
    exact if_pos (Finset.mem_range.mpr (mem_range.mp hi))
  have h := @combine_somes ((range (chunkCount encoded)).map (chunkAt encoded)) []
    encoded.length (by rw [nil_append, flatten_chunkAt])
  rw [hparts, h, nil_append, flatten_chunkAt]

variable {τ : Type} (decodeText : Bytes → τ)

/-- **One chunk**: it is filed, and the last one makes the envelope. -/
theorem decode_chunkDatagram (messageId : UInt32) (hsize : e.encoded.length < 2 ^ 32)
    (hindex : index < chunkCount e.encoded) {I : Finset ℕ}
    (hI : I ⊆ indices e.encoded) {chunks : ChunkMap}
    (hkept : chunks messageId.toNat = entryOf e.encoded I) :
    decodeChunkedSyncEnvelope decodeText (chunkDatagram messageId e.encoded index) chunks =
      some (if insert index I = indices e.encoded
        then (some (e.received decodeText), Function.update chunks messageId.toNat none)
        else (none, Function.update chunks messageId.toNat (entryOf e.encoded (insert index I)))) := by
  obtain ⟨hid, hat, hcount, htotal, hlen⟩ := getLE_chunkDatagram messageId hsize hindex
  have hlength := length_chunkDatagram messageId e.encoded index
  have hheader : ¬ (chunkCount e.encoded = 0 ∨ chunkCount e.encoded ≤ index ∨
      (chunkDatagram messageId e.encoded index).length - chunkHeaderLen <
        (chunkAt e.encoded index).length ∨ e.encoded.length = 0) := by
    have := length_encoded e
    simp only [syncHeaderLen] at this
    omega
  have hinsert : insert index I ⊆ indices e.encoded :=
    Finset.insert_subset (Finset.mem_range.mpr hindex) hI
  have hcard : (insert index I).card = chunkCount e.encoded ↔
      insert index I = indices e.encoded := by
    have hrange : (indices e.encoded).card = chunkCount e.encoded := Finset.card_range _
    exact ⟨fun h => Finset.eq_of_subset_of_card_le hinsert (hrange.trans h.symm).le,
      fun h => h ▸ hrange⟩
  rw [decodeChunkedSyncEnvelope, if_neg (by rw [hasMagic_chunkDatagram]; simp),
    if_neg (by omega), hid, hat, hcount, htotal, hlen]
  simp only [Option.bind_eq_bind, Option.bind_some, if_neg hheader, hkept, getD_entryOf,
    drop_chunkDatagram, file_entryWith]
  rw [if_neg (by simp [entryWith])]
  by_cases hall : insert index I = indices e.encoded
  · rw [if_neg (by simpa [entryWith] using hcard.mpr hall), if_pos hall, hall]
    simp only [combine_entryWith, decode_encoded, Option.map_some]
  · have hsome : entryOf e.encoded (insert index I) = some (entryWith e.encoded (insert index I)) :=
      if_neg (Finset.insert_ne_empty index I)
    rw [if_pos (by simpa [entryWith] using mt hcard.mp hall), if_neg hall, hsome]

theorem encoded_ne_chunkDatagram (e : SyncEnvelopeRef) (messageId : UInt32) (encoded : Bytes)
    (index : ℕ) : e.encoded ≠ chunkDatagram messageId encoded index := fun h => by
  have hchunk := hasMagic_chunkDatagram messageId encoded index
  rw [← h, not_chunk_encoded] at hchunk
  exact Bool.noConfusion hchunk

theorem received_congr {e' : SyncEnvelopeRef} (h : e.encoded = e'.encoded) :
    e.received decodeText = e'.received decodeText :=
  some.inj (by rw [← decode_encoded, h, decode_encoded])

theorem decode_small (chunks : ChunkMap) :
    decodeChunkedSyncEnvelope decodeText e.encoded chunks =
      some (some (e.received decodeText), chunks) := by
  rw [decodeChunkedSyncEnvelope, if_pos (by rw [not_chunk_encoded]; simp), decode_encoded]
  rfl

end SyncEnvelopeRef

/-! ## Any datagram -/

section Client

variable {τ : Type} (decodeText : Bytes → τ)

theorem decodeSyncEnvelope_total (data : Bytes) :
    ∃ d, decodeSyncEnvelope decodeText data = some d ∧
      (d = .raw data ∨ syncHeaderLen ≤ data.length ∧ hasMagic data syncMagic = true) := by
  by_cases hraw : data.length < syncHeaderLen ∨ ¬ hasMagic data syncMagic
  · exact ⟨.raw data, if_pos hraw, .inl rfl⟩
  obtain ⟨hlen, hmagic⟩ := not_or.mp hraw
  rw [not_lt] at hlen
  rw [decodeSyncEnvelope, if_neg hraw]
  simp only [syncHeaderLen] at hlen
  obtain ⟨kind, hkind⟩ : ∃ kind, data[4]? = some kind := ⟨_, getElem?_eq_getElem (by omega)⟩
  have hword : ∀ offset, offset + 8 ≤ 56 → ∃ n, getLE 8 data offset = some n := fun offset h =>
    getLE_isSome (by omega)
  obtain ⟨_, h8⟩ := hword 8 (by decide)
  obtain ⟨_, h16⟩ := hword 16 (by decide)
  obtain ⟨_, h24⟩ := hword 24 (by decide)
  obtain ⟨_, h32⟩ := hword 32 (by decide)
  obtain ⟨_, h40⟩ := hword 40 (by decide)
  obtain ⟨_, h48⟩ := hword 48 (by decide)
  simp only [hkind, h8, h16, h24, h32, h40, h48, Option.bind_eq_bind, Option.bind_some]
  exact ⟨_, rfl, .inr ⟨hlen, not_not.mp hmagic⟩⟩

/-- The client reads within bounds, and answers with what some bytes decode to, if anything. -/
theorem decodeChunkedSyncEnvelope_total (data : Bytes) (chunks : ChunkMap) :
    ∃ answer chunks', decodeChunkedSyncEnvelope decodeText data chunks = some (answer, chunks') ∧
      ∀ d, answer = some d → ∃ bytes, decodeSyncEnvelope decodeText bytes = some d ∧
        (bytes = data ∨ hasMagic data chunkMagic = true) := by
  by_cases hmagic : hasMagic data chunkMagic = true
  swap
  · obtain ⟨d, hd, -⟩ := decodeSyncEnvelope_total decodeText data
    rw [decodeChunkedSyncEnvelope, if_pos hmagic, hd]
    exact ⟨_, _, rfl, fun d' h => ⟨data, by rw [hd, h], .inl rfl⟩⟩
  rw [decodeChunkedSyncEnvelope, if_neg (not_not.mpr hmagic)]
  by_cases hlen : data.length < chunkHeaderLen
  · rw [if_pos hlen]
    exact ⟨_, _, rfl, nofun⟩
  have hword : ∀ offset, offset + 4 ≤ 24 → ∃ n, getLE 4 data offset = some n := fun offset h =>
    getLE_isSome (by simp only [chunkHeaderLen] at hlen; omega)
  obtain ⟨message, h4⟩ := hword 4 (by decide)
  obtain ⟨index, h8⟩ := hword 8 (by decide)
  obtain ⟨count, h12⟩ := hword 12 (by decide)
  obtain ⟨totalLen, h16⟩ := hword 16 (by decide)
  obtain ⟨chunkLen, h20⟩ := hword 20 (by decide)
  simp only [if_neg hlen, h4, h8, h12, h16, h20, Option.bind_eq_bind, Option.bind_some]
  split_ifs
  · exact ⟨_, _, rfl, nofun⟩
  · exact ⟨_, _, rfl, nofun⟩
  · exact ⟨_, _, rfl, nofun⟩
  · split
    · exact ⟨_, _, rfl, nofun⟩
    · rename_i combined _
      obtain ⟨d, hd, -⟩ := decodeSyncEnvelope_total decodeText combined
      rw [hd]
      exact ⟨_, _, rfl, fun d' h => ⟨combined, by rw [hd, h], .inr hmagic⟩⟩

theorem receiveAll_append_singleton (data : Bytes) : ∀ (before : List Bytes) {chunks : ChunkMap}
    {answers : List (Option (DecodedEnvelope τ))} {kept kept' : ChunkMap}
    {answer : Option (DecodedEnvelope τ)},
    receiveAll decodeText chunks before = some (answers, kept) →
      decodeChunkedSyncEnvelope decodeText data kept = some (answer, kept') →
        receiveAll decodeText chunks (before ++ [data]) = some (answers ++ [answer], kept')
  | [], chunks, answers, kept, kept', answer, hbefore, hdata => by
    obtain ⟨rfl, rfl⟩ := Prod.mk.inj (some.inj hbefore)
    rw [nil_append, receiveAll, hdata]
    rfl
  | b :: before, chunks, answers, kept, kept', answer, hbefore, hdata => by
    rw [receiveAll] at hbefore
    obtain ⟨r, hr, hrest⟩ := Option.bind_eq_some_iff.mp hbefore
    obtain ⟨out, hout, heq⟩ := Option.map_eq_some_iff.mp hrest
    obtain ⟨rfl, rfl⟩ := Prod.mk.inj heq
    rw [cons_append, receiveAll, hr, Option.bind_some,
      receiveAll_append_singleton data before hout hdata]
    rfl

end Client

/-! ## Runs -/

namespace SyncEnvelopeRef

theorem mem_datagrams_of_chunked {e : SyncEnvelopeRef} {messageId : UInt32} {b : Bytes}
    (h : syncDatagramMaxLen < e.encoded.length) :
    b ∈ e.datagrams messageId ↔
      ∃ i < chunkCount e.encoded, chunkDatagram messageId e.encoded i = b := by
  rw [datagrams, if_neg h.not_ge]
  simp

theorem datagrams_of_small {e : SyncEnvelopeRef} (messageId : UInt32)
    (h : ¬ syncDatagramMaxLen < e.encoded.length) : e.datagrams messageId = [e.encoded] :=
  if_pos (not_lt.mp h)

theorem datagrams_ne_nil (messageId : UInt32) (e : SyncEnvelopeRef) : e.datagrams messageId ≠ [] := by
  rw [datagrams]
  split_ifs with hsmall
  · exact cons_ne_nil _ _
  have hcount : 0 < chunkCount e.encoded := by
    unfold chunkCount syncChunkPayloadLen syncDatagramMaxLen chunkHeaderLen
    simp only [syncDatagramMaxLen] at hsmall
    omega
  exact ne_nil_of_mem (mem_map_of_mem (mem_range.mpr hcount))

/-- What is kept of a chunked message, after the datagrams `before`: while it has not come whole, those
among them. -/
def KeptOf (s : UInt32 × SyncEnvelopeRef) (before : List Bytes) (chunks : ChunkMap) : Prop :=
  ∃ I ⊆ indices s.2.encoded, chunks s.1.toNat = entryOf s.2.encoded I ∧
    (¬ s.2.datagrams s.1 ⊆ before →
      ∀ i < chunkCount s.2.encoded, i ∈ I ↔ chunkDatagram s.1 s.2.encoded i ∈ before)

def Kept (sent : List (UInt32 × SyncEnvelopeRef)) (before : List Bytes) (chunks : ChunkMap) : Prop :=
  ∀ s ∈ sent, syncDatagramMaxLen < s.2.encoded.length → KeptOf s before chunks

/-- The answers to the datagrams that arrive: each is its own envelope, or nothing if it is a chunk,
and every envelope that comes whole is one of them. -/
structure Answers {τ : Type} (decodeText : Bytes → τ) (sent : List (UInt32 × SyncEnvelopeRef))
    (arrivals : List Bytes) (answers : List (Option (DecodedEnvelope τ))) : Prop where
  length_eq : answers.length = arrivals.length
  own : ∀ p ∈ arrivals.zip answers, ∃ s ∈ sent, p.1 ∈ s.2.datagrams s.1 ∧
    (p.2 = some (s.2.received decodeText) ∨ syncDatagramMaxLen < s.2.encoded.length ∧ p.2 = none)
  every : ∀ s ∈ sent, s.2.datagrams s.1 ⊆ arrivals →
    ∃ b ∈ s.2.datagrams s.1, (b, some (s.2.received decodeText)) ∈ arrivals.zip answers

section Runs

variable {sent : List (UInt32 × SyncEnvelopeRef)} {s : UInt32 × SyncEnvelopeRef} {before : List Bytes}
  {chunks chunks' : ChunkMap} {index : ℕ} {b : Bytes}

/-- A datagram that is none of its own leaves what is kept of a message. -/
theorem KeptOf.other (h : KeptOf s before chunks) (hchunks : chunks' s.1.toNat = chunks s.1.toNat)
    (hne : ∀ i < chunkCount s.2.encoded, chunkDatagram s.1 s.2.encoded i ≠ b) :
    KeptOf s (before ++ [b]) chunks' := by
  obtain ⟨I, hI, hentry, hcome⟩ := h
  refine ⟨I, hI, hchunks.trans hentry, fun hnot i hi => ?_⟩
  rw [hcome (fun h => hnot (subset_append_of_subset_left _ h)) i hi, mem_append, mem_singleton,
    or_iff_left (hne i hi)]

variable {τ : Type} (decodeText : Bytes → τ)

/-- **A chunk** of a message that comes whole with it, for the first time, makes the envelope. -/
theorem KeptOf.chunk (h : KeptOf s before chunks) (hsize : s.2.encoded.length < 2 ^ 32)
    (hlong : syncDatagramMaxLen < s.2.encoded.length) (hindex : index < chunkCount s.2.encoded) :
    ∃ answer entry,
      decodeChunkedSyncEnvelope decodeText (chunkDatagram s.1 s.2.encoded index) chunks =
        some (answer, Function.update chunks s.1.toNat entry) ∧
      KeptOf s (before ++ [chunkDatagram s.1 s.2.encoded index])
        (Function.update chunks s.1.toNat entry) ∧
      (answer = none ∨ answer = some (s.2.received decodeText)) ∧
      (¬ s.2.datagrams s.1 ⊆ before →
        s.2.datagrams s.1 ⊆ before ++ [chunkDatagram s.1 s.2.encoded index] →
          answer = some (s.2.received decodeText)) := by
  obtain ⟨I, hI, hentry, hcome⟩ := h
  have hstep := decode_chunkDatagram decodeText s.1 hsize hindex hI hentry
  have hinsert : insert index I ⊆ indices s.2.encoded :=
    Finset.insert_subset (Finset.mem_range.mpr hindex) hI
  have hbefore (hnot : ¬ s.2.datagrams s.1 ⊆ before ++ [chunkDatagram s.1 s.2.encoded index]) :
      ¬ s.2.datagrams s.1 ⊆ before := fun h => hnot (subset_append_of_subset_left _ h)
  -- what has come of this message, while some of it had not
  have hcome' (hnot : ¬ s.2.datagrams s.1 ⊆ before) : ∀ i < chunkCount s.2.encoded,
      i ∈ insert index I ↔
        chunkDatagram s.1 s.2.encoded i ∈ before ++ [chunkDatagram s.1 s.2.encoded index] := by
    intro i hi
    rw [Finset.mem_insert, mem_append, mem_singleton, or_comm, hcome hnot i hi]
    exact or_congr_right ⟨fun h => by rw [h], fun h => (chunkDatagram_inj hsize hsize hi hindex h).2⟩
  have hfull (hnot : ¬ s.2.datagrams s.1 ⊆ before) : insert index I = indices s.2.encoded ↔
      s.2.datagrams s.1 ⊆ before ++ [chunkDatagram s.1 s.2.encoded index] := by
    constructor
    · intro hall b hb
      obtain ⟨i, hi, rfl⟩ := (mem_datagrams_of_chunked hlong).mp hb
      exact (hcome' hnot i hi).mp (hall ▸ Finset.mem_range.mpr hi)
    · intro hall
      refine hinsert.antisymm fun i hi => ?_
      have hi := Finset.mem_range.mp hi
      exact (hcome' hnot i hi).mpr (hall ((mem_datagrams_of_chunked hlong).mpr ⟨i, hi, rfl⟩))
  by_cases hall : insert index I = indices s.2.encoded
  · rw [if_pos hall] at hstep
    exact ⟨_, _, hstep, ⟨∅, Finset.empty_subset _, Function.update_self .., fun hnot =>
      absurd ((hfull (hbefore hnot)).mp hall) hnot⟩, .inr rfl, fun _ _ => rfl⟩
  · rw [if_neg hall] at hstep
    exact ⟨_, _, hstep, ⟨_, hinsert, Function.update_self .., fun hnot => hcome' (hbefore hnot)⟩,
      .inl rfl, fun hnot h => absurd ((hfull hnot).mpr h) hall⟩

variable (hids : ((sent.filter fun s => syncDatagramMaxLen < s.2.encoded.length).map Prod.fst).Nodup)
  (hsize : ∀ s ∈ sent, s.2.encoded.length < 2 ^ 32)

include hids hsize

/-- **A datagram that arrives** is answered, and the last one of its envelope with the envelope. -/
theorem Kept.arrive (hkept : Kept sent before chunks) (hs : s ∈ sent) (hb : b ∈ s.2.datagrams s.1) :
    ∃ answer chunks', decodeChunkedSyncEnvelope decodeText b chunks = some (answer, chunks') ∧
      Kept sent (before ++ [b]) chunks' ∧
      (answer = some (s.2.received decodeText) ∨
        syncDatagramMaxLen < s.2.encoded.length ∧ answer = none) ∧
      ∀ s' ∈ sent, b ∈ s'.2.datagrams s'.1 → ¬ s'.2.datagrams s'.1 ⊆ before →
        s'.2.datagrams s'.1 ⊆ before ++ [b] → answer = some (s'.2.received decodeText) := by
  by_cases hlong : syncDatagramMaxLen < s.2.encoded.length
  · obtain ⟨index, hindex, rfl⟩ := (mem_datagrams_of_chunked hlong).mp hb
    -- a message with this id is this one
    have hself : ∀ s' ∈ sent, syncDatagramMaxLen < s'.2.encoded.length → s'.1 = s.1 → s' = s :=
      fun s' hs' hlong' h => inj_on_of_nodup_map hids (mem_filter.mpr ⟨hs', decide_eq_true hlong'⟩)
        (mem_filter.mpr ⟨hs, decide_eq_true hlong⟩) h
    obtain ⟨answer, entry, hdecode, hkept', hanswer, hlast⟩ :=
      (hkept s hs hlong).chunk decodeText (hsize s hs) hlong hindex
    refine ⟨answer, _, hdecode, fun s' hs' hlong' => ?_, hanswer.symm.imp_right fun h => ⟨hlong, h⟩,
      fun s' hs' hb' hnot hall => ?_⟩
    · by_cases hid : s'.1 = s.1
      · rwa [hself s' hs' hlong' hid]
      · refine (hkept s' hs' hlong').other ?_ fun i hi h => hid ?_
        · exact Function.update_of_ne (fun h => hid (UInt32.toNat_inj.mp h)) ..
        · exact (chunkDatagram_inj (hsize s' hs') (hsize s hs) hi hindex h).1
    · by_cases hlong' : syncDatagramMaxLen < s'.2.encoded.length
      · obtain ⟨i, hi, heq⟩ := (mem_datagrams_of_chunked hlong').mp hb'
        obtain rfl := hself s' hs' hlong'
          (chunkDatagram_inj (hsize s' hs') (hsize s hs) hi hindex heq).1
        exact hlast hnot hall
      · rw [datagrams_of_small _ hlong', mem_singleton] at hb'
        exact absurd hb'.symm (encoded_ne_chunkDatagram _ _ _ _)
  · rw [datagrams_of_small _ hlong, mem_singleton] at hb
    subst hb
    refine ⟨_, _, decode_small decodeText chunks, fun s' hs' hlong' => (hkept s' hs' hlong').other rfl
      fun _ _ => (encoded_ne_chunkDatagram _ _ _ _).symm, .inl rfl, fun s' hs' hb' _ _ => ?_⟩
    by_cases hlong' : syncDatagramMaxLen < s'.2.encoded.length
    · obtain ⟨i, -, heq⟩ := (mem_datagrams_of_chunked hlong').mp hb'
      exact absurd heq.symm (encoded_ne_chunkDatagram _ _ _ _)
    · rw [datagrams_of_small _ hlong', mem_singleton] at hb'
      rw [received_congr _ hb']

/-- **The run lemma**, by induction on what has arrived. -/
theorem receiveAll_kept (arrivals : List Bytes)
    (hsent : ∀ b ∈ arrivals, ∃ s ∈ sent, b ∈ s.2.datagrams s.1) :
    ∃ answers chunks, receiveAll decodeText (fun _ => none) arrivals = some (answers, chunks) ∧
      Kept sent arrivals chunks ∧ Answers decodeText sent arrivals answers := by
  induction arrivals using reverseRecOn with
  | nil =>
    refine ⟨[], _, rfl, fun _ _ _ => ⟨∅, Finset.empty_subset _, rfl, fun _ _ _ => by simp⟩, rfl,
      nofun, fun s hs hall => ?_⟩
    exact absurd (eq_nil_of_subset_nil hall) (datagrams_ne_nil s.1 s.2)
  | append_singleton before b ih =>
    obtain ⟨answers, chunks, hrun, hkept, hlength, hown, hevery⟩ :=
      ih fun b hb => hsent b (mem_append_left _ hb)
    obtain ⟨s, hs, hb⟩ := hsent b (mem_append_right _ (mem_singleton_self b))
    obtain ⟨answer, chunks', hdecode, hkept', hanswer, hlast⟩ :=
      hkept.arrive decodeText hids hsize hs hb
    have hzip : (before ++ [b]).zip (answers ++ [answer]) = before.zip answers ++ [(b, answer)] :=
      zip_append hlength.symm
    refine ⟨_, _, receiveAll_append_singleton decodeText b before hrun hdecode, hkept', ?_, ?_, ?_⟩
    · simp [hlength]
    · intro p hp
      rw [hzip, mem_append, mem_singleton] at hp
      obtain hp | rfl := hp
      · exact hown p hp
      · exact ⟨s, hs, hb, hanswer⟩
    · intro s' hs' hall
      rw [hzip]
      by_cases hbefore : s'.2.datagrams s'.1 ⊆ before
      · obtain ⟨b', hb', hmem⟩ := hevery s' hs' hbefore
        exact ⟨b', hb', mem_append_left _ hmem⟩
      have hb' : b ∈ s'.2.datagrams s'.1 := by
        by_contra hnot
        refine hbefore fun d hd => (mem_append.mp (hall hd)).resolve_right fun h => hnot ?_
        exact mem_singleton.mp h ▸ hd
      rw [hlast s' hs' hb' hbefore hall]
      exact ⟨b, hb', mem_append_right _ (mem_singleton_self _)⟩

end Runs

end SyncEnvelopeRef

/-- **Chunked envelopes come out as they went in.**  Let chunked envelopes have ids of their own and
encodings whose lengths fit the chunk header.  Then of datagrams that were lost, repeated, reordered or
interleaved at will, each is answered with its own envelope, or with nothing if it is a chunk; and
every envelope of which all datagrams arrive is an answer to one of them.  Whatever else arrives,
the client reads within bounds, and it answers with nothing, raw bytes or a well-formed envelope,
which the datagram is or a chunk completes. -/
theorem chunked_envelopes_reassemble {τ : Type} (decodeText : Bytes → τ)
    (sent : List (UInt32 × SyncEnvelopeRef))
    (hids : ((sent.filter fun s => syncDatagramMaxLen < s.2.encoded.length).map Prod.fst).Nodup)
    (hsize : ∀ s ∈ sent, s.2.encoded.length < 2 ^ 32) :
    (∀ arrivals : List Bytes, (∀ b ∈ arrivals, ∃ s ∈ sent, b ∈ s.2.datagrams s.1) →
      ∃ answers chunks, receiveAll decodeText (fun _ => none) arrivals = some (answers, chunks) ∧
        SyncEnvelopeRef.Answers decodeText sent arrivals answers) ∧
    ∀ (data : Bytes) (chunks : ChunkMap), ∃ answer chunks',
      decodeChunkedSyncEnvelope decodeText data chunks = some (answer, chunks') ∧
        ∀ d, answer = some d → (∃ bytes, d = .raw bytes) ∨
          ∃ bytes, syncHeaderLen ≤ bytes.length ∧ hasMagic bytes syncMagic = true ∧
            decodeSyncEnvelope decodeText bytes = some d ∧
            (bytes = data ∨ hasMagic data chunkMagic = true) := by
  refine ⟨fun arrivals hsent => ?_, fun data chunks => ?_⟩
  · obtain ⟨answers, chunks, hrun, -, hrest⟩ :=
      SyncEnvelopeRef.receiveAll_kept decodeText hids hsize arrivals hsent
    exact ⟨answers, chunks, hrun, hrest⟩
  obtain ⟨answer, chunks', hrun, hbytes⟩ := decodeChunkedSyncEnvelope_total decodeText data chunks
  refine ⟨answer, chunks', hrun, fun d hd => ?_⟩
  obtain ⟨bytes, hdecode, hfrom⟩ := hbytes d hd
  obtain ⟨d', hd', hraw⟩ := decodeSyncEnvelope_total decodeText bytes
  obtain rfl := some.inj (hdecode.symm.trans hd')
  exact hraw.imp (fun h => ⟨bytes, h⟩) fun h => ⟨bytes, h.1, h.2, hdecode, hfrom⟩

/-- A view of a thousand bytes. -/
def longEnvelope : SyncEnvelopeRef where
  kind := .viewSnapshot
  sessionId := 1
  viewId := 2
  clientRevision := 0
  clientSignature := 0
  serverRevision := 3
  serverSignature := 4
  payload := replicate 1000 0

theorem chunked_envelopes_reassemble_long :
    ∃ answers chunks, receiveAll id (fun _ => none) (longEnvelope.datagrams 7).reverse =
      some (answers, chunks) ∧ ∃ b ∈ longEnvelope.datagrams 7,
        (b, some (longEnvelope.received id)) ∈ (longEnvelope.datagrams 7).reverse.zip answers := by
  have hsize : ∀ s ∈ [((7 : UInt32), longEnvelope)], s.2.encoded.length < 2 ^ 32 := fun s hs => by
    rw [mem_singleton.mp hs, SyncEnvelopeRef.length_encoded,
      show longEnvelope.payload.length = 1000 from length_replicate]
    decide
  obtain ⟨answers, chunks, hrun, hanswers⟩ :=
    (chunked_envelopes_reassemble id [(7, longEnvelope)]
      ((nodup_singleton 7).sublist (filter_sublist.map Prod.fst)) hsize).1
        (longEnvelope.datagrams 7).reverse
          fun b hb => ⟨(7, longEnvelope), mem_singleton_self _, mem_reverse.mp hb⟩
  exact ⟨answers, chunks, hrun,
    hanswers.every (7, longEnvelope) (mem_singleton_self _) fun b hb => mem_reverse.mpr hb⟩

/-- An envelope that nobody sent is an envelope. -/
theorem stray_envelope_is_returned :
    ¬ ∀ (sent : List (UInt32 × SyncEnvelopeRef)) (data : Bytes),
      (∀ s ∈ sent, data ∉ s.2.datagrams s.1) →
        ∃ answer chunks, decodeChunkedSyncEnvelope id data (fun _ => none) = some (answer, chunks) ∧
          (answer = none ∨ ∃ bytes, answer = some (.raw bytes)) := by
  intro h
  obtain ⟨answer, chunks, hrun, hanswer⟩ := h [] longEnvelope.encoded nofun
  rw [SyncEnvelopeRef.decode_small] at hrun
  obtain rfl := (Prod.mk.inj (some.inj hrun)).1
  obtain h | ⟨bytes, h⟩ := hanswer <;> exact (nomatch h)

end Mica
