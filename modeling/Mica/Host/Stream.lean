import Mica.Host.Frame

/-!
# Host/Stream — the frame decoder over any stream

Bytes arrive in chunks that have nothing to do with the frames, and the reader of the stream may
peek and consume between any two of them.  What the decoder holds is described by `Feeding`: the
bytes still to consume, followed by those still to come, are the frames of the messages still to be
yielded.  Compacting the buffer changes none of it.
-/

open OrderCode LittleEndian ByteCodec List

namespace Mica

open FrameWriter

/-! ## What the decoder holds -/

namespace FrameDecoder

variable {d : FrameDecoder}

@[simp] theorem availableBytes_compactIfSparse (d : FrameDecoder) :
    d.compactIfSparse.availableBytes = d.availableBytes := by
  unfold compactIfSparse
  split
  · rfl
  split
  · next h => simp [availableBytes, h]
  · split
    · simp [availableBytes]
    · rfl

@[simp] theorem maxFrameLen_compactIfSparse (d : FrameDecoder) :
    d.compactIfSparse.maxFrameLen = d.maxFrameLen := by
  unfold compactIfSparse
  split_ifs <;> rfl

@[simp] theorem availableBytes_pushBytes (bytes : Bytes) (d : FrameDecoder) :
    (d.pushBytes bytes).availableBytes = d.availableBytes ++ bytes := by
  unfold pushBytes
  split
  · next h => rw [h, append_nil]
  · change (d.compactIfSparse.buffer ++ bytes).drop d.compactIfSparse.start = _
    rw [drop_append_of_le_length d.compactIfSparse.start_le]
    exact congrArg (· ++ bytes) (availableBytes_compactIfSparse d)

@[simp] theorem maxFrameLen_pushBytes (bytes : Bytes) (d : FrameDecoder) :
    (d.pushBytes bytes).maxFrameLen = d.maxFrameLen := by
  unfold pushBytes
  split
  · rfl
  · exact maxFrameLen_compactIfSparse d

theorem consumeFrame_of_none (h : completeFrameLen d.availableBytes d.maxFrameLen = .ok none) :
    d.peekFrame = .ok none ∧ d.consumeFrame = .ok (false, d) := by
  refine ⟨by rw [peekFrame, h]; rfl, ?_⟩
  unfold consumeFrame
  split
  · next e he => rw [h] at he; cases he
  · rfl
  · next total htotal => rw [h] at htotal; cases htotal

theorem consumeFrame_of_some {total : ℕ}
    (h : completeFrameLen d.availableBytes d.maxFrameLen = .ok (some total)) :
    d.peekFrame = .ok (some (d.availableBytes.take total)) ∧
      ∃ d', d.consumeFrame = .ok (true, d') ∧ d'.maxFrameLen = d.maxFrameLen ∧
        d'.availableBytes = d.availableBytes.drop total := by
  refine ⟨by rw [peekFrame, h]; rfl, ?_⟩
  unfold consumeFrame
  split
  · next e he => rw [h] at he; cases he
  · next hnone => rw [h] at hnone; cases hnone
  · next total' htotal =>
    rw [h] at htotal
    obtain rfl : total = total' := Option.some.inj (Except.ok.inj htotal)
    refine ⟨_, rfl, maxFrameLen_compactIfSparse _, ?_⟩
    rw [availableBytes_compactIfSparse]
    simp only [availableBytes, drop_drop]

end FrameDecoder

/-! ## Runs -/

/-- What the reader of a stream does. -/
inductive StreamOp where
  | push (bytes : Bytes)
  | peek
  | consume

/-- The bytes pushed by some operations. -/
def pushedBytes : List StreamOp → Bytes
  | [] => []
  | .push bytes :: ops => bytes ++ pushedBytes ops
  | _ :: ops => pushedBytes ops

/-- The frame that was peeked is decoded when it is consumed; a peek alone yields nothing. -/
def runStream (T : SymbolTable) (d : FrameDecoder) :
    List StreamOp → Except HostProtocolError (List HostMessage × FrameDecoder × SymbolTable)
  | [] => .ok ([], d, T)
  | .push bytes :: ops => runStream T (d.pushBytes bytes) ops
  | .peek :: ops => d.peekFrame >>= fun _ => runStream T d ops
  | .consume :: ops => do
    let frame ← d.peekFrame
    let (consumed, d') ← d.consumeFrame
    match consumed, frame with
    | true, some frame =>
      let (message, T') ← decodeFrame T frame
      let (messages, d'', T'') ← runStream T' d' ops
      .ok (message :: messages, d'', T'')
    | _, _ => runStream T d' ops

/-- A frame of the message that fits the limit. -/
structure FrameOf (T : SymbolTable) (maxFrameLen : ℕ) (message : HostMessage) (frame : Bytes) :
    Prop where
  encoded : encodedFrame T message = .ok frame
  fits : frame.length ≤ maxFrameLen + 8

/-- **The bytes the decoder has yet to consume and those yet to come are the frames of the messages
yet to be yielded.** -/
structure Feeding (T : SymbolTable) (d : FrameDecoder) (messages : List HostMessage)
    (frames : List Bytes) (coming : Bytes) : Prop where
  each : List.Forall₂ (FrameOf T d.maxFrameLen) messages frames
  bytes : d.availableBytes ++ coming = frames.flatten

section Feeding

variable {T : SymbolTable} {d : FrameDecoder} {message : HostMessage} {messages : List HostMessage}
  {frame coming : Bytes} {frames : List Bytes}

theorem FrameOf.exists_payload {maxFrameLen : ℕ} (h : FrameOf T maxFrameLen message frame) :
    ∃ payload, frame = frameAround message.messageType payload ∧ payload.length + 4 < 2 ^ 32 ∧
      payload.length + 4 ≤ maxFrameLen ∧ frame.length = payload.length + 12 := by
  have hencoded := h.encoded
  rw [encodedFrame_eq] at hencoded
  obtain ⟨payload, -, hlt, rfl⟩ := wireFrame_eq_ok hencoded
  have hfits := h.fits
  have hlen := length_frameAround message.messageType payload
  exact ⟨payload, rfl, hlt, by omega, hlen⟩

theorem exists_append_of_length_le {available rest : Bytes} (h : available ++ coming = frame ++ rest)
    (hle : frame.length ≤ available.length) : ∃ more, available = frame ++ more := by
  obtain ⟨more, hmore⟩ := prefix_of_prefix_length_le ⟨rest, rfl⟩ (h ▸ ⟨coming, rfl⟩) hle
  exact ⟨more, hmore.symm⟩

/-- Before a frame the decoder sees nothing until all of it is there. -/
theorem completeFrameLen_of_lt {maxFrameLen : ℕ} {available rest : Bytes}
    (hframe : FrameOf T maxFrameLen message frame) (h : available ++ coming = frame ++ rest)
    (hlt : available.length < frame.length) :
    completeFrameLen available maxFrameLen = .ok none := by
  obtain ⟨payload, rfl, hbound, hmax, hlen⟩ := hframe.exists_payload
  obtain ⟨tail, htail⟩ : ∃ tail, frameAround message.messageType payload = available ++ tail := by
    obtain ⟨tail, htail⟩ := prefix_of_prefix_length_le ⟨coming, rfl⟩ (h ▸ ⟨rest, rfl⟩) hlt.le
    exact ⟨tail, htail.symm⟩
  unfold completeFrameLen
  split
  · rfl
  rename_i hlong
  have hmagic : available.take 4 = magic := by
    have htake := congrArg (List.take 4) htail
    rw [take_append_of_le_length (by omega)] at htake
    exact htake.symm
  have hdeclared : declaredLen available = payload.length + 4 := by
    have hwhole := declaredLen_frameAround message.messageType [] hbound
    rw [append_nil, htail, declaredLen, drop_append_of_le_length (by omega),
      take_append_of_le_length (by rw [length_drop]; omega)] at hwhole
    exact hwhole
  rw [if_neg (not_not.mpr hmagic), hdeclared, validateFrameLen_eq_ok (by omega) hmax]
  exact if_pos (by omega)

theorem completeFrameLen_append {maxFrameLen : ℕ} (hframe : FrameOf T maxFrameLen message frame)
    (more : Bytes) : completeFrameLen (frame ++ more) maxFrameLen = .ok (some frame.length) := by
  obtain ⟨payload, rfl, hbound, hmax, hlen⟩ := hframe.exists_payload
  have hall : (frameAround message.messageType payload ++ more).length =
      payload.length + 12 + more.length := by rw [length_append, hlen]
  have hmagic : (frameAround message.messageType payload ++ more).take 4 = magic := rfl
  rw [completeFrameLen, if_neg (by omega), if_neg (not_not.mpr hmagic),
    declaredLen_frameAround _ _ hbound, validateFrameLen_eq_ok (by omega) hmax]
  change (if _ then _ else _) = _
  rw [if_neg (by omega), hlen]

/-- The two things a consume can meet: not yet a whole frame, and nothing changes; or the first
frame, which it takes. -/
theorem Feeding.consume (h : Feeding T d messages frames coming) :
    (d.peekFrame = .ok none ∧ d.consumeFrame = .ok (false, d) ∧
      (coming = [] → messages = [] ∧ d.availableBytes = [])) ∨
    ∃ message messages' frame frames' d', messages = message :: messages' ∧
      d.peekFrame = .ok (some frame) ∧ d.consumeFrame = .ok (true, d') ∧
      decodeFrame T frame = .ok (message, T) ∧ Feeding T d' messages' frames' coming := by
  obtain ⟨heach, hbytes⟩ := h
  cases heach with
  | nil =>
    have hnone : d.availableBytes = [] := (append_eq_nil_iff.mp hbytes).1
    have hcomplete : completeFrameLen d.availableBytes d.maxFrameLen = .ok none := by
      rw [hnone]
      rfl
    obtain ⟨hpeek, hconsume⟩ := FrameDecoder.consumeFrame_of_none hcomplete
    exact Or.inl ⟨hpeek, hconsume, fun _ => ⟨rfl, hnone⟩⟩
  | @cons message frame messages frames hframe hrest =>
    rw [flatten_cons] at hbytes
    by_cases hlt : d.availableBytes.length < frame.length
    · obtain ⟨hpeek, hconsume⟩ := FrameDecoder.consumeFrame_of_none
        (completeFrameLen_of_lt hframe hbytes hlt)
      refine Or.inl ⟨hpeek, hconsume, fun hcoming => ?_⟩
      -- with nothing to come, the frame would have to be all there
      have hlen := congrArg List.length hbytes
      rw [hcoming, append_nil, length_append] at hlen
      omega
    obtain ⟨more, hmore⟩ := exists_append_of_length_le hbytes (Nat.le_of_not_lt hlt)
    have hcomplete : completeFrameLen d.availableBytes d.maxFrameLen = .ok (some frame.length) :=
      hmore ▸ completeFrameLen_append hframe more
    obtain ⟨hpeek, d', hconsume, hmax, havailable⟩ := FrameDecoder.consumeFrame_of_some hcomplete
    rw [hmore, take_left] at hpeek
    rw [hmore, drop_left] at havailable
    refine Or.inr ⟨message, messages, frame, frames, d', rfl, hpeek, hconsume, ?_, ?_⟩
    · exact decodeFrame_wireFrame (encodedFrame_eq T message ▸ hframe.encoded)
    · rw [hmore, append_assoc] at hbytes
      exact ⟨hmax ▸ hrest, havailable ▸ append_cancel_left hbytes⟩

theorem Feeding.push {bytes : Bytes} (h : Feeding T d messages frames (bytes ++ coming)) :
    Feeding T (d.pushBytes bytes) messages frames coming := by
  refine ⟨?_, ?_⟩
  · rw [FrameDecoder.maxFrameLen_pushBytes]
    exact h.each
  · rw [FrameDecoder.availableBytes_pushBytes, append_assoc]
    exact h.bytes

/-- What is yielded first, put before what a rest of a run yields. -/
def yieldFirst (yielded : List HostMessage)
    (r : Except HostProtocolError (List HostMessage × FrameDecoder × SymbolTable)) :
    Except HostProtocolError (List HostMessage × FrameDecoder × SymbolTable) :=
  r.map fun p => (yielded ++ p.1, p.2)

theorem yieldFirst_nil (r : Except HostProtocolError (List HostMessage × FrameDecoder × SymbolTable)) :
    yieldFirst [] r = r := by cases r <;> rfl

/-- A consume that finds no frame. -/
theorem runStream_consume_none {ops : List StreamOp} (hpeek : d.peekFrame = .ok none)
    (hconsume : d.consumeFrame = .ok (false, d)) :
    runStream T d (.consume :: ops) = runStream T d ops := by
  rw [runStream, hpeek, hconsume]
  rfl

/-- A consume that takes a frame. -/
theorem runStream_consume_some {ops : List StreamOp} {d' : FrameDecoder}
    (hpeek : d.peekFrame = .ok (some frame)) (hconsume : d.consumeFrame = .ok (true, d'))
    (hdecode : decodeFrame T frame = .ok (message, T)) :
    runStream T d (.consume :: ops) = yieldFirst [message] (runStream T d' ops) := by
  rw [runStream, hpeek, hconsume]
  change (decodeFrame T frame >>= fun p => runStream p.2 d' ops >>= fun q =>
    Except.ok (p.1 :: q.1, q.2.1, q.2.2)) = _
  rw [hdecode]
  change (runStream T d' ops >>= fun q => Except.ok (message :: q.1, q.2.1, q.2.2)) = _
  cases runStream T d' ops <;> rfl

/-- **At any point of any run the decoder has yielded the first messages**, and is being fed the
others; the run goes on from there. -/
theorem Feeding.run : ∀ (ops : List StreamOp) {d : FrameDecoder} {messages : List HostMessage}
    {frames : List Bytes}, Feeding T d messages frames (pushedBytes ops ++ coming) →
    ∃ yielded rest frames' d', messages = yielded ++ rest ∧ Feeding T d' rest frames' coming ∧
      ∀ more, runStream T d (ops ++ more) = yieldFirst yielded (runStream T d' more)
  | [], d, messages, frames, h =>
    ⟨[], messages, frames, d, rfl, h, fun more => (yieldFirst_nil _).symm⟩
  | .push bytes :: ops, d, messages, frames, h => by
    rw [pushedBytes, append_assoc] at h
    exact Feeding.run ops h.push
  | .peek :: ops, d, messages, frames, h => by
    obtain ⟨yielded, rest, frames', d', hmessages, hfeed, hrun⟩ :=
      Feeding.run ops (show Feeding T d messages frames (pushedBytes ops ++ coming) from h)
    refine ⟨yielded, rest, frames', d', hmessages, hfeed, fun more => ?_⟩
    rw [← hrun more, cons_append, runStream]
    rcases h.consume with ⟨hpeek, -⟩ | ⟨_, _, _, _, _, -, hpeek, -⟩
    · rw [hpeek]
      rfl
    · rw [hpeek]
      rfl
  | .consume :: ops, d, messages, frames, h => by
    rcases h.consume with ⟨hpeek, hconsume, -⟩ |
      ⟨message, messages', frame, frames₁, d₁, rfl, hpeek, hconsume, hdecode, hnext⟩
    · obtain ⟨yielded, rest, frames', d', hmessages, hfeed, hrun⟩ :=
        Feeding.run ops (show Feeding T d messages frames (pushedBytes ops ++ coming) from h)
      refine ⟨yielded, rest, frames', d', hmessages, hfeed, fun more => ?_⟩
      rw [cons_append, runStream_consume_none hpeek hconsume, hrun more]
    · obtain ⟨yielded, rest, frames', d', rfl, hfeed, hrun⟩ :=
        Feeding.run ops (show Feeding T d₁ messages' frames₁ (pushedBytes ops ++ coming) from hnext)
      refine ⟨message :: yielded, rest, frames', d', rfl, hfeed, fun more => ?_⟩
      rw [cons_append, runStream_consume_some hpeek hconsume hdecode, hrun more]
      cases runStream T d' more <;> rfl

/-- With all bytes in, one consume for each message takes them all. -/
theorem Feeding.drain : ∀ {messages : List HostMessage} {frames : List Bytes} {d : FrameDecoder},
    Feeding T d messages frames [] →
    ∃ d', runStream T d (List.replicate messages.length .consume) = .ok (messages, d', T) ∧
      d'.availableBytes = []
  | [], frames, d, h => by
    rcases h.consume with ⟨-, -, hend⟩ | ⟨_, _, _, _, _, hnil, -⟩
    · exact ⟨d, rfl, (hend rfl).2⟩
    · cases hnil
  | message :: messages, frames, d, h => by
    rcases h.consume with ⟨-, -, hend⟩ |
      ⟨message', messages', frame, frames₁, d₁, heq, hpeek, hconsume, hdecode, hnext⟩
    · cases (hend rfl).1
    · obtain ⟨rfl, rfl⟩ := List.cons.inj heq
      obtain ⟨d', hrun, hempty⟩ := Feeding.drain hnext
      refine ⟨d', ?_, hempty⟩
      rw [length_cons, replicate_succ, runStream_consume_some hpeek hconsume hdecode, hrun]
      rfl

end Feeding

/-! ## The round trip -/

theorem encodeFrame_eq_append (T : SymbolTable) (message : HostMessage) (out : Bytes) :
    encodeFrame T message out = (encodedFrame T message).map (out ++ ·) := by
  unfold encodedFrame encodeFrame
  cases encodePayload T message [] with
  | error e => rfl
  | ok payload =>
    change (u32Len (payload.length + 4) >>= _) = (u32Len (payload.length + 4) >>= _).map _
    cases u32Len (payload.length + 4) with
    | error e => rfl
    | ok len => exact congrArg Except.ok (by simp only [append_assoc, nil_append])

/-- **Host frames round trip.**  The segments of a frame are the bytes `encode_frame` appends; a
frame decodes to its message; and however the concatenated frames are cut into chunks, with peeks and
consumes in between, the decoder never fails and yields the messages in order — all of them, ending
empty, once the bytes are all in and no frame is left to consume, which one consume for each message
reaches. -/
theorem host_frames_roundTrip (T : SymbolTable) :
    (∀ (message : HostMessage) (out : Bytes), encodeFrame T message out =
      (encodeFrameSegments T message).map fun segs => out ++ segs.toVec) ∧
    (∀ (message : HostMessage) (frame : Bytes), encodedFrame T message = .ok frame →
      decodeFrame T frame = .ok (message, T)) ∧
    ∀ (maxFrameLen : ℕ) (messages : List HostMessage) (frames : List Bytes),
      List.Forall₂ (FrameOf T maxFrameLen) messages frames →
      ∀ (ops : List StreamOp) (coming : Bytes), pushedBytes ops ++ coming = frames.flatten →
      ∃ yielded rest d, messages = yielded ++ rest ∧
        runStream T (.new maxFrameLen) ops = .ok (yielded, d, T) ∧
        (coming = [] →
          (d.peekFrame = .ok none → yielded = messages ∧ d.isEmpty = true) ∧
          ∃ d', runStream T (.new maxFrameLen) (ops ++ List.replicate rest.length .consume) =
            .ok (messages, d', T) ∧ d'.isEmpty = true) := by
  refine ⟨fun message out => ?_, fun message frame h => ?_, ?_⟩
  · rw [encodeFrame_eq_append, encodedFrame_eq, ← toVec_encodeFrameSegments]
    cases encodeFrameSegments T message <;> rfl
  · exact decodeFrame_wireFrame (encodedFrame_eq T message ▸ h)
  · intro maxFrameLen messages frames heach ops coming hbytes
    have hstart : Feeding T (.new maxFrameLen) messages frames (pushedBytes ops ++ coming) :=
      ⟨heach, hbytes⟩
    obtain ⟨yielded, rest, frames', d, rfl, hfeed, hrun⟩ := hstart.run ops
    have hops := hrun []
    rw [append_nil, runStream, yieldFirst, Except.map, append_nil] at hops
    refine ⟨yielded, rest, d, rfl, hops, ?_⟩
    rintro rfl
    constructor
    · intro hpeek
      rcases hfeed.consume with ⟨-, -, hend⟩ | ⟨_, _, _, _, _, -, hpeek', -⟩
      · obtain ⟨hrest, hempty⟩ := hend rfl
        rw [hrest, append_nil]
        exact ⟨rfl, by rw [FrameDecoder.isEmpty, hempty]; rfl⟩
      · rw [hpeek] at hpeek'
        cases hpeek'
    · obtain ⟨d', hdrain, hempty⟩ := hfeed.drain
      refine ⟨d', ?_, by rw [FrameDecoder.isEmpty, hempty]; rfl⟩
      rw [hrun, hdrain]
      rfl

/-- Three messages, and their frames. -/
def sentMessages : List HostMessage :=
  [.helloAck 1 0, .drainOutput 7 ⟨5, by decide⟩ 64,
    .outputBatch ⟨5, by decide⟩ [.bool true, .bool false]]

def sentFrames : List Bytes :=
  [[77, 72, 80, 49, 14, 0, 0, 0, 2, 0, 0, 0, 1, 0, 0, 0, 0, 0, 0, 0, 0, 0],
    [77, 72, 80, 49, 24, 0, 0, 0, 1, 3, 0, 0, 7, 0, 0, 0, 0, 0, 0, 0, 5, 0, 0, 0, 0, 0, 0,
      0, 64, 0, 0, 0],
    [77, 72, 80, 49, 32, 0, 0, 0, 2, 3, 0, 0, 5, 0, 0, 0, 0, 0, 0, 0, 2, 0, 0, 0, 1, 0, 0,
      0, 0, 0, 0, 1,
      0, 0, 0, 0, 0, 0, 0, 1]]

/-- The first cut is inside a header, the second inside the second frame. -/
def sentOps : List StreamOp :=
  [.push (sentFrames.flatten.take 5), .consume, .push ((sentFrames.flatten.drop 5).take 30), .peek,
    .consume, .push (sentFrames.flatten.drop 35)]

theorem host_frames_roundTrip_chunks : ∃ n d,
    runStream .empty (.new 64) (sentOps ++ List.replicate n .consume) = .ok (sentMessages, d, .empty) ∧
      d.isEmpty = true := by
  have heach : List.Forall₂ (FrameOf .empty 64) sentMessages sentFrames :=
    .cons ⟨by decide +kernel, by decide⟩
      (.cons ⟨by decide +kernel, by decide⟩ (.cons ⟨by decide +kernel, by decide⟩ .nil))
  obtain ⟨-, -, hstream⟩ := host_frames_roundTrip .empty
  obtain ⟨_, rest, _, -, -, hdrain⟩ := hstream 64 _ _ heach sentOps [] (by decide)
  exact ⟨rest.length, (hdrain rfl).2⟩

end Mica
