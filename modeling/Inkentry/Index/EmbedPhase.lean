/-
  Inkentry.Index.EmbedPhase

  The embed phase: the queue of chunks that have no vector is sent to the
  server in batches, and each batch's vectors are stored in one transaction
  before the next batch is cut.

  A batch is one chunk first, then four, then as many as the measured rate, the
  growth cap and the server's ceiling allow.  A request that runs out of time
  halves the batch, a connection that fails and a server that is saturated
  repeat it, and anything else ends the phase.

  One step is one request and its reply.  The rate is measured in floating
  point, which the phase takes from `Floats`; nothing below rests on what it
  computes.
-/

import Inkentry.Lib.Runs
import Mathlib.Data.Nat.Count
import Mathlib.Tactic.Common
import Mathlib.Tactic.Ring

namespace Inkentry.Index.EmbedPhase

/-! ## Batch sizes -/

def MAX_BATCH : ℕ := 256

def DEFAULT_BATCH_CEILING : ℕ := MAX_BATCH

def CALIBRATION_BATCH_1 : ℕ := 1

def CALIBRATION_BATCH_2 : ℕ := 4

def GROWTH_FACTOR : ℕ := 8

/-- `Duration` is in nanoseconds. -/
def fromSecs (n : ℕ) : ℕ := n * 1000000000

def CONNECT_FAILURE_BACKOFFS : List ℕ := [5, 15, 45, 90, 180].map fromSecs

def MAX_SATURATION_RETRIES : ℕ := 30

def TARGET_BATCH_SECONDS : ℕ := 240

def LEGACY_SERVER_REQUEST_BUDGET_SECS : ℕ := 30

def MIN_REQUEST_TIMEOUT : ℕ := fromSecs 60

def MAX_REQUEST_TIMEOUT : ℕ := fromSecs 1800

def FIRST_REQUEST_TIMEOUT : ℕ := fromSecs 300

/-- The limits a server reports with its health. -/
structure ServerLimits where
  embedRequestTimeoutSecs : Option ℕ
  maxBatchChunks : Option ℕ

def resolveBatchCeiling (requested : ℕ) (serverMaxBatchChunks : Option ℕ) : ℕ :=
  let ceiling := if requested = 0 then DEFAULT_BATCH_CEILING else min requested MAX_BATCH
  match serverMaxBatchChunks with
  | some serverMax => min ceiling serverMax
  | none => ceiling

/-- What the phase computes in floating point. -/
structure Floats where
  /-- `Duration::div_f64` by a number of tokens. -/
  divTokens : ℕ → ℕ → ℕ
  /-- The cold sample's share in a second sample. -/
  blendCold : ℕ → ℕ → ℕ
  /-- The mean of the rate so far and a sample. -/
  blend : ℕ → ℕ → ℕ
  /-- Whether the sum of some token counts is over the tokens of a rate and a number of
  seconds. -/
  overTarget : ℕ → ℕ → List ℕ → Bool
  /-- The seconds a batch's tokens take at a rate, with the safety factor. -/
  expected : ℕ → ℕ → ℕ
  /-- Two thirds, rounded down. -/
  twoThirds : ℕ → ℕ
  /-- `vec_to_int8_blob` of a vector of `f32` bit patterns. -/
  toInt8Blob : List UInt32 → List UInt8

variable (fl : Floats)

def resolveTargetBatchSeconds (limits : Option ServerLimits) : ℕ :=
  let budgetSecs := (limits.bind (·.embedRequestTimeoutSecs)).getD LEGACY_SERVER_REQUEST_BUDGET_SECS
  min TARGET_BATCH_SECONDS (max (fl.twoThirds budgetSecs) 1)

/-- The token counts taken before their sum is over the target; the first is always taken. -/
def takeTokens (exceeds : List ℕ → Bool) : List ℕ → List ℕ → ℕ
  | _, [] => 0
  | seen, tc :: rest =>
    if seen ≠ [] ∧ exceeds (seen ++ [max tc 1]) then 0
    else takeTokens exceeds (seen ++ [max tc 1]) rest + 1

def nextBatchLen (perToken : ℕ) (tokenTail : List ℕ) (ceiling previousBatchSize targetSeconds : ℕ) :
    ℕ :=
  let growthCap := min (max previousBatchSize 1 * GROWTH_FACTOR) (max ceiling 1)
  if perToken = 0 then min growthCap (max tokenTail.length 1)
  else max (takeTokens (fl.overTarget perToken targetSeconds) [] (tokenTail.take growthCap)) 1

def batchTimeout (perToken batchTokens : ℕ) : ℕ :=
  max MIN_REQUEST_TIMEOUT (min MAX_REQUEST_TIMEOUT (fl.expected perToken (max batchTokens 1)))

inductive RateEstimate where
  | noSamples
  | coldSampleOnly (d : ℕ)
  | blended (d : ℕ)
  deriving DecidableEq

def RateEstimate.update (rate : RateEstimate) (elapsed tokens : ℕ) : RateEstimate :=
  if tokens = 0 then rate
  else
    let sample := fl.divTokens elapsed tokens
    match rate with
    | .noSamples => .coldSampleOnly sample
    | .coldSampleOnly cold => .blended (fl.blendCold cold sample)
    | .blended prev => .blended (fl.blend prev sample)

def RateEstimate.perToken : RateEstimate → Option ℕ
  | .noSamples => none
  | .coldSampleOnly d => some d
  | .blended d => some d

/-! ## One request -/

structure PendingEmbedding where
  chunkId : ℤ
  embeddingText : String
  tokenCount : ℕ

/-- What comes back of a request: no connection, no answer in time, another failure to send, or
a response with its status and its body, where that can be read. -/
inductive Reply where
  | connectError
  | timeoutError
  | sendError
  | response (status : ℕ) (body : Option (List UInt8))

inductive EmbedBatchError where
  | budgetExceeded
  | connectFailure
  | saturated
  | embedderDeviceLost
  | other
  deriving DecidableEq

def EMBEDDING_DIM : ℕ := 896

/-- `chunks_exact`: the whole pieces of a length. -/
def chunksExact {α : Type} (size : ℕ) (l : List α) : List (List α) :=
  (List.range (l.length / size)).map fun i => (l.drop (i * size)).take size

/-- The bit pattern of a little-endian `f32`. -/
def f32FromLeBytes (bytes : List UInt8) : UInt32 :=
  bytes.foldr (fun byte acc => byte.toUInt32 + 256 * acc) 0

def blobToVec (b : List UInt8) : List UInt32 := (chunksExact 4 b).map f32FromLeBytes

/-- `deviceLost` is `response_signals_device_lost`: it reads an error code out of a JSON body. -/
def embedOneBatch (deviceLost : List UInt8 → Bool) (batchLen : ℕ) :
    Reply → Except EmbedBatchError (List (List UInt32))
  | .connectError => .error .connectFailure
  | .timeoutError => .error .budgetExceeded
  | .sendError => .error .other
  | .response status body =>
    if status = 408 then .error .budgetExceeded
    else if status = 429 then .error .saturated
    else if status = 503 then
      if deviceLost (body.getD []) then .error .embedderDeviceLost else .error .other
    else if 400 ≤ status ∧ status < 600 then .error .other
    else
      match body with
      | none => .error .other
      | some bytes =>
        if bytes.length ≠ batchLen * (EMBEDDING_DIM * 4) then .error .other
        else .ok ((chunksExact (EMBEDDING_DIM * 4) bytes).map blobToVec)

/-! ## The phase -/

/-- What the phase is started with. -/
structure Setup where
  queue : List PendingEmbedding
  batchSize : ℕ
  serverLimits : Option ServerLimits
  connectFailureBackoffs : List ℕ
  floats : Floats
  deviceLost : List UInt8 → Bool

/-- The batch that a request is made for, with the retries it has had. -/
structure Batch where
  size : ℕ
  escalatedCalibrationOnce : Bool
  connectFailures : ℕ
  saturationRetries : ℕ

/-- How the phase ends: complete or stopped, with an error of the database, or by a panic. -/
inductive Ending where
  | complete
  | stopped
  | failed
  | panicked
  deriving DecidableEq

inductive Phase where
  | sending (b : Batch)
  | ended (e : Ending)

/-- A request that was made: its chunks, the reply to it, what the phase took the reply for, and
whether its vectors were stored. -/
structure Request where
  chunks : List PendingEmbedding
  reply : Reply
  outcome : Except EmbedBatchError (List (List UInt32))
  stored : Bool

structure State where
  cursor : ℕ
  batchNum : ℕ
  previousBatchSize : ℕ
  rate : RateEstimate
  phase : Phase
  requests : List Request
  /-- The rows of the transactions that were committed. -/
  rows : List (ℤ × List UInt8)

/-- One reply, the time it took, and whether the transaction that stores its vectors commits. -/
structure Event where
  reply : Reply
  elapsed : ℕ
  commits : Bool

namespace Setup

variable (su : Setup)

def ceiling : ℕ := resolveBatchCeiling su.batchSize (su.serverLimits.bind (·.maxBatchChunks))

def targetBatchSeconds : ℕ := resolveTargetBatchSeconds su.floats su.serverLimits

/-- The size of a batch by its number; `none` is the `expect` of a rate that has no sample. -/
def thisBatchSize (s : State) : ℕ → Option ℕ
  | 1 => some CALIBRATION_BATCH_1
  | 2 => some CALIBRATION_BATCH_2
  | _ => s.rate.perToken.map fun perToken =>
    nextBatchLen su.floats perToken ((su.queue.drop s.cursor).map (·.tokenCount)) su.ceiling
      s.previousBatchSize su.targetBatchSeconds

/-- The head of the `while` loop. -/
def nextBatch (s : State) : State :=
  if s.cursor < su.queue.length then
    match su.thisBatchSize s (s.batchNum + 1) with
    | none => { s with batchNum := s.batchNum + 1, phase := .ended .panicked }
    | some size =>
      { s with
        batchNum := s.batchNum + 1
        phase := .sending ⟨min (max size 1) (su.queue.length - s.cursor), false, 0, 0⟩ }
  else { s with phase := .ended .complete }

/-- A slice of the queue; `none` is an index out of range. -/
def slice (start size : ℕ) : Option (List PendingEmbedding) :=
  if start + size ≤ su.queue.length then some ((su.queue.drop start).take size) else none

def batchTokens (batch : List PendingEmbedding) : ℕ := (batch.map fun p => max p.tokenCount 1).sum

def requestTimeout (rate : RateEstimate) (b : Batch) (tokens : ℕ) : ℕ :=
  match rate.perToken with
  | some perToken => batchTimeout su.floats perToken tokens
  | none => if b.escalatedCalibrationOnce then MAX_REQUEST_TIMEOUT else FIRST_REQUEST_TIMEOUT

/-- The rate and the batch of the next try after an error; `none` is where the phase stops. -/
def retry (rate : RateEstimate) (b : Batch) (tokens : ℕ) :
    EmbedBatchError → Option (RateEstimate × Batch)
  | .budgetExceeded =>
    if b.size = 1 then
      if !b.escalatedCalibrationOnce && rate.perToken.isNone then
        some (rate, { b with escalatedCalibrationOnce := true })
      else none
    else
      let shrunk := max (b.size / 2) 1
      if shrunk = b.size then none
      else some (rate.update su.floats (su.requestTimeout rate b tokens) tokens,
        { b with size := shrunk })
  | .connectFailure =>
    if su.connectFailureBackoffs.length ≤ b.connectFailures then none
    else some (rate, { b with connectFailures := b.connectFailures + 1 })
  | .saturated =>
    if MAX_SATURATION_RETRIES ≤ b.saturationRetries then none
    else some (rate, { b with saturationRetries := b.saturationRetries + 1 })
  | .embedderDeviceLost => none
  | .other => none

def refused (s : State) (b : Batch) (batch : List PendingEmbedding) (reply : Reply)
    (e : EmbedBatchError) : State :=
  let s := { s with requests := s.requests ++ [(⟨batch, reply, .error e, false⟩ : Request)] }
  match su.retry s.rate b (batchTokens batch) e with
  | none => { s with phase := .ended .stopped }
  | some (rate, b) => { s with rate := rate, phase := .sending b }

/-- The rows of a batch: every chunk's id with the vector in its place. -/
def embeddingsOf (batch : List PendingEmbedding) (vectors : List (List UInt32)) :
    List (ℤ × List UInt8) :=
  ((batch.map (·.chunkId)).zip vectors).map fun row => (row.1, su.floats.toInt8Blob row.2)

def landed (s : State) (b : Batch) (batch : List PendingEmbedding) (ev : Event)
    (vectors : List (List UInt32)) : State :=
  let s := { s with
    rate := s.rate.update su.floats ev.elapsed (batchTokens batch)
    requests := s.requests ++ [(⟨batch, ev.reply, .ok vectors, ev.commits⟩ : Request)] }
  if ev.commits then
    su.nextBatch { s with
      rows := s.rows ++ su.embeddingsOf batch vectors
      previousBatchSize := b.size
      cursor := s.cursor + b.size }
  else { s with phase := .ended .failed }

/-- One request and its reply. -/
def step (s : State) (ev : Event) : State :=
  match s.phase with
  | .ended _ => s
  | .sending b =>
    match su.slice s.cursor b.size with
    | none => { s with phase := .ended .panicked }
    | some batch =>
      match embedOneBatch su.deviceLost batch.length ev.reply with
      | .ok vectors => su.landed s b batch ev vectors
      | .error e => su.refused s b batch ev.reply e

/-- The phase before its first request. -/
def start : State :=
  su.nextBatch ⟨0, 0, 1, .noSamples, .ended .complete, [], []⟩

/-- `run_embed_phase_with_backoff` against a server, after the first `n` replies. -/
def runEmbedPhaseWithBackoff (events : ℕ → Event) (n : ℕ) : State :=
  Runs.after su.step su.start events n

end Setup

/-! ## Response slots -/

/-- The bytes of a response that belong to one chunk of its request. -/
def Reply.slot : Reply → ℕ → List UInt8
  | .response _ (some bytes), i => (bytes.drop (i * (EMBEDDING_DIM * 4))).take (EMBEDDING_DIM * 4)
  | _, _ => []

/-- Every chunk of a request with the vector of its own response slot. -/
def Request.slotRows (r : Request) : List (ℤ × List UInt8) :=
  r.chunks.mapIdx fun i p => (p.chunkId, fl.toInt8Blob (blobToVec (r.reply.slot i)))

def Request.succeeded (r : Request) : Bool := r.outcome.isOk

/-- A batch that is taken for a success has one slot for each of its chunks. -/
theorem vectors_of_ok {deviceLost : List UInt8 → Bool} {n : ℕ} {reply : Reply}
    {vectors : List (List UInt32)} (h : embedOneBatch deviceLost n reply = .ok vectors) :
    vectors = (List.range n).map fun i => blobToVec (reply.slot i) := by
  unfold embedOneBatch at h
  split at h
  case h_4 status body =>
    split_ifs at h
    cases body with
    | none => cases h
    | some bytes =>
      simp only at h
      split_ifs at h with hlen
      cases h
      have hcount : bytes.length / (EMBEDDING_DIM * 4) = n := by
        rw [not_not.mp hlen]
        exact Nat.mul_div_cancel n (by decide)
      rw [chunksExact, hcount, List.map_map]
      rfl
  all_goals cases h

theorem embeddingsOf_eq_slotRows {su : Setup} {batch : List PendingEmbedding} {reply : Reply}
    {vectors : List (List UInt32)} {stored : Bool}
    (h : embedOneBatch su.deviceLost batch.length reply = .ok vectors) :
    su.embeddingsOf batch vectors
      = Request.slotRows su.floats ⟨batch, reply, .ok vectors, stored⟩ := by
  rw [vectors_of_ok h, Setup.embeddingsOf, Request.slotRows]
  apply List.ext_getElem
  · simp
  · intro i hi hi'
    simp

/-! ## Sizes -/

variable {elapsed tokens : ℕ}

theorem takeTokens_le (exceeds : List ℕ → Bool) (seen tail : List ℕ) :
    takeTokens exceeds seen tail ≤ tail.length := by
  induction tail generalizing seen with
  | nil => exact le_rfl
  | cons tc rest ih =>
    rw [takeTokens, List.length_cons]
    split_ifs
    · exact Nat.zero_le _
    · exact Nat.succ_le_succ (ih _)

theorem nextBatchLen_le (perToken : ℕ) (tail : List ℕ) (ceiling previous target : ℕ) :
    nextBatchLen fl perToken tail ceiling previous target ≤ max ceiling 1 := by
  simp only [nextBatchLen]
  split_ifs
  · exact (min_le_left _ _).trans (min_le_right _ _)
  · have htake := takeTokens_le (fl.overTarget perToken target) []
      (tail.take (min (max previous 1 * GROWTH_FACTOR) (max ceiling 1)))
    rw [List.length_take] at htake
    omega

theorem RateEstimate.perToken_update {rate : RateEstimate}
    (h : tokens ≠ 0) : (rate.update fl elapsed tokens).perToken ≠ none := by
  unfold RateEstimate.update
  rw [if_neg h]
  cases rate <;> exact Option.some_ne_none _

theorem RateEstimate.perToken_update_of_ne {rate : RateEstimate}
    (h : rate.perToken ≠ none) : (rate.update fl elapsed tokens).perToken ≠ none := by
  unfold RateEstimate.update
  split_ifs
  · exact h
  · cases rate <;> exact Option.some_ne_none _

namespace Setup

variable {su : Setup}

theorem batchTokens_pos {batch : List PendingEmbedding} (h : batch ≠ []) :
    batchTokens batch ≠ 0 := by
  cases batch with
  | nil => exact absurd rfl h
  | cons p rest =>
    rw [batchTokens, List.map_cons, List.sum_cons]
    omega

theorem slice_eq {start size : ℕ} (h : start + size ≤ su.queue.length) :
    su.slice start size = some ((su.queue.drop start).take size) := if_pos h

theorem length_slice {start size : ℕ} (h : start + size ≤ su.queue.length) :
    ((su.queue.drop start).take size).length = size := by
  rw [List.length_take, List.length_drop]
  omega

/-! ## One step -/

variable {s : State} {e : EmbedBatchError}
variable {b : Batch}

/-- What is left of the retries of a batch. -/
def cost (su : Setup) (b : Batch) : ℕ :=
  b.size + (if b.escalatedCalibrationOnce then 0 else 1)
    + (su.connectFailureBackoffs.length - b.connectFailures)
    + (MAX_SATURATION_RETRIES - b.saturationRetries)

theorem cost_le (b : Batch) :
    su.cost b ≤ b.size + 1 + su.connectFailureBackoffs.length + MAX_SATURATION_RETRIES := by
  unfold cost
  split_ifs <;> omega

/-- A retry never grows the batch, keeps the rate and uses something up. -/
theorem retry_spec {rate rate' : RateEstimate} {b b' : Batch} {tokens : ℕ}
    (h : su.retry rate b tokens e = some (rate', b')) (hsize : 1 ≤ b.size) :
    1 ≤ b'.size ∧ b'.size ≤ b.size ∧ su.cost b' < su.cost b
      ∧ (rate.perToken ≠ none → rate'.perToken ≠ none) := by
  cases e with
  | budgetExceeded =>
    simp only [retry] at h
    split_ifs at h with hone hfirst hsame
    · -- the first request of a run waits longer, once
      cases h
      rw [Bool.and_eq_true, Bool.not_eq_true'] at hfirst
      refine ⟨hsize, le_rfl, ?_, id⟩
      simp only [cost, hfirst.1, if_true, Bool.false_eq_true, if_false]
      omega
    · cases h
      refine ⟨?_, ?_, ?_, RateEstimate.perToken_update_of_ne _⟩
      · show 1 ≤ max (b.size / 2) 1
        omega
      · show max (b.size / 2) 1 ≤ b.size
        omega
      · have hlt : max (b.size / 2) 1 < b.size := by omega
        simp only [cost]
        omega
  | connectFailure =>
    simp only [retry] at h
    split_ifs at h with hspent
    cases h
    refine ⟨hsize, le_rfl, ?_, id⟩
    simp only [cost]
    omega
  | saturated =>
    simp only [retry] at h
    split_ifs at h with hspent
    cases h
    refine ⟨hsize, le_rfl, ?_, id⟩
    simp only [cost]
    omega
  | embedderDeviceLost => cases h
  | other => cases h

theorem thisBatchSize_spec (h : 1 ≤ s.batchNum → s.rate.perToken ≠ none) :
    ∃ size, su.thisBatchSize s (s.batchNum + 1) = some size
      ∧ (s.batchNum = 0 → size = CALIBRATION_BATCH_1)
      ∧ (s.batchNum = 1 → size = CALIBRATION_BATCH_2)
      ∧ (2 ≤ s.batchNum → size ≤ max su.ceiling 1) := by
  obtain hzero | hone | hmore : s.batchNum = 0 ∨ s.batchNum = 1 ∨ 2 ≤ s.batchNum := by omega
  · exact ⟨CALIBRATION_BATCH_1, by rw [hzero]; rfl, fun _ => rfl, by omega, by omega⟩
  · exact ⟨CALIBRATION_BATCH_2, by rw [hone]; rfl, by omega, fun _ => rfl, by omega⟩
  · obtain ⟨perToken, hrate⟩ := Option.ne_none_iff_exists'.mp (h (by omega))
    obtain ⟨n, hn⟩ := Nat.exists_eq_add_of_le hmore
    refine ⟨_, ?_, by omega, by omega, fun _ => nextBatchLen_le su.floats perToken
      ((su.queue.drop s.cursor).map (·.tokenCount)) su.ceiling s.previousBatchSize
      su.targetBatchSeconds⟩
    rw [hn, show 2 + n + 1 = n + 3 by omega]
    simp only [thisBatchSize, hrate, Option.map_some]

theorem nextBatch_cases (h : 1 ≤ s.batchNum → s.rate.perToken ≠ none) :
    (su.queue.length ≤ s.cursor ∧ su.nextBatch s = { s with phase := .ended .complete })
      ∨ ∃ size, s.cursor + size ≤ su.queue.length ∧ 1 ≤ size
        ∧ su.nextBatch s = { s with
            batchNum := s.batchNum + 1, phase := .sending ⟨size, false, 0, 0⟩ }
        ∧ (s.batchNum = 0 → size = CALIBRATION_BATCH_1)
        ∧ (s.batchNum = 1 → size = min CALIBRATION_BATCH_2 (su.queue.length - s.cursor))
        ∧ (2 ≤ s.batchNum → size ≤ max su.ceiling 1) := by
  by_cases hleft : s.cursor < su.queue.length
  · obtain ⟨size, hsize, hfirst, hsecond, hlater⟩ := thisBatchSize_spec h
    refine Or.inr ⟨min (max size 1) (su.queue.length - s.cursor), by omega, by omega, ?_, ?_, ?_,
      ?_⟩
    · rw [nextBatch, if_pos hleft, hsize]
    · intro hzero
      rw [hfirst hzero, CALIBRATION_BATCH_1]
      omega
    · intro hone
      rw [hsecond hone, CALIBRATION_BATCH_2]
      omega
    · intro hmore
      have := hlater hmore
      omega
  · exact Or.inl ⟨not_lt.mp hleft, if_neg hleft⟩

/-- The chunks of the batch that is being sent. -/
def sent (su : Setup) (s : State) (b : Batch) : List PendingEmbedding :=
  (su.queue.drop s.cursor).take b.size

theorem perToken_update_sent (hwithin : s.cursor + b.size ≤ su.queue.length) (hpos : 0 < b.size)
    (elapsed : ℕ) :
    (s.rate.update su.floats elapsed (batchTokens (su.sent s b))).perToken ≠ none := by
  refine RateEstimate.perToken_update _ (batchTokens_pos (List.ne_nil_of_length_pos ?_))
  rw [sent, length_slice hwithin]
  exact hpos

theorem step_cases {b : Batch} (hphase : s.phase = .sending b)
    (hin : s.cursor + b.size ≤ su.queue.length) (ev : Event) :
    (∃ e, embedOneBatch su.deviceLost b.size ev.reply = .error e
      ∧ su.retry s.rate b (batchTokens (su.sent s b)) e = none
      ∧ su.step s ev = { s with
          requests := s.requests ++ [(⟨su.sent s b, ev.reply, .error e, false⟩ : Request)]
          phase := .ended .stopped })
    ∨ (∃ e rate b', embedOneBatch su.deviceLost b.size ev.reply = .error e
      ∧ su.retry s.rate b (batchTokens (su.sent s b)) e = some (rate, b')
      ∧ su.step s ev = { s with
          requests := s.requests ++ [(⟨su.sent s b, ev.reply, .error e, false⟩ : Request)]
          rate := rate
          phase := .sending b' })
    ∨ ∃ vectors, embedOneBatch su.deviceLost b.size ev.reply = .ok vectors
      ∧ su.step s ev = su.landed s b (su.sent s b) ev vectors := by
  have hlen : ((su.queue.drop s.cursor).take b.size).length = b.size := length_slice hin
  cases hreply : embedOneBatch su.deviceLost b.size ev.reply with
  | ok vectors =>
    refine Or.inr (Or.inr ⟨vectors, rfl, ?_⟩)
    simp only [step, hphase, slice_eq hin, hlen, hreply]
    rfl
  | error e =>
    have hstep : su.step s ev = su.refused s b (su.sent s b) ev.reply e := by
      simp only [step, hphase, slice_eq hin, hlen, hreply]
      rfl
    rw [hstep, refused]
    cases hretry : su.retry s.rate b (batchTokens (su.sent s b)) e with
    | none => exact Or.inl ⟨e, rfl, hretry, rfl⟩
    | some next => exact Or.inr (Or.inl ⟨e, next.1, next.2, rfl, hretry, rfl⟩)

/-! ## What every run keeps -/

variable {ev : Event}

/-- The requests and the rows so far. -/
structure Ledger (su : Setup) (s : State) : Prop where
  asked : ∀ r ∈ s.requests, 1 ≤ r.chunks.length
  covers : (s.requests.filter (·.succeeded)).flatMap (·.chunks) <+: su.queue
  rows : s.rows = (s.requests.filter (·.stored)).flatMap (·.slotRows su.floats)
  ids : s.rows.map (·.1) = (su.queue.take s.cursor).map (·.chunkId)

/-- A phase that waits for the reply to a batch. -/
structure Waits (su : Setup) (s : State) (b : Batch) : Prop where
  size_pos : 1 ≤ b.size
  within : s.cursor + b.size ≤ su.queue.length
  covered : (s.requests.filter (·.succeeded)).flatMap (·.chunks) = su.queue.take s.cursor
  batchNum_pos : 1 ≤ s.batchNum
  seeded : 2 ≤ s.batchNum → s.rate.perToken ≠ none ∧ 1 ≤ s.cursor

structure Inv (su : Setup) (s : State) : Prop where
  ledger : Ledger su s
  waits : ∀ b, s.phase = .sending b → Waits su s b
  ending : ∀ e, s.phase = .ended e →
    e ≠ .panicked ∧ s.cursor ≤ su.queue.length ∧ (e = .complete ↔ s.cursor = su.queue.length)

theorem inv_nextBatch (h : Ledger su s)
    (hcovered : (s.requests.filter (·.succeeded)).flatMap (·.chunks) = su.queue.take s.cursor)
    (hin : s.cursor ≤ su.queue.length)
    (hseeded : 1 ≤ s.batchNum → s.rate.perToken ≠ none ∧ 1 ≤ s.cursor) :
    Inv su (su.nextBatch s) := by
  obtain ⟨hdone, heq⟩ | ⟨size, hwithin, hpos, heq, -⟩ :=
    @nextBatch_cases su s fun hnum => (hseeded hnum).1
  · rw [heq]
    refine ⟨⟨h.asked, h.covers, h.rows, h.ids⟩, fun b hb => (nomatch hb), ?_⟩
    rintro e ⟨⟩
    exact ⟨by decide, hin, fun _ => le_antisymm hin hdone, fun _ => rfl⟩
  · rw [heq]
    refine ⟨⟨h.asked, h.covers, h.rows, h.ids⟩, ?_, fun e he => (nomatch he)⟩
    rintro b ⟨⟩
    refine ⟨hpos, hwithin, hcovered, Nat.le_add_left 1 _, fun hnum => hseeded ?_⟩
    show 1 ≤ s.batchNum
    have hnum' : 2 ≤ s.batchNum + 1 := hnum
    omega

theorem inv_start (su : Setup) : Inv su su.start := by
  refine inv_nextBatch ⟨?_, ?_, rfl, ?_⟩ rfl (Nat.zero_le _) ?_
  · intro r hr
    cases hr
  · exact List.nil_prefix
  · rfl
  · intro hnum
    cases hnum

/-- A request that was refused adds nothing to what is covered or stored. -/
theorem Ledger.refused (h : Ledger su s) (hb : Waits su s b) {reply : Reply} {rate : RateEstimate}
    {phase : Phase} :
    Ledger su { s with
      requests := s.requests ++ [(⟨su.sent s b, reply, .error e, false⟩ : Request)]
      rate := rate
      phase := phase } := by
  refine ⟨?_, ?_, ?_, h.ids⟩
  · intro r hr
    obtain hr | hr := List.mem_append.mp hr
    · exact h.asked r hr
    · obtain rfl := List.mem_singleton.mp hr
      show 1 ≤ (su.sent s b).length
      rw [sent, length_slice hb.within]
      exact hb.size_pos
  · show ((s.requests ++ [_]).filter _).flatMap _ <+: _
    rw [List.filter_append, List.flatMap_append]
    simpa [Request.succeeded, Except.isOk, Except.toBool] using h.covers
  · show s.rows = ((s.requests ++ [_]).filter _).flatMap _
    rw [List.filter_append, List.flatMap_append]
    simpa using h.rows

/-- A batch that came back is covered, and stored if its transaction commits. -/
theorem Ledger.landed (h : Ledger su s) (hb : Waits su s b) {vectors : List (List UInt32)}
    (hok : embedOneBatch su.deviceLost b.size ev.reply = .ok vectors) {s' : State}
    (hreq : s'.requests = s.requests ++ [(⟨su.sent s b, ev.reply, .ok vectors, ev.commits⟩ : Request)])
    (hrows : s'.rows = if ev.commits then s.rows ++ su.embeddingsOf (su.sent s b) vectors else s.rows)
    (hcursor : s'.cursor = if ev.commits then s.cursor + b.size else s.cursor) :
    Ledger su s' ∧ (s'.requests.filter (·.succeeded)).flatMap (·.chunks)
      = su.queue.take (s.cursor + b.size) := by
  have hlen : (su.sent s b).length = b.size := length_slice hb.within
  have hcovered : (s'.requests.filter (·.succeeded)).flatMap (·.chunks)
      = su.queue.take (s.cursor + b.size) := by
    rw [hreq, List.filter_append, List.flatMap_append, hb.covered, List.take_add]
    simp [Request.succeeded, Except.isOk, Except.toBool, sent]
  refine ⟨⟨?_, ?_, ?_, ?_⟩, hcovered⟩
  · intro r hr
    rw [hreq] at hr
    obtain hr | hr := List.mem_append.mp hr
    · exact h.asked r hr
    · obtain rfl := List.mem_singleton.mp hr
      show 1 ≤ (su.sent s b).length
      rw [hlen]
      exact hb.size_pos
  · rw [hcovered]
    exact List.take_prefix _ _
  · rw [hrows, hreq, List.filter_append, List.flatMap_append, ← h.rows]
    cases hcommits : ev.commits with
    | false => simp
    | true =>
      rw [← hlen] at hok
      simp [@embeddingsOf_eq_slotRows _ _ _ _ true hok]
  · rw [hrows, hcursor]
    cases ev.commits with
    | false => exact h.ids
    | true =>
      -- a success has as many vectors as the batch has chunks
      have hvectors : vectors.length = (su.sent s b).length := by
        rw [vectors_of_ok hok, hlen, List.length_map, List.length_range]
      rw [if_pos rfl, if_pos rfl, List.map_append, h.ids, List.take_add, List.map_append]
      congr 1
      rw [embeddingsOf, List.map_map]
      show ((su.sent s b).map _ |>.zip vectors).map Prod.fst = _
      rw [List.map_fst_zip (by rw [List.length_map, hvectors])]
      rfl

theorem inv_step (h : Inv su s) (ev : Event) : Inv su (su.step s ev) := by
  cases hphase : s.phase with
  | ended e =>
    have hstep : su.step s ev = s := by simp only [step, hphase]
    rw [hstep]
    exact h
  | sending b =>
    have hb := h.waits b hphase
    have hwithin := hb.within
    have hpos := hb.size_pos
    obtain ⟨e, -, -, hstep⟩ | ⟨e, rate, b', -, hretry, hstep⟩ | ⟨vectors, hok, hstep⟩ :=
      step_cases hphase hb.within ev
    · -- the reply ends the phase
      rw [hstep]
      refine ⟨h.ledger.refused hb, fun b hb => (nomatch hb), ?_⟩
      rintro e ⟨⟩
      refine ⟨by decide, (Nat.le_add_right _ _).trans hwithin, fun he => (nomatch he), ?_⟩
      intro hend
      have hend' : s.cursor = su.queue.length := hend
      omega
    · -- the batch is tried again, as it is or a smaller one
      rw [hstep]
      refine ⟨h.ledger.refused hb, ?_, fun e he => (nomatch he)⟩
      rintro b₁ ⟨⟩
      obtain ⟨hpos', hle, -, hrate⟩ := retry_spec hretry hpos
      refine ⟨hpos', (Nat.add_le_add_left hle _).trans hwithin, ?_, hb.batchNum_pos, ?_⟩
      · show ((s.requests ++ [_]).filter _).flatMap _ = _
        rw [List.filter_append, List.flatMap_append, hb.covered]
        simp [Request.succeeded, Except.isOk, Except.toBool]
      · intro hnum
        exact ⟨hrate (hb.seeded hnum).1, (hb.seeded hnum).2⟩
    · -- the vectors came, and are stored if their transaction commits
      rw [hstep, landed]
      cases hcommits : ev.commits with
      | false =>
        rw [if_neg Bool.false_ne_true]
        refine ⟨(h.ledger.landed hb hok (by rw [hcommits]) (by rw [hcommits]; rfl)
          (by rw [hcommits]; rfl)).1, fun b hb => (nomatch hb), ?_⟩
        rintro e ⟨⟩
        refine ⟨by decide, (Nat.le_add_right _ _).trans hwithin, fun he => (nomatch he), ?_⟩
        intro hend
        have hend' : s.cursor = su.queue.length := hend
        omega
      | true =>
        rw [if_pos rfl]
        refine inv_nextBatch ?_ ?_ ?_ ?_
        · exact (h.ledger.landed hb hok (by rw [hcommits]) (by rw [hcommits]; rfl)
            (by rw [hcommits]; rfl)).1
        · refine (h.ledger.landed hb hok (by rw [hcommits]) (by rw [hcommits]; rfl)
            (by rw [hcommits]; rfl)).2
        · exact hwithin
        · intro _
          refine ⟨perToken_update_sent hwithin hpos _, ?_⟩
          show 1 ≤ s.cursor + b.size
          omega

/-! ## The run ends -/

/-- What is left of the run: the chunks, each worth a whole batch's retries, and the batch. -/
def left (su : Setup) (s : State) : ℕ :=
  match s.phase with
  | .ended _ => 0
  | .sending b =>
    (su.queue.length - s.cursor)
        * (su.queue.length + su.connectFailureBackoffs.length + MAX_SATURATION_RETRIES + 3)
      + su.cost b + 1

def Ended (s : State) : Prop := ∃ e, s.phase = .ended e

theorem step_of_ended (h : Ended s) (ev : Event) : su.step s ev = s := by
  obtain ⟨e, he⟩ := h
  simp only [step, he]

theorem left_nextBatch_le (h : 1 ≤ s.batchNum → s.rate.perToken ≠ none) :
    su.left (su.nextBatch s) ≤ (su.queue.length - s.cursor)
        * (su.queue.length + su.connectFailureBackoffs.length + MAX_SATURATION_RETRIES + 3)
      + (su.queue.length + su.connectFailureBackoffs.length + MAX_SATURATION_RETRIES + 2) := by
  obtain ⟨-, heq⟩ | ⟨size, hwithin, -, heq, -⟩ := @nextBatch_cases su s h
  · rw [heq]
    exact Nat.zero_le _
  · rw [heq]
    have hcost : su.cost ⟨size, false, 0, 0⟩
        ≤ size + 1 + su.connectFailureBackoffs.length + MAX_SATURATION_RETRIES := cost_le _
    show (su.queue.length - s.cursor) * _ + su.cost ⟨size, false, 0, 0⟩ + 1 ≤ _
    omega

theorem left_step_lt (h : Inv su s) (hgoing : ¬ Ended s) (ev : Event) :
    su.left (su.step s ev) < su.left s := by
  cases hphase : s.phase with
  | ended e => exact absurd ⟨e, hphase⟩ hgoing
  | sending b =>
    have hb := h.waits b hphase
    have hwithin := hb.within
    have hpos := hb.size_pos
    have hleft : 0 < su.left s := by
      simp only [left, hphase]
      omega
    obtain ⟨e, -, -, hstep⟩ | ⟨e, rate, b', -, hretry, hstep⟩ | ⟨vectors, hok, hstep⟩ :=
      step_cases hphase hb.within ev
    · rw [hstep]
      exact hleft
    · rw [hstep]
      obtain ⟨-, -, hcost, -⟩ := retry_spec hretry hpos
      simp only [left, hphase]
      omega
    · rw [hstep, landed]
      cases hcommits : ev.commits with
      | false =>
        rw [if_neg Bool.false_ne_true]
        exact hleft
      | true =>
        rw [if_pos rfl]
        have hseeded : (s.rate.update su.floats ev.elapsed (batchTokens (su.sent s b))).perToken
            ≠ none := perToken_update_sent hwithin hpos _
        refine (left_nextBatch_le fun _ => hseeded).trans_lt ?_
        simp only [left, hphase]
        generalize su.queue.length + su.connectFailureBackoffs.length + MAX_SATURATION_RETRIES = k
        -- a batch that lands takes at least one chunk's worth
        obtain ⟨d, hd⟩ := Nat.exists_eq_add_of_lt
          (show su.queue.length - (s.cursor + b.size) < su.queue.length - s.cursor by omega)
        rw [hd]
        have hsplit : (su.queue.length - (s.cursor + b.size) + d + 1) * (k + 3)
            = (su.queue.length - (s.cursor + b.size)) * (k + 3) + d * (k + 3) + (k + 3) := by ring
        rw [hsplit]
        omega

/-! ## The phase as its limits promise it -/

/-- Requests of one to `ceiling` chunks whose successes cover a prefix of the queue, stored rows
that are response slots of their own chunks, completion just when the whole queue is stored, and
an end. -/
structure EmbedLaw (su : Setup) (events : ℕ → Event) : Prop where
  sized : ∀ n, ∀ r ∈ (su.runEmbedPhaseWithBackoff events n).requests,
    1 ≤ r.chunks.length ∧ r.chunks.length ≤ max su.ceiling 1
  covers : ∀ n, ((su.runEmbedPhaseWithBackoff events n).requests.filter (·.succeeded)).flatMap
    (·.chunks) <+: su.queue
  slots : ∀ n, (su.runEmbedPhaseWithBackoff events n).rows
    = ((su.runEmbedPhaseWithBackoff events n).requests.filter (·.stored)).flatMap
      (·.slotRows su.floats)
  complete : ∀ n, (su.runEmbedPhaseWithBackoff events n).phase = .ended .complete
    ↔ (su.runEmbedPhaseWithBackoff events n).rows.map (·.1) = su.queue.map (·.chunkId)
  ends : ∃ n e, (su.runEmbedPhaseWithBackoff events n).phase = .ended e ∧ e ≠ .panicked

variable {events : ℕ → Event}

theorem inv_run (su : Setup) (events : ℕ → Event) (n : ℕ) :
    Inv su (su.runEmbedPhaseWithBackoff events n) :=
  @Runs.after_inv _ _ su.step su.start events (Inv su) (fun _ ev h => inv_step h ev)
    (inv_start su) n

/-- A phase is complete just when it has stored the whole queue. -/
theorem Inv.complete_iff (h : Inv su s) :
    s.phase = .ended .complete ↔ s.rows.map (·.1) = su.queue.map (·.chunkId) := by
  have hall : s.rows.map (·.1) = su.queue.map (·.chunkId) ↔ su.queue.length ≤ s.cursor := by
    rw [h.ledger.ids]
    constructor
    · intro heq
      have hlen := congrArg List.length heq
      rw [List.length_map, List.length_map, List.length_take] at hlen
      omega
    · intro hle
      rw [List.take_of_length_le hle]
  rw [hall]
  cases hphase : s.phase with
  | sending b =>
    have hb := h.waits b hphase
    have hwithin := hb.within
    have hpos := hb.size_pos
    exact iff_of_false (fun heq => nomatch heq) (by omega)
  | ended e =>
    obtain ⟨-, hle, hcomplete⟩ := h.ending e hphase
    rw [Phase.ended.injEq, hcomplete]
    omega

theorem embedLaw_iff_sized :
    EmbedLaw su events ↔ ∀ n, ∀ r ∈ (su.runEmbedPhaseWithBackoff events n).requests,
      r.chunks.length ≤ max su.ceiling 1 := by
  constructor
  · intro h n r hr
    exact (h.sized n r hr).2
  · intro hceiling
    refine ⟨fun n r hr => ⟨(inv_run su events n).ledger.asked r hr, hceiling n r hr⟩,
      fun n => (inv_run su events n).ledger.covers, fun n => (inv_run su events n).ledger.rows,
      fun n => (inv_run su events n).complete_iff, ?_⟩
    obtain ⟨n, -, e, he⟩ := @Runs.exists_halted _ _ su.step su.start events (Inv su) Ended su.left
      (fun _ ev h => inv_step h ev) (fun _ ev h hgoing => left_step_lt h hgoing ev) (inv_start su)
    exact ⟨n, e, he, ((inv_run su events n).ending e he).1⟩

/-! ## The second batch -/

variable {n : ℕ}

/-- No request, made or pending, has more than `k` chunks. -/
structure Sized (k : ℕ) (s : State) : Prop where
  asked : ∀ r ∈ s.requests, r.chunks.length ≤ k
  pending : ∀ b, s.phase = .sending b → b.size ≤ k

theorem sized_nextBatch {k : ℕ} (hseeded : 1 ≤ s.batchNum → s.rate.perToken ≠ none)
    (hasked : ∀ r ∈ s.requests, r.chunks.length ≤ k)
    (hnext : ∀ size, (s.batchNum = 0 → size = CALIBRATION_BATCH_1) → (s.batchNum = 1 → size = min CALIBRATION_BATCH_2 (su.queue.length - s.cursor)) → (2 ≤ s.batchNum → size ≤ max su.ceiling 1) → size ≤ k)
    : Sized k (su.nextBatch s) := by
  obtain ⟨-, heq⟩ | ⟨size, -, -, heq, hfirst, hsecond, hlater⟩ := @nextBatch_cases su s hseeded
  · rw [heq]
    exact ⟨hasked, fun b hb => (nomatch hb)⟩
  · rw [heq]
    refine ⟨hasked, ?_⟩
    rintro b ⟨⟩
    exact hnext size hfirst hsecond hlater

/-- The second batch keeps to the ceiling when what it is cut to does. -/
theorem Sized.step (hinv : Inv su s) (h : Sized (max su.ceiling 1) s) (ev : Event)
    (hfits : min CALIBRATION_BATCH_2 (su.queue.length - 1) ≤ max su.ceiling 1) :
    Sized (max su.ceiling 1) (su.step s ev) := by
  cases hphase : s.phase with
  | ended e =>
    rw [step_of_ended ⟨e, hphase⟩]
    exact h
  | sending b =>
    have hb := hinv.waits b hphase
    have hsize := h.pending b hphase
    have hasked : ∀ (r : Request), r.chunks = su.sent s b →
        ∀ r' ∈ s.requests ++ [r], r'.chunks.length ≤ max su.ceiling 1 := by
      intro r hr r' hr'
      obtain hr' | hr' := List.mem_append.mp hr'
      · exact h.asked r' hr'
      · rw [List.mem_singleton.mp hr', hr, sent, length_slice hb.within]
        exact hsize
    -- the batch fails for good, is cut and sent again, or lands
    obtain ⟨e, -, -, hstep⟩ | ⟨e, rate, b', -, hretry, hstep⟩ | ⟨vectors, hok, hstep⟩ :=
      step_cases hphase hb.within ev
    · rw [hstep]
      exact ⟨hasked _ rfl, fun b hb => (nomatch hb)⟩
    · rw [hstep]
      refine ⟨hasked _ rfl, ?_⟩
      rintro b₁ ⟨⟩
      exact (retry_spec hretry hb.size_pos).2.1.trans hsize
    · rw [hstep, landed]
      cases hcommits : ev.commits with
      | false =>
        rw [if_neg Bool.false_ne_true]
        exact ⟨hasked _ rfl, fun b hb => (nomatch hb)⟩
      | true =>
        rw [if_pos rfl]
        have hseeded : (s.rate.update su.floats ev.elapsed (batchTokens (su.sent s b))).perToken
            ≠ none := perToken_update_sent hb.within hb.size_pos _
        refine sized_nextBatch (fun _ => hseeded) (hasked _ rfl) fun size _ hsecond hlater => ?_
        have hnum := hb.batchNum_pos
        have hpos := hb.size_pos
        -- the second batch is a calibration batch still; the ceiling bounds those after it
        obtain hone | hmore : s.batchNum = 1 ∨ 2 ≤ s.batchNum := by omega
        · have hcut : size = min CALIBRATION_BATCH_2 (su.queue.length - (s.cursor + b.size)) :=
            hsecond hone
          omega
        · exact hlater hmore

theorem sized_start {k : ℕ} (hk : 1 ≤ k) : Sized k su.start :=
  sized_nextBatch (fun hnum => nomatch hnum) (fun _ hr => nomatch hr) fun _ hfirst _ _ =>
    (hfirst rfl).trans_le hk

/-- What the reply to a request for the first chunk alone is taken for, where it is no success. -/
def firstRefusal (su : Setup) (ev : Event) : Option EmbedBatchError :=
  match embedOneBatch su.deviceLost 1 ev.reply with
  | .ok _ => none
  | .error e => some e

/-- How often the first `n` replies are an error, were they all to the first request. -/
def refusals (su : Setup) (events : ℕ → Event) (e : EmbedBatchError) (n : ℕ) : ℕ :=
  Nat.count (fun i => su.firstRefusal (events i) = some e) n

/-- The first `n` replies to the first request all have it repeated. -/
structure Retried (su : Setup) (events : ℕ → Event) (n : ℕ) : Prop where
  retryable : ∀ i < n, su.firstRefusal (events i) = some .budgetExceeded
    ∨ su.firstRefusal (events i) = some .connectFailure
    ∨ su.firstRefusal (events i) = some .saturated
  budget : su.refusals events .budgetExceeded n ≤ 1
  connect : su.refusals events .connectFailure n ≤ su.connectFailureBackoffs.length
  saturated : su.refusals events .saturated n ≤ MAX_SATURATION_RETRIES

/-- The first chunk is embedded and stored: the replies before its vector have the request
repeated, and the transaction commits. -/
def FirstLands (su : Setup) (events : ℕ → Event) : Prop :=
  ∃ k, su.Retried events k ∧ su.firstRefusal (events k) = none ∧ (events k).commits = true

/-- The first chunk's batch after `n` replies that had it repeated. -/
def firstBatch (su : Setup) (events : ℕ → Event) (n : ℕ) : Batch :=
  ⟨1, decide (0 < su.refusals events .budgetExceeded n), su.refusals events .connectFailure n,
    su.refusals events .saturated n⟩

/-- The phase while it sends the first chunk. -/
structure First (su : Setup) (events : ℕ → Event) (n : ℕ) (s : State) : Prop where
  phase : s.phase = .sending (su.firstBatch events n)
  cursor : s.cursor = 0
  batchNum : s.batchNum = 1
  rate : s.rate = .noSamples
  asked : ∀ r ∈ s.requests, r.chunks.length ≤ 1

theorem first_start (hne : su.queue ≠ []) : First su events 0 su.start := by
  obtain ⟨hdone, -⟩ | ⟨size, -, -, heq, hfirst, -⟩ :=
    @nextBatch_cases su ⟨0, 0, 1, .noSamples, .ended .complete, [], []⟩ (fun hnum => nomatch hnum)
  · have hpos := List.length_pos_of_ne_nil hne
    have hdone' : su.queue.length ≤ 0 := hdone
    omega
  · rw [start, heq, hfirst rfl]
    exact ⟨rfl, rfl, rfl, rfl, fun r hr => (nomatch hr)⟩

theorem refusals_succ (e : EmbedBatchError) (n : ℕ) :
    su.refusals events e (n + 1)
      = su.refusals events e n + if su.firstRefusal (events n) = some e then 1 else 0 :=
  Nat.count_succ _ n

theorem Retried.of_succ (h : Retried su events (n + 1)) : Retried su events n := by
  have hmono : ∀ e, su.refusals events e n ≤ su.refusals events e (n + 1) := by
    intro e
    rw [refusals_succ]
    omega
  refine ⟨fun i hi => h.retryable i (by omega), (hmono _).trans h.budget,
    (hmono _).trans h.connect, (hmono _).trans h.saturated⟩

theorem Retried.succ (h : Retried su events n) (he : su.firstRefusal (events n) = some e)
    (hretryable : e = .budgetExceeded ∨ e = .connectFailure ∨ e = .saturated)
    (hbudget : su.refusals events .budgetExceeded (n + 1) ≤ 1)
    (hconnect : su.refusals events .connectFailure (n + 1) ≤ su.connectFailureBackoffs.length)
    (hsaturated : su.refusals events .saturated (n + 1) ≤ MAX_SATURATION_RETRIES) :
    Retried su events (n + 1) := by
  refine ⟨fun i hi => ?_, hbudget, hconnect, hsaturated⟩
  obtain hlt | rfl : i < n ∨ i = n := by omega
  · exact h.retryable i hlt
  · rw [he]
    simpa using hretryable

/-- The first request is repeated after an error just when the replies up to it allow that. -/
theorem retry_firstBatch (h : Retried su events n) (he : su.firstRefusal (events n) = some e)
    (tokens : ℕ) :
    (su.retry .noSamples (su.firstBatch events n) tokens e
        = some (.noSamples, su.firstBatch events (n + 1)) ∧ Retried su events (n + 1))
      ∨ su.retry .noSamples (su.firstBatch events n) tokens e = none
        ∧ ¬ Retried su events (n + 1) := by
  have hbudget := h.budget
  have hconnect := h.connect
  have hsaturated := h.saturated
  have hcount : ∀ e', su.refusals events e' (n + 1)
      = su.refusals events e' n + if e = e' then 1 else 0 := by
    intro e'
    simp only [refusals_succ, he, Option.some.injEq]
  -- each kind of refusal has a budget of its own, and the last two have none
  cases e with
  | budgetExceeded =>
    by_cases hfirst : su.refusals events .budgetExceeded n = 0
    · refine Or.inl ⟨?_, h.succ he (Or.inl rfl) ?_ ?_ ?_⟩
      · simp [retry, firstBatch, hcount, hfirst, RateEstimate.perToken]
      all_goals simp [*]
    · refine Or.inr ⟨?_, fun hnext => ?_⟩
      · simp [retry, firstBatch, Nat.pos_of_ne_zero hfirst]
      · have hmore := hnext.budget
        rw [hcount, if_pos rfl] at hmore
        omega
  | connectFailure =>
    by_cases hroom : su.refusals events .connectFailure n < su.connectFailureBackoffs.length
    · refine Or.inl ⟨?_, h.succ he (Or.inr (Or.inl rfl)) ?_ ?_ ?_⟩
      · simp [retry, firstBatch, hcount, hroom.not_ge]
      · simpa [hcount] using hbudget
      · rw [hcount, if_pos rfl]
        exact hroom
      · simpa [hcount] using hsaturated
    · refine Or.inr ⟨?_, fun hnext => ?_⟩
      · simp [retry, firstBatch, not_lt.mp hroom]
      · have hmore := hnext.connect
        rw [hcount, if_pos rfl] at hmore
        omega
  | saturated =>
    by_cases hroom : su.refusals events .saturated n < MAX_SATURATION_RETRIES
    · refine Or.inl ⟨?_, h.succ he (Or.inr (Or.inr rfl)) ?_ ?_ ?_⟩
      · simp [retry, firstBatch, hcount, hroom.not_ge]
      · simpa [hcount] using hbudget
      · simpa [hcount] using hconnect
      · rw [hcount, if_pos rfl]
        exact hroom
    · refine Or.inr ⟨?_, fun hnext => ?_⟩
      · simp [retry, firstBatch, not_lt.mp hroom]
      · have hmore := hnext.saturated
        rw [hcount, if_pos rfl] at hmore
        omega
  | embedderDeviceLost =>
    refine Or.inr ⟨rfl, fun hnext => ?_⟩
    simpa [he] using hnext.retryable n (Nat.lt_succ_self n)
  | other =>
    refine Or.inr ⟨rfl, fun hnext => ?_⟩
    simpa [he] using hnext.retryable n (Nat.lt_succ_self n)

theorem firstRefusal_eq_some_iff :
    su.firstRefusal ev = some e ↔ embedOneBatch su.deviceLost 1 ev.reply = .error e := by
  unfold firstRefusal
  split
  case h_1 vectors heq => rw [heq]; simp
  case h_2 e' heq => rw [heq]; simp

theorem firstRefusal_eq_none_iff :
    su.firstRefusal ev = none
      ↔ ∃ vectors, embedOneBatch su.deviceLost 1 ev.reply = .ok vectors := by
  unfold firstRefusal
  split
  case h_1 vectors heq => rw [heq]; simp
  case h_2 e' heq => rw [heq]; simp

/-- The requests that follow the first one, with the one that is being answered. -/
theorem First.asked_append (hinv : Inv su s) (h : First su events n s) {r : Request}
    (hr : r.chunks = su.sent s (su.firstBatch events n)) :
    ∀ r' ∈ s.requests ++ [r], r'.chunks.length ≤ 1 := by
  intro r' hr'
  obtain hr' | hr' := List.mem_append.mp hr'
  · exact h.asked r' hr'
  · rw [List.mem_singleton.mp hr', hr, sent, length_slice (hinv.waits _ h.phase).within]
    exact le_rfl

/-- An error in reply to the first request has it repeated or ends the phase. -/
theorem First.step_refused (hinv : Inv su s) (h : First su events n s)
    (hretried : Retried su events n) (he : su.firstRefusal (events n) = some e) :
    (Retried su events (n + 1) ∧ First su events (n + 1) (su.step s (events n)))
      ∨ ¬ Retried su events (n + 1) ∧ Ended (su.step s (events n))
        ∧ ∀ r ∈ (su.step s (events n)).requests, r.chunks.length ≤ 1 := by
  have hreply := firstRefusal_eq_some_iff.mp he
  have hretry := retry_firstBatch hretried he
    (batchTokens (su.sent s (su.firstBatch events n)))
  obtain ⟨e', herr, hnone, hstep⟩ | ⟨e', rate, b', herr, hsome, hstep⟩ | ⟨vectors, hok, -⟩ :=
    step_cases h.phase (hinv.waits _ h.phase).within (events n)
  · obtain rfl : e = e' := Except.error.inj (hreply.symm.trans herr)
    rw [h.rate] at hnone
    obtain ⟨hsome, -⟩ | ⟨-, hnot⟩ := hretry
    · exact absurd (hnone.symm.trans hsome) (Option.some_ne_none _).symm
    · refine Or.inr ⟨hnot, ?_, ?_⟩
      · rw [hstep]
        exact ⟨.stopped, rfl⟩
      · rw [hstep]
        exact h.asked_append hinv rfl
  · obtain rfl : e = e' := Except.error.inj (hreply.symm.trans herr)
    rw [h.rate] at hsome
    obtain ⟨hnext, hsucc⟩ | ⟨hnone, -⟩ := hretry
    · obtain ⟨rfl, rfl⟩ := Prod.mk.inj (Option.some.inj (hsome.symm.trans hnext))
      refine Or.inl ⟨hsucc, ?_⟩
      rw [hstep]
      exact ⟨rfl, h.cursor, h.batchNum, rfl, h.asked_append hinv rfl⟩
    · exact absurd (hnone.symm.trans hsome) (Option.some_ne_none _).symm
  · exact absurd (hreply.symm.trans hok) (by simp)

theorem first_of_retried (hne : su.queue ≠ []) (h : Retried su events n) :
    First su events n (su.runEmbedPhaseWithBackoff events n) := by
  induction n with
  | zero => exact first_start hne
  | succ n ih =>
    have hfirst := ih h.of_succ
    cases he : su.firstRefusal (events n) with
    | none => simpa [he] using h.retryable n (Nat.lt_succ_self n)
    | some e =>
      obtain ⟨-, hnext⟩ | ⟨hnot, -⟩ := hfirst.step_refused (inv_run su events n) h.of_succ he
      · exact hnext
      · exact absurd h hnot

/-- Where the first chunk is not stored the phase asks for nothing but that chunk. -/
theorem sized_of_not_firstLands (hnever : ¬ FirstLands su events) (n : ℕ) :
    ∀ r ∈ (su.runEmbedPhaseWithBackoff events n).requests, r.chunks.length ≤ 1 := by
  by_cases hne : su.queue = []
  · -- an empty queue asks for nothing
    have hstart : Ended su.start := by
      refine ⟨.complete, ?_⟩
      rw [start, nextBatch, hne]
      rfl
    have hstay : su.runEmbedPhaseWithBackoff events n = su.start :=
      @Runs.after_of_halted _ _ su.step su.start events Ended (fun _ ev h => step_of_ended h ev) 0
        hstart n (Nat.zero_le n)
    have hsized := (@sized_start su 1 le_rfl).asked
    rw [hstay]
    exact hsized
  suffices hrun : (Retried su events n
        ∧ First su events n (su.runEmbedPhaseWithBackoff events n))
      ∨ Ended (su.runEmbedPhaseWithBackoff events n)
        ∧ ∀ r ∈ (su.runEmbedPhaseWithBackoff events n).requests, r.chunks.length ≤ 1 by
    obtain ⟨-, hfirst⟩ | ⟨-, hasked⟩ := hrun
    · exact hfirst.asked
    · exact hasked
  induction n with
  | zero =>
    exact Or.inl ⟨⟨fun i hi => (nomatch hi), Nat.zero_le _, Nat.zero_le _, Nat.zero_le _⟩,
      first_start hne⟩
  | succ n ih =>
    show (Retried su events (n + 1)
        ∧ First su events (n + 1) (su.step (su.runEmbedPhaseWithBackoff events n) (events n)))
      ∨ Ended (su.step (su.runEmbedPhaseWithBackoff events n) (events n)) ∧ ∀ r ∈ (su.step
        (su.runEmbedPhaseWithBackoff events n) (events n)).requests, r.chunks.length ≤ 1
    have hinv := inv_run su events n
    obtain ⟨hretried, hfirst⟩ | ⟨hended, hasked⟩ := ih
    · cases he : su.firstRefusal (events n) with
      | some e =>
        obtain hnext | ⟨-, hstop⟩ := hfirst.step_refused hinv hretried he
        · exact Or.inl hnext
        · exact Or.inr hstop
      | none =>
        -- the vector is there, so its transaction does not commit
        have hcommits : (events n).commits = false := by
          rw [← Bool.not_eq_true]
          exact fun hc => hnever ⟨n, hretried, he, hc⟩
        obtain ⟨vectors, hok⟩ := firstRefusal_eq_none_iff.mp he
        obtain ⟨e, herr, -⟩ | ⟨e, -, -, herr, -⟩ | ⟨vectors', -, hstep⟩ :=
          step_cases hfirst.phase (hinv.waits _ hfirst.phase).within (events n)
        · exact absurd (hok.symm.trans herr) (by simp)
        · exact absurd (hok.symm.trans herr) (by simp)
        · rw [hstep, landed, hcommits, if_neg Bool.false_ne_true]
          exact Or.inr ⟨⟨.failed, rfl⟩, hfirst.asked_append hinv rfl⟩
    · rw [step_of_ended hended]
      exact Or.inr ⟨hended, hasked⟩

theorem requests_nextBatch (s : State) : (su.nextBatch s).requests = s.requests := by
  unfold nextBatch
  split
  · split <;> rfl
  · rfl

theorem requests_step (hphase : s.phase = .sending b) (hin : s.cursor + b.size ≤ su.queue.length)
    (ev : Event) :
    ∃ r : Request, r.chunks = su.sent s b ∧ (su.step s ev).requests = s.requests ++ [r] := by
  obtain ⟨e, -, -, hstep⟩ | ⟨e, rate, b', -, -, hstep⟩ | ⟨vectors, -, hstep⟩ :=
    step_cases hphase hin ev
  · exact ⟨_, rfl, by rw [hstep]⟩
  · exact ⟨_, rfl, by rw [hstep]⟩
  · refine ⟨⟨su.sent s b, ev.reply, .ok vectors, ev.commits⟩, rfl, ?_⟩
    rw [hstep, landed]
    split
    · rw [requests_nextBatch]
    · rfl

theorem second_request (hinv : Inv su (su.nextBatch s)) (hseeded : s.rate.perToken ≠ none)
    (hnum : s.batchNum = 1) (hcursor : s.cursor = 1) (hmore : 2 ≤ su.queue.length) (ev : Event) :
    ∃ r ∈ (su.step (su.nextBatch s) ev).requests,
      r.chunks.length = min CALIBRATION_BATCH_2 (su.queue.length - 1) := by
  obtain ⟨hdone, -⟩ | ⟨size, -, -, heq, -, hsecond, -⟩ := @nextBatch_cases su s fun _ => hseeded
  · omega
  · have hphase : (su.nextBatch s).phase = .sending ⟨size, false, 0, 0⟩ := by rw [heq]
    have hwithin := (hinv.waits _ hphase).within
    obtain ⟨r, hr, hrequests⟩ := requests_step hphase hwithin ev
    refine ⟨r, ?_, ?_⟩
    · rw [hrequests]
      exact List.mem_append_right _ (List.mem_singleton_self r)
    · rw [hr, sent, length_slice hwithin]
      show size = _
      rw [hsecond hnum, hcursor]

/-- Once the first chunk is stored the second batch is asked for, four chunks if there are. -/
theorem exists_second_request (hlands : FirstLands su events) (hmore : 2 ≤ su.queue.length) :
    ∃ n, ∃ r ∈ (su.runEmbedPhaseWithBackoff events n).requests,
      r.chunks.length = min CALIBRATION_BATCH_2 (su.queue.length - 1) := by
  obtain ⟨k, hretried, hnone, hcommits⟩ := hlands
  have hinv := inv_run su events k
  have hfirst := first_of_retried (List.ne_nil_of_length_pos (by omega)) hretried
  obtain ⟨vectors, hok⟩ := firstRefusal_eq_none_iff.mp hnone
  have hwithin := (hinv.waits _ hfirst.phase).within
  obtain ⟨e, herr, -⟩ | ⟨e, -, -, herr, -⟩ | ⟨vectors', -, hstep⟩ :=
    step_cases hfirst.phase hwithin (events k)
  · exact absurd (hok.symm.trans herr) (by simp)
  · exact absurd (hok.symm.trans herr) (by simp)
  rw [landed, hcommits, if_pos rfl] at hstep
  have hseeded : ((su.runEmbedPhaseWithBackoff events k).rate.update su.floats (events k).elapsed
      (batchTokens (su.sent (su.runEmbedPhaseWithBackoff events k)
        (su.firstBatch events k)))).perToken ≠ none :=
    perToken_update_sent hwithin Nat.one_pos _
  have hnext := inv_step hinv (events k)
  refine ⟨k + 2, ?_⟩
  show ∃ r ∈ (su.step (su.step (su.runEmbedPhaseWithBackoff events k) (events k))
    (events (k + 1))).requests, _
  rw [hstep] at hnext ⊢
  refine second_request hnext hseeded hfirst.batchNum ?_ hmore _
  show (su.runEmbedPhaseWithBackoff events k).cursor + 1 = 1
  rw [hfirst.cursor]

/-- The phase keeps to its limits just when the second batch does, or is never asked for. -/
theorem embedLaw_iff (su : Setup) (events : ℕ → Event) :
    EmbedLaw su events
      ↔ min CALIBRATION_BATCH_2 (su.queue.length - 1) ≤ max su.ceiling 1
        ∨ ¬ FirstLands su events := by
  rw [embedLaw_iff_sized]
  constructor
  · intro hsized
    by_contra hover
    obtain ⟨hlarge, hlands⟩ := not_or.mp hover
    obtain ⟨n, r, hr, hlen⟩ := exists_second_request (not_not.mp hlands) (by omega)
    exact hlarge (hlen ▸ hsized n r hr)
  · rintro (hfits | hnever) n r hr
    · have hsized : ∀ n, Sized (max su.ceiling 1) (su.runEmbedPhaseWithBackoff events n) := by
        intro n
        induction n with
        | zero => exact sized_start (le_max_right _ _)
        | succ n ih => exact ih.step (inv_run su events n) (events n) hfits
      exact (hsized n).asked r hr
    · exact (sized_of_not_firstLands hnever n r hr).trans (le_max_right _ _)

/-! ### A ceiling below the second batch -/

/-- The floating point in whole numbers. -/
def wholeNumbers : Floats where
  divTokens elapsed tokens := elapsed / tokens
  blendCold cold sample := (cold + 9 * sample) / 10
  blend prev sample := (prev + sample) / 2
  overTarget perToken seconds tokens := decide (fromSecs seconds < perToken * tokens.sum)
  expected perToken tokens := 4 * perToken * tokens
  twoThirds n := 2 * n / 3
  toInt8Blob v := v.map fun _ => 0

/-- Three chunks with a batch size of one. -/
def oneAtATime : Setup :=
  ⟨[⟨1, "fn a() \x7b\x7d", 4⟩, ⟨2, "fn b() \x7b\x7d", 4⟩, ⟨3, "fn c() \x7b\x7d", 4⟩], 1, none,
    CONNECT_FAILURE_BACKOFFS, wholeNumbers, fun _ => false⟩

/-- A server that answers with the vector of one chunk. -/
def oneVector (_ : ℕ) : Event :=
  ⟨.response 200 (some (List.replicate (EMBEDDING_DIM * 4) 0)), fromSecs 1, true⟩

theorem firstLands_oneVector : FirstLands oneAtATime oneVector := by
  refine ⟨0, ⟨fun i hi => (nomatch hi), Nat.zero_le _, Nat.zero_le _, Nat.zero_le _⟩, ?_, rfl⟩
  rw [firstRefusal_eq_none_iff]
  refine ⟨(chunksExact (EMBEDDING_DIM * 4) (List.replicate (EMBEDDING_DIM * 4) 0)).map blobToVec, ?_⟩
  simp [oneVector, embedOneBatch]

/-- The second request has two chunks. -/
theorem not_embedLaw_of_batch_size_one : ¬ EmbedLaw oneAtATime oneVector := by
  intro h
  obtain ⟨n, r, hr, hlen⟩ := exists_second_request firstLands_oneVector (by decide)
  have hover := (h.sized n r hr).2
  rw [hlen] at hover
  exact absurd hover (by decide)

end Setup
end Inkentry.Index.EmbedPhase
