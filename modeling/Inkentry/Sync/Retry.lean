/-
  Inkentry.Sync.Retry

  A request that is sent again while the server sheds it with a `429`: the loop
  of `send_retrying_while_shed`, with the waits that the server advertises.

  The sends, the waits and the answer are as they should be in every run
  (`loop_run`); what can go wrong is the addition of a wait to the time already
  slept, which panics where it leaves the range of a duration
  (`retryLaw_iff`).
-/

import Mathlib.Algebra.GroupWithZero.Nat
import Mathlib.Algebra.BigOperators.Group.Finset.Basic
import Mathlib.Algebra.Order.BigOperators.Group.Finset

namespace Inkentry
namespace Retry

/-! ## Durations -/

/-- The seconds of a duration are a `u64`. -/
@[irreducible] def SECONDS : ℕ := 18446744073709551616

@[irreducible] def NANOS_PER_SEC : ℕ := 1000000000

structure Duration where
  secs : ℕ
  nanos : ℕ
  secs_lt : secs < SECONDS
  nanos_lt : nanos < NANOS_PER_SEC
  deriving DecidableEq

def Duration.toNanos (d : Duration) : ℕ := d.secs * NANOS_PER_SEC + d.nanos

/-- Seconds first, then nanoseconds. -/
def Duration.lt (d e : Duration) : Bool := d.secs < e.secs || d.secs == e.secs && d.nanos < e.nanos

theorem Duration.lt_iff {d e : Duration} : d.lt e = true ↔ d.toNanos < e.toNanos := by
  have hd := d.nanos_lt
  have he := e.nanos_lt
  simp only [lt, toNanos, NANOS_PER_SEC, Bool.or_eq_true, Bool.and_eq_true, decide_eq_true_eq,
    beq_iff_eq] at *
  omega

theorem seconds_pos : 0 < SECONDS := by simp [SECONDS]

theorem nanosPerSec_pos : 0 < NANOS_PER_SEC := by simp [NANOS_PER_SEC]

def Duration.zero : Duration := ⟨0, 0, seconds_pos, nanosPerSec_pos⟩

@[simp] theorem Duration.toNanos_zero : Duration.zero.toNanos = 0 := by
  show 0 * NANOS_PER_SEC + 0 = 0
  rw [Nat.zero_mul]

def Duration.fromSecs (secs : ℕ) (h : secs < SECONDS) : Duration := ⟨secs, 0, h, nanosPerSec_pos⟩

/-- The sum, with a second carried over from the nanoseconds; none where the seconds overflow. -/
def Duration.checkedAdd (d e : Duration) : Option Duration :=
  if hcarry : d.nanos + e.nanos < NANOS_PER_SEC then
    if h : d.secs + e.secs < SECONDS then some ⟨d.secs + e.secs, d.nanos + e.nanos, h, hcarry⟩ else none
  else if h : d.secs + e.secs + 1 < SECONDS then
    some ⟨d.secs + e.secs + 1, d.nanos + e.nanos - NANOS_PER_SEC, h, by
      have := d.nanos_lt
      have := e.nanos_lt
      omega⟩
  else none

theorem Duration.checkedAdd_eq_some {d e s : Duration} (h : d.checkedAdd e = some s) :
    s.toNanos = d.toNanos + e.toNanos := by
  rw [checkedAdd] at h
  split at h
  case isTrue hcarry =>
    split at h
    case isTrue =>
      obtain rfl := Option.some.inj h
      simp only [toNanos, Nat.add_mul]
      omega
    case isFalse => cases h
  case isFalse hcarry =>
    split at h
    case isTrue =>
      obtain rfl := Option.some.inj h
      simp only [toNanos, Nat.add_mul]
      omega
    case isFalse => cases h

/-- The addition overflows exactly from `SECONDS` seconds on. -/
theorem Duration.checkedAdd_eq_none_iff {d e : Duration} :
    d.checkedAdd e = none ↔ SECONDS * NANOS_PER_SEC ≤ d.toNanos + e.toNanos := by
  have hd := d.nanos_lt
  have he := e.nanos_lt
  rw [checkedAdd, toNanos, toNanos]
  split
  case isTrue hcarry =>
    split
    case isTrue h =>
      simp only [SECONDS, NANOS_PER_SEC] at hd he hcarry h ⊢
      simp only [reduceCtorEq, false_iff, not_le]
      omega
    case isFalse h =>
      simp only [SECONDS, NANOS_PER_SEC] at hd he hcarry h ⊢
      simp only [true_iff]
      omega
  case isFalse hcarry =>
    split
    case isTrue h =>
      simp only [SECONDS, NANOS_PER_SEC] at hd he hcarry h ⊢
      simp only [reduceCtorEq, false_iff, not_le]
      omega
    case isFalse h =>
      simp only [SECONDS, NANOS_PER_SEC] at hd he hcarry h ⊢
      simp only [true_iff]
      omega

/-! ## Responses -/

/-- A response: what the loop reads of it, and the rest. -/
structure Response (α : Type) where
  status : ℕ
  retryAfter : Option (List UInt8)
  rest : α
  deriving DecidableEq

def TOO_MANY_REQUESTS : ℕ := 429

/-- A header value is a text when its bytes are visible ASCII, spaces and tabs. -/
def headerText (value : List UInt8) : Option (List Char) :=
  if value.all (fun b => b == 9 || 32 ≤ b && b < 127) then some (value.map fun b => Char.ofNat b.toNat)
  else none

/-- `str::trim`, for the characters that a header may hold. -/
def trim (text : List Char) : List Char :=
  ((text.dropWhile Char.isWhitespace).reverse.dropWhile Char.isWhitespace).reverse

/-- `str::parse::<u64>`: digits, with a plus sign in front or none, below `2 ^ 64`. -/
def parseU64 (text : List Char) : Option { n : ℕ // n < SECONDS } :=
  let digits := if text.head? = some '+' then text.tail else text
  let value := digits.foldl (fun n c => n * 10 + (c.toNat - 48)) 0
  if digits = [] ∨ digits.any (!·.isDigit) then none
  else if h : value < SECONDS then some ⟨value, h⟩
  else none

def retryAfter {α : Type} (resp : Response α) : Option Duration :=
  ((resp.retryAfter.bind headerText).bind fun text => parseU64 (trim text)).map
    fun secs => Duration.fromSecs secs.val secs.property

/-! ## The loop -/

structure RetryPolicy where
  attempts : ℕ
  fallback : Duration
  waitBudget : Duration

/-- How a request ends: with a response, with an error of the send, shed, or in a panic. -/
inductive Outcome (α ε : Type) where
  | returned (resp : Response α)
  | failed (error : ε)
  | shed (message : String)
  | panicked
  deriving DecidableEq

/-- A run: the requests that were sent, the waits that were slept, and the end. -/
structure Run (α ε : Type) where
  sends : ℕ
  sleeps : List Duration
  outcome : Outcome α ε
  deriving DecidableEq

variable {α ε : Type}

/-- The wait that a `429` asks for. -/
def RetryPolicy.waitOf (policy : RetryPolicy) (resp : Response α) : Duration :=
  (retryAfter resp).getD policy.fallback

def shedMessage (label : String) (attempt : ℕ) : String :=
  label ++ " was shed by the server (429: its embed queue is full) and was still being shed after "
    ++ toString attempt ++ " attempt(s) — re-run once the server has caught up"

/-- The loop from an attempt on, with the time slept so far; `send` is the answer to each attempt. -/
def loop (policy : RetryPolicy) (label : String) (send : ℕ → Except ε (Response α)) (attempt : ℕ)
    (slept : Duration) : Run α ε :=
  match send attempt with
  | .error e => { sends := 1, sleeps := [], outcome := .failed e }
  | .ok resp =>
    if resp.status ≠ TOO_MANY_REQUESTS then { sends := 1, sleeps := [], outcome := .returned resp }
    else if attempt ≥ policy.attempts then
      { sends := 1, sleeps := [], outcome := .shed (shedMessage label attempt) }
    else
      match slept.checkedAdd (policy.waitOf resp) with
      | none => { sends := 1, sleeps := [], outcome := .panicked }
      | some total =>
        if policy.waitBudget.lt total then
          { sends := 1, sleeps := [], outcome := .shed (shedMessage label attempt) }
        else
          let run := loop policy label send (attempt + 1) total
          { run with sends := run.sends + 1, sleeps := policy.waitOf resp :: run.sleeps }
termination_by policy.attempts - attempt

def sendRetryingWhileShed (policy : RetryPolicy) (label : String) (send : ℕ → Except ε (Response α)) :
    Run α ε := loop policy label send 1 Duration.zero

/-! ## The law -/

/-- An attempt that the server sheds, and the wait that it asks for. -/
def ShedWith (policy : RetryPolicy) (send : ℕ → Except ε (Response α)) (attempt : ℕ) (wait : Duration) :
    Prop :=
  ∃ resp, send attempt = .ok resp ∧ resp.status = TOO_MANY_REQUESTS ∧ policy.waitOf resp = wait

/-- The nanoseconds of waits. -/
def total (waits : List Duration) : ℕ := (waits.map Duration.toNanos).sum

/-- The waits of the first attempts, all of them shed, from an attempt on. -/
def ShedAll (policy : RetryPolicy) (send : ℕ → Except ε (Response α)) : ℕ → List Duration → Prop
  | _, [] => True
  | attempt, wait :: waits => ShedWith policy send attempt wait ∧ ShedAll policy send (attempt + 1) waits

/-- What a run has done: it sent at least once and at most as often as the policy says, slept within
the budget, and before each retry for the wait of the attempt before, and it ended with the first
response that is not a `429`, or with an error. -/
structure Lawful (policy : RetryPolicy) (label : String) (send : ℕ → Except ε (Response α))
    (run : Run α ε) : Prop where
  one_le : 1 ≤ run.sends
  le_attempts : run.sends ≤ max 1 policy.attempts
  within : total run.sleeps ≤ policy.waitBudget.toNanos
  retries : run.sleeps.length + 1 = run.sends
  waits : ShedAll policy send 1 run.sleeps
  returned : ∀ resp, send run.sends = .ok resp → resp.status ≠ TOO_MANY_REQUESTS →
    run.outcome = .returned resp
  failed : ∀ e, send run.sends = .error e → run.outcome = .failed e
  shed : ∀ resp, send run.sends = .ok resp → resp.status = TOO_MANY_REQUESTS →
    run.outcome = .shed (shedMessage label run.sends)

/-- No wait that is added leaves the range: the waits of attempts that were all shed and may all be
retried, within the budget but for the last. -/
def AdditionsFit (policy : RetryPolicy) (send : ℕ → Except ε (Response α)) : Prop :=
  ∀ waits wait, ShedAll policy send 1 (waits ++ [wait]) → waits.length + 1 < policy.attempts →
    total waits ≤ policy.waitBudget.toNanos → total (waits ++ [wait]) < SECONDS * NANOS_PER_SEC


/-- The law of the loop: a run does what the policy allows, and does not panic. -/
def RetryLaw (policy : RetryPolicy) (label : String) (send : ℕ → Except ε (Response α)) : Prop :=
  Lawful policy label send (sendRetryingWhileShed policy label send)
    ∧ (sendRetryingWhileShed policy label send).outcome ≠ .panicked

/-! ## Runs -/

section Runs

variable {policy : RetryPolicy} {label : String} {send : ℕ → Except ε (Response α)} {attempt : ℕ}
  {slept wait : Duration} {waits : List Duration}

theorem total_append (waits : List Duration) (wait : Duration) :
    total (waits ++ [wait]) = total waits + wait.toNanos := by
  rw [total, List.map_append, List.sum_append]
  rfl

theorem total_cons (wait : Duration) (waits : List Duration) :
    total (wait :: waits) = wait.toNanos + total waits := rfl

theorem shedAll_append : ShedAll policy send attempt (waits ++ [wait])
    ↔ ShedAll policy send attempt waits ∧ ShedWith policy send (attempt + waits.length) wait := by
  induction waits generalizing attempt with
  | nil => simp [ShedAll]
  | cons w waits ih =>
    rw [List.cons_append, ShedAll, ShedAll, ih, and_assoc, List.length_cons, Nat.add_assoc,
      Nat.add_comm 1]

theorem toNanos_lt (d : Duration) : d.toNanos < SECONDS * NANOS_PER_SEC :=
  calc d.toNanos < d.secs * NANOS_PER_SEC + NANOS_PER_SEC := Nat.add_lt_add_left d.nanos_lt _
    _ = (d.secs + 1) * NANOS_PER_SEC := (Nat.succ_mul _ _).symm
    _ ≤ SECONDS * NANOS_PER_SEC := Nat.mul_le_mul_right _ d.secs_lt

/-- How a run ends at its last attempt, with so many nanoseconds slept. -/
def EndsAt (policy : RetryPolicy) (label : String) (send : ℕ → Except ε (Response α)) (last spent : ℕ)
    (outcome : Outcome α ε) : Prop :=
  (∀ e, send last = .error e → outcome = .failed e)
    ∧ (∀ resp, send last = .ok resp → resp.status ≠ TOO_MANY_REQUESTS → outcome = .returned resp)
    ∧ ∀ resp, send last = .ok resp → resp.status = TOO_MANY_REQUESTS →
      outcome = .shed (shedMessage label last)
        ∨ outcome = .panicked ∧ last < policy.attempts
          ∧ SECONDS * NANOS_PER_SEC ≤ spent + (policy.waitOf resp).toNanos

/-- A run from an attempt on. -/
structure RunFrom (policy : RetryPolicy) (label : String) (send : ℕ → Except ε (Response α))
    (attempt spent : ℕ) (run : Run α ε) : Prop where
  le_attempts : run.sleeps = [] ∨ attempt + run.sleeps.length ≤ policy.attempts
  within : spent + total run.sleeps ≤ policy.waitBudget.toNanos
  retries : run.sleeps.length + 1 = run.sends
  waits : ShedAll policy send attempt run.sleeps
  ends : EndsAt policy label send (attempt + run.sleeps.length) (spent + total run.sleeps) run.outcome

theorem runFrom_once {spent : ℕ} {outcome : Outcome α ε} (hbudget : spent ≤ policy.waitBudget.toNanos)
    (hends : EndsAt policy label send attempt spent outcome) :
    RunFrom policy label send attempt spent { sends := 1, sleeps := [], outcome := outcome } :=
  ⟨.inl rfl, hbudget, rfl, trivial, hends⟩

theorem loop_run (label : String) (send : ℕ → Except ε (Response α)) (attempt : ℕ)
    (hbudget : slept.toNanos ≤ policy.waitBudget.toNanos) :
    RunFrom policy label send attempt slept.toNanos (loop policy label send attempt slept) := by
  induction hleft : policy.attempts - attempt using Nat.strong_induction_on generalizing attempt slept with
  | _ left ih =>
    rw [loop]
    split
    case h_1 e hsend =>
      refine runFrom_once hbudget ⟨fun e' h => ?_, fun resp h => ?_, fun resp h => ?_⟩
      · rw [hsend] at h
        cases h
        rfl
      · rw [hsend] at h
        cases h
      · rw [hsend] at h
        cases h
    case h_2 resp hsend =>
      have hother : ∀ e, send attempt ≠ .error e := fun e h => by
        rw [hsend] at h
        cases h
      have hsame : ∀ resp', send attempt = .ok resp' → resp' = resp := fun resp' h => by
        rw [hsend] at h
        cases h
        rfl
      split
      case isTrue hstatus =>
        refine runFrom_once hbudget ⟨fun e h => absurd h (hother e), fun resp' h _ => ?_,
          fun resp' h h429 => ?_⟩
        · rw [hsame resp' h]
        · exact absurd (hsame resp' h ▸ h429) hstatus
      case isFalse hstatus =>
        rw [ne_eq, not_not] at hstatus
        -- a shed attempt that ends the run
        have hshed : ∀ outcome, outcome = .shed (shedMessage label attempt)
            ∨ outcome = .panicked ∧ attempt < policy.attempts
              ∧ SECONDS * NANOS_PER_SEC ≤ slept.toNanos + (policy.waitOf resp).toNanos →
            RunFrom policy label send attempt slept.toNanos
              { sends := 1, sleeps := [], outcome := outcome } := by
          intro outcome houtcome
          refine runFrom_once hbudget ⟨fun e h => absurd h (hother e), fun resp' h hne => ?_,
            fun resp' h _ => ?_⟩
          · exact absurd (hsame resp' h ▸ hstatus) hne
          · rw [hsame resp' h]
            exact houtcome
        split
        case isTrue => exact hshed _ (.inl rfl)
        case isFalse hattempt =>
          split
          case h_1 hnone =>
            exact hshed _ (.inr ⟨rfl, Nat.lt_of_not_le hattempt, Duration.checkedAdd_eq_none_iff.mp hnone⟩)
          case h_2 total hsome =>
            split
            case isTrue => exact hshed _ (.inl rfl)
            case isFalse hover =>
              have hsum := Duration.checkedAdd_eq_some hsome
              have hfits : total.toNanos ≤ policy.waitBudget.toNanos :=
                not_lt.mp fun h => hover (Duration.lt_iff.mpr h)
              have hrun := ih (policy.attempts - (attempt + 1)) (by omega) _ hfits rfl
              set rest := loop policy label send (attempt + 1) total with hrest
              have hlast : attempt + 1 + rest.sleeps.length = attempt + (rest.sleeps.length + 1) := by
                omega
              have hspent : slept.toNanos + Retry.total (policy.waitOf resp :: rest.sleeps)
                  = total.toNanos + Retry.total rest.sleeps := by
                rw [total_cons]
                omega
              refine ⟨.inr ?_, ?_, congrArg (· + 1) hrun.retries,
                ⟨⟨resp, hsend, hstatus, rfl⟩, hrun.waits⟩, ?_⟩
              · show attempt + (rest.sleeps.length + 1) ≤ _
                rcases hrun.le_attempts with hnil | hle
                · rw [hnil, List.length_nil]
                  omega
                · omega
              · exact hspent ▸ hrun.within
              · have hends := hrun.ends
                rw [hlast, ← hspent] at hends
                exact hends

/-- Waits that are retried up to one that overflows end in a panic. -/
theorem loop_panicked (slept : Duration) (hshed : ShedAll policy send attempt (waits ++ [wait]))
    (hattempts : attempt + waits.length < policy.attempts)
    (hbudget : slept.toNanos + total waits ≤ policy.waitBudget.toNanos)
    (hover : SECONDS * NANOS_PER_SEC ≤ slept.toNanos + total (waits ++ [wait])) :
    (loop policy label send attempt slept).outcome = .panicked := by
  -- over the waits before; each of them fits, the last one does not
  induction waits generalizing attempt slept with
  | nil =>
    rw [List.length_nil, Nat.add_zero] at hattempts
    obtain ⟨⟨resp, hsend, hstatus, rfl⟩, -⟩ := hshed
    have hnil : total [] = 0 := rfl
    rw [List.nil_append, total_cons, hnil, Nat.add_zero] at hover
    have hnone : slept.checkedAdd (policy.waitOf resp) = none :=
      Duration.checkedAdd_eq_none_iff.mpr hover
    rw [loop, hsend]
    simp only [hstatus, ne_eq, not_true_eq_false, if_false, ge_iff_le, hnone]
    rw [if_neg (Nat.not_le_of_lt hattempts)]
  | cons w waits ih =>
    obtain ⟨⟨resp, hsend, hstatus, rfl⟩, hshed⟩ := hshed
    rw [List.length_cons] at hattempts
    rw [total_cons] at hbudget
    rw [List.cons_append, total_cons] at hover
    have hfit := toNanos_lt policy.waitBudget
    obtain ⟨next, hnext⟩ : ∃ next, slept.checkedAdd (policy.waitOf resp) = some next := by
      refine Option.ne_none_iff_exists'.mp fun hnone => ?_
      have := Duration.checkedAdd_eq_none_iff.mp hnone
      omega
    have hsum := Duration.checkedAdd_eq_some hnext
    have hlt : policy.waitBudget.lt next = false := by
      refine eq_false_of_ne_true fun h => ?_
      have := Duration.lt_iff.mp h
      omega
    rw [loop, hsend]
    simp only [hstatus, ne_eq, not_true_eq_false, if_false, ge_iff_le, hnext, hlt, Bool.false_eq_true]
    rw [if_neg (by omega)]
    exact ih _ hshed (by omega) (by omega) (by omega)

end Runs

/-- A shed request is retried by the law exactly when no wait that is added leaves the range of a
duration. -/
theorem retryLaw_iff (policy : RetryPolicy) (label : String) (send : ℕ → Except ε (Response α)) :
    RetryLaw policy label send ↔ AdditionsFit policy send := by
  have hrun : RunFrom policy label send 1 0 (sendRetryingWhileShed policy label send) := by
    have hzero : Duration.zero.toNanos ≤ policy.waitBudget.toNanos := by
      rw [Duration.toNanos_zero]
      exact Nat.zero_le _
    have h := loop_run label send 1 hzero
    rwa [Duration.toNanos_zero] at h
  set run := sendRetryingWhileShed policy label send with hrun_eq
  have hlast : 1 + run.sleeps.length = run.sends := by
    rw [← hrun.retries, Nat.add_comm]
  constructor
  · rintro ⟨-, hpanic⟩ waits wait hshed hattempts hbudget
    by_contra hover
    -- an addition that does not fit panics where the loop reaches it
    refine hpanic (loop_panicked Duration.zero hshed (by omega) ?_ ?_)
    · rw [Duration.toNanos_zero]
      omega
    · rw [Duration.toNanos_zero]
      omega
  · intro hfit
    have hends := hrun.ends
    rw [hlast, Nat.zero_add] at hends
    have hshed : ∀ resp, send run.sends = .ok resp → resp.status = TOO_MANY_REQUESTS →
        run.outcome = .shed (shedMessage label run.sends) := by
      intro resp hsend hstatus
      refine (hends.2.2 resp hsend hstatus).resolve_right ?_
      rintro ⟨-, hattempts, hover⟩
      have hwith : ShedWith policy send (1 + run.sleeps.length) (policy.waitOf resp) :=
        ⟨resp, by rw [hlast]; exact hsend, hstatus, rfl⟩
      have hlt := hfit run.sleeps (policy.waitOf resp) (shedAll_append.mpr ⟨hrun.waits, hwith⟩)
        (by omega) (by have := hrun.within; omega)
      rw [total_append] at hlt
      omega
    show Lawful policy label send run ∧ run.outcome ≠ .panicked
    refine ⟨⟨by omega, ?_, ?_, hrun.retries, hrun.waits, hends.2.1, hends.1, hshed⟩, fun hpanic => ?_⟩
    · rcases hrun.le_attempts with hnil | hle
      · rw [hnil, List.length_nil] at hlast
        omega
      · omega
    · have := hrun.within
      omega
    · cases hsend : send run.sends with
      | error e =>
        rw [hends.1 e hsend] at hpanic
        cases hpanic
      | ok resp =>
        by_cases hstatus : resp.status = TOO_MANY_REQUESTS
        · rw [hshed resp hsend hstatus] at hpanic
          cases hpanic
        · rw [hends.2.1 resp hsend hstatus] at hpanic
          cases hpanic

/-- The policy of every caller: four sends, a fallback of five seconds, a budget of sixty. -/
def defaultPolicy : RetryPolicy where
  attempts := 4
  fallback := Duration.fromSecs 5 (by simp [SECONDS])
  waitBudget := Duration.fromSecs 60 (by simp [SECONDS])

/-- A server that asks for one second first, and then for as many as a `u64` holds. -/
def greedyServer (attempt : ℕ) : Except Unit (Response Unit) :=
  .ok { status := TOO_MANY_REQUESTS
        retryAfter := some ((if attempt = 1 then "1" else "18446744073709551615").toList.map
          fun c => UInt8.ofNat c.toNat)
        rest := () }

theorem not_retryLaw_of_greedy : ¬ RetryLaw defaultPolicy "POST /memory" greedyServer := by
  rintro ⟨-, hpanic⟩
  have hshed : ShedAll defaultPolicy greedyServer 1 ([Duration.fromSecs 1 (by simp [SECONDS])]
      ++ [Duration.fromSecs 18446744073709551615 (by simp [SECONDS])]) :=
    ⟨⟨_, rfl, rfl, by decide +kernel⟩, ⟨_, rfl, rfl, by decide +kernel⟩, trivial⟩
  refine hpanic (loop_panicked Duration.zero hshed (by decide) ?_ ?_)
  · decide +kernel
  · decide +kernel

end Retry
end Inkentry
