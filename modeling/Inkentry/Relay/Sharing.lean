/-
  Inkentry.Relay.Sharing

  Several local stores polling one session.

  A poll hands every store the same buffer, and an acknowledgement retires an
  entry for all of them.  `Ledger` records, beside the run and read by no step,
  what the session has buffered while a store was attached to it.  Nothing owed
  to a store is retired before that store has applied it exactly as long as
  every acknowledgement names only what all attached stores have applied
  (`claimed_iff`), which a process cannot see: it acknowledges what its own
  store has.
-/

import Inkentry.Relay.World

namespace Inkentry
namespace Relay

open Server Memory Runs

/-! ## What a session owes its stores -/

/-- The stores attached to the session, and what it has buffered for each: ids of
    pulled entries, and external ids of the store's own pushed rows. -/
structure Ledger (Db : Type) where
  attached : Db → Bool
  owedPulls : Db → List String
  owedPushes : Db → List String

/-- Before a session is registered, and after it is dropped. -/
def Ledger.empty (Db : Type) : Ledger Db := ⟨fun _ => false, fun _ => [], fun _ => []⟩

/-- The process has read its store and is about to register. -/
def Cli.isRegistering : Cli → Bool
  | .registering _ _ => true
  | _ => false

def Cli.isIdle : Cli → Bool
  | .idle => true
  | _ => false

/-- The process has applied all it was handed and is about to acknowledge. -/
def Cli.isDone : Cli → Bool
  | .applying [] [] _ _ => true
  | _ => false

section

variable {Proc Db : Type} [DecidableEq Proc] [DecidableEq Db] (env : StoreEnv) (db : Proc → Db)

/-- A step by which a store attaches to the session: a process of its registers or
    polls. -/
def attaches (w : World Proc Db) (l : Label Proc Db) (d : Db) : Bool :=
  match l with
  | .register p => db p = d && (w.clis p).isRegistering
  | .poll p => db p = d && (w.clis p).isIdle
  | _ => false

/-- The ledger after a step that ends in `w'`. -/
def Ledger.after (led : Ledger Db) (w w' : World Proc Db) (l : Label Proc Db) : Ledger Db :=
  match w'.session with
  | none => .empty Db
  | some s =>
    let attached d := led.attached d || attaches db w l d
    { attached := attached
      owedPulls := fun d => if attached d then led.owedPulls d ++ s.pulled.map RemoteEntry.id else []
      owedPushes := fun d =>
        if attached d then
          led.owedPushes d ++ (s.pushResults.map RelayPushResult.externalId).filter
            fun x => (w'.stores d).hasNote ⟨x⟩
        else [] }

/-- The world and the ledger beside it. -/
structure Shared (Proc Db : Type) where
  world : World Proc Db
  ledger : Ledger Db

def sharedStep (x : Shared Proc Db) (l : Label Proc Db) : Shared Proc Db :=
  ⟨step env db x.world l, x.ledger.after db x.world (step env db x.world l) l⟩

/-- An entry with an id is buffered. -/
def World.Offers (w : World Proc Db) (id : String) : Prop := ∃ s ∈ w.session, s.Buffers id

/-- A push result for an external id is buffered. -/
def World.OffersResult (w : World Proc Db) (x : String) : Prop := ∃ s ∈ w.session, s.BuffersResult x

/-- What is owed to a store is still buffered, or the store has applied it. -/
def NotRetired (x : Shared Proc Db) : Prop :=
  ∀ d, (∀ id ∈ x.ledger.owedPulls d, x.world.Offers id ∨ x.world.Has env d id)
    ∧ ∀ r ∈ x.ledger.owedPushes d, x.world.OffersResult r ∨ (x.world.stores d).Stamped ⟨r⟩

/-- A store has finished polling: of what it is owed it has applied all that is
    still buffered. -/
def Finished (x : Shared Proc Db) (d : Db) : Prop :=
  (∀ id ∈ x.ledger.owedPulls d, x.world.Offers id → x.world.Has env d id)
    ∧ ∀ r ∈ x.ledger.owedPushes d, x.world.OffersResult r → (x.world.stores d).Stamped ⟨r⟩

/-- A store has every entry the session buffered while it was attached, and the
    rows it pushed have their remote ids. -/
def Complete (x : Shared Proc Db) (d : Db) : Prop :=
  (∀ id ∈ x.ledger.owedPulls d, x.world.Has env d id)
    ∧ ∀ r ∈ x.ledger.owedPushes d, (x.world.stores d).Stamped ⟨r⟩

/-- Nothing is retired early, and a store that has finished polling is complete. -/
def Converges (x : Shared Proc Db) : Prop :=
  NotRetired env x ∧ ∀ d, Finished env x d → Complete env x d

/-- An acknowledgement names only what every attached store has applied. -/
def AckedByAll (x : Shared Proc Db) : Label Proc Db → Prop
  | .ack p => (x.world.clis p).isDone = true → ∀ d, x.ledger.attached d = true →
      (∀ id ∈ (x.world.clis p).ackedPullIds, x.world.Offers id → x.world.Has env d id)
      ∧ ∀ r ∈ (x.world.clis p).ackedPushIds, x.world.OffersResult r →
        (x.world.stores d).hasNote ⟨r⟩ = true → (x.world.stores d).Stamped ⟨r⟩
  | _ => True

/-! ## The ledger is up to date -/

/-- What is buffered is owed to every attached store, and nothing is owed to others. -/
structure Current (x : Shared Proc Db) : Prop where
  pulls : ∀ d, x.ledger.attached d = true → ∀ id, x.world.Offers id → id ∈ x.ledger.owedPulls d
  pushes : ∀ d, x.ledger.attached d = true → ∀ r, x.world.OffersResult r →
    (x.world.stores d).hasNote ⟨r⟩ = true → r ∈ x.ledger.owedPushes d
  detached : ∀ d, x.ledger.attached d = false →
    x.ledger.owedPulls d = [] ∧ x.ledger.owedPushes d = []

variable {env db}
variable {x : Shared Proc Db}
variable {l : Label Proc Db}

/-- The ledger after a step, read off the session the step ends with. -/
theorem ledger_of_session {s : RelayInner} (hs : (sharedStep env db x l).world.session = some s)
    (d : Db) :
    (sharedStep env db x l).ledger.attached d
      = (x.ledger.attached d || attaches db x.world l d)
    ∧ (sharedStep env db x l).ledger.owedPulls d
      = (if x.ledger.attached d || attaches db x.world l d then
          x.ledger.owedPulls d ++ s.pulled.map RemoteEntry.id else [])
    ∧ (sharedStep env db x l).ledger.owedPushes d
      = (if x.ledger.attached d || attaches db x.world l d then
          x.ledger.owedPushes d ++ (s.pushResults.map RelayPushResult.externalId).filter
            fun r => ((sharedStep env db x l).world.stores d).hasNote ⟨r⟩
        else []) := by
  have hs' : (step env db x.world l).session = some s := hs
  refine ⟨?_, ?_, ?_⟩ <;> simp only [sharedStep, Ledger.after, hs']

theorem ledger_of_no_session (hs : (sharedStep env db x l).world.session = none) :
    (sharedStep env db x l).ledger = .empty Db := by
  have hs' : (step env db x.world l).session = none := hs
  simp only [sharedStep, Ledger.after, hs']

theorem current_step (x : Shared Proc Db) (l : Label Proc Db) :
    Current (sharedStep env db x l) := by
  -- without a session nothing is owed; with one, everything buffered is
  cases hs : (sharedStep env db x l).world.session with
  | none =>
    have hled : (sharedStep env db x l).ledger = .empty Db := ledger_of_no_session hs
    constructor
    · intro d hatt
      simp [hled, Ledger.empty] at hatt
    · intro d hatt
      simp [hled, Ledger.empty] at hatt
    · intro d _
      rw [hled]
      exact ⟨rfl, rfl⟩
  | some s =>
    have hled (d : Db) := ledger_of_session hs d
    constructor
    · rintro d hatt id ⟨s', hs', hbuf⟩
      obtain rfl : s = s' := Option.mem_unique hs hs'
      obtain ⟨hattached, hpulls, -⟩ := hled d
      rw [hattached] at hatt
      rw [hpulls, if_pos hatt]
      exact List.mem_append_right _ hbuf
    · rintro d hatt r ⟨s', hs', hbuf⟩ hnote
      obtain rfl : s = s' := Option.mem_unique hs hs'
      obtain ⟨hattached, -, hpushes⟩ := hled d
      rw [hattached] at hatt
      rw [hpushes, if_pos hatt]
      exact List.mem_append_right _ (List.mem_filter.mpr ⟨hbuf, hnote⟩)
    · intro d hatt
      obtain ⟨hattached, hpulls, hpushes⟩ := hled d
      rw [hattached] at hatt
      exact ⟨hpulls.trans (by rw [hatt]; rfl), hpushes.trans (by rw [hatt]; rfl)⟩

/-! ## What retires an entry -/

/-- Every step but an acknowledgement keeps what is buffered, and an acknowledgement
    keeps what it does not name. -/
theorem offers_step (env : StoreEnv) (db : Proc → Db) (w : World Proc Db) (l : Label Proc Db)
    {s' : RelayInner} (hs' : s' ∈ (step env db w l).session) :
    ((∀ id, w.Offers id → s'.Buffers id) ∧ ∀ r, w.OffersResult r → s'.BuffersResult r)
    ∨ ∃ p, l = .ack p ∧ (w.clis p).isDone = true
        ∧ (∀ id ∉ (w.clis p).ackedPullIds, w.Offers id → s'.Buffers id)
        ∧ ∀ r ∉ (w.clis p).ackedPushIds, w.OffersResult r → s'.BuffersResult r := by
  have hsame {s : RelayInner} (hs : s ∈ w.session) (hpulled : ∀ id, s.Buffers id → s'.Buffers id)
      (hresults : ∀ r, s.BuffersResult r → s'.BuffersResult r) :
      (∀ id, w.Offers id → s'.Buffers id) ∧ ∀ r, w.OffersResult r → s'.BuffersResult r := by
    refine ⟨?_, ?_⟩
    · rintro id ⟨s₀, hs₀, hbuf⟩
      exact hpulled id (Option.mem_unique hs hs₀ ▸ hbuf)
    · rintro r ⟨s₀, hs₀, hbuf⟩
      exact hresults r (Option.mem_unique hs hs₀ ▸ hbuf)
  -- a quiet step, a registration, a page that arrived, or an acknowledgement
  rcases session_step hs' with ⟨s, hs, hq, -⟩ | ⟨p, since, entries, rfl, hcli, rfl⟩
    | ⟨now, page, rfl, s, hs, hpage, rfl⟩ | ⟨p, pushIds, pullIds, rfl, hcli, s, hs, rfl⟩
  · refine .inl (hsame hs (fun id hbuf => ?_) hq.results)
    rwa [RelayInner.Buffers, hq.pulled]
  · left
    rcases Option.eq_none_or_eq_some w.session with hs | ⟨s, hs⟩
    · refine ⟨?_, ?_⟩
      · rintro id ⟨s₀, hs₀, -⟩
        exact absurd hs₀ (by simp [hs])
      · rintro r ⟨s₀, hs₀, -⟩
        exact absurd hs₀ (by simp [hs])
    · refine hsame hs (fun id hbuf => ?_) (fun r hbuf => ?_)
      · simpa [RelayInner.Buffers, hs] using hbuf
      · simpa [RelayInner.BuffersResult, hs] using hbuf
  · exact .inl (hsame hs (fun id hbuf => s.buffers_finishCatchUp now page hbuf)
      fun r hbuf => buffersResult_of_eq (s.finishCatchUp_pushResults now page) hbuf)
  · refine .inr ⟨p, rfl, by rw [hcli]; rfl, ?_, ?_⟩
    · rintro id hid ⟨s₀, hs₀, hbuf⟩
      obtain rfl : s = s₀ := Option.mem_unique hs hs₀
      obtain ⟨e, he, rfl⟩ := List.mem_map.mp hbuf
      have hid' : e.id ∉ pullIds := by
        rw [hcli] at hid
        exact hid
      exact List.mem_map_of_mem (List.mem_filter.mpr ⟨he, by simpa using hid'⟩)
    · rintro r hr ⟨s₀, hs₀, hbuf⟩
      obtain rfl : s = s₀ := Option.mem_unique hs hs₀
      obtain ⟨o, ho, rfl⟩ := List.mem_map.mp hbuf
      have hr' : o.externalId ∉ pushIds := by
        rw [hcli] at hr
        exact hr
      exact List.mem_map_of_mem (List.mem_filter.mpr ⟨ho, by simpa using hr'⟩)

/-- Rows whose push is owed exist, so an acknowledgement concerns them. -/
def OwesRows (x : Shared Proc Db) : Prop :=
  ∀ d, ∀ r ∈ x.ledger.owedPushes d, (x.world.stores d).hasNote ⟨r⟩ = true

theorem owesRows_step (h : OwesRows x) (l : Label Proc Db) : OwesRows (sharedStep env db x l) := by
  intro d r hr
  cases hs : (sharedStep env db x l).world.session with
  | none =>
    have hled : (sharedStep env db x l).ledger = .empty Db := ledger_of_no_session hs
    simp [hled, Ledger.empty] at hr
  | some s =>
    obtain ⟨-, -, hpushes⟩ := ledger_of_session hs d
    rw [hpushes] at hr
    split at hr
    · rcases List.mem_append.mp hr with hold | hnew
      · exact (stores_keep x.world l d).hasNote (h d r hold)
      · exact (List.mem_filter.mp hnew).2
    · exact absurd hr (by simp)

/-! ## One step -/

/-- What holds of every state of every run. -/
structure LedgerSound (x : Shared Proc Db) : Prop where
  current : Current x
  rows : OwesRows x

theorem ledgerSound_step (h : LedgerSound x) (l : Label Proc Db) :
    LedgerSound (sharedStep env db x l) :=
  ⟨current_step x l, owesRows_step h.rows l⟩

theorem attached_of_owed (h : Current x) {d : Db}
    (howed : x.ledger.owedPulls d ≠ [] ∨ x.ledger.owedPushes d ≠ []) :
    x.ledger.attached d = true := by
  by_contra hatt
  obtain ⟨hpulls, hpushes⟩ := h.detached d (by simpa using hatt)
  rcases howed with hne | hne
  · exact hne hpulls
  · exact hne hpushes

/-- An acknowledgement that every attached store could have sent retires nothing
    early, nor does any other step. -/
theorem notRetired_step (h : LedgerSound x) (hnr : NotRetired env x)
    (hack : AckedByAll env x l) : NotRetired env (sharedStep env db x l) := by
  intro d
  rcases Option.eq_none_or_eq_some (sharedStep env db x l).world.session with hs | ⟨s, hs⟩
  · rw [ledger_of_no_session hs]
    exact ⟨by simp [Ledger.empty], by simp [Ledger.empty]⟩
  · obtain ⟨-, hpulls, hpushes⟩ := ledger_of_session hs d
    rw [hpulls, hpushes]
    split
    case isFalse => exact ⟨by simp, by simp⟩
    case isTrue =>
      -- what is owed is still buffered, or goes with an acknowledgement of all
      have hoffers := offers_step env db x.world l hs
      constructor
      · intro id hid
        rcases List.mem_append.mp hid with hold | hnew
        · rcases (hnr d).1 id hold with hoffered | hhas
          · rcases hoffers with ⟨hkeep, -⟩ | ⟨p, rfl, hdone, hkeep, -⟩
            · exact .inl ⟨s, hs, hkeep id hoffered⟩
            · by_cases hmem : id ∈ (x.world.clis p).ackedPullIds
              · have hatt := attached_of_owed h.current (.inl (List.ne_nil_of_mem hold))
                exact .inr (((hack hdone d hatt).1 id hmem hoffered).step _)
              · exact .inl ⟨s, hs, hkeep id hmem hoffered⟩
          · exact .inr (hhas.step l)
        · exact .inl ⟨s, hs, hnew⟩
      · intro r hr
        rcases List.mem_append.mp hr with hold | hnew
        · rcases (hnr d).2 r hold with hoffered | hstamped
          · rcases hoffers with ⟨-, hkeep⟩ | ⟨p, rfl, hdone, -, hkeep⟩
            · exact .inl ⟨s, hs, hkeep r hoffered⟩
            · by_cases hmem : r ∈ (x.world.clis p).ackedPushIds
              · have hatt := attached_of_owed h.current (.inr (List.ne_nil_of_mem hold))
                have hstamped := (hack hdone d hatt).2 r hmem hoffered (h.rows d r hold)
                exact .inr ((stores_keep x.world _ d).stamped hstamped)
              · exact .inl ⟨s, hs, hkeep r hmem hoffered⟩
          · exact .inr ((stores_keep x.world l d).stamped hstamped)
        · exact .inl ⟨s, hs, (List.mem_filter.mp hnew).1⟩

/-- An acknowledgement that reaches the session retires what it names. -/
theorem ack_session {w : World Proc Db} {p : Proc} (hdone : (w.clis p).isDone = true)
    {s : RelayInner} (hs : w.session = some s) :
    (w.ack p).session = some (s.ack (w.clis p).ackedPushIds (w.clis p).ackedPullIds) := by
  unfold World.ack
  unfold Cli.isDone at hdone
  split at hdone
  case h_1 pushIds pullIds hcli =>
    simp only [hcli, World.onSession, World.setCli, hs]
    rfl
  case h_2 => exact absurd hdone (by simp)

/-- An acknowledgement that some attached store could not have sent retires what
    that store has not applied. -/
theorem ackedByAll_of_notRetired (h : LedgerSound x)
    (hnr : NotRetired env (sharedStep env db x l)) : AckedByAll env x l := by
  cases l with
  | ack p =>
    intro hdone d hatt
    obtain ⟨hserver, hstores⟩ := ack_frame x.world p
    rcases Option.eq_none_or_eq_some x.world.session with hs | ⟨s, hs⟩
    · refine ⟨?_, ?_⟩
      · rintro id - ⟨s₀, hs₀, -⟩
        exact absurd hs₀ (by simp [hs])
      · rintro r - ⟨s₀, hs₀, -⟩
        exact absurd hs₀ (by simp [hs])
    · have hs' : (sharedStep env db x (.ack p)).world.session
          = some (s.ack (x.world.clis p).ackedPushIds (x.world.clis p).ackedPullIds) :=
        ack_session hdone hs
      obtain ⟨-, hpulls, hpushes⟩ := ledger_of_session hs' d
      rw [hatt, Bool.true_or, if_pos rfl] at hpulls hpushes
      constructor
      · intro id hid hoffered
        have howed := h.current.pulls d hatt id hoffered
        rcases (hnr d).1 id (hpulls ▸ List.mem_append_left _ howed) with hoffered' | hhas
        · -- it was named, so it is no longer buffered
          obtain ⟨s', hs'', hbuf⟩ := hoffered'
          obtain rfl : s.ack _ _ = s' := Option.mem_unique hs' hs''
          obtain ⟨e, he, rfl⟩ := List.mem_map.mp hbuf
          exact absurd hid (by simpa using (List.mem_filter.mp he).2)
        · obtain ⟨e, he, heid, hholds⟩ := hhas
          refine ⟨e, hserver ▸ he, heid, ?_⟩
          rw [← hstores]
          exact hholds
      · intro r hr hoffered hnote
        have howed := h.current.pushes d hatt r hoffered hnote
        rcases (hnr d).2 r (hpushes ▸ List.mem_append_left _ howed) with hoffered' | hstamped
        · obtain ⟨s', hs'', hbuf⟩ := hoffered'
          obtain rfl : s.ack _ _ = s' := Option.mem_unique hs' hs''
          obtain ⟨o, ho, rfl⟩ := List.mem_map.mp hbuf
          exact absurd hr (by simpa using (List.mem_filter.mp ho).2)
        · rw [← hstores]
          exact hstamped
  | _ => trivial

omit [DecidableEq Proc] [DecidableEq Db] in
/-- What is owed is complete once all that is still buffered is applied. -/
theorem converges_iff_notRetired : Converges env x ↔ NotRetired env x := by
  refine ⟨fun h => h.1, fun h => ⟨h, fun d hfin => ⟨fun id hid => ?_, fun r hr => ?_⟩⟩⟩
  · exact ((h d).1 id hid).elim (hfin.1 id hid) fun hhas => hhas
  · exact ((h d).2 r hr).elim (hfin.2 r hr) fun hstamped => hstamped

/-! ## Over runs -/

/-- No session yet, nothing owed; the server and the stores as they may be. -/
def Shared.start (server : Feed) (stores : Db → Store) : Shared Proc Db :=
  ⟨⟨server, none, stores, fun _ => .idle⟩, .empty Db⟩

instance (w : World Proc Db) (id : String) : Decidable (w.Offers id) :=
  inferInstanceAs (Decidable (∃ s ∈ w.session, s.Buffers id))

end

/-! ## Two stores -/

/-- An entry of another machine's. -/
def teamEntry : ServerEntry where
  syncId := ⟨"01890000-0000-7000-8000-000000000001", by decide⟩
  kind := "decision"
  title := "theirs"
  body := ""
  sourceCommit := none
  createdAt := 1
  externalId := some "c"
  active := true

/-- Two stores register, the session buffers an entry, and each store polls,
    applies what it is handed and acknowledges it, the first before the second. -/
def firstThenSecond : List (Label Bool Bool) :=
  [.arrive teamEntry, .prepare true, .register true, .prepare false, .register false, .connect,
    .catchUpAnswer, .catchUpFinish 7, .poll true, .applyPull true ⟨"a"⟩, .ack true, .poll false,
    .ack false]

end Relay
end Inkentry
