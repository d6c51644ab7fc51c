import Telegraf.KeyedLists
import Telegraf.Metric
import Telegraf.Tracking

/-!
# The Kafka consumer

`ConsumerGroupHandler` of `plugins/inputs/kafka_consumer` with the `trackingAccumulator` of
`agent/accumulator.go`, in one session : a goroutine of `ConsumeClaim` for each claim, the goroutine
of `run`, and whoever finalises the tracked metrics. An event is a step of one of them between two
operations on what they share : the semaphore, the mutex with the map of undelivered messages, the
channel of deliveries and the counters of the tracked groups.

`moves_of_step` says what the steps can do, and is all that is used of them later.
-/

namespace Telegraf.KafkaConsumer

open KeyedLists Option

/-! ## State -/

/-- `sarama.ConsumerMessage`. -/
structure Message where
  topic : GoString
  partition : ℤ
  offset : ℤ
  value : GoString
deriving Repr, DecidableEq

/-- Where a goroutine of `ConsumeClaim` is. -/
inductive ClaimPC (𝔽 : Type) where
  /-- In `Reserve`. -/
  | reserving
  /-- In the select after `Reserve`. -/
  | receiving
  /-- In `Handle`, before the length is checked. -/
  | handling (msg : Message)
  /-- In `release`, before `Handle` returns the error. -/
  | releasing (err : GoString)
  /-- In `Handle`, before `mu` is locked. -/
  | parsed (msg : Message) (metrics : List (Metric 𝔽))
  /-- With the mutex, before `AddTrackingMetricGroup`. -/
  | locked (msg : Message) (metrics : List (Metric 𝔽))
  /-- With the mutex, before the message is stored. -/
  | tracked (msg : Message) (id : UInt64)
  | returned

/-- A claim with its goroutine. The messages up to the position were received, or are from before
the session. -/
structure Claim (𝔽 : Type) where
  topic : GoString
  partition : ℤ
  position : ℤ
  pc : ClaimPC 𝔽

/-- Where the goroutine of `run` is. -/
inductive RunPC where
  | selecting
  /-- In `onDelivery`, before `mu` is locked. -/
  | taken (track : DeliveryInfo)
  /-- With the mutex, before the lookup. -/
  | locked (track : DeliveryInfo)
  /-- With the mutex, before the semaphore is released. -/
  | releasing
  | returned
deriving Repr, DecidableEq

/-- A tracked group with the message that it is from. -/
structure Group where
  msg : Message
  tracking : Tracking
deriving Repr, DecidableEq

inductive Panic where
  | channelFull
  | negativeRefcount
deriving Repr, DecidableEq

/-- The session. -/
structure Session (𝔽 : Type) where
  /-- The context of the session is done. -/
  cancelled : Bool
  /-- `Cleanup` has cancelled the context of `run`. -/
  stopped : Bool
  claims : List (Claim 𝔽)
  run : RunPC
  /-- The number of tokens in the semaphore. -/
  sem : ℕ
  /-- `mu` is locked. -/
  mu : Bool
  undelivered : List (UInt64 × Message)
  /-- `lastID` of `metric/tracking.go`. -/
  lastID : UInt64
  groups : List Group
  /-- The content of the channel of the accumulator. -/
  delivered : List DeliveryInfo
  /-- The calls of `MarkMessage`. -/
  marked : List Message
  /-- The calls of `AddError`. -/
  errors : List GoString
  /-- The ids that `onDelivery` could not find. -/
  unknown : List UInt64
  panic : Option Panic

/-- A step of the goroutine of the claim with that index, of `run`, or of others. -/
inductive Event (𝔽 : Type) where
  | cancel
  | cleanup
  | reserve (i : ℕ)
  | claimDone (i : ℕ)
  | claimClosed (i : ℕ)
  | receive (i : ℕ) (msg : Message)
  /-- With what `Parse` returns, or would return. -/
  | handle (i : ℕ) (result : Except GoString (List (Metric 𝔽)))
  | release (i : ℕ)
  | lock (i : ℕ)
  | addTrackingMetricGroup (i : ℕ)
  | store (i : ℕ)
  | runDone
  | take
  | runLock
  | onDelivery
  | runRelease
  /-- A step of whoever has a handle of the group with that index. -/
  | finalise (i : ℕ) (step : TrackingStep)
  /-- Another input takes a tracking id. -/
  | newTrackingID

/-! ## Steps -/

/-- `ConsumerGroupHandler`, with the capacity of its channels. -/
structure ConsumerGroupHandler where
  maxMessageLen : ℤ
  topicTag : GoString
  maxUndelivered : ℕ

variable {𝔽 : Type}

namespace Session

variable (s : Session 𝔽)

/-- The claim with that index goes on. -/
def setPC (i : ℕ) (c : Claim 𝔽) (pc : ClaimPC 𝔽) : List (Claim 𝔽) :=
  s.claims.set i { c with pc := pc }

end Session

namespace ConsumerGroupHandler

variable (h : ConsumerGroupHandler)

/-- The length of the message is over the limit. -/
def tooLong (msg : Message) : Bool :=
  h.maxMessageLen ≠ 0 ∧ h.maxMessageLen < msg.value.length

def tooLongError (msg : Message) : GoString :=
  let actual := msg.value.length
  let max := h.maxMessageLen
  str s!"message exceeds max_message_len (actual {actual}, max {max})"

/-- The metrics of a message with the tag for its topic. -/
def tagTopic (msg : Message) (metrics : List (Metric 𝔽)) : List (Metric 𝔽) :=
  if 0 < h.topicTag.length then metrics.map (·.addTag h.topicTag msg.topic) else metrics

section

variable (s : Session 𝔽)

/-- `trackingAccumulator.onDelivery` : the send panics if the channel is full. -/
def notify (info : DeliveryInfo) : Session 𝔽 :=
  if s.delivered.length < h.maxUndelivered then { s with delivered := s.delivered ++ [info] }
  else { s with panic := some .channelFull }

/-- A step of a goroutine of `ConsumeClaim`. -/
def claimStep (i : ℕ) (c : Claim 𝔽) : Event 𝔽 → Option (Session 𝔽)
  | .reserve _ =>
    match c.pc with
    | .reserving =>
      if s.sem < h.maxUndelivered then
        some { s with sem := s.sem + 1, claims := s.setPC i c .receiving }
      else none
    | _ => none
  | .claimDone _ =>
    match c.pc with
    | .reserving | .receiving =>
      if s.cancelled then some { s with claims := s.setPC i c .returned } else none
    | _ => none
  | .claimClosed _ =>
    match c.pc with
    | .receiving => some { s with claims := s.setPC i c .returned }
    | _ => none
  | .receive _ msg =>
    match c.pc with
    | .receiving =>
      if msg.topic = c.topic ∧ msg.partition = c.partition ∧ c.position < msg.offset then
        some { s with claims := s.setPC i { c with position := msg.offset } (.handling msg) }
      else none
    | _ => none
  | .handle _ result =>
    match c.pc with
    | .handling msg =>
      if h.tooLong msg then
        some { s with
          marked := s.marked ++ [msg]
          claims := s.setPC i c (.releasing (h.tooLongError msg)) }
      else
        match result with
        | .error err => some { s with claims := s.setPC i c (.releasing err) }
        | .ok metrics =>
          some { s with claims := s.setPC i c (.parsed msg (h.tagTopic msg metrics)) }
    | _ => none
  | .release _ =>
    match c.pc with
    | .releasing err =>
      if 0 < s.sem then
        some { s with
          sem := s.sem - 1
          errors := s.errors ++ [err]
          claims := s.setPC i c .reserving }
      else none
    | _ => none
  | .lock _ =>
    match c.pc with
    | .parsed msg metrics =>
      if s.mu = false then some { s with mu := true, claims := s.setPC i c (.locked msg metrics) }
      else none
    | _ => none
  | .addTrackingMetricGroup _ =>
    match c.pc with
    | .locked msg metrics =>
      let id := s.lastID + 1
      let t := newTrackingMetricGroup id metrics.length
      some (t.notified.foldl h.notify { s with
        lastID := id
        groups := s.groups ++ [⟨msg, t⟩]
        claims := s.setPC i c (.tracked msg id) })
    | _ => none
  | .store _ =>
    match c.pc with
    | .tracked msg id =>
      some { s with
        mu := false
        undelivered := upsert id (fun _ => msg) s.undelivered
        claims := s.setPC i c .reserving }
    | _ => none
  | _ => none

/-- `onDelivery`, with the mutex. -/
def onDelivery (track : DeliveryInfo) : Session 𝔽 :=
  match get s.undelivered track.id with
  | none => { s with unknown := s.unknown ++ [track.id], mu := false, run := .selecting }
  | some msg =>
    { s with
      marked := if track.delivered then s.marked ++ [msg] else s.marked
      undelivered := s.undelivered.filter fun e => e.1 != track.id
      run := .releasing }

/-- A step of the goroutine of `run`. -/
def runStep : Event 𝔽 → Option (Session 𝔽)
  | .runDone =>
    match s.run with
    | .selecting => if s.stopped then some { s with run := .returned } else none
    | _ => none
  | .take =>
    match s.run, s.delivered with
    | .selecting, track :: rest => some { s with run := .taken track, delivered := rest }
    | _, _ => none
  | .runLock =>
    match s.run with
    | .taken track =>
      if s.mu = false then some { s with mu := true, run := .locked track } else none
    | _ => none
  | .onDelivery =>
    match s.run with
    | .locked track => some (onDelivery s track)
    | _ => none
  | .runRelease =>
    match s.run with
    | .releasing =>
      if 0 < s.sem then some { s with sem := s.sem - 1, mu := false, run := .selecting } else none
    | _ => none
  | _ => none

/-- A step of whoever has a handle of the group. -/
def finalise (i : ℕ) (g : Group) (step : TrackingStep) : Option (Session 𝔽) :=
  (g.tracking.step step).map fun t =>
    if t.panicked then { s with panic := some .negativeRefcount }
    else (t.notified.drop g.tracking.notified.length).foldl h.notify
      { s with groups := s.groups.set i { g with tracking := t } }

/-- One step. After a panic there is none. -/
def step (e : Event 𝔽) : Option (Session 𝔽) :=
  if s.panic.isSome then none
  else
    match e with
    | .cancel => some { s with cancelled := true }
    | .cleanup =>
      if s.claims.all fun c => c.pc matches .returned then some { s with stopped := true } else none
    | .reserve i | .claimDone i | .claimClosed i | .receive i _ | .handle i _ | .release i
    | .lock i | .addTrackingMetricGroup i | .store i =>
      s.claims[i]?.bind fun c => h.claimStep s i c e
    | .runDone | .take | .runLock | .onDelivery | .runRelease => runStep s e
    | .finalise i step => s.groups[i]?.bind fun g => h.finalise s i g step
    | .newTrackingID => some { s with lastID := s.lastID + 1 }

end

/-- The session after `Setup`, with claims that have their topic, partition and position. -/
def setup (lastID : UInt64) (claims : List (GoString × ℤ × ℤ)) : Session 𝔽 where
  cancelled := false
  stopped := false
  claims := claims.map fun (topic, partition, position) => ⟨topic, partition, position, .reserving⟩
  run := .selecting
  sem := 0
  mu := false
  undelivered := []
  lastID := lastID
  groups := []
  delivered := []
  marked := []
  errors := []
  unknown := []
  panic := none

end ConsumerGroupHandler

/-! ## What a step can do -/

/-- The steps, with what they need and what they change. -/
inductive Moves (h : ConsumerGroupHandler) (s : Session 𝔽) : Event 𝔽 → Session 𝔽 → Prop where
  | cancel : Moves h s .cancel { s with cancelled := true }
  | cleanup : Moves h s .cleanup { s with stopped := true }
  | reserve {i : ℕ} {c : Claim 𝔽} (hc : s.claims[i]? = some c) (hpc : c.pc = .reserving)
      (hsem : s.sem < h.maxUndelivered) :
      Moves h s (.reserve i) { s with sem := s.sem + 1, claims := s.setPC i c .receiving }
  | claimDone {i : ℕ} {c : Claim 𝔽} (hc : s.claims[i]? = some c)
      (hpc : c.pc = .reserving ∨ c.pc = .receiving) :
      Moves h s (.claimDone i) { s with claims := s.setPC i c .returned }
  | claimClosed {i : ℕ} {c : Claim 𝔽} (hc : s.claims[i]? = some c) (hpc : c.pc = .receiving) :
      Moves h s (.claimClosed i) { s with claims := s.setPC i c .returned }
  | receive {i : ℕ} {c : Claim 𝔽} {msg : Message} (hc : s.claims[i]? = some c)
      (hpc : c.pc = .receiving) (htopic : msg.topic = c.topic)
      (hpartition : msg.partition = c.partition) (hoffset : c.position < msg.offset) :
      Moves h s (.receive i msg)
        { s with claims := s.setPC i { c with position := msg.offset } (.handling msg) }
  | tooLong {i : ℕ} {c : Claim 𝔽} {msg : Message} {result : Except GoString (List (Metric 𝔽))}
      (hc : s.claims[i]? = some c) (hpc : c.pc = .handling msg) (hlong : h.tooLong msg = true) :
      Moves h s (.handle i result) { s with
        marked := s.marked ++ [msg]
        claims := s.setPC i c (.releasing (h.tooLongError msg)) }
  | parseError {i : ℕ} {c : Claim 𝔽} {msg : Message} {err : GoString}
      (hc : s.claims[i]? = some c) (hpc : c.pc = .handling msg) (hshort : h.tooLong msg = false) :
      Moves h s (.handle i (.error err)) { s with claims := s.setPC i c (.releasing err) }
  | parse {i : ℕ} {c : Claim 𝔽} {msg : Message} {metrics : List (Metric 𝔽)}
      (hc : s.claims[i]? = some c) (hpc : c.pc = .handling msg) (hshort : h.tooLong msg = false) :
      Moves h s (.handle i (.ok metrics))
        { s with claims := s.setPC i c (.parsed msg (h.tagTopic msg metrics)) }
  | release {i : ℕ} {c : Claim 𝔽} {err : GoString} (hc : s.claims[i]? = some c)
      (hpc : c.pc = .releasing err) (hsem : 0 < s.sem) :
      Moves h s (.release i) { s with
        sem := s.sem - 1
        errors := s.errors ++ [err]
        claims := s.setPC i c .reserving }
  | lock {i : ℕ} {c : Claim 𝔽} {msg : Message} {metrics : List (Metric 𝔽)}
      (hc : s.claims[i]? = some c) (hpc : c.pc = .parsed msg metrics) (hmu : s.mu = false) :
      Moves h s (.lock i) { s with mu := true, claims := s.setPC i c (.locked msg metrics) }
  | addTrackingMetricGroup {i : ℕ} {c : Claim 𝔽} {msg : Message} {metrics : List (Metric 𝔽)}
      {t : Tracking} (hc : s.claims[i]? = some c) (hpc : c.pc = .locked msg metrics)
      (ht : t = newTrackingMetricGroup (s.lastID + 1) metrics.length) :
      Moves h s (.addTrackingMetricGroup i) (t.notified.foldl h.notify { s with
        lastID := s.lastID + 1
        groups := s.groups ++ [⟨msg, t⟩]
        claims := s.setPC i c (.tracked msg (s.lastID + 1)) })
  | store {i : ℕ} {c : Claim 𝔽} {msg : Message} {id : UInt64} (hc : s.claims[i]? = some c)
      (hpc : c.pc = .tracked msg id) :
      Moves h s (.store i) { s with
        mu := false
        undelivered := upsert id (fun _ => msg) s.undelivered
        claims := s.setPC i c .reserving }
  | runDone (hpc : s.run = .selecting) : Moves h s .runDone { s with run := .returned }
  | take {track : DeliveryInfo} {rest : List DeliveryInfo} (hpc : s.run = .selecting)
      (hdelivered : s.delivered = track :: rest) :
      Moves h s .take { s with run := .taken track, delivered := rest }
  | runLock {track : DeliveryInfo} (hpc : s.run = .taken track) (hmu : s.mu = false) :
      Moves h s .runLock { s with mu := true, run := .locked track }
  | unknown {track : DeliveryInfo} (hpc : s.run = .locked track)
      (hget : get s.undelivered track.id = none) :
      Moves h s .onDelivery
        { s with unknown := s.unknown ++ [track.id], mu := false, run := .selecting }
  | onDelivery {track : DeliveryInfo} {msg : Message} (hpc : s.run = .locked track)
      (hget : get s.undelivered track.id = some msg) :
      Moves h s .onDelivery { s with
        marked := if track.delivered then s.marked ++ [msg] else s.marked
        undelivered := s.undelivered.filter fun e => e.1 != track.id
        run := .releasing }
  | runRelease (hpc : s.run = .releasing) (hsem : 0 < s.sem) :
      Moves h s .runRelease { s with sem := s.sem - 1, mu := false, run := .selecting }
  | negativeRefcount {i : ℕ} {g : Group} {step : TrackingStep} {t : Tracking}
      (hg : s.groups[i]? = some g) (hstep : g.tracking.step step = some t)
      (hpanicked : t.panicked = true) :
      Moves h s (.finalise i step) { s with panic := some .negativeRefcount }
  | finalise {i : ℕ} {g : Group} {step : TrackingStep} {t : Tracking}
      (hg : s.groups[i]? = some g) (hstep : g.tracking.step step = some t)
      (hrunning : t.panicked = false) :
      Moves h s (.finalise i step)
        ((t.notified.drop g.tracking.notified.length).foldl h.notify
          { s with groups := s.groups.set i { g with tracking := t } })
  | newTrackingID : Moves h s .newTrackingID { s with lastID := s.lastID + 1 }

section Inversion

variable {h : ConsumerGroupHandler} {s s' : Session 𝔽} {e : Event 𝔽}

/-- The claim that takes the step. -/
def Event.claim : Event 𝔽 → Option ℕ
  | .reserve i | .claimDone i | .claimClosed i | .receive i _ | .handle i _ | .release i
  | .lock i | .addTrackingMetricGroup i | .store i => some i
  | _ => none

open ConsumerGroupHandler

variable {i : ℕ} {c : Claim 𝔽}

theorem moves_of_handle {result : Except GoString (List (Metric 𝔽))} (hc : s.claims[i]? = some c)
    (hstep : h.claimStep s i c (.handle i result) = some s') : Moves h s (.handle i result) s' := by
  obtain ⟨_, _, _, pc⟩ := c
  cases pc with
  | handling msg =>
    cases hlong : h.tooLong msg with
    | true =>
      obtain rfl := some.inj ((if_pos hlong).symm.trans hstep)
      exact .tooLong hc rfl hlong
    | false =>
      have hshort : ¬h.tooLong msg = true := by simp [hlong]
      cases result with
      | error =>
        obtain rfl := some.inj ((if_neg hshort).symm.trans hstep)
        exact .parseError hc rfl hlong
      | ok =>
        obtain rfl := some.inj ((if_neg hshort).symm.trans hstep)
        exact .parse hc rfl hlong
  | _ => cases hstep

theorem moves_of_claimStep (hc : s.claims[i]? = some c)
    (he : e.claim = some i) (hstep : h.claimStep s i c e = some s') : Moves h s e s' := by
  have hhandle : ∀ result, h.claimStep s i c (.handle i result) = some s' →
      Moves h s (.handle i result) s' := fun _ => moves_of_handle hc
  obtain ⟨_, _, _, pc⟩ := c
  cases e with
  | reserve =>
    cases he
    cases pc with
    | reserving =>
      obtain ⟨hsem, hs'⟩ := ite_none_right_eq_some.1 hstep
      cases hs'
      exact .reserve hc rfl hsem
    | _ => cases hstep
  | claimDone =>
    cases he
    cases pc with
    | reserving | receiving =>
      obtain ⟨-, hs'⟩ := ite_none_right_eq_some.1 hstep
      cases hs'
      exact .claimDone hc (by simp)
    | _ => cases hstep
  | claimClosed =>
    cases he
    cases pc with
    | receiving =>
      cases hstep
      exact .claimClosed hc rfl
    | _ => cases hstep
  | receive =>
    cases he
    cases pc with
    | receiving =>
      obtain ⟨⟨htopic, hpartition, hoffset⟩, hs'⟩ := ite_none_right_eq_some.1 hstep
      cases hs'
      exact .receive hc rfl htopic hpartition hoffset
    | _ => cases hstep
  | handle j result =>
    cases he
    exact hhandle result hstep
  | release =>
    cases he
    cases pc with
    | releasing =>
      obtain ⟨hsem, hs'⟩ := ite_none_right_eq_some.1 hstep
      cases hs'
      exact .release hc rfl hsem
    | _ => cases hstep
  | lock =>
    cases he
    cases pc with
    | parsed =>
      obtain ⟨hmu, hs'⟩ := ite_none_right_eq_some.1 hstep
      cases hs'
      exact .lock hc rfl hmu
    | _ => cases hstep
  | addTrackingMetricGroup =>
    cases he
    cases pc with
    | locked =>
      cases hstep
      exact .addTrackingMetricGroup hc rfl rfl
    | _ => cases hstep
  | store =>
    cases he
    cases pc with
    | tracked =>
      cases hstep
      exact .store hc rfl
    | _ => cases hstep
  | _ => cases he

theorem moves_of_runStep (hstep : runStep s e = some s') : Moves h s e s' := by
  cases hpc : s.run with
  | selecting =>
    cases e with
    | runDone =>
      simp only [runStep, hpc] at hstep
      obtain ⟨-, hs'⟩ := ite_none_right_eq_some.1 hstep
      cases hs'
      exact .runDone hpc
    | take =>
      cases hdelivered : s.delivered with
      | nil => simp [runStep, hpc, hdelivered] at hstep
      | cons =>
        simp only [runStep, hpc, hdelivered] at hstep
        cases hstep
        exact .take hpc hdelivered
    | _ => simp [runStep, hpc] at hstep
  | taken =>
    cases e with
    | runLock =>
      simp only [runStep, hpc] at hstep
      obtain ⟨hmu, hs'⟩ := ite_none_right_eq_some.1 hstep
      cases hs'
      exact .runLock hpc hmu
    | _ => simp [runStep, hpc] at hstep
  | locked track =>
    cases e with
    | onDelivery =>
      simp only [runStep, hpc, onDelivery] at hstep
      cases hget : get s.undelivered track.id with
      | none =>
        rw [hget] at hstep
        cases hstep
        exact .unknown hpc hget
      | some =>
        rw [hget] at hstep
        cases hstep
        exact .onDelivery hpc hget
    | _ => simp [runStep, hpc] at hstep
  | releasing =>
    cases e with
    | runRelease =>
      simp only [runStep, hpc] at hstep
      obtain ⟨hsem, hs'⟩ := ite_none_right_eq_some.1 hstep
      cases hs'
      exact .runRelease hpc hsem
    | _ => simp [runStep, hpc] at hstep
  | returned => cases e <;> simp [runStep, hpc] at hstep

variable {g : Group}

theorem moves_of_finalise {step : TrackingStep} (hg : s.groups[i]? = some g)
    (hstep : h.finalise s i g step = some s') : Moves h s (.finalise i step) s' := by
  obtain ⟨t, ht, hs'⟩ := map_eq_some_iff.1 hstep
  cases hpanicked : t.panicked with
  | true =>
    rw [hpanicked] at hs'
    exact hs' ▸ .negativeRefcount hg ht hpanicked
  | false =>
    rw [hpanicked] at hs'
    exact hs' ▸ .finalise hg ht hpanicked

/-- A step is one of the moves, and comes before any panic. -/
theorem moves_of_step (hstep : h.step s e = some s') : s.panic = none ∧ Moves h s e s' := by
  obtain ⟨hpanic, hstep⟩ := ite_none_left_eq_some.1 hstep
  refine ⟨not_isSome_iff_eq_none.1 hpanic, ?_⟩
  have hclaim : ∀ i, e.claim = some i → (s.claims[i]?.bind fun c => h.claimStep s i c e) = some s' →
      Moves h s e s' := by
    intro i he hbind
    obtain ⟨c, hc, hbind⟩ := bind_eq_some_iff.1 hbind
    exact moves_of_claimStep hc he hbind
  cases e with
  | cancel => exact some.inj hstep ▸ .cancel
  | cleanup =>
    obtain ⟨-, hs'⟩ := ite_none_right_eq_some.1 hstep
    exact some.inj hs' ▸ .cleanup
  | runDone | take | runLock | onDelivery | runRelease => exact moves_of_runStep hstep
  | finalise =>
    obtain ⟨g, hg, hstep⟩ := bind_eq_some_iff.1 hstep
    exact moves_of_finalise hg hstep
  | newTrackingID => exact some.inj hstep ▸ .newTrackingID
  | _ => exact hclaim _ rfl hstep

theorem step_finalise {st : TrackingStep} {t : Tracking}
    (hs : s.panic = none) (hg : s.groups[i]? = some g) (ht : g.tracking.step st = some t)
    (hrunning : t.panicked = false) :
    h.step s (.finalise i st) = some ((t.notified.drop g.tracking.notified.length).foldl h.notify
      { s with groups := s.groups.set i { g with tracking := t } }) := by
  refine (if_neg (by simp [hs])).trans ?_
  show (s.groups[i]?.bind fun g => h.finalise s i g st) = _
  rw [hg, bind_some, finalise, ht, map_some, hrunning]
  rfl

section

variable (infos : List DeliveryInfo) (s : Session 𝔽)

/-- What the deliveries change. -/
theorem foldl_notify :
    ∃ delivered panic,
      infos.foldl h.notify s = { s with delivered := delivered, panic := panic } := by
  induction infos generalizing s with
  | nil => exact ⟨s.delivered, s.panic, rfl⟩
  | cons info infos ih =>
    obtain ⟨delivered, panic, heq⟩ := ih (h.notify s info)
    refine ⟨delivered, panic, heq.trans ?_⟩
    unfold notify
    split <;> rfl

/-- Where there is room in the channel, they are all sent. -/
theorem foldl_notify_of_le (hle : s.delivered.length + infos.length ≤ h.maxUndelivered) :
    infos.foldl h.notify s = { s with delivered := s.delivered ++ infos } := by
  induction infos generalizing s with
  | nil => rw [List.append_nil, List.foldl_nil]
  | cons info infos ih =>
    rw [List.length_cons] at hle
    have hnotify : h.notify s info = { s with delivered := s.delivered ++ [info] } :=
      if_pos (by omega)
    rw [List.foldl_cons, hnotify, ih]
    · simp only [List.append_assoc, List.singleton_append]
    · simp only [List.length_append, List.length_singleton]
      omega

end

end Inversion

/-- The first claim receives a message and tracks its metrics. -/
def trackMessage (offset : ℤ) (metrics : List (Metric Unit)) : List (Event Unit) :=
  [.reserve 0, .receive 0 ⟨[], 0, offset, []⟩, .handle 0 (.ok metrics), .lock 0,
    .addTrackingMetricGroup 0]

/-- Two messages of one metric each are tracked. -/
def trackTwo : List (Event Unit) :=
  trackMessage 1 [Metric.empty (str "m") 0 .untyped] ++ .store 0 ::
    trackMessage 2 [Metric.empty (str "m") 0 .untyped] ++ [.store 0]

/-- The metric of a group is finalised, and the delivery of the group processed. -/
def finaliseGroup (i : ℕ) (outcome : TrackingStep) : List (Event Unit) :=
  [.finalise i outcome, .finalise i (.decr 0), .finalise i (.notify 0), .take, .runLock,
    .onDelivery, .runRelease]

end Telegraf.KafkaConsumer
