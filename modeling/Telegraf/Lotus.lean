import Telegraf.GetTips

/-!
# The lotus input

The goroutines of `Start` in `plugins/inputs/lotus/lotus.go` as one machine : the one that logs the
warnings, the one that gathers with `run`, and the workers that `run` starts, which are the
goroutine of `GetTips`, `processTipSets` and `processBlockHeaders`. The node, the tickers and the
caller of `Stop` are in the labels. The points of a tipset or a header are left out.

`tipsRun_of_run` : the goroutine of `GetTips` takes the steps it takes alone, so what holds along
its runs holds here. `stopped_run_exits` : once `Stop` is called the gathering goroutine ends with
`os.Exit`, since `run` returns no nil error. `warnErr_open_iff` : the gathering goroutine sends on
the channel of the warnings after it is closed, if the node fails after that or a warning is
waiting to be taken.
-/

namespace Telegraf

open Machine List

/-- What `getAPIUsingLotusConfig` fails with. -/
inductive APIError where
  /-- `repo.ErrNoAPIEndpoint`. -/
  | noEndpoint
  | other (err : String)
deriving Repr, DecidableEq

/-- The goroutine that logs the warnings. -/
inductive LoggerPc where
  | select
  | logging
  | returned
deriving Repr, DecidableEq

/-- The goroutine that gathers. -/
inductive GatherPc (T : Type*) where
  /-- In the loop over `nodeCheckPeriod.C`. -/
  | tick
  | getAPI
  /-- Sending on `warnErrors`. -/
  | warn
  | id
  | version (peerID : String)
  | network (peerID apiVersion version commit : String)
  | chainHead
  | chainNotify (chainHead : T)
  | syncIncomingBlocks
  /-- Waiting for the context or a worker. -/
  | select
  /-- `run` has returned. -/
  | ran (err : Option String)
  /-- At the `select` after a nil error. -/
  | again
  /-- Returned by the `ctx.Done` branch. -/
  | left
  /-- At `os.Exit`. -/
  | exiting
  | exited
  | panicked
deriving Repr, DecidableEq

/-- `processTipSets` or `processBlockHeaders`. -/
inductive WorkerPc where
  | starting
  | ticking
  | select
  /-- Sending on `die`. -/
  | dying
  | returned
  | panicked
deriving Repr, DecidableEq

/-- The tags of the `observed_info` point. -/
structure ObservedInfo where
  apiVersion : String
  commit : String
  network : String
  peerID : String
  version : String
deriving Repr, DecidableEq

/-- The goroutines with their channels. `tips` is the goroutine of `GetTips` with its last
height. -/
structure Lotus (T : Type*) where
  ctxDone : Bool
  cctxDone : Bool
  warnClosed : Bool
  logger : LoggerPc
  gather : GatherPc T
  info : List ObservedInfo
  tips : Option (ℤ × GetTips T)
  tipSets : Option WorkerPc
  blockHeaders : Option WorkerPc
  workerDie : ℕ
deriving Repr, DecidableEq

/-- A step of the goroutine that gathers. -/
inductive GatherEvent (T : Type*) where
  | tick
  | getAPI (r : Except APIError Unit)
  | warn
  | id (r : Except String String)
  | version (r : Except String (String × String))
  | network (r : Except String String)
  | chainHead (r : Except String T)
  | chainNotify (r : Except String Unit)
  | syncIncomingBlocks (r : Except String Unit)
  | done
  | workerDie
  | returned
  | again
  | exit

/-- A step of a worker. -/
inductive WorkerEvent (T : Type*) where
  /-- The goroutine of `GetTips`, or the node. -/
  | tips (e : TipsEvent T)
  | start
  | tick
  /-- `processTipSets` receives a tipset, or finds its channel closed. -/
  | tipset
  | tipSetsDone
  | tipSetsDie
  /-- `processBlockHeaders` receives a header, or finds its channel closed. -/
  | header (ok : Bool)
  | blockHeadersDone
  | blockHeadersDie

/-- A step of one of the goroutines, or a call to `Stop`. -/
inductive LotusEvent (T : Type*) where
  | stop
  | loggerDone
  | logged
  | gather (e : GatherEvent T)
  | worker (e : WorkerEvent T)

namespace Lotus

variable {T : Type*} (height : T → ℤ) (throttle : ℤ)

/-- The goroutines that `Start` creates. -/
def start : Lotus T :=
  ⟨false, false, false, .select, .tick, [], none, none, none, 0⟩

/-- The derived context of `run` is cancelled. -/
def closeRpcChans (s : Lotus T) : Lotus T :=
  { s with
    cctxDone := true
    tips := s.tips.map fun tips => (tips.1, { tips.2 with ctxDone := true }) }

/-- `Stop`. -/
def stop (s : Lotus T) : Lotus T :=
  { s.closeRpcChans with ctxDone := true }

/-- `run` returns. -/
def ran (s : Lotus T) (err : Option String) : Lotus T :=
  { s.closeRpcChans with gather := .ran err }

/-- `ctx.Err`. -/
def ctxErr (s : Lotus T) : Option String :=
  if s.ctxDone then some "context canceled" else none

/-- The two tokens of `strings.SplitN(v.Version, "+", 2)`, `none` if there is only one. -/
def versionTokens (version : String) : Option (String × String) :=
  match version.toList.span (· ≠ '+') with
  | (_, []) => none
  | (version, _ :: commit) => some (String.ofList version, String.ofList commit)

/-- The process has ended. -/
def dead (s : Lotus T) : Bool :=
  match s.gather, s.tipSets with
  | .exited, _ | .panicked, _ | _, some .panicked => true
  | _, _ => false

/-- A step of the gathering goroutine : `run` with `recordLotusInfoPoints` and `startWorkers`, and
the loop around it. -/
def gatherStep (s : Lotus T) (e : GatherEvent T) : Option (Lotus T) :=
  match s.gather, e with
  | .tick, .tick => some { s with gather := .getAPI }
  | .getAPI, .getAPI (.ok ()) => some { s with gather := .id }
  | .getAPI, .getAPI (.error .noEndpoint) => some { s with gather := .tick }
  | .getAPI, .getAPI (.error (.other _)) => some { s with gather := .warn }
  | .warn, .warn =>
    if s.warnClosed then some { s with gather := .panicked }
    else
      -- without a buffer the logger has to take the warning
      match s.logger with
      | .select => some { s with logger := .logging, gather := .tick }
      | _ => none
  | .id, .id (.error err) => some (s.ran (some ("Recording lotus info: " ++ err)))
  | .id, .id (.ok peerID) => some { s with gather := .version peerID }
  | .version _, .version (.error err) => some (s.ran (some ("Recording lotus info: " ++ err)))
  | .version peerID, .version (.ok (apiVersion, v)) =>
    match versionTokens v with
    | none => some { s with gather := .panicked }
    | some (version, commit) =>
      some { s with gather := .network peerID apiVersion version commit }
  | .network _ _ _ _, .network (.error err) =>
    some (s.ran (some ("Recording lotus info: " ++ err)))
  | .network peerID apiVersion version commit, .network (.ok network) =>
    some { s with
      info := s.info ++ [⟨apiVersion, commit, network, peerID, version⟩]
      gather := .chainHead }
  | .chainHead, .chainHead (.error err) => some (s.ran (some ("Getting latest chainhead: " ++ err)))
  | .chainHead, .chainHead (.ok chainHead) =>
    some { s with cctxDone := s.ctxDone, gather := .chainNotify chainHead, workerDie := 0 }
  | .chainNotify _, .chainNotify (.error err) =>
    some (s.ran (some ("Run workers: getting tipset notify source: " ++ err)))
  | .chainNotify chainHead, .chainNotify (.ok ()) =>
    some { s with
      tips := some (height chainHead, { GetTips.start 3 with ctxDone := s.cctxDone })
      gather := .syncIncomingBlocks }
  | .syncIncomingBlocks, .syncIncomingBlocks (.error err) =>
    some (s.ran (some ("Run workers: getting blocks notify source: " ++ err)))
  | .syncIncomingBlocks, .syncIncomingBlocks (.ok ()) =>
    some { s with
      tipSets := some .starting
      blockHeaders := some .select
      gather := .select }
  | .select, .done => if s.ctxDone then some (s.ran s.ctxErr) else none
  | .select, .workerDie =>
    if 0 < s.workerDie then
      some { s.ran (some "Service worker closed unexpectedly") with workerDie := s.workerDie - 1 }
    else none
  | .ran (some _), .returned => some { s.stop with gather := .exiting }
  | .ran none, .returned => some { s with gather := .again }
  | .again, .again => some { s with gather := if s.ctxDone then .left else .tick }
  | .exiting, .exit => some { s with gather := .exited }
  | _, _ => none

/-- A step of one of the workers. -/
def workerStep (s : Lotus T) : WorkerEvent T → Option (Lotus T)
  | .tips e =>
    match s.tips, e with
    -- a tipset is sent when `processTipSets` takes it, and the context is that of `run`
    | _, .send | _, .cancel | none, _ => none
    | some (lastHeight, tips), e =>
      (GetTips.step height lastHeight tips e).map fun tips =>
        { s with tips := some (lastHeight, tips) }
  | .start =>
    match s.tipSets with
    -- `NewTicker` panics
    | some .starting =>
      some { s with tipSets := if 0 < throttle then some .ticking else some .panicked }
    | _ => none
  | .tick =>
    match s.tipSets with
    | some .ticking => some { s with tipSets := some .select }
    | _ => none
  | .tipset =>
    match s.tipSets, s.tips with
    | some .select, some (lastHeight, tips) =>
      match tips.pc with
      | .returned => some { s with tipSets := some .dying }
      | _ =>
        (GetTips.step height lastHeight tips .send).map fun tips =>
          { s with tipSets := some .ticking, tips := some (lastHeight, tips) }
    | _, _ => none
  | .tipSetsDone =>
    match s.tipSets with
    | some .select => if s.cctxDone then some { s with tipSets := some .returned } else none
    | _ => none
  | .tipSetsDie =>
    match s.tipSets with
    | some .dying =>
      if s.workerDie < 2 then
        some { s with tipSets := some .returned, workerDie := s.workerDie + 1 }
      else none
    | _ => none
  | .header ok =>
    match s.blockHeaders with
    | some .select => some { s with blockHeaders := if ok then some .select else some .dying }
    | _ => none
  | .blockHeadersDone =>
    match s.blockHeaders with
    | some .select => if s.cctxDone then some { s with blockHeaders := some .returned } else none
    | _ => none
  | .blockHeadersDie =>
    match s.blockHeaders with
    | some .dying =>
      if s.workerDie < 2 then
        some { s with blockHeaders := some .returned, workerDie := s.workerDie + 1 }
      else none
    | _ => none

/-- A step of one of the goroutines as long as the process lives. -/
def step (s : Lotus T) (e : LotusEvent T) : Option (Lotus T) :=
  if s.dead then none
  else
    match e with
    | .stop => some s.stop
    | .loggerDone =>
      match s.logger with
      | .select =>
        if s.ctxDone then some { s with logger := .returned, warnClosed := true } else none
      | _ => none
    | .logged =>
      match s.logger with
      | .logging => some { s with logger := .select }
      | _ => none
    | .gather e => s.gatherStep height e
    | .worker e => s.workerStep height throttle e

/-! ## Steps -/

/-- What a step does. -/
inductive Moves (s : Lotus T) : LotusEvent T → Lotus T → Prop
  | stop : Moves s .stop s.stop
  | loggerDone : Moves s .loggerDone { s with logger := .returned, warnClosed := true }
  | logged : Moves s .logged { s with logger := .select }
  | gather {e s'} (h : s.gatherStep height e = some s') : Moves s (.gather e) s'
  | worker {e s'} (h : s.workerStep height throttle e = some s') : Moves s (.worker e) s'

variable {height throttle} {s s' : Lotus T} {e : LotusEvent T}

theorem moves_of_step (h : step height throttle s e = some s') : Moves height throttle s e s' := by
  obtain ⟨-, h⟩ := Option.ite_none_left_eq_some.1 h
  match e with
  | .stop =>
    cases h
    exact .stop
  | .loggerDone =>
    dsimp only at h
    split at h
    · split_ifs at h
      cases h
      exact .loggerDone
    · cases h
  | .logged =>
    dsimp only at h
    split at h <;> cases h
    exact .logged
  | .gather e => exact .gather h
  | .worker e => exact .worker h

/-- How far the gathering goroutine is from `os.Exit`. -/
def rank : GatherPc T → ℕ
  | .warn | .tick => 11
  | .getAPI => 10
  | .id => 9
  | .version _ => 8
  | .network _ _ _ _ => 7
  | .chainHead => 6
  | .chainNotify _ => 5
  | .syncIncomingBlocks => 4
  | .select => 3
  | .ran _ | .again => 2
  | .exiting => 1
  | .left | .exited | .panicked => 0

/-- A call of the node's API fails. -/
def GatherFails : GatherEvent T → Prop
  | .getAPI (.error _) | .id (.error _) | .version (.error _) | .network (.error _)
  | .chainHead (.error _) | .chainNotify (.error _) | .syncIncomingBlocks (.error _) => True
  | _ => False

/-- Where the gathering goroutine does not come without a failure of the API or a nil error of
`run`. -/
def Aside : GatherPc T → Prop
  | .warn | .ran none | .again | .left => True
  | _ => False

variable (height) in
/-- What a step of the gathering goroutine may do. It closes no channel of the warnings, only
another failure than a missing endpoint makes a warning, and without a failure it comes nearer to
`os.Exit`. -/
structure GatherSpec (s : Lotus T) (e : GatherEvent T) (s' : Lotus T) : Prop where
  warnClosed : s'.warnClosed = s.warnClosed
  ctxDone : s.ctxDone = true → s'.ctxDone = true
  tipSets : s'.tipSets = s.tipSets ∨ s'.tipSets = some .starting
  tips : s'.tips = s.tips ∨ s'.tips = s.closeRpcChans.tips ∨
    ∃ chainHead, s'.tips = some (height chainHead, { GetTips.start 3 with ctxDone := s.cctxDone })
  warn : s'.gather = .warn ↔ ∃ err, e = .getAPI (.error (.other err))
  rank_lt : ¬GatherFails e → ¬Aside s.gather → ¬Aside s'.gather ∧ rank s'.gather < rank s.gather ∧
    (s'.gather = .panicked → ∃ apiVersion v, e = .version (.ok (apiVersion, v)) ∧
      versionTokens v = none)

theorem gatherStep_spec {e : GatherEvent T} (h : s.gatherStep height e = some s') :
    GatherSpec height s e s' := by
  unfold gatherStep at h
  split at h <;> (try split at h) <;> (try split at h) <;> cases h
  all_goals
    refine ⟨rfl, ?_, ?_, ?_, by simp [ran], ?_⟩
    · first | exact id | exact fun _ => rfl
    · first | exact .inl rfl | exact .inr rfl
    · first | exact .inl rfl | exact .inr (.inl rfl) | exact .inr (.inr ⟨_, rfl⟩)
    · simp_all [ran, rank, Aside, GatherFails, ctxErr]

variable (height throttle) in
/-- What a step of a worker may do. It touches the workers only, and `processTipSets` panics
without a throttle. -/
structure WorkerSpec (s : Lotus T) (e : WorkerEvent T) (s' : Lotus T) : Prop where
  gather : s'.gather = s.gather
  warnClosed : s'.warnClosed = s.warnClosed
  ctxDone : s'.ctxDone = s.ctxDone
  tipSets : s'.tipSets = some .panicked → s.tipSets = some .panicked ∨ e = .start ∧ throttle ≤ 0
  tips : s'.tips = s.tips ∨ ∃ lastHeight tips tips' e, s.tips = some (lastHeight, tips) ∧
    GetTips.step height lastHeight tips e = some tips' ∧ s'.tips = some (lastHeight, tips')

theorem workerStep_spec {e : WorkerEvent T} (h : s.workerStep height throttle e = some s') :
    WorkerSpec height throttle s e s' := by
  unfold workerStep at h
  split at h <;> (try split at h) <;> (try split at h)
  all_goals first
    | cases h <;> exact ⟨rfl, rfl, rfl, by simp_all, .inl rfl⟩
    | obtain ⟨_, htips, rfl⟩ := Option.map_eq_some_iff.1 h
      exact ⟨rfl, rfl, rfl, by simp_all, .inr ⟨_, _, _, _, ‹_›, htips, rfl⟩⟩

variable (height) in
/-- Once the context is done only the end of the process keeps the gathering goroutine. -/
theorem exists_gatherStep (hdone : s.ctxDone = true) (haside : ¬Aside s.gather)
    (hexited : s.gather ≠ .exited) (hpanicked : s.gather ≠ .panicked) :
    ∃ e, (s.gatherStep height e).isSome := by
  unfold gatherStep
  match hpc : s.gather with
  | .tick => exact ⟨.tick, rfl⟩
  | .getAPI => exact ⟨.getAPI (.ok ()), rfl⟩
  | .id => exact ⟨.id (.ok ""), rfl⟩
  | .version _ => exact ⟨.version (.error ""), rfl⟩
  | .network _ _ _ _ => exact ⟨.network (.ok ""), rfl⟩
  | .chainHead => exact ⟨.chainHead (.error ""), rfl⟩
  | .chainNotify _ => exact ⟨.chainNotify (.ok ()), rfl⟩
  | .syncIncomingBlocks => exact ⟨.syncIncomingBlocks (.ok ()), rfl⟩
  | .select => exact ⟨.done, by simp [hdone]⟩
  | .ran (some _) => exact ⟨.returned, rfl⟩
  | .exiting => exact ⟨.exit, rfl⟩
  | .warn | .ran none | .again | .left =>
    rw [hpc] at haside
    exact absurd trivial haside
  | .exited => exact absurd hpc hexited
  | .panicked => exact absurd hpc hpanicked

/-! ## The goroutine of GetTips among the others -/

variable (height) in
/-- The goroutine of `GetTips` is in a state of a run of its own. -/
def TipsRun (s : Lotus T) : Prop :=
  ∀ lastHeight tips, s.tips = some (lastHeight, tips) →
    ∃ is, run (GetTips.step height lastHeight) (GetTips.start 3) is = some tips

/-- For the goroutine the end of the context of `run` is a cancellation. -/
theorem TipsRun.closeRpcChans (h : TipsRun height s) : TipsRun height s.closeRpcChans := by
  intro _ _ htips
  obtain ⟨⟨last, t⟩, ht, heq⟩ := Option.map_eq_some_iff.1 htips
  cases heq
  obtain ⟨is, his⟩ := h last t ht
  exact ⟨is ++ [.cancel], by rw [run_snoc, his]; rfl⟩

theorem TipsRun.gather {e : GatherEvent T} (h : TipsRun height s)
    (hstep : s.gatherStep height e = some s') : TipsRun height s' := by
  rcases (gatherStep_spec hstep).tips with heq | heq | ⟨_, heq⟩
  · intro lastHeight tips htips
    exact h lastHeight tips (heq ▸ htips)
  · intro lastHeight tips htips
    exact h.closeRpcChans lastHeight tips (heq ▸ htips)
  · intro lastHeight tips htips
    obtain ⟨rfl, rfl⟩ := Prod.mk.inj (Option.some.inj (heq.symm.trans htips))
    match s.cctxDone with
    | false => exact ⟨[], rfl⟩
    | true => exact ⟨[.cancel], rfl⟩

theorem TipsRun.worker {e : WorkerEvent T} (h : TipsRun height s)
    (hstep : s.workerStep height throttle e = some s') : TipsRun height s' := by
  intro lastHeight tips htips
  rcases (workerStep_spec hstep).tips with heq | ⟨last, t, _, e, ht, hstep, heq⟩
  · exact h lastHeight tips (heq ▸ htips)
  · obtain ⟨rfl, rfl⟩ := Prod.mk.inj (Option.some.inj (heq.symm.trans htips))
    obtain ⟨is, his⟩ := h last t ht
    exact ⟨is ++ [e], by rw [run_snoc, his, Option.bind_some, hstep]⟩

/-- Whatever the other goroutines do, that of `GetTips` runs as it does alone, with a head buffer
of three and the height of the head that `run` found. -/
theorem tipsRun_of_run {is : List (LotusEvent T)}
    (hrun : run (step height throttle) start is = some s) : TipsRun height s := by
  refine run_induction (P := fun _ t => TipsRun height t) ?_ (fun _ t e t' h hstep => ?_)
    hrun
  · intro _ _ htips
    cases htips
  · cases moves_of_step hstep with
    | stop => exact h.closeRpcChans
    | loggerDone | logged => exact h
    | gather hstep => exact h.gather hstep
    | worker hstep => exact h.worker hstep

/-! ## Stop -/

variable (throttle) in
/-- An API call or a worker fails. -/
def Fails : LotusEvent T → Prop
  | .gather e => GatherFails e
  | .worker .start => throttle ≤ 0
  | .worker (.tips .closeNotif) | .worker (.tips (.answer none)) | .worker (.header false) => True
  | _ => False

/-- A step of the gathering goroutine. -/
def isGather : LotusEvent T → Bool
  | .gather _ => true
  | _ => false

/-- The gathering goroutine on its way to `os.Exit`. -/
structure Exiting (is : List (LotusEvent T)) (s : Lotus T) : Prop where
  aside : ¬Aside s.gather
  tipSets : s.tipSets ≠ some .panicked
  ctxDone : .stop ∈ is → s.ctxDone = true
  panicked : s.gather = .panicked → ∃ apiVersion v,
    .gather (.version (.ok (apiVersion, v))) ∈ is ∧ versionTokens v = none
  count_le : is.countP isGather + rank s.gather ≤ 11

section

variable {is : List (LotusEvent T)}

theorem Exiting.of_gather_eq (h : Exiting is s) (he : isGather e = false)
    (hgather : s'.gather = s.gather) (htipSets : s'.tipSets ≠ some .panicked)
    (hctx : .stop ∈ is ∨ .stop = e → s'.ctxDone = true) : Exiting (is ++ [e]) s' where
  aside := by
    rw [hgather]
    exact h.aside
  tipSets := htipSets
  ctxDone := by
    rw [mem_append, mem_singleton]
    exact hctx
  panicked hpanicked := by
    rw [hgather] at hpanicked
    obtain ⟨apiVersion, v, hmem, hv⟩ := h.panicked hpanicked
    exact ⟨apiVersion, v, mem_append_left _ hmem, hv⟩
  count_le := by
    rw [hgather, countP_append, countP_singleton, he]
    exact h.count_le

theorem Exiting.gather {e : GatherEvent T} (h : Exiting is s) (hok : ¬GatherFails e)
    (hstep : s.gatherStep height e = some s') : Exiting (is ++ [.gather e]) s' := by
  have hspec := gatherStep_spec hstep
  obtain ⟨haside, _, hpanicked⟩ := hspec.rank_lt hok h.aside
  refine ⟨haside, ?_, fun hmem => ?_, fun heq => ?_, ?_⟩
  · rcases hspec.tipSets with htipSets | htipSets <;> rw [htipSets]
    · exact h.tipSets
    · exact nofun
  · exact hspec.ctxDone (h.ctxDone ((mem_append.1 hmem).resolve_right (by simp)))
  · obtain ⟨apiVersion, v, rfl, hv⟩ := hpanicked heq
    exact ⟨apiVersion, v, by simp, hv⟩
  · have hcount := h.count_le
    rw [countP_append, countP_singleton]
    simp only [isGather, if_true]
    omega

theorem Exiting.step (h : Exiting is s) (hok : ¬Fails throttle e)
    (hstep : Lotus.step height throttle s e = some s') : Exiting (is ++ [e]) s' := by
  cases moves_of_step hstep with
  | stop => exact h.of_gather_eq rfl rfl h.tipSets fun _ => rfl
  | loggerDone | logged =>
    exact h.of_gather_eq rfl rfl h.tipSets fun hmem => h.ctxDone (hmem.resolve_right nofun)
  | gather hstep => exact h.gather hok hstep
  | worker hstep =>
    have hspec := workerStep_spec hstep
    refine h.of_gather_eq rfl hspec.gather (fun hpanicked => ?_) fun hmem => ?_
    · rcases hspec.tipSets hpanicked with htipSets | ⟨rfl, hthrottle⟩
      · exact h.tipSets htipSets
      · exact hok hthrottle
    · rw [hspec.ctxDone]
      exact h.ctxDone (hmem.resolve_right nofun)

end

theorem versionTokens_eq_none {v : String} : versionTokens v = none ↔ '+' ∉ v.toList := by
  unfold versionTokens
  rw [span_eq_takeWhile_dropWhile]
  split
  · next h =>
    obtain ⟨-, hnil⟩ := Prod.mk.inj h
    rw [dropWhile_eq_nil_iff] at hnil
    exact iff_of_true rfl fun hmem => by simpa using hnil '+' hmem
  · next h =>
    obtain ⟨-, hcons⟩ := Prod.mk.inj h
    have hne : v.toList.dropWhile (· ≠ '+') ≠ [] := by
      rw [hcons]
      exact cons_ne_nil _ _
    rw [ne_eq, dropWhile_eq_nil_iff] at hne
    simpa using hne

/-- When no API call and no worker fails, the gathering goroutine never leaves by the `ctx.Done`
branch of its loop. Once `Stop` is called it takes a few steps more and ends at `os.Exit`, or in a
panic if the node's version has no commit. -/
theorem stopped_run_exits {is : List (LotusEvent T)}
    (hrun : run (step height throttle) start is = some s)
    (hok : ∀ e ∈ is, ¬Fails throttle e) (hstop : .stop ∈ is) :
    s.gather ≠ .left ∧ is.countP isGather ≤ 11 ∧
      ((∀ e, step height throttle s (.gather e) = none) → s.gather = .exited ∨
        s.gather = .panicked ∧ ∃ apiVersion v,
          .gather (.version (.ok (apiVersion, v))) ∈ is ∧ '+' ∉ v.toList) := by
  have hexiting : Exiting is s := by
    refine run_induction (P := fun is t => (∀ e ∈ is, ¬Fails throttle e) → Exiting is t)
      (fun _ => ?_) (fun is t e t' h hstep hok => ?_) hrun hok
    · exact ⟨nofun, nofun, nofun, nofun, Nat.le_refl 11⟩
    · exact (h fun e he => hok e (mem_append_left _ he)).step (hok e (by simp)) hstep
  refine ⟨fun hleft => hexiting.aside (by rw [hleft]; trivial),
    Nat.le_trans (Nat.le_add_right _ _) hexiting.count_le, fun hend => ?_⟩
  by_cases hexited : s.gather = .exited
  · exact .inl hexited
  by_cases hpanicked : s.gather = .panicked
  · obtain ⟨apiVersion, v, hmem, hv⟩ := hexiting.panicked hpanicked
    exact .inr ⟨hpanicked, apiVersion, v, hmem, versionTokens_eq_none.1 hv⟩
  · -- the process still runs, so the goroutine has a step left
    obtain ⟨e, he⟩ :=
      exists_gatherStep height (hexiting.ctxDone hstop) hexiting.aside hexited hpanicked
    have halive : s.dead = false := by
      have htipSets := hexiting.tipSets
      unfold dead
      split <;> simp_all
    have hnone := hend e
    rw [step, halive] at hnone
    change s.gatherStep height e = none at hnone
    rw [hnone] at he
    cases he

/-- The steps of a node that answers, up to the wait for the context or a worker. -/
def answering : List (LotusEvent ℕ) :=
  [.gather .tick, .gather (.getAPI (.ok ())), .gather (.id (.ok "12D3")),
    .gather (.version (.ok ("1.0", "1.2.3+abc"))), .gather (.network (.ok "mainnet")),
    .gather (.chainHead (.ok 7)), .gather (.chainNotify (.ok ())),
    .gather (.syncIncomingBlocks (.ok ()))]

/-- `run` has started the goroutine. -/
theorem tipsRun_of_answering : ∃ s,
    run (step (fun t : ℕ => (t : ℤ)) 1) start answering = some s ∧ s.tips.isSome ∧
      TipsRun (fun t : ℕ => (t : ℤ)) s := by
  refine Exists.imp (fun s hrun => ⟨hrun, ?_, tipsRun_of_run hrun⟩) ⟨_, rfl⟩
  cases hrun
  rfl

/-- `Stop` is called while `run` waits for the node. -/
theorem stopped_run_exits_of_waiting :
    ∃ s, run (step (fun t : ℕ => (t : ℤ)) 1) start
        (.stop :: answering ++ [.gather .done, .gather .returned, .gather .exit]) = some s ∧
      s.gather = .exited ∧ s.gather ≠ .left := by
  refine Exists.imp (fun s hrun => ⟨hrun, ?_⟩) ⟨_, rfl⟩
  have hs : s.gather = .exited := by
    cases hrun
    rfl
  refine ⟨hs, (stopped_run_exits hrun ?_ ?_).1⟩
  · simp [answering, Fails, GatherFails]
  · simp

/-- `Stop` is called while `run` waits for the context, nothing fails, and the process exits. -/
theorem exited_of_stop :
    ∃ s, run (step (fun t : ℕ => (t : ℤ)) 1) start
        (answering ++ [.stop, .gather .done, .gather .returned, .gather .exit]) = some s ∧
      (∀ e ∈ answering ++ [.stop, .gather .done, .gather .returned, .gather .exit],
        ¬Fails 1 e) ∧
      s.gather = .exited := by
  refine ⟨_, rfl, ?_, rfl⟩
  simp [answering, Fails, GatherFails]

/-! ## The channel of the warnings -/

/-- The gathering goroutine sends on a closed channel. -/
def SendsOnClosed (s : Lotus T) : Prop :=
  s.gather = .warn ∧ s.warnClosed = true

/-- The node does not fail with the channel closed, and the logging goroutine does not return with
a warning waiting. -/
def WarnOk (s : Lotus T) : LotusEvent T → Prop
  | .gather (.getAPI (.error (.other _))) => s.warnClosed = false
  | .loggerDone => s.gather ≠ .warn
  | _ => True

instance [DecidableEq T] (s : Lotus T) (e : LotusEvent T) : Decidable (WarnOk s e) := by
  unfold WarnOk
  split <;> infer_instance

theorem warnOk_iff (h : ¬SendsOnClosed s)
    (hstep : step height throttle s e = some s') : ¬SendsOnClosed s' ↔ WarnOk s e := by
  cases moves_of_step hstep with
  | stop | logged => exact ⟨fun _ => trivial, fun _ => h⟩
  | loggerDone => simp [SendsOnClosed, WarnOk]
  | gather hstep =>
    rw [SendsOnClosed, (gatherStep_spec hstep).warn, (gatherStep_spec hstep).warnClosed]
    unfold WarnOk
    constructor
    · intro hno
      split
      · next err heq =>
        cases heq
        exact Bool.eq_false_iff.2 fun hclosed => hno ⟨⟨err, rfl⟩, hclosed⟩
      · next heq => cases heq
      · trivial
    · rintro hok ⟨⟨err, rfl⟩, hclosed⟩
      exact Bool.false_ne_true (hok.symm.trans hclosed)
  | worker hstep =>
    rw [SendsOnClosed, (workerStep_spec hstep).gather, (workerStep_spec hstep).warnClosed]
    exact ⟨fun _ => trivial, fun _ => h⟩

/-- Along a run the gathering goroutine sends no warning after the channel is closed, if and only
if each step of the node and of the logging goroutine leaves it so. -/
theorem warnErr_open_iff {is : List (LotusEvent T)}
    (hrun : run (step height throttle) start is = some s) :
    (∀ pre t, pre <+: is → run (step height throttle) start pre = some t →
      ¬SendsOnClosed t) ↔ AllSteps (step height throttle) WarnOk start is :=
  forall_prefix_iff_allSteps (fun _ _ _ => warnOk_iff) (fun h => nomatch h.1) hrun

/-- The warning of a failing node is taken before `Stop`. -/
theorem warnErr_open_iff_of_logged :
    ∃ s : Lotus ℕ, run (step (fun t : ℕ => (t : ℤ)) 1) start
        [.gather .tick, .gather (.getAPI (.error (.other "refused"))), .gather .warn, .logged,
          .stop, .loggerDone] = some s ∧ s.warnClosed = true ∧ ¬SendsOnClosed s := by
  refine Exists.imp (fun s hrun => ⟨hrun, ?_⟩) ⟨_, rfl⟩
  have hs : s.warnClosed = true := by
    cases hrun
    rfl
  exact ⟨hs, (warnErr_open_iff hrun).2 (by decide) _ s prefix_rfl hrun⟩

/-- `Stop` is called, the logging goroutine closes the channel, and the node fails at the next
tick. -/
theorem panicked_of_closed_warnErr :
    ∃ s s' : Lotus ℕ, run (step (fun t : ℕ => (t : ℤ)) 1) start
        [.stop, .loggerDone, .gather .tick,
          .gather (.getAPI (.error (.other "context canceled")))] = some s ∧
      SendsOnClosed s ∧
      step (fun t : ℕ => (t : ℤ)) 1 s (.gather .warn) = some s' ∧ s'.gather = .panicked :=
  ⟨_, _, rfl, ⟨rfl, rfl⟩, rfl, rfl⟩

end Lotus

end Telegraf
