import Telegraf.KafkaConsumer

/-!
# The capacity of the Kafka consumer

`Reserve` takes a token of the semaphore before a message is received. The token is given back where
the message is not tracked, and otherwise goes with the tracked group until its delivery was
processed, so the channel of the accumulator has room for every group that is tracked. The id of a
group is stored before `Handle` unlocks the mutex, so `onDelivery` finds it even where the group
completes before.

`capacity_suffices` : in every run the tokens in use are at least the tracked groups that were not
yet taken from the channel, no send finds the channel full, and no id is unknown, as long as no
group has `2 ^ 31` references and no id comes twice among the groups that are not yet processed.
-/

open List Option

namespace Telegraf.KafkaConsumer

open KeyedLists Machine ConsumerGroupHandler

variable {𝔽 : Type}

/-! ## Specification -/

/-- The goroutine has a token. -/
def ClaimPC.reserved : ClaimPC 𝔽 → Bool
  | .receiving | .handling _ | .releasing _ | .parsed _ _ | .locked _ _ => true
  | .reserving | .tracked _ _ | .returned => false

/-- The goroutine has the mutex. -/
def ClaimPC.locks : ClaimPC 𝔽 → Bool
  | .locked _ _ | .tracked _ _ => true
  | _ => false

/-- The goroutine of `run` has a token to give back. -/
def RunPC.reserved : RunPC → Bool
  | .taken _ | .locked _ | .releasing => true
  | .selecting | .returned => false

def RunPC.locks : RunPC → Bool
  | .locked _ | .releasing => true
  | .selecting | .taken _ | .returned => false

/-- The goroutine of `run` is about to look up the id. -/
def RunPC.has (id : UInt64) : RunPC → Bool
  | .taken track | .locked track => track.id == id
  | .selecting | .releasing | .returned => false

/-- No delivery of the group was sent. -/
def Group.pending (g : Group) : Bool :=
  g.tracking.notified.isEmpty

/-- The tracked groups that were not yet taken from the channel. -/
def Session.untaken (s : Session 𝔽) : ℕ :=
  s.groups.countP Group.pending + s.delivered.length

/-- How often the id is that of a group whose delivery is not yet processed. -/
def Session.openCount (s : Session 𝔽) (id : UInt64) : ℕ :=
  s.groups.countP (fun g => g.pending && g.tracking.d.id == id) +
    s.delivered.countP (fun track => track.id == id) + (s.run.has id).toNat

/-- A new group is not too large and has an id that no group has whose delivery is not yet
processed, and the references of a group stay few. -/
def Fits (s : Session 𝔽) : Event 𝔽 → Prop
  | .addTrackingMetricGroup i => ∀ c msg metrics, s.claims[i]? = some c →
      c.pc = .locked msg metrics → metrics.length < 2 ^ 31 ∧ s.openCount (s.lastID + 1) = 0
  | .finalise i step => ∀ g, s.groups[i]? = some g → g.tracking.FewHolders step
  | _ => True

/-! ## Deliveries of a group -/

open Session

variable {g : Group}

theorem Group.length_notified_add (hg : g.tracking.Balanced) :
    g.tracking.notified.length + g.pending.toNat = 1 := by
  rw [Group.pending]
  rcases hg.notified_cases with hnil | hinfo
  · rw [hnil]
    rfl
  · rw [hinfo]
    rfl

theorem Group.countP_notified_add (hg : g.tracking.Balanced) (id : UInt64) :
    g.tracking.notified.countP (fun track => track.id == id) +
      (g.pending && g.tracking.d.id == id).toNat = (g.tracking.d.id == id).toNat := by
  rw [Group.pending]
  rcases hg.notified_cases with hnil | hinfo
  · rw [hnil]
    exact Nat.zero_add _
  · rw [hinfo, ← nil_append [_], countP_concat]
    exact (Nat.add_zero _).trans (Nat.zero_add _)

/-! ## The invariant -/

/-- Every token is with a goroutine or a group, the mutex is with at most one goroutine, and every
id that will be looked up is stored, or will be before the mutex is free. -/
structure Sound (h : ConsumerGroupHandler) (s : Session 𝔽) : Prop where
  running : s.panic = none
  known : s.unknown = []
  balanced : ∀ g ∈ s.groups, g.tracking.Balanced
  tokens : s.claims.countP (·.pc.reserved) + s.untaken + s.run.reserved.toNat ≤ s.sem
  sem_le : s.sem ≤ h.maxUndelivered
  mutex : s.claims.countP (·.pc.locks) + s.run.locks.toNat = s.mu.toNat
  unique : ∀ id, s.openCount id ≤ 1
  stored : ∀ id, 0 < s.openCount id →
    (get s.undelivered id).isSome = true ∨ ∃ c ∈ s.claims, ∃ msg, c.pc = .tracked msg id

theorem sound_setup (h : ConsumerGroupHandler) (lastID : UInt64)
    (claims : List (GoString × ℤ × ℤ)) :
    Sound h (setup lastID claims : Session 𝔽) := by
  have hcount : ∀ p : ClaimPC 𝔽 → Bool, p .reserving = false →
      (setup lastID claims : Session 𝔽).claims.countP (fun c => p c.pc) =
        0 := by
    intro p hp
    refine countP_eq_zero.2 fun c hc => ?_
    obtain ⟨x, -, rfl⟩ := mem_map.1 hc
    simp [hp]
  refine ⟨rfl, rfl, by simp [setup], ?_, Nat.zero_le _, ?_,
    fun id => Nat.zero_le 1, fun id hid => absurd hid (lt_irrefl 0)⟩
  · rw [hcount _ rfl]
    exact Nat.le_refl 0
  · rw [hcount _ rfl]
    rfl

section Steps

variable {h : ConsumerGroupHandler} {s s' : Session 𝔽} {e : Event 𝔽}

section

variable (hs : Sound h s)

include hs

variable {marked : List Message} {i : ℕ} {c c' : Claim 𝔽} {sem : ℕ} {mu : Bool}

/-- A goroutine of `ConsumeClaim` goes on, with its token and the mutex accounted for. -/
theorem Sound.set_claim {errors : List GoString} (hc : s.claims[i]? = some c)
    (hsem : c'.pc.reserved.toNat + s.sem ≤ sem + c.pc.reserved.toNat) (hle : sem ≤ h.maxUndelivered)
    (hmu : mu.toNat + c.pc.locks.toNat = s.mu.toNat + c'.pc.locks.toNat)
    (htracked : ∀ msg id, c.pc ≠ .tracked msg id) :
    Sound h { s with
      claims := s.claims.set i c', sem := sem, mu := mu, marked := marked, errors := errors } where
  running := hs.running
  known := hs.known
  balanced := hs.balanced
  tokens := by
    have hcount := countP_set_add hc c' fun c => c.pc.reserved
    have htokens := hs.tokens
    show (s.claims.set i c').countP _ + s.untaken + s.run.reserved.toNat ≤ sem
    omega
  sem_le := hle
  mutex := by
    have hcount := countP_set_add hc c' fun c => c.pc.locks
    have hmutex := hs.mutex
    show (s.claims.set i c').countP _ + s.run.locks.toNat = mu.toNat
    omega
  unique := hs.unique
  stored := by
    intro id hid
    refine (hs.stored id hid).imp_right ?_
    rintro ⟨d, hd, msg, hpc⟩
    rcases mem_set_or_eq hc c' hd with hd | rfl
    · exact ⟨d, hd, msg, hpc⟩
    · exact absurd hpc (htracked msg id)

/-- A goroutine of `ConsumeClaim` goes on and keeps its token, or leaves it in the semaphore. -/
theorem Sound.set_pc
    (hc : s.claims[i]? = some c) (hreserved : c'.pc.reserved.toNat ≤ c.pc.reserved.toNat)
    (hlocks : c'.pc.locks = c.pc.locks) (htracked : ∀ msg id, c.pc ≠ .tracked msg id) :
    Sound h { s with claims := s.claims.set i c', marked := marked } :=
  hs.set_claim hc (by omega) hs.sem_le (by rw [hlocks]) htracked

variable {msg : Message} {c : Claim 𝔽}

theorem Sound.store {id : UInt64} (hc : s.claims[i]? = some c) (hpc : c.pc = .tracked msg id) :
    Sound h { s with
      mu := false
      undelivered := upsert id (fun _ => msg) s.undelivered
      claims := s.setPC i c .reserving } where
  running := hs.running
  known := hs.known
  balanced := hs.balanced
  tokens := by
    have hcount := countP_set_add hc { c with pc := .reserving } fun c => c.pc.reserved
    rw [hpc] at hcount
    exact (Nat.add_right_cancel hcount).symm ▸ hs.tokens
  sem_le := hs.sem_le
  mutex := by
    have hcount := countP_set_add hc { c with pc := .reserving } fun c => c.pc.locks
    rw [hpc] at hcount
    have hmutex := hs.mutex
    have hmu := s.mu.toNat_le
    show (s.claims.set i _).countP (·.pc.locks) + s.run.locks.toNat = 0
    change _ + 1 = _ + 0 at hcount
    omega
  unique := hs.unique
  stored := by
    intro id' hid'
    by_cases hne : id' = id
    · exact .inl (by rw [get_upsert, if_pos hne]; rfl)
    · refine (hs.stored id' hid').imp (fun hget => ?_) ?_
      · rw [get_upsert, if_neg hne]
        exact hget
      · rintro ⟨d, hd, msg', hpc'⟩
        rcases mem_set_or_eq hc { c with pc := .reserving } hd with hd | rfl
        · exact ⟨d, hd, msg', hpc'⟩
        · rw [hpc] at hpc'
          exact absurd (ClaimPC.tracked.inj hpc').2.symm hne

/-- A group is tracked, and the token of the goroutine goes with it. -/
theorem Sound.addTrackingMetricGroup {metrics : List (Metric 𝔽)} {t : Tracking}
    (hc : s.claims[i]? = some c) (hpc : c.pc = .locked msg metrics)
    (ht : t = newTrackingMetricGroup (s.lastID + 1) metrics.length) (hfew : metrics.length < 2 ^ 31)
    (hfresh : s.openCount (s.lastID + 1) = 0) :
    Sound h (t.notified.foldl h.notify { s with
      lastID := s.lastID + 1
      groups := s.groups ++ [⟨msg, t⟩]
      claims := s.setPC i c (.tracked msg (s.lastID + 1)) }) := by
  have hbalanced : t.Balanced := ht ▸ Tracking.balanced_newTrackingMetricGroup _ hfew
  have hid : t.d.id = s.lastID + 1 := by rw [ht, Tracking.d_newTrackingMetricGroup]
  have hreserved := countP_set_add hc { c with pc := .tracked msg (s.lastID + 1) }
    fun c => c.pc.reserved
  have hlocks := countP_set_add hc { c with pc := .tracked msg (s.lastID + 1) } fun c => c.pc.locks
  rw [hpc] at hreserved hlocks
  change _ + 1 = _ + 0 at hreserved
  have htokens := hs.tokens
  have hle := hs.sem_le
  rw [untaken] at htokens
  -- either the group is pending, or its delivery is sent at once
  have hone := Group.length_notified_add (g := ⟨msg, t⟩) hbalanced
  have hids := Group.countP_notified_add (g := ⟨msg, t⟩) hbalanced
  rw [hid] at hids
  dsimp only at hone
  rw [foldl_notify_of_le _ _ (by dsimp only; omega)]
  have hopen : ∀ id, openCount { s with
      lastID := s.lastID + 1
      groups := s.groups ++ [⟨msg, t⟩]
      claims := s.setPC i c (.tracked msg (s.lastID + 1))
      delivered := s.delivered ++ t.notified } id =
        s.openCount id + (s.lastID + 1 == id).toNat := by
    intro id
    have hgroups := countP_concat s.groups ⟨msg, t⟩ fun g => g.pending && g.tracking.d.id == id
    rw [hid] at hgroups
    simp only [openCount, hgroups, countP_append, ← hids id]
    omega
  refine ⟨hs.running, hs.known, ?_, ?_, hs.sem_le, ?_, fun id => ?_, fun id hpos => ?_⟩
  · intro g hg
    rcases mem_append.1 hg with hg | hg
    · exact hs.balanced g hg
    · rw [mem_singleton.1 hg]
      exact hbalanced
  · simp only [untaken, setPC, countP_concat, length_append]
    omega
  · exact (Nat.add_right_cancel hlocks).symm ▸ hs.mutex
  · rw [hopen]
    by_cases heq : s.lastID + 1 = id
    · rw [← heq, hfresh]
      simp
    · rw [beq_eq_false_iff_ne.2 heq]
      exact hs.unique id
  · rw [hopen] at hpos
    by_cases heq : s.lastID + 1 = id
    · exact .inr ⟨_, mem_set_self hc _, msg, congrArg _ heq⟩
    · rw [beq_eq_false_iff_ne.2 heq] at hpos
      refine (hs.stored id hpos).imp_right ?_
      rintro ⟨d, hd, msg', hpc'⟩
      rcases mem_set_or_eq hc { c with pc := .tracked msg (s.lastID + 1) } hd with hd | rfl
      · exact ⟨d, hd, msg', hpc'⟩
      · rw [hpc] at hpc'
        cases hpc'

/-- The goroutine of `run` goes on with the id that it has. -/
theorem Sound.set_run {run : RunPC} (hsem : run.reserved.toNat + s.sem ≤ sem + s.run.reserved.toNat)
    (hle : sem ≤ h.maxUndelivered)
    (hmu : mu.toNat + s.run.locks.toNat = s.mu.toNat + run.locks.toNat)
    (hhas : ∀ id, run.has id = s.run.has id) :
    Sound h { s with run := run, sem := sem, mu := mu } where
  running := hs.running
  known := hs.known
  balanced := hs.balanced
  tokens := by
    have htokens := hs.tokens
    show s.claims.countP _ + s.untaken + run.reserved.toNat ≤ sem
    omega
  sem_le := hle
  mutex := by
    have hmutex := hs.mutex
    show s.claims.countP _ + run.locks.toNat = mu.toNat
    omega
  unique := fun id => by
    show _ + _ + (run.has id).toNat ≤ 1
    rw [hhas]
    exact hs.unique id
  stored := fun id hid => by
    change 0 < _ + _ + (run.has id).toNat at hid
    rw [hhas] at hid
    exact hs.stored id hid

variable {track : DeliveryInfo}

theorem Sound.take {rest : List DeliveryInfo}
    (hpc : s.run = .selecting) (hdelivered : s.delivered = track :: rest) :
    Sound h { s with run := .taken track, delivered := rest } := by
  have hopen : ∀ id, openCount { s with run := .taken track, delivered := rest } id =
      s.openCount id := by
    intro id
    simp only [openCount, hpc, hdelivered, countP_cons, RunPC.has]
    cases track.id == id with
    | true => exact Nat.add_assoc _ _ 1
    | false => rfl
  refine ⟨hs.running, hs.known, hs.balanced, ?_, hs.sem_le, ?_, fun id => hopen id ▸ hs.unique id,
    fun id hid => hs.stored id (hopen id ▸ hid)⟩
  · have htokens := hs.tokens
    simp only [untaken, hpc, hdelivered, length_cons, RunPC.reserved,
      Bool.toNat_false, Bool.toNat_true] at htokens ⊢
    omega
  · have hmutex := hs.mutex
    rw [hpc] at hmutex
    exact hmutex

/-- The id that is looked up is there, since the goroutine that stores it has the mutex. -/
theorem Sound.get_ne_none (hpc : s.run = .locked track) :
    (get s.undelivered track.id).isSome = true := by
  have hpos : 0 < s.openCount track.id := by
    rw [openCount, hpc]
    simp [RunPC.has]
  refine (hs.stored track.id hpos).resolve_right ?_
  rintro ⟨c, hc, _, hlocked⟩
  have hmutex := hs.mutex
  have hmu := s.mu.toNat_le
  have hcount : 0 < s.claims.countP (·.pc.locks) := countP_pos_iff.2 ⟨c, hc, by rw [hlocked]; rfl⟩
  rw [hpc] at hmutex
  change _ + 1 = _ at hmutex
  omega

theorem Sound.onDelivery (hpc : s.run = .locked track) :
    Sound h { s with
      marked := marked
      undelivered := s.undelivered.filter fun e => e.1 != track.id
      run := .releasing } := by
  have hopen : ∀ id, openCount { s with
      marked := marked
      undelivered := s.undelivered.filter fun e => e.1 != track.id
      run := .releasing } id + (track.id == id).toNat = s.openCount id := by
    intro id
    simp only [openCount, hpc, RunPC.has]
    rfl
  refine ⟨hs.running, hs.known, hs.balanced, ?_, hs.sem_le, ?_, fun id => ?_, fun id hid => ?_⟩
  · have htokens := hs.tokens
    rw [hpc] at htokens
    exact htokens
  · have hmutex := hs.mutex
    rw [hpc] at hmutex
    exact hmutex
  · exact (Nat.le_add_right _ _).trans ((hopen id).trans_le (hs.unique id))
  · -- the id was open once, so it is no longer
    have hne : track.id ≠ id := by
      rintro rfl
      have hunique := (hopen track.id).trans_le (hs.unique track.id)
      rw [beq_self_eq_true, Bool.toNat_true] at hunique
      omega
    refine (hs.stored id (hid.trans_le ((Nat.le_add_right _ _).trans (hopen id).le))).imp_left
      fun hget => ?_
    rw [get_filter_ne, if_neg hne.symm]
    exact hget

end

/-- A handle of a group takes a step. If it is the last one, the group is no longer pending, and its
delivery is in the channel. -/
theorem Sound.finalise (hs : Sound h s) {i : ℕ} {step : TrackingStep} {t : Tracking}
    (hg : s.groups[i]? = some g) (hstep : g.tracking.step step = some t)
    (hfew : g.tracking.FewHolders step) :
    Sound h ((t.notified.drop g.tracking.notified.length).foldl h.notify
      { s with groups := s.groups.set i { g with tracking := t } }) := by
  have hold := hs.balanced g (mem_of_getElem? hg)
  have hnew : t.Balanced := Tracking.balanced_step hold hfew hstep
  obtain ⟨hid, hnotified⟩ := Tracking.step_notified hstep
  obtain ⟨sent, hsent⟩ : ∃ sent, t.notified = g.tracking.notified ++ sent := by
    rcases hnotified with heq | heq
    · exact ⟨[], by rw [heq, append_nil]⟩
    · exact ⟨_, heq⟩
  have hpending := countP_set_add hg { g with tracking := t } Group.pending
  have htokens := hs.tokens
  have hle := hs.sem_le
  rw [untaken] at htokens
  -- what is sent is what was pending
  have hlen := Group.length_notified_add hold
  have hlen' := Group.length_notified_add (g := { g with tracking := t }) hnew
  rw [hsent, length_append] at hlen'
  have hids : ∀ id, sent.countP (fun track => track.id == id) +
      (Group.pending { g with tracking := t } && t.d.id == id).toNat =
        (g.pending && g.tracking.d.id == id).toNat := by
    intro id
    have hcount := Group.countP_notified_add hold id
    have hcount' := Group.countP_notified_add (g := { g with tracking := t }) hnew id
    rw [hsent, countP_append, hid] at hcount'
    rw [hid]
    omega
  have hdrop : t.notified.drop g.tracking.notified.length = sent := by
    rw [hsent, drop_left]
  rw [hdrop, foldl_notify_of_le _ _ (by dsimp only; omega)]
  have hopen : ∀ id, openCount { s with
      groups := s.groups.set i { g with tracking := t }
      delivered := s.delivered ++ sent } id = s.openCount id := by
    intro id
    have hgroups := countP_set_add hg { g with tracking := t }
      fun g => g.pending && g.tracking.d.id == id
    have hsum := hids id
    dsimp only at hgroups
    simp only [openCount, countP_append]
    omega
  refine ⟨hs.running, hs.known, ?_, ?_, hs.sem_le, hs.mutex, fun id => hopen id ▸ hs.unique id,
    fun id hpos => hs.stored id (hopen id ▸ hpos)⟩
  · intro g' hg'
    rcases mem_or_eq_of_mem_set hg' with hg' | rfl
    · exact hs.balanced g' hg'
    · exact hnew
  · simp only [untaken, length_append]
    omega

theorem Sound.step (hs : Sound h s) (hfits : Fits s e) (hmoves : Moves h s e s') : Sound h s' := by
  have hle := hs.sem_le
  cases hmoves with
  | cancel | cleanup | newTrackingID =>
    exact ⟨hs.running, hs.known, hs.balanced, hs.tokens, hle, hs.mutex, hs.unique, hs.stored⟩
  | reserve hc hpc hsem =>
    refine hs.set_claim hc ?_ hsem ?_ (by simp [hpc])
    · rw [hpc]
      exact (Nat.add_comm _ _).le
    · rw [hpc]
      rfl
  | claimDone hc hpc =>
    rcases hpc with hpc | hpc
    · exact hs.set_pc hc (Nat.zero_le _) (by rw [hpc]; rfl) (by simp [hpc])
    · exact hs.set_pc hc (Nat.zero_le _) (by rw [hpc]; rfl) (by simp [hpc])
  | claimClosed hc hpc =>
    exact hs.set_pc hc (Nat.zero_le _) (by rw [hpc]; rfl) (by simp [hpc])
  | receive hc hpc | tooLong hc hpc | parseError hc hpc | parse hc hpc =>
    exact hs.set_pc hc (by rw [hpc]; exact Nat.le_refl 1) (by rw [hpc]; rfl) (by simp [hpc])
  | release hc hpc =>
    refine hs.set_claim hc ?_ ((Nat.sub_le _ _).trans hle) ?_ (by simp [hpc])
    · rw [hpc]
      change 0 + s.sem ≤ s.sem - 1 + 1
      omega
    · rw [hpc]
      rfl
  | lock hc hpc hmu =>
    refine hs.set_claim hc ?_ hle ?_ (by simp [hpc])
    · rw [hpc]
      exact (Nat.add_comm _ _).le
    · rw [hpc, hmu]
      rfl
  | addTrackingMetricGroup hc hpc ht =>
    obtain ⟨hfew, hfresh⟩ := hfits _ _ _ hc hpc
    exact hs.addTrackingMetricGroup hc hpc ht hfew hfresh
  | store hc hpc => exact hs.store hc hpc
  | runDone hpc =>
    exact hs.set_run (by rw [hpc]; exact (Nat.add_comm _ _).le) hle (by rw [hpc]; rfl)
      (by rw [hpc]; exact fun _ => rfl)
  | take hpc hdelivered => exact hs.take hpc hdelivered
  | runLock hpc hmu =>
    exact hs.set_run (by rw [hpc]; exact (Nat.add_comm _ _).le) hle (by rw [hpc, hmu]; rfl)
      (by rw [hpc]; exact fun _ => rfl)
  | unknown hpc hget =>
    have hsome := hs.get_ne_none hpc
    rw [hget] at hsome
    cases hsome
  | onDelivery hpc => exact hs.onDelivery hpc
  | runRelease hpc =>
    refine hs.set_run ?_ ((Nat.sub_le _ _).trans hle) ?_ (by rw [hpc]; exact fun _ => rfl)
    · rw [hpc]
      change 0 + s.sem ≤ s.sem - 1 + 1
      omega
    · have hmutex := hs.mutex
      have hmu := s.mu.toNat_le
      rw [hpc] at hmutex ⊢
      change _ + 1 = _ at hmutex
      change 0 + 1 = _ + 0
      omega
  | negativeRefcount hg hstep hpanicked =>
    have hbalanced := Tracking.balanced_step (hs.balanced _ (mem_of_getElem? hg)) (hfits _ hg) hstep
    rw [hbalanced.running] at hpanicked
    cases hpanicked
  | finalise hg hstep => exact hs.finalise hg hstep (hfits _ hg)

end Steps

/-! ## Runs -/

/-- In every interleaving of any number of claims with `run` and with the completion of the groups,
the tokens in use are at least the groups that were not yet taken from the channel, nothing panics
and every id is known. -/
theorem capacity_suffices (h : ConsumerGroupHandler) (lastID : UInt64)
    (claims : List (GoString × ℤ × ℤ)) {es : List (Event 𝔽)} {s : Session 𝔽}
    (hfits : AllSteps h.step Fits (setup lastID claims) es)
    (hrun : Machine.run h.step (setup lastID claims) es = some s) :
    s.untaken ≤ s.sem ∧ s.sem ≤ h.maxUndelivered ∧ s.panic = none ∧ s.unknown = [] := by
  have hs : Sound h s := run_induction_of_allSteps (P := fun _ => Sound h)
    (fun _ _ _ _ hs hfit hstep => hs.step hfit (moves_of_step hstep).2) es [] _ s
    (sound_setup h lastID claims) hfits hrun
  have htokens := hs.tokens
  exact ⟨by omega, hs.sem_le, hs.running, hs.known⟩

/-- Two messages of one metric each are tracked, and the second one is delivered first. -/
theorem capacity_suffices_two_groups :
    ∃ s : Session Unit,
      Machine.run (step ⟨0, [], 2⟩) (setup 0 [([], 0, 0)])
        (trackTwo ++ finaliseGroup 1 (.accept 0)) = some s ∧
      s.groups.length = 2 ∧ s.untaken = 1 ∧ s.untaken ≤ s.sem ∧ s.sem ≤ 2 ∧ s.panic = none ∧
      s.unknown = [] := by
  have hfits : AllSteps (step ⟨0, [], 2⟩) Fits (setup 0 [([], 0, 0)])
      (trackTwo ++ finaliseGroup 1 (.accept 0)) := by
    iterate 4
      refine ⟨trivial, fun s hs => ?_⟩
      cases hs
    refine ⟨fun c msg metrics hc hpc => ?_, fun s hs => ?_⟩
    · cases hc
      cases hpc
      exact ⟨by decide, by decide +kernel⟩
    cases hs
    iterate 5
      refine ⟨trivial, fun s hs => ?_⟩
      cases hs
    refine ⟨fun c msg metrics hc hpc => ?_, fun s hs => ?_⟩
    · cases hc
      cases hpc
      exact ⟨by decide, by decide +kernel⟩
    cases hs
    refine ⟨trivial, fun s hs => ?_⟩
    cases hs
    iterate 3
      refine ⟨fun _ _ => trivial, fun s hs => ?_⟩
      cases hs
    iterate 4
      refine ⟨trivial, fun s hs => ?_⟩
      cases hs
    trivial
  exact ⟨_, rfl, rfl, by decide +kernel, capacity_suffices ⟨0, [], 2⟩ 0 [([], 0, 0)] hfits rfl⟩

/-- Other inputs take tracking ids. -/
theorem run_newTrackingID (h : ConsumerGroupHandler) {s : Session 𝔽} (hs : s.panic = none) (n : ℕ) :
    Machine.run h.step s (List.replicate n .newTrackingID) =
      some { s with lastID := s.lastID + UInt64.ofNat n } := by
  induction n generalizing s with
  | zero => simp
  | succ n ih =>
    have hstep : h.step s .newTrackingID = some { s with lastID := s.lastID + 1 } :=
      if_neg (by simp [hs])
    rw [replicate_succ, run_cons, hstep, bind_some]
    have hid : s.lastID + 1 + UInt64.ofNat n = s.lastID + UInt64.ofNat (n + 1) := by
      rw [UInt64.ofNat_add, UInt64.add_comm (UInt64.ofNat n), ← UInt64.add_assoc]
      rfl
    rw [← hid]
    exact @ih { s with lastID := s.lastID + 1 } hs

/-- A session with one group. -/
def oneGroup (t : Tracking) (delivered : List DeliveryInfo) : Session Unit :=
  { (setup 1 [] : Session Unit) with
    claims := [⟨[], 0, 1, .tracked ⟨[], 0, 1, []⟩ 1⟩]
    sem := 1
    mu := true
    groups := [⟨⟨[], 0, 1, []⟩, t⟩]
    delivered := delivered }

/-- A group whose number of metrics is one more than a multiple of `2 ^ 32` starts with one
reference, and is delivered a first time by one of its metrics, and a second time after a copy. -/
theorem panic_of_wrapped_count (m₁ m₂ : Metric Unit) (rest : List (Metric Unit))
    (hlen : Int32.ofNat (rest.length + 2) = 1) :
    ∃ (es : List (Event Unit)) (s : Session Unit),
      Machine.run (step ⟨0, [], 1⟩)
        (setup 0 [([], 0, 0)]) es = some s ∧ s.panic = some .channelFull := by
  obtain ⟨l, hl⟩ : ∃ l, l = replicate rest.length HandleState.live := ⟨_, rfl⟩
  have hgroup : newTrackingMetricGroup 1 (rest.length + 2) =
      ⟨⟨1, 1, 0, 0⟩, .live :: .live :: l, [], false⟩ := by
    have hd := Tracking.d_newTrackingMetricGroup 1 (rest.length + 2)
    rw [hlen] at hd
    rw [← hd, hl]
    rfl
  have htrack : Machine.run (step ⟨0, [], 1⟩)
      (setup 0 [([], 0, 0)]) (trackMessage 1 (m₁ :: m₂ :: rest)) =
      some (oneGroup (newTrackingMetricGroup 1 (rest.length + 2)) []) := rfl
  have hcopy : (0 : Int32) + 1 = 1 := by decide
  refine ⟨trackMessage 1 (m₁ :: m₂ :: rest) ++ [.finalise 0 (.drop 0), .finalise 0 (.notify 0),
    .finalise 0 (.copy 1), .finalise 0 (.drop 1), .finalise 0 (.notify 1)], ?_⟩
  rw [run_append, htrack, hgroup, bind_some]
  -- the first metric is dropped
  rw [run_cons, step_finalise rfl rfl (Tracking.step_drop_of_rc rfl rfl rfl) rfl, bind_some]
  rw [run_cons, step_finalise rfl rfl rfl rfl, bind_some]
  -- a copy of the second one is made, and the second one dropped
  rw [run_cons, step_finalise rfl rfl rfl rfl, bind_some]
  rw [run_cons, step_finalise rfl rfl (Tracking.step_drop_of_rc rfl hcopy rfl) rfl, bind_some]
  rw [run_cons, step_finalise rfl rfl rfl rfl, bind_some]
  exact ⟨_, rfl, rfl⟩

/-- After `2 ^ 64 - 1` other ids a second group gets the id of a first one that is not delivered
yet, and takes its entry in the map. -/
theorem unknown_of_wrapped_id (m : Metric Unit) :
    ∃ (es : List (Event Unit)) (s : Session Unit),
      Machine.run (step ⟨0, [], 2⟩) (setup 0 [([], 0, 0)]) es = some s ∧ s.unknown = [1] := by
  refine ⟨(trackMessage 1 [m] ++ [.store 0]) ++ (replicate (2 ^ 64 - 1) .newTrackingID ++
    (trackMessage 2 [] ++ [.store 0, .take, .runLock, .onDelivery, .runRelease,
      .finalise 0 (.drop 0), .finalise 0 (.notify 0), .take, .runLock, .onDelivery])), ?_⟩
  have htrack : Machine.run (step ⟨0, [], 2⟩)
      (setup 0 [([], 0, 0)]) (trackMessage 1 [m] ++ [.store 0]) =
      some { (setup 1 [] : Session Unit) with
        claims := [⟨[], 0, 1, .reserving⟩]
        sem := 1
        undelivered := [(1, ⟨[], 0, 1, []⟩)]
        groups := [⟨⟨[], 0, 1, []⟩, newTrackingMetricGroup 1 1⟩] } := rfl
  rw [run_append, htrack, bind_some, run_append, run_newTrackingID _ rfl]
  exact ⟨_, rfl, rfl⟩

/-- The counters wrap. -/
theorem capacity_of_wrapped_counters :
    (∃ (es : List (Event Unit)) (s : Session Unit),
      Machine.run (step ⟨0, [], 1⟩)
        (setup 0 [([], 0, 0)]) es = some s ∧ s.panic = some .channelFull) ∧
    ∃ (es : List (Event Unit)) (s : Session Unit),
      Machine.run (step ⟨0, [], 2⟩) (setup 0 [([], 0, 0)]) es = some s ∧ s.unknown = [1] := by
  have m : Metric Unit := Metric.empty [] 0 .untyped
  refine ⟨panic_of_wrapped_count m m (replicate (2 ^ 32 - 1) m) ?_, unknown_of_wrapped_id m⟩
  rw [length_replicate]
  decide

end Telegraf.KafkaConsumer
