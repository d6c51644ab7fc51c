import Telegraf.KafkaConsumer

/-!
# The offsets of the Kafka consumer

`MarkMessage` commits a position : with a message all messages of its partition at or below its
offset count as consumed. `onDelivery` marks the message of each delivered group, in the order in
which the groups complete, and `Handle` marks a message that is too long at once.

`atLeastOnce_iff` : no message whose group is rejected or still undelivered lies at or below the
committed position, if and only if every message is marked after the groups of all earlier messages
of its partition are delivered.
-/

open List hiding get getElem?_eq_some_iff

namespace Telegraf.KafkaConsumer

open KeyedLists Machine Option ConsumerGroupHandler

variable {𝔽 : Type}

/-! ## Specification -/

/-- The message has parsed and is not yet tracked. -/
def ClaimPC.waiting : ClaimPC 𝔽 → Option Message
  | .parsed msg _ | .locked msg _ => some msg
  | _ => none

/-- The group was delivered. -/
def Group.acknowledged (g : Group) : Bool :=
  g.tracking.notified.any DeliveryInfo.delivered

/-- The message has parsed, and its metrics are rejected or not yet delivered. -/
def Session.Unacknowledged (s : Session 𝔽) (m : Message) : Prop :=
  (∃ c ∈ s.claims, c.pc.waiting = some m) ∨ ∃ g ∈ s.groups, g.msg = m ∧ g.acknowledged = false

/-- The largest offset of a partition that was passed to `MarkMessage`. -/
def Session.committed (s : Session 𝔽) (topic : GoString) (partition : ℤ) : Option ℤ :=
  ((s.marked.filter fun m => m.topic = topic ∧ m.partition = partition).map Message.offset).max?

/-- A session that starts after the committed positions receives every unacknowledged message
again. -/
def AtLeastOnce (s : Session 𝔽) : Prop :=
  ∀ m, s.Unacknowledged m → ∀ offset, s.committed m.topic m.partition = some offset →
    offset < m.offset

def ClaimPC.handled : ClaimPC 𝔽 → Option Message
  | .handling msg => some msg
  | _ => none

/-- The message that the step passes to `MarkMessage`. -/
def marks (h : ConsumerGroupHandler) (s : Session 𝔽) : Event 𝔽 → Option Message
  | .handle i _ => (s.claims[i]?.bind fun c => c.pc.handled).filter h.tooLong
  | .onDelivery =>
    match s.run with
    | .locked track => if track.delivered then get s.undelivered track.id else none
    | _ => none
  | _ => none

/-- A message is marked when no message of its partition with an offset up to its own is
unacknowledged. -/
def InOrder (h : ConsumerGroupHandler) (s : Session 𝔽) (e : Event 𝔽) : Prop :=
  ∀ msg, marks h s e = some msg → ∀ m, s.Unacknowledged m → m.topic = msg.topic →
    m.partition = msg.partition → msg.offset < m.offset

theorem atLeastOnce_iff_marked (s : Session 𝔽) :
    AtLeastOnce s ↔ ∀ m, s.Unacknowledged m → ∀ m' ∈ s.marked, m.topic = m'.topic →
      m.partition = m'.partition → m'.offset < m.offset := by
  constructor
  · intro h m hm m' hm' htopic hpartition
    have hmem : m'.offset ∈ (s.marked.filter fun x =>
        x.topic = m.topic ∧ x.partition = m.partition).map Message.offset :=
      mem_map_of_mem (mem_filter.2 ⟨hm', by simp [htopic, hpartition]⟩)
    obtain ⟨offset, hoffset⟩ := isSome_iff_exists.1 (isSome_max?_of_mem hmem)
    exact Int.lt_of_le_of_lt ((max?_eq_some_iff.1 hoffset).2 _ hmem) (h m hm offset hoffset)
  · intro h m hm offset hoffset
    obtain ⟨m', hm', rfl⟩ := mem_map.1 (max?_eq_some_iff.1 hoffset).1
    obtain ⟨hmem, hsame⟩ := mem_filter.1 hm'
    obtain ⟨htopic, hpartition⟩ := of_decide_eq_true hsame
    exact h m hm m' hmem htopic.symm hpartition.symm

/-! ## Positions -/

/-- The message that the goroutine handles, until it is stored. -/
def ClaimPC.current : ClaimPC 𝔽 → Option Message
  | .handling msg | .parsed msg _ | .locked msg _ | .tracked msg _ => some msg
  | _ => none

/-- The messages of the claim below it are settled. -/
def Claim.next (c : Claim 𝔽) : ℤ :=
  if c.pc.current.isSome then c.position else c.position + 1

theorem Claim.next_le (c : Claim 𝔽) : c.next ≤ c.position + 1 := by
  unfold Claim.next
  split <;> omega

/-- The message is marked, or stored to be marked. -/
def Session.Settled (s : Session 𝔽) (m : Message) : Prop :=
  m ∈ s.marked ∨ ∃ id, get s.undelivered id = some m

/-- The claims are of different partitions, and receive their messages in the order of the
offsets. -/
structure Positioned (s : Session 𝔽) : Prop where
  nodup : (s.claims.map fun c => (c.topic, c.partition)).Nodup
  current : ∀ c ∈ s.claims, ∀ msg, c.pc.current = some msg →
    msg.topic = c.topic ∧ msg.partition = c.partition ∧ msg.offset = c.position
  settled : ∀ c ∈ s.claims, ∀ m, s.Settled m → m.topic = c.topic → m.partition = c.partition →
    m.offset < c.next

theorem positioned_setup {lastID : UInt64} {claims : List (GoString × ℤ × ℤ)}
    (hclaims : (claims.map fun c => (c.1, c.2.1)).Nodup) :
    Positioned (setup lastID claims : Session 𝔽) := by
  refine ⟨?_, fun c hc msg hmsg => ?_, fun c _ m hm => ?_⟩
  · simpa [setup, Function.comp_def] using hclaims
  · obtain ⟨x, -, rfl⟩ := mem_map.1 hc
    cases hmsg
  · rcases hm with hm | ⟨_, hid⟩
    · cases hm
    · cases hid

section Steps

variable {h : ConsumerGroupHandler} {s s' : Session 𝔽} {e : Event 𝔽}

theorem Positioned.of_claims (hs : Positioned s) (hclaims : s'.claims = s.claims)
    (hsettled : ∀ m, s'.Settled m → s.Settled m) : Positioned s' := by
  refine ⟨hclaims ▸ hs.nodup, hclaims ▸ hs.current, fun c hc m hm => ?_⟩
  exact hs.settled c (hclaims ▸ hc) m (hsettled m hm)

variable {i : ℕ}

/-- A step of one claim, which may settle the message that it handles. -/
theorem Positioned.set_claim (hs : Positioned s) {c c' : Claim 𝔽}
    (hc : s.claims[i]? = some c) (hclaims : s'.claims = s.claims.set i c')
    (htopic : c'.topic = c.topic) (hpartition : c'.partition = c.partition)
    (hcurrent : ∀ msg, c'.pc.current = some msg →
      msg.topic = c.topic ∧ msg.partition = c.partition ∧ msg.offset = c'.position)
    (hnext : c.next ≤ c'.next)
    (hsettled : ∀ m, s'.Settled m → s.Settled m ∨ c.pc.current = some m ∧ c.position < c'.next) :
    Positioned s' := by
  have hmem := mem_of_getElem? hc
  refine ⟨?_, fun d hd msg hmsg => ?_, fun d hd m hm hmtopic hmpartition => ?_⟩
  · rw [hclaims, map_set, htopic, hpartition]
    have hsame : (s.claims.map fun c => (c.topic, c.partition))[i]? =
        some (c.topic, c.partition) := by
      rw [getElem?_map, hc]
      rfl
    obtain ⟨hlt, hget⟩ := List.getElem?_eq_some_iff.1 hsame
    rw [← hget, set_getElem_self]
    exact hs.nodup
  · rw [hclaims] at hd
    rcases getElem?_of_mem_set hd with rfl | ⟨j, -, hj⟩
    · rw [htopic, hpartition]
      exact hcurrent msg hmsg
    · exact hs.current d (mem_of_getElem? hj) msg hmsg
  · rw [hclaims] at hd
    rcases getElem?_of_mem_set hd with rfl | ⟨j, hji, hj⟩
    · rw [htopic] at hmtopic
      rw [hpartition] at hmpartition
      rcases hsettled m hm with hm | ⟨hm, hlt⟩
      · exact Int.lt_of_lt_of_le (hs.settled c hmem m hm hmtopic hmpartition) hnext
      · rw [(hs.current c hmem m hm).2.2]
        exact hlt
    · rcases hsettled m hm with hm | ⟨hm, -⟩
      · exact hs.settled d (mem_of_getElem? hj) m hm hmtopic hmpartition
      · -- the message is of the claim that takes the step
        obtain ⟨hctopic, hcpartition, -⟩ := hs.current c hmem m hm
        have hlt : j < (s.claims.map fun c => (c.topic, c.partition)).length := by
          rw [length_map]
          exact (List.getElem?_eq_some_iff.1 hj).1
        refine absurd ((getElem?_inj hlt hs.nodup).1 ?_) hji
        rw [getElem?_map, getElem?_map, hj, hc, map_some, map_some,
          ← hmtopic, ← hmpartition, hctopic, hcpartition]

variable {c : Claim 𝔽} {pc : ClaimPC 𝔽}

theorem Positioned.set_pc (hs : Positioned s)
    (hc : s.claims[i]? = some c) (hclaims : s'.claims = s.setPC i c pc)
    (hmarked : s'.marked = s.marked) (hundelivered : s'.undelivered = s.undelivered)
    (hcurrent : ∀ msg, pc.current = some msg → c.pc.current = some msg) : Positioned s' := by
  refine hs.set_claim hc hclaims rfl rfl (fun msg hmsg => ?_) ?_ fun m hm => .inl ?_
  · exact hs.current c (mem_of_getElem? hc) msg (hcurrent msg hmsg)
  · cases hpc : pc.current with
    | none =>
      have hnext : Claim.next { c with pc := pc } = c.position + 1 := by simp [Claim.next, hpc]
      rw [hnext]
      exact c.next_le
    | some msg => simp [Claim.next, hpc, hcurrent msg hpc]
  · rw [Session.Settled, hmarked, hundelivered] at hm
    exact hm

variable {msg : Message}

/-- A step of one claim that settles the message that it handles. -/
theorem Positioned.settle (hs : Positioned s)
    (hc : s.claims[i]? = some c) (hclaims : s'.claims = s.setPC i c pc)
    (hmsg : c.pc.current = some msg) (hpc : pc.current = none)
    (hsettled : ∀ m, s'.Settled m → s.Settled m ∨ m = msg) : Positioned s' := by
  have hnext : Claim.next { c with pc := pc } = c.position + 1 := by
    simp [Claim.next, hpc]
  refine hs.set_claim hc hclaims rfl rfl (fun m hm => ?_) ?_ fun m hm => ?_
  · rw [show pc.current = some m from hm] at hpc
    cases hpc
  · rw [hnext]
    exact c.next_le
  · rw [hnext]
    refine (hsettled m hm).imp_right fun heq => ?_
    rw [heq]
    exact ⟨hmsg, Int.lt_succ c.position⟩

theorem Positioned.step (hs : Positioned s) (hmoves : Moves h s e s') : Positioned s' := by
  cases hmoves with
  | cancel | cleanup | newTrackingID => exact hs.of_claims rfl fun _ => id
  | reserve hc | claimDone hc | claimClosed hc | release hc =>
    exact hs.set_pc hc rfl rfl rfl nofun
  | parseError hc => exact hs.set_pc hc rfl rfl rfl nofun
  | parse hc hpc | lock hc hpc => exact hs.set_pc hc rfl rfl rfl fun _ hmsg => hpc ▸ hmsg
  | receive hc hpc htopic hpartition hoffset =>
    refine hs.set_claim hc rfl rfl rfl (fun msg hmsg => ?_) ?_ fun m hm => .inl hm
    · cases hmsg
      exact ⟨htopic, hpartition, rfl⟩
    · rw [Claim.next, hpc]
      exact hoffset
  | tooLong hc hpc =>
    refine hs.settle hc rfl (by rw [hpc]; rfl) rfl fun m hm => ?_
    rcases hm with hm | hm
    · rcases mem_append.1 hm with hm | hm
      · exact .inl (.inl hm)
      · exact .inr (mem_singleton.1 hm)
    · exact .inl (.inr hm)
  | addTrackingMetricGroup hc hpc =>
    obtain ⟨delivered, panic, heq⟩ := foldl_notify _ _
    rw [heq]
    exact hs.set_pc hc rfl rfl rfl fun _ hmsg => hpc ▸ hmsg
  | store hc hpc =>
    refine hs.settle hc rfl (by rw [hpc]; rfl) rfl fun m hm => ?_
    rcases hm with hm | ⟨id, hid⟩
    · exact .inl (.inl hm)
    · rw [get_upsert] at hid
      split_ifs at hid
      · exact .inr (some.inj hid).symm
      · exact .inl (.inr ⟨id, hid⟩)
  | runDone | take | runLock | unknown | runRelease | negativeRefcount =>
    exact hs.of_claims rfl fun _ => id
  | onDelivery hpc hget =>
    refine hs.of_claims rfl fun m hm => ?_
    rcases hm with hm | ⟨id, hid⟩
    · dsimp only at hm
      split_ifs at hm
      · rcases mem_append.1 hm with hm | hm
        · exact .inl hm
        · rw [mem_singleton.1 hm]
          exact .inr ⟨_, hget⟩
      · exact .inl hm
    · rw [get_filter_ne] at hid
      split_ifs at hid
      exact .inr ⟨id, hid⟩
  | finalise =>
    obtain ⟨delivered, panic, heq⟩ := foldl_notify _ _
    rw [heq]
    exact hs.of_claims rfl fun _ => id

/-! ## Acknowledgements -/

theorem marks_handle {result : Except GoString (List (Metric 𝔽))} (hc : s.claims[i]? = some c)
    (hpc : c.pc = .handling msg) :
    marks h s (.handle i result) = if h.tooLong msg = true then some msg else none := by
  rw [marks, hc, bind_some, hpc, ClaimPC.handled, filter_some]

theorem marked_of_moves (hmoves : Moves h s e s') :
    s'.marked = s.marked ++ (marks h s e).toList := by
  cases hmoves with
  | tooLong hc hpc hlong => simp [marks_handle hc hpc, hlong]
  | parseError hc hpc hshort | parse hc hpc hshort => simp [marks_handle hc hpc, hshort]
  | unknown hpc hget => simp [marks, hpc, hget]
  | @onDelivery track msg hpc hget =>
    cases hdelivered : track.delivered <;> simp [marks, hpc, hget, hdelivered]
  | addTrackingMetricGroup | finalise =>
    obtain ⟨delivered, _, heq⟩ := foldl_notify _ _
    rw [heq]
    exact (append_nil _).symm
  | _ => exact (append_nil _).symm

/-- After a step of one claim only the message that it waits with may be new. -/
theorem unacknowledged_set (s : Session 𝔽) {c' : Claim 𝔽} {m : Message}
    (hm : s'.Unacknowledged m) (hclaims : s'.claims = s.claims.set i c')
    (hgroups : s'.groups = s.groups) : s.Unacknowledged m ∨ c'.pc.waiting = some m := by
  rcases hm with ⟨c, hc, hwaiting⟩ | hm
  · rw [hclaims] at hc
    rcases mem_or_eq_of_mem_set hc with hc | rfl
    · exact .inl (.inl ⟨c, hc, hwaiting⟩)
    · exact .inr hwaiting
  · exact .inl (.inr (hgroups ▸ hm))

theorem Group.acknowledged_of_step {g : Group} {st : TrackingStep} {t : Tracking}
    (hstep : g.tracking.step st = some t) (hg : g.acknowledged = true) :
    Group.acknowledged { g with tracking := t } = true := by
  obtain ⟨info, hinfo, hdelivered⟩ := any_eq_true.1 hg
  refine any_eq_true.2 ⟨info, ?_, hdelivered⟩
  rcases (Tracking.step_notified hstep).2 with heq | heq
  · exact heq ▸ hinfo
  · exact heq ▸ mem_append_left _ hinfo

/-- A message that is newly unacknowledged is one that a claim has just parsed. -/
theorem unacknowledged_of_moves (hmoves : Moves h s e s') {m : Message} (hm : s'.Unacknowledged m) :
    s.Unacknowledged m ∨ marks h s e = none ∧ ∃ c ∈ s.claims, c.pc = .handling m := by
  cases hmoves with
  | cancel | cleanup | newTrackingID => exact .inl hm
  | reserve | claimDone | claimClosed | receive | tooLong | parseError | release | store =>
    exact .inl ((unacknowledged_set s hm rfl rfl).resolve_right nofun)
  | parse hc hpc hshort =>
    refine (unacknowledged_set s hm rfl rfl).imp_right fun hwaiting => ?_
    cases hwaiting
    exact ⟨by simp [marks_handle hc hpc, hshort], _, mem_of_getElem? hc, hpc⟩
  | lock hc hpc =>
    rcases unacknowledged_set s hm rfl rfl with hm | hwaiting
    · exact .inl hm
    · exact .inl (.inl ⟨_, mem_of_getElem? hc, hpc ▸ hwaiting⟩)
  | addTrackingMetricGroup hc hpc =>
    obtain ⟨delivered, panic, heq⟩ := foldl_notify _ _
    rw [heq] at hm
    rcases hm with ⟨c, hc', hwaiting⟩ | ⟨g, hg, rfl, hack⟩
    · rcases mem_or_eq_of_mem_set hc' with hc' | rfl
      · exact .inl (.inl ⟨c, hc', hwaiting⟩)
      · cases hwaiting
    · rcases mem_append.1 hg with hg | hg
      · exact .inl (.inr ⟨g, hg, rfl, hack⟩)
      · -- the claim was waiting with the message of the new group
        obtain rfl := mem_singleton.1 hg
        exact .inl (.inl ⟨_, mem_of_getElem? hc, by rw [hpc]; rfl⟩)
  | runDone | take | runLock | unknown | onDelivery | runRelease | negativeRefcount =>
    exact .inl hm
  | finalise hg hstep =>
    obtain ⟨delivered, panic, heq⟩ := foldl_notify _ _
    rw [heq] at hm
    rcases hm with hm | ⟨g', hg', rfl, hack⟩
    · exact .inl (.inl hm)
    · rcases mem_or_eq_of_mem_set hg' with hg' | rfl
      · exact .inl (.inr ⟨g', hg', rfl, hack⟩)
      · refine .inl (.inr ⟨_, mem_of_getElem? hg, rfl, ?_⟩)
        by_contra htrue
        rw [Group.acknowledged_of_step hstep (Bool.not_eq_false _ ▸ htrue)] at hack
        cases hack

/-- A step that marks a message acknowledges nothing. -/
theorem unacknowledged_of_marks (hmoves : Moves h s e s') {msg m : Message}
    (hmarks : marks h s e = some msg) (hm : s.Unacknowledged m) : s'.Unacknowledged m := by
  cases hmoves with
  | tooLong hc hpc =>
    rcases hm with ⟨c, hc', hwaiting⟩ | hm
    · rcases mem_set_or_eq hc _ hc' with hc' | rfl
      · exact .inl ⟨c, hc', hwaiting⟩
      · rw [hpc] at hwaiting
        cases hwaiting
    · exact .inr hm
  | parseError hc hpc hshort | parse hc hpc hshort =>
    simp [marks_handle hc hpc, hshort] at hmarks
  | unknown | onDelivery => exact hm
  | _ => cases hmarks

/-- What one step does to the property. -/
theorem atLeastOnce_step (hs : Positioned s) (hsafe : AtLeastOnce s) (hmoves : Moves h s e s') :
    AtLeastOnce s' ↔ InOrder h s e := by
  rw [atLeastOnce_iff_marked] at hsafe ⊢
  have hmarked := marked_of_moves hmoves
  constructor
  · intro hsafe' msg hmsg m hm htopic hpartition
    refine hsafe' m (unacknowledged_of_marks hmoves hmsg hm) msg ?_ htopic hpartition
    rw [hmarked, hmsg]
    exact mem_append_right _ mem_cons_self
  · intro horder m hm m' hm' htopic hpartition
    rw [hmarked] at hm'
    rcases unacknowledged_of_moves hmoves hm with hm | ⟨hnone, c, hc, hpc⟩
    · rcases mem_append.1 hm' with hm' | hm'
      · exact hsafe m hm m' hm' htopic hpartition
      · exact horder m' (mem_toList.1 hm') m hm htopic hpartition
    · -- the message was received after every one that is marked
      rw [hnone, toList_none, append_nil] at hm'
      have hcurrent : c.pc.current = some m := by rw [hpc]; rfl
      obtain ⟨hctopic, hcpartition, hoffset⟩ := hs.current c hc m hcurrent
      have hlt := hs.settled c hc m' (.inl hm') (htopic.symm.trans hctopic)
        (hpartition.symm.trans hcpartition)
      rw [Claim.next, hcurrent] at hlt
      rw [hoffset]
      exact hlt

end Steps

/-- In every state of a run every message that parsed and is rejected or undelivered lies above the
committed position, if and only if the messages are marked in order. -/
theorem atLeastOnce_iff (h : ConsumerGroupHandler) {lastID : UInt64}
    {claims : List (GoString × ℤ × ℤ)} (hclaims : (claims.map fun c => (c.1, c.2.1)).Nodup)
    {es : List (Event 𝔽)} {s : Session 𝔽}
    (hrun : Machine.run h.step (setup lastID claims) es = some s) :
    (∀ pre t, pre <+: es →
      Machine.run h.step (setup lastID claims) pre = some t → AtLeastOnce t) ↔
      AllSteps h.step (InOrder h) (setup lastID claims) es := by
  have h₀ : Positioned (setup lastID claims : Session 𝔽) :=
    positioned_setup hclaims
  have hpositioned : ∀ pre (t : Session 𝔽),
      Machine.run h.step (setup lastID claims) pre = some t → Positioned t :=
    fun pre t ht => run_induction (P := fun _ => Positioned) h₀
      (fun _ _ _ _ hs hstep => hs.step (moves_of_step hstep).2) ht
  have hsafe₀ : AtLeastOnce (setup lastID claims : Session 𝔽) :=
    fun _ _ _ hcommitted => nomatch hcommitted
  have hiff : (∀ pre t, pre <+: es →
      Machine.run h.step (setup lastID claims) pre = some t →
        Positioned t ∧ AtLeastOnce t) ↔
      AllSteps h.step (InOrder h) (setup lastID claims) es := by
    refine forall_prefix_iff_allSteps ?_ ⟨h₀, hsafe₀⟩ hrun
    rintro t e _ ⟨ht, hsafe⟩ hstep
    have hmoves := (moves_of_step hstep).2
    rw [and_iff_right (ht.step hmoves)]
    exact atLeastOnce_step ht hsafe hmoves
  rw [← hiff]
  exact forall₄_congr fun pre t _ ht => (and_iff_right (hpositioned pre t ht)).symm

/-- What is committed, and which groups are delivered. -/
def Session.summary (s : Session 𝔽) : Option ℤ × List (ℤ × Bool) :=
  (s.committed [] 0, s.groups.map fun g => (g.msg.offset, g.acknowledged))

/-- Two messages of one metric each are delivered and marked one after the other. -/
theorem atLeastOnce_in_order :
    (Machine.run (step ⟨0, [], 2⟩) (setup 0 [([], 0, 0)])
        (trackTwo ++ finaliseGroup 0 (.accept 0) ++ finaliseGroup 1 (.accept 0))).map
          Session.summary = some (some 2, [(1, true), (2, true)]) ∧
      ∀ pre t, pre <+: trackTwo ++ finaliseGroup 0 (.accept 0) ++ finaliseGroup 1 (.accept 0) →
        Machine.run (step ⟨0, [], 2⟩) (setup 0 [([], 0, 0)]) pre = some t → AtLeastOnce t := by
  have hclaims : (([([], 0, 0)] : List (GoString × ℤ × ℤ)).map fun c => (c.1, c.2.1)).Nodup :=
    nodup_singleton _
  refine ⟨rfl, (atLeastOnce_iff ⟨0, [], 2⟩ hclaims rfl).2 ?_⟩
  iterate 17
    refine ⟨nofun, fun s hs => ?_⟩
    cases hs
  -- the first message is marked, the second one is above it
  refine ⟨fun msg hmsg m hm _ _ => ?_, fun s hs => ?_⟩
  · cases hmsg
    rcases hm with ⟨c, hc, hwaiting⟩ | ⟨g, hg, rfl, hack⟩
    · obtain rfl := mem_singleton.1 hc
      cases hwaiting
    · rcases mem_pair.1 hg with rfl | rfl
      · cases hack
      · decide
  cases hs
  iterate 6
    refine ⟨nofun, fun s hs => ?_⟩
    cases hs
  -- the second message is marked, no other one is left
  refine ⟨fun msg hmsg m hm => ?_, fun s hs => ⟨nofun, fun _ _ => trivial⟩⟩
  rcases hm with ⟨c, hc, hwaiting⟩ | ⟨g, hg, -, hack⟩
  · obtain rfl := mem_singleton.1 hc
    cases hwaiting
  · rcases mem_pair.1 hg with rfl | rfl <;> cases hack

/-- The second of two messages is delivered and marked while the first one is on its way, or after
the first one was rejected. -/
theorem committed_past_undelivered :
    (Machine.run (step ⟨0, [], 2⟩) (setup 0 [([], 0, 0)])
        (trackTwo ++ finaliseGroup 1 (.accept 0))).map Session.summary =
      some (some 2, [(1, false), (2, true)]) ∧
    (Machine.run (step ⟨0, [], 2⟩) (setup 0 [([], 0, 0)])
        (trackTwo ++ finaliseGroup 0 (.reject 0) ++ finaliseGroup 1 (.accept 0))).map
          Session.summary =
      some (some 2, [(1, false), (2, true)]) := by
  decide +kernel

end Telegraf.KafkaConsumer
