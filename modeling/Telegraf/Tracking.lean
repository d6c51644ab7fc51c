import Telegraf.Machine

/-!
# Delivery tracking

The tracking of a group of metrics (`metric/tracking.go`). The handles of a group, its
original metrics and their copies, share a `trackingData` with three `int32` counters.
`Copy` takes a reference, `Accept`, `Reject` and `Drop` give it back, the first two after
counting the outcome, and whoever gives back the last one calls `notifyFunc`.

Every `atomic.AddInt32` is a step of its own, and a schedule is a list of steps of any
handles. As long as fewer than `2 ^ 31` handles hold a reference, `rc` is their number
in every state, so the last one is noticed exactly once, after all outcomes are counted.
-/

namespace Telegraf

open Machine Int32 List

/-- How a handle is finalised. -/
inductive Outcome where
  | accept
  | reject
  | drop
deriving Repr, DecidableEq

/-- Where the goroutine that finalises a handle stands. -/
inductive HandleState where
  | live
  /-- `acceptCount` or `rejectCount` was incremented, `rc` not yet decremented. -/
  | counted (outcome : Outcome)
  /-- `rc` reached zero, `notifyFunc` was not yet called. -/
  | notifying (outcome : Outcome)
  | done (outcome : Outcome)
deriving Repr, DecidableEq

namespace HandleState

/-- The handle still holds its reference. -/
def holds : HandleState → Bool
  | live | counted _ => true
  | notifying _ | done _ => false

/-- The handle's goroutine is about to call `notifyFunc`. -/
def notifies : HandleState → Bool
  | notifying _ => true
  | live | counted _ | done _ => false

/-- `o` is the outcome of the handle. -/
def hasOutcome (o : Outcome) : HandleState → Bool
  | live => false
  | counted o' | notifying o' | done o' => o' == o

end HandleState

/-- What `notifyFunc` receives (`deliveryInfo`). -/
structure DeliveryInfo where
  id : UInt64
  accepted : ℤ
  rejected : ℤ
deriving Repr, DecidableEq

/-- `deliveryInfo.Delivered`. -/
def DeliveryInfo.delivered (r : DeliveryInfo) : Bool :=
  r.rejected == 0

/-- The shared counters (`trackingData`). -/
structure TrackingData where
  id : UInt64
  rc : Int32
  acceptCount : Int32
  rejectCount : Int32
deriving Repr, DecidableEq

namespace TrackingData

section

variable (d : TrackingData)

def incr : TrackingData :=
  { d with rc := d.rc + 1 }

def decr : TrackingData × Int32 :=
  ({ d with rc := d.rc + -1 }, d.rc + -1)

def accept : TrackingData :=
  { d with acceptCount := d.acceptCount + 1 }

def reject : TrackingData :=
  { d with rejectCount := d.rejectCount + 1 }

theorem id_decr : d.decr.1.id = d.id := by
  cases d
  rfl

/-- The argument of `notifyFunc` in `notify`. -/
def deliveryInfo : DeliveryInfo :=
  ⟨d.id, d.acceptCount.toInt, d.rejectCount.toInt⟩

end

end TrackingData

/-- A group of handles, and the calls of `notifyFunc` so far. -/
structure Tracking where
  d : TrackingData
  handles : List HandleState
  notified : List DeliveryInfo
  /-- A goroutine found a negative count. -/
  panicked : Bool
deriving Repr, DecidableEq

/-- An atomic step of the goroutine that has the handle of that number. -/
inductive TrackingStep where
  | copy (handle : ℕ)
  | accept (handle : ℕ)
  | reject (handle : ℕ)
  | drop (handle : ℕ)
  | decr (handle : ℕ)
  | notify (handle : ℕ)
deriving Repr, DecidableEq

/-- `newTrackingMetric`. -/
def newTrackingMetric (id : UInt64) : Tracking :=
  ⟨⟨id, 1, 0, 0⟩, [.live], [], false⟩

/-- `newTrackingMetricGroup` for a group of `n` metrics. -/
def newTrackingMetricGroup (id : UInt64) (n : ℕ) : Tracking :=
  let d := TrackingData.incr^[n] ⟨id, 0, 0, 0⟩
  ⟨d, replicate n .live, if n = 0 then [d.deliveryInfo] else [], false⟩

namespace Tracking

section

variable (s : Tracking)

/-- `trackingMetric.decr` up to the call of `notify`. -/
def decr (i : ℕ) (outcome : Outcome) : Tracking :=
  let (d, v) := s.d.decr
  if v < 0 then { s with d := d, panicked := true }
  else if v = 0 then { s with d := d, handles := s.handles.set i (.notifying outcome) }
  else { s with d := d, handles := s.handles.set i (.done outcome) }

/-- One atomic step. `Copy` is called on handles that hold their reference, and a handle is
finalised once. -/
def step : TrackingStep → Option Tracking
  | .copy i =>
    match s.panicked, s.handles[i]? with
    | false, some .live | false, some (.counted _) =>
      some { s with d := s.d.incr, handles := s.handles ++ [.live] }
    | _, _ => none
  | .accept i =>
    match s.panicked, s.handles[i]? with
    | false, some .live =>
      some { s with d := s.d.accept, handles := s.handles.set i (.counted .accept) }
    | _, _ => none
  | .reject i =>
    match s.panicked, s.handles[i]? with
    | false, some .live =>
      some { s with d := s.d.reject, handles := s.handles.set i (.counted .reject) }
    | _, _ => none
  | .drop i =>
    match s.panicked, s.handles[i]? with
    | false, some .live => some (s.decr i .drop)
    | _, _ => none
  | .decr i =>
    match s.panicked, s.handles[i]? with
    | false, some (.counted outcome) => some (s.decr i outcome)
    | _, _ => none
  | .notify i =>
    match s.panicked, s.handles[i]? with
    | false, some (.notifying outcome) =>
      some { s with handles := s.handles.set i (.done outcome)
                    notified := s.notified ++ [s.d.deliveryInfo] }
    | _, _ => none

/-- Number of handles that hold a reference. -/
def holders : ℕ :=
  s.handles.countP HandleState.holds

def notifiers : ℕ :=
  s.handles.countP HandleState.notifies

/-- Number of handles with outcome `o`. -/
def outcomes (o : Outcome) : ℕ :=
  s.handles.countP (HandleState.hasOutcome o)

/-- Every handle was finalised. -/
def Finished : Prop :=
  ∀ h ∈ s.handles, ∃ o, h = .done o

/-- A copy keeps the number of references below `2 ^ 31`. -/
def FewHolders : TrackingStep → Prop
  | .copy _ => s.holders + 1 < 2 ^ 31
  | _ => True

end

instance (s : Tracking) : ∀ st, Decidable (FewHolders s st)
  | .copy _ => inferInstanceAs (Decidable (_ < _))
  | .accept _ | .reject _ | .drop _ | .decr _ | .notify _ => isTrue trivial

/-! ## The invariant -/

/-- The counters count, and the group is notified when the last reference is gone. -/
structure Balanced (s : Tracking) : Prop where
  running : s.panicked = false
  few : s.holders < 2 ^ 31
  rc : s.d.rc = ofNat s.holders
  acceptCount : s.d.acceptCount = ofNat (s.outcomes .accept)
  rejectCount : s.d.rejectCount = ofNat (s.outcomes .reject)
  waiting : 0 < s.holders → s.notifiers = 0 ∧ s.notified = []
  last : s.holders = 0 → s.notifiers + s.notified.length = 1
  info : ∀ info ∈ s.notified, info = s.d.deliveryInfo

theorem incr_iterate (id : UInt64) : ∀ n : ℕ,
    TrackingData.incr^[n] ⟨id, 0, 0, 0⟩ = ⟨id, ofNat n, 0, 0⟩
  | 0 => rfl
  | n + 1 => by
    rw [Function.iterate_succ_apply', incr_iterate id n, TrackingData.incr, ofNat_add]
    rfl

theorem balanced_newTrackingMetric (id : UInt64) : Balanced (newTrackingMetric id) where
  running := rfl
  few := Nat.one_lt_two_pow (by decide)
  rc := rfl
  acceptCount := rfl
  rejectCount := rfl
  waiting := fun _ => ⟨rfl, rfl⟩
  last := fun h => absurd h Nat.one_ne_zero
  info := by simp [newTrackingMetric]

theorem d_newTrackingMetricGroup (id : UInt64) (n : ℕ) :
    (newTrackingMetricGroup id n).d = ⟨id, ofNat n, 0, 0⟩ :=
  incr_iterate id n

theorem getElem?_newTrackingMetricGroup (id : UInt64) {i n : ℕ} (hi : i < n) :
    (newTrackingMetricGroup id n).handles[i]? = some .live :=
  getElem?_replicate_of_lt hi

theorem balanced_newTrackingMetricGroup (id : UInt64) {n : ℕ} (hn : n < 2 ^ 31) :
    Balanced (newTrackingMetricGroup id n) := by
  have hholders : (newTrackingMetricGroup id n).holders = n := by
    simp [holders, newTrackingMetricGroup, countP_replicate, HandleState.holds]
  have hd := d_newTrackingMetricGroup id n
  have hcount : ∀ p : HandleState → Bool, p .live = false →
      (newTrackingMetricGroup id n).handles.countP p = 0 := by
    intro p hp
    simp [newTrackingMetricGroup, hp]
  refine ⟨rfl, by rwa [hholders], by rw [hd, hholders], ?_, ?_, fun h => ⟨hcount _ rfl, ?_⟩,
    fun h => ?_, ?_⟩
  · rw [hd, outcomes, hcount _ rfl]
    rfl
  · rw [hd, outcomes, hcount _ rfl]
    rfl
  · rw [hholders] at h
    simp [newTrackingMetricGroup, h.ne']
  · rw [hholders] at h
    rw [notifiers, hcount _ rfl]
    simp [newTrackingMetricGroup, h]
  · intro _ _
    by_cases hn0 : n = 0 <;> simp_all [newTrackingMetricGroup]

section Steps

variable {s : Tracking} {i : ℕ} {h : HandleState}

theorem holders_pos (hi : s.handles[i]? = some h) (hh : h.holds = true) : 0 < s.holders :=
  countP_pos_iff.2 ⟨h, mem_of_getElem? hi, hh⟩

theorem balanced_copy (hs : Balanced s) (hfew : s.holders + 1 < 2 ^ 31)
    (hi : s.handles[i]? = some h) (hh : h.holds = true) :
    Balanced { s with d := s.d.incr, handles := s.handles ++ [.live] } := by
  have hcount := countP_concat s.handles HandleState.live
  have hwait := hs.waiting (holders_pos hi hh)
  refine ⟨hs.running, ?_, ?_, ?_, ?_, fun _ => ⟨?_, hwait.2⟩, fun h0 => absurd h0 ?_, ?_⟩
  · rw [holders, hcount]
    exact hfew
  · rw [holders, hcount, TrackingData.incr, hs.rc]
    exact (ofNat_add _ 1).symm
  · rw [outcomes, hcount]
    exact hs.acceptCount
  · rw [outcomes, hcount]
    exact hs.rejectCount
  · rw [notifiers, hcount]
    exact hwait.1
  · rw [holders, hcount]
    exact Nat.succ_ne_zero _
  · rw [hwait.2]
    exact fun _ hmem => absurd hmem not_mem_nil

variable {o : Outcome}

section

variable (hs : Balanced s)

include hs

/-- A live handle's outcome is counted. -/
theorem balanced_counted (hi : s.handles[i]? = some .live) {d : TrackingData} (hrc : d.rc = s.d.rc)
    (haccept : d.acceptCount = s.d.acceptCount + if o = .accept then 1 else 0)
    (hreject : d.rejectCount = s.d.rejectCount + if o = .reject then 1 else 0) :
    Balanced { s with d := d, handles := s.handles.set i (.counted o) } := by
  have hcount := countP_set_add hi (.counted o)
  have hwait := hs.waiting (holders_pos hi rfl)
  have hholders : (s.handles.set i (.counted o)).countP HandleState.holds = s.holders :=
    Nat.add_right_cancel (hcount HandleState.holds)
  have hofNat : ∀ o', ofNat ((s.handles.set i (.counted o)).countP
      (HandleState.hasOutcome o')) = ofNat (s.outcomes o') + if o = o' then 1 else 0 := by
    intro o'
    have hset : (s.handles.set i (.counted o)).countP (HandleState.hasOutcome o') =
        s.outcomes o' + (o == o').toNat := hcount (HandleState.hasOutcome o')
    rw [hset, ofNat_add]
    by_cases ho : o = o'
    · simp [ho]
    · simp [ho, beq_eq_false_iff_ne.2 ho]
  refine ⟨hs.running, ?_, ?_, ?_, ?_, fun _ => ⟨?_, hwait.2⟩, fun h0 => ?_, ?_⟩
  · rw [holders, hholders]
    exact hs.few
  · rw [holders, hholders, hrc]
    exact hs.rc
  · rw [haccept, hs.acceptCount]
    exact (hofNat .accept).symm
  · rw [hreject, hs.rejectCount]
    exact (hofNat .reject).symm
  · exact (hcount HandleState.notifies).trans hwait.1
  · rw [holders, hholders] at h0
    exact absurd h0 (holders_pos hi rfl).ne'
  · rw [hwait.2]
    exact fun _ hmem => absurd hmem not_mem_nil

/-- The count after the reference of one of the holders is given back. -/
theorem rc_pred (hpos : 0 < s.holders) : s.d.rc + -1 = ofNat (s.holders - 1) := by
  obtain ⟨n, hn⟩ := Nat.exists_eq_succ_of_ne_zero hpos.ne'
  rw [hs.rc, hn, Nat.succ_sub_one, Nat.succ_eq_add_one, Int32.ofNat_add, ← Int32.sub_eq_add_neg]
  exact Int32.add_sub_cancel _ _

/-- A handle that holds a reference gives it back, and is the one to notify exactly if no
other handle holds one. -/
theorem decr_eq (hpos : 0 < s.holders) (o : Outcome) :
    s.decr i o = { s with
      d := { s.d with rc := ofNat (s.holders - 1) }
      handles := s.handles.set i (if s.holders = 1 then .notifying o else .done o) } := by
  have hfew := hs.few
  have hv : (ofNat (s.holders - 1)).toInt = (s.holders - 1 : ℕ) :=
    toInt_ofNat_of_lt (by omega)
  have hneg : ¬ofNat (s.holders - 1) < 0 := by
    rw [lt_iff_toInt_lt, hv]
    exact Int.not_lt.2 (Int.natCast_nonneg _)
  have hzero : ofNat (s.holders - 1) = 0 ↔ s.holders = 1 := by
    rw [← toInt_inj, hv, toInt_zero]
    omega
  rw [decr, TrackingData.decr, rc_pred hs hpos]
  simp only [if_neg hneg, hzero]
  split_ifs <;> rfl

theorem balanced_decr (hi : s.handles[i]? = some h) (hh : h.holds = true)
    (haccept : h.hasOutcome .accept = (o == .accept))
    (hreject : h.hasOutcome .reject = (o == .reject)) : Balanced (s.decr i o) := by
  have hpos := holders_pos hi hh
  have hfew := hs.few
  have hwait := hs.waiting hpos
  rw [decr_eq hs hpos]
  obtain ⟨h', hh'⟩ : ∃ h' : HandleState, h' = if s.holders = 1 then .notifying o else .done o :=
    ⟨_, rfl⟩
  rw [← hh']
  have hcount := countP_set_add hi h'
  have hholders : (s.handles.set i h').countP HandleState.holds = s.holders - 1 := by
    have := hcount HandleState.holds
    have hlost : h'.holds = false := by rw [hh']; split_ifs <;> rfl
    rw [hh, hlost] at this
    exact Nat.eq_sub_of_add_eq this
  have hout : ∀ o', h'.hasOutcome o' = (o == o') := by
    intro o'
    rw [hh']
    split_ifs <;> rfl
  have hnotifiers : (s.handles.set i h').countP HandleState.notifies =
      if s.holders = 1 then 1 else 0 := by
    have := hcount HandleState.notifies
    have hnone : h.notifies = false := by
      cases h <;> simp_all [HandleState.holds, HandleState.notifies]
    rw [hnone, show s.handles.countP HandleState.notifies = 0 from hwait.1, hh'] at this
    split_ifs at this ⊢ <;> simpa [HandleState.notifies, hh', *] using this
  refine ⟨hs.running, ?_, ?_, ?_, ?_, fun h0 => ⟨?_, hwait.2⟩, fun h0 => ?_, ?_⟩
  · rw [holders, hholders]
    omega
  · exact congrArg ofNat hholders.symm
  · have := hcount (HandleState.hasOutcome .accept)
    rw [haccept, hout, Nat.add_right_cancel_iff] at this
    rw [outcomes, this]
    exact hs.acceptCount
  · have := hcount (HandleState.hasOutcome .reject)
    rw [hreject, hout, Nat.add_right_cancel_iff] at this
    rw [outcomes, this]
    exact hs.rejectCount
  · rw [holders, hholders] at h0
    rw [notifiers, hnotifiers, if_neg (by omega)]
  · rw [holders, hholders] at h0
    rw [notifiers, hnotifiers, if_pos (by omega), hwait.2]
    rfl
  · rw [hwait.2]
    exact fun _ hmem => absurd hmem not_mem_nil

theorem balanced_notify (hi : s.handles[i]? = some (.notifying o)) :
    Balanced { s with handles := s.handles.set i (.done o)
                      notified := s.notified ++ [s.d.deliveryInfo] } := by
  have hcount := countP_set_add hi (.done o)
  have hholders : (s.handles.set i (.done o)).countP HandleState.holds = s.holders :=
    hcount HandleState.holds
  have hnotifiers : (s.handles.set i (.done o)).countP HandleState.notifies + 1 = s.notifiers :=
    hcount HandleState.notifies
  have hzero : s.holders = 0 := by
    by_contra hne
    have := (hs.waiting (Nat.pos_of_ne_zero hne)).1
    omega
  have hlast := hs.last hzero
  refine ⟨hs.running, ?_, ?_, ?_, ?_, fun h0 => ?_, fun _ => ?_, fun info hinfo => ?_⟩
  · rw [holders, hholders]
    exact hs.few
  · rw [holders, hholders]
    exact hs.rc
  · rw [outcomes, Nat.add_right_cancel (hcount (HandleState.hasOutcome .accept))]
    exact hs.acceptCount
  · rw [outcomes, Nat.add_right_cancel (hcount (HandleState.hasOutcome .reject))]
    exact hs.rejectCount
  · rw [holders, hholders, hzero] at h0
    exact absurd h0 (lt_irrefl _)
  · simp only [notifiers, length_append, length_singleton]
    omega
  · rcases mem_append.1 hinfo with hmem | hmem
    · exact hs.info info hmem
    · exact mem_singleton.1 hmem

end

variable {st : TrackingStep} {s' : Tracking}

theorem balanced_step (hs : Balanced s) (hfew : s.FewHolders st) (hstep : s.step st = some s') :
    Balanced s' := by
  cases st with
  | copy =>
    rw [step] at hstep
    split at hstep
    case h_3 => cases hstep
    all_goals
      cases hstep
      exact balanced_copy hs hfew (by assumption) rfl
  | accept i | reject i =>
    rw [step] at hstep
    split at hstep
    case h_2 => cases hstep
    cases hstep
    exact balanced_counted hs (by assumption) rfl
      (by simp [TrackingData.accept, TrackingData.reject])
      (by simp [TrackingData.accept, TrackingData.reject])
  | drop i | decr i =>
    rw [step] at hstep
    split at hstep
    case h_2 => cases hstep
    obtain rfl := Option.some.inj hstep
    exact balanced_decr hs (by assumption) rfl rfl rfl
  | notify =>
    rw [step] at hstep
    split at hstep
    case h_2 => cases hstep
    cases hstep
    exact balanced_notify hs (by assumption)

/-- A step keeps the id, and adds at most one notification. -/
theorem step_notified (hstep : s.step st = some s') :
    s'.d.id = s.d.id ∧
      (s'.notified = s.notified ∨ s'.notified = s.notified ++ [s.d.deliveryInfo]) := by
  have hdecr : ∀ i o, (s.decr i o).d.id = s.d.id ∧ (s.decr i o).notified = s.notified := by
    intro i o
    unfold decr
    split
    case h_1 d v hd =>
      have hid : d.id = s.d.id := by rw [← s.d.id_decr, hd]
      split
      · exact ⟨hid, rfl⟩
      · split <;> exact ⟨hid, rfl⟩
  cases st with
  | drop i | decr i =>
    rw [step] at hstep
    split at hstep
    case h_2 => cases hstep
    obtain rfl := Option.some.inj hstep
    exact ⟨(hdecr i _).1, .inl (hdecr i _).2⟩
  | copy =>
    rw [step] at hstep
    split at hstep
    case h_3 => cases hstep
    all_goals
      cases hstep
      exact ⟨rfl, .inl rfl⟩
  | accept i | reject i =>
    rw [step] at hstep
    split at hstep
    case h_2 => cases hstep
    cases hstep
    exact ⟨rfl, .inl rfl⟩
  | notify =>
    rw [step] at hstep
    split at hstep
    case h_2 => cases hstep
    cases hstep
    exact ⟨rfl, .inr rfl⟩

theorem Balanced.finished (hs : Balanced s) (hne : s.notified ≠ []) : s.Finished := by
  have hzero : s.holders = 0 := by
    by_contra hpos
    exact hne (hs.waiting (Nat.pos_of_ne_zero hpos)).2
  have hlen := length_pos_iff.2 hne
  have hlast := hs.last hzero
  have hnotifiers : s.notifiers = 0 := by omega
  intro h hh
  have hholds := countP_eq_zero.1 hzero h hh
  have hnotifies := countP_eq_zero.1 hnotifiers h hh
  cases h with
  | done o => exact ⟨o, rfl⟩
  | live | counted => exact absurd rfl hholds
  | notifying => exact absurd rfl hnotifies

theorem Balanced.length_notified (hs : Balanced s) (hfin : s.Finished) : s.notified.length = 1 := by
  have hcount : ∀ p : HandleState → Bool, (∀ o, p (.done o) = false) →
      s.handles.countP p = 0 := by
    intro p hp
    refine countP_eq_zero.2 fun h hh => ?_
    obtain ⟨o, rfl⟩ := hfin h hh
    simp [hp]
  have hlast := hs.last (hcount _ fun _ => rfl)
  rw [notifiers, hcount _ fun _ => rfl, Nat.zero_add] at hlast
  exact hlast

/-- There is at most one notification, with the counts of the group. -/
theorem Balanced.notified_cases (hs : Balanced s) :
    s.notified = [] ∨ s.notified = [s.d.deliveryInfo] := by
  by_cases hne : s.notified = []
  · exact .inl hne
  · obtain ⟨info, hinfo⟩ := length_eq_one_iff.1 (hs.length_notified (hs.finished hne))
    refine .inr ?_
    rw [hinfo, hs.info info (hinfo ▸ mem_singleton_self info)]

/-- The last reference, whatever the number of handles. -/
theorem step_drop_of_rc {i : ℕ} (hrunning : s.panicked = false) (hrc : s.d.rc = 1)
    (hi : s.handles[i]? = some .live) :
    s.step (.drop i) = some { s with
      d := { s.d with rc := 0 }
      handles := s.handles.set i (.notifying .drop) } := by
  have hv : (1 : Int32) + -1 = 0 := by decide
  rw [step, hrunning, hi]
  simp only [decr, TrackingData.decr, hrc, hv]
  rw [if_neg (by decide), if_pos trivial, hrunning]

/-- The group is delivered exactly if no handle was rejected, as long as the number of
rejected handles does not wrap. -/
theorem Balanced.delivered_iff (hs : Balanced s) (hrejects : s.outcomes .reject < 2 ^ 32) :
    s.d.deliveryInfo.delivered = true ↔ s.outcomes .reject = 0 := by
  have hinfo : s.d.deliveryInfo.rejected = (ofNat (s.outcomes .reject)).toInt :=
    congrArg toInt hs.rejectCount
  rw [DeliveryInfo.delivered, beq_iff_eq, hinfo, toInt_ofNat']
  constructor
  · intro h0
    have hdvd := Int.natCast_dvd_natCast.1 (Int.dvd_of_bmod_eq_zero h0)
    rw [show size = 2 ^ 32 by decide] at hdvd
    exact Nat.eq_zero_of_dvd_of_lt hdvd hrejects
  · intro h0
    rw [h0]
    rfl

end Steps

/-- In every schedule of a group whose handles never hold `2 ^ 31` references, `rc` is never
negative and no goroutine panics, `notifyFunc` is called at most once, when every handle
was finalised and counted, and has been called once all of them are. -/
theorem notified_exactly_once {id : UInt64} {s₀ s : Tracking} {schedule : List TrackingStep}
    (hstart : s₀ = newTrackingMetric id ∨ ∃ n < 2 ^ 31, s₀ = newTrackingMetricGroup id n)
    (hfew : AllSteps step FewHolders s₀ schedule) (hrun : run step s₀ schedule = some s) :
    s.panicked = false ∧ 0 ≤ s.d.rc ∧ s.notified.length ≤ 1 ∧
      (∀ info ∈ s.notified, s.Finished ∧
        info.accepted = (ofNat (s.outcomes .accept)).toInt ∧
        info.rejected = (ofNat (s.outcomes .reject)).toInt ∧
        (s.outcomes .reject < 2 ^ 32 →
          (info.delivered = true ↔ .done .reject ∉ s.handles))) ∧
      (s.Finished → s.notified.length = 1) := by
  have h₀ : Balanced s₀ := by
    rcases hstart with rfl | ⟨n, hn, rfl⟩
    · exact balanced_newTrackingMetric id
    · exact balanced_newTrackingMetricGroup id hn
  have hs : Balanced s := run_induction_of_allSteps (P := fun _ => Balanced)
    (fun _ _ _ _ h hf => balanced_step h hf) schedule [] s₀ s h₀ hfew hrun
  refine ⟨hs.running, ?_, ?_, fun info hinfo => ?_, hs.length_notified⟩
  · rw [hs.rc, le_iff_toInt_le, toInt_ofNat_of_lt hs.few]
    exact Int.natCast_nonneg _
  · by_cases hne : s.notified = []
    · rw [hne]
      exact Nat.zero_le _
    · exact (hs.length_notified (hs.finished hne)).le
  · have hfin := hs.finished (ne_nil_of_mem hinfo)
    rw [hs.info info hinfo]
    refine ⟨hfin, congrArg toInt hs.acceptCount, congrArg toInt hs.rejectCount,
      fun hrejects => ?_⟩
    rw [hs.delivered_iff hrejects, outcomes, countP_eq_zero]
    refine ⟨fun h hmem => h _ hmem rfl, fun h hd hmem hrej => h ?_⟩
    obtain ⟨o, rfl⟩ := hfin hd hmem
    rwa [← beq_iff_eq.1 hrej]

/-- The one metric of a group is copied, the copy rejected and the original accepted, their
steps interleaved. -/
theorem notified_of_copy_rejected :
    ∃ s, run step (newTrackingMetricGroup 7 1)
      [.copy 0, .accept 0, .reject 1, .decr 1, .decr 0, .notify 0] = some s ∧
        s.notified.length = 1 ∧ ∀ info ∈ s.notified, ¬info.delivered = true := by
  refine Exists.imp (fun s hrun => ⟨hrun, ?_⟩) ⟨_, rfl⟩
  have hhandles : s.handles = [.done .accept, .done .reject] := by
    cases hrun
    decide
  obtain ⟨-, -, -, hinfo, hlen⟩ := notified_exactly_once (.inr ⟨1, by decide, rfl⟩)
    (by decide) hrun
  refine ⟨hlen ?_, fun info hmem => ?_⟩
  · simp [Finished, hhandles]
  · rw [(hinfo info hmem).2.2.2 (by rw [outcomes, hhandles]; decide), hhandles]
    decide

/-- A group of `2 ^ 31 + 1` metrics starts with a negative count, and the first `Drop` of one
of them panics. -/
theorem group_too_large :
    (newTrackingMetricGroup 0 (2 ^ 31 + 1)).d.rc < 0 ∧
      ∃ s, run step (newTrackingMetricGroup 0 (2 ^ 31 + 1)) [.drop 0] = some s ∧
        s.panicked = true := by
  have hd := d_newTrackingMetricGroup 0 (2 ^ 31 + 1)
  have hlive := getElem?_newTrackingMetricGroup 0 (by omega : 0 < 2 ^ 31 + 1)
  have hrunning : (newTrackingMetricGroup 0 (2 ^ 31 + 1)).panicked = false := by
    simp only [newTrackingMetricGroup]
  obtain ⟨s, hs⟩ : ∃ s, s = newTrackingMetricGroup 0 (2 ^ 31 + 1) := ⟨_, rfl⟩
  rw [← hs] at hd hlive hrunning ⊢
  refine ⟨by rw [hd]; decide, s.decr 0 .drop, ?_, ?_⟩
  · rw [run_cons, step, hrunning, hlive]
    rfl
  · rw [decr, TrackingData.decr, hd]
    simp only [if_pos (by decide : ofNat (2 ^ 31 + 1) + -1 < 0)]

end Tracking

end Telegraf
