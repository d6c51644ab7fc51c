import Telegraf.BufferFlight
import Telegraf.Machine

/-!
# Runs of the output buffer

A `BufferClient` is a buffer with the batch its user holds, as `RunningOutput` uses it : any
`Add`, one `Batch` at a time, and `Accept` or `Reject` of the batch last returned. A run is
a list of such calls.

Every metric ever added is in one place, a live slot, the outstanding batch, or one call
of `Accept()` or `Reject()`, exactly as long as every `Reject` is `Lossless`. Every
`Reject` restores the order of arrival exactly as long as every one is `Aligned`. Without
`Reject` the buffer is a bounded stack of the newest metrics.
-/

open List

namespace Telegraf

open Machine Circular

/-- A call on the buffer. `accept` and `reject` pass the batch last returned. -/
inductive BufferOp (α : Type*) where
  | add (metrics : List α)
  | batch (batchSize : ℕ)
  | accept
  | reject
deriving Repr, DecidableEq

/-- A buffer and what its user holds. -/
structure BufferClient (α : Type*) where
  buffer : Buffer α
  /-- The batch most recently returned by `Batch`. -/
  lastBatch : List (Option α)
  /-- `lastBatch` was neither accepted nor rejected yet. -/
  outstanding : Bool
  /-- What the buffer held when `Batch` was last called. -/
  beforeBatch : List (Option α)
  /-- The metrics added since. -/
  newer : List α
deriving Repr, DecidableEq

/-- The metrics added by a run. -/
def addedMetrics {α : Type*} : List (BufferOp α) → List α
  | [] => []
  | .add metrics :: ops => metrics ++ addedMetrics ops
  | _ :: ops => addedMetrics ops

@[simp] theorem addedMetrics_append {α : Type*} (ops ops' : List (BufferOp α)) :
    addedMetrics (ops ++ ops') = addedMetrics ops ++ addedMetrics ops' := by
  induction ops with
  | nil => rfl
  | cons op ops ih => cases op <;> simp [addedMetrics, ih]

theorem addedMetrics_sublist {α : Type*} {pre ops : List (BufferOp α)} (h : pre <+: ops) :
    (addedMetrics pre).Sublist (addedMetrics ops) := by
  obtain ⟨_, rfl⟩ := h
  rw [addedMetrics_append]
  exact sublist_append_left _ _

/-- The reference : the newest `cap` metrics in order of arrival, and those that fell out. -/
structure BoundedStack (α : Type*) where
  live : List α
  dropped : List α

namespace BoundedStack

variable {α : Type*}

/-- What is dropped from the front when `metrics` are appended. -/
def overflow (cap : ℕ) (r : BoundedStack α) (metrics : List α) : List α :=
  (r.live ++ metrics).rdrop cap

def step (cap : ℕ) (r : BoundedStack α) : BufferOp α → BoundedStack α
  | .add metrics =>
    ⟨(r.live ++ metrics).rtake cap, r.dropped ++ r.overflow cap metrics⟩
  | .batch n => ⟨r.live.rdrop n, r.dropped⟩
  | .accept | .reject => r

def run (cap : ℕ) (ops : List (BufferOp α)) : BoundedStack α :=
  ops.foldl (step cap) ⟨[], []⟩

end BoundedStack

namespace BufferClient

variable {α : Type*}

def new (α : Type*) (capacity : ℕ) : BufferClient α :=
  ⟨newBuffer α capacity, [], false, [], []⟩

/-- One call. -/
def step (s : BufferClient α) : BufferOp α → Option (BufferClient α)
  | .add metrics => do
    let (b, _) ← s.buffer.addMetrics metrics
    pure { s with buffer := b, newer := s.newer ++ metrics }
  | .batch batchSize => do
    let (b, out) ← s.buffer.batch batchSize
    pure ⟨b, out, true, s.buffer.contents, []⟩
  | .accept => do
    let b ← s.buffer.accept s.lastBatch
    pure { s with buffer := b, outstanding := false }
  | .reject => do
    let b ← s.buffer.reject s.lastBatch
    pure { s with buffer := b, outstanding := false }

/-- The outstanding batch, newest metric first. -/
def inFlight (s : BufferClient α) : List (Option α) :=
  if s.outstanding then s.lastBatch else []

/-- At most one batch is outstanding, and each is accepted or rejected at most once. -/
def Legal (s : BufferClient α) : BufferOp α → Prop
  | .add _ => True
  | .batch _ => s.inFlight = []
  | .accept => s.outstanding = true
  | .reject => s.outstanding = true

instance [DecidableEq α] (s : BufferClient α) : ∀ op, Decidable (Legal s op)
  | .add _ => isTrue trivial
  | .batch _ => inferInstanceAs (Decidable (s.inFlight = []))
  | .accept => inferInstanceAs (Decidable (s.outstanding = true))
  | .reject => inferInstanceAs (Decidable (s.outstanding = true))

/-- The counters account for every metric added. -/
def Counted (s : BufferClient α) : Prop :=
  s.buffer.metricsAdded =
    s.buffer.metricsWritten + s.buffer.metricsDropped + s.buffer.size + s.inFlight.length

/-- Every metric of `added` is in exactly one of a live slot, the outstanding batch, the
calls of `Accept()` and the calls of `Reject()`, and there once; and the counters agree. -/
structure Conserved [DecidableEq α] (s : BufferClient α) (added : List α) : Prop where
  places : ∀ m ∈ added, s.buffer.contents.count (some m) + s.inFlight.count (some m) +
    s.buffer.accepted.count m + s.buffer.rejected.count m = 1
  counters : s.Counted

/-- A `Reject` of a batch of `k` metrics, `n` metrics after it was taken, is lossless. -/
def RejectLossless (s : BufferClient α) (op : BufferOp α) : Prop :=
  op = .reject → Buffer.Lossless s.buffer.cap s.lastBatch.length s.newer.length

instance [DecidableEq α] (s : BufferClient α) (op : BufferOp α) :
    Decidable (RejectLossless s op) :=
  inferInstanceAs (Decidable (_ → _))

/-- A `Reject` of a batch of `k` metrics, `n` metrics after it was taken, is aligned. -/
def RejectAligned (s : BufferClient α) (op : BufferOp α) : Prop :=
  op = .reject → Buffer.Aligned s.buffer.cap s.lastBatch.length s.newer.length

instance [DecidableEq α] (s : BufferClient α) (op : BufferOp α) :
    Decidable (RejectAligned s op) :=
  inferInstanceAs (Decidable (_ → _))

/-- After a `Reject` the buffer holds the last `cap` of what it held before the batch was
taken and of the metrics added since, in that order, and the next `Batch` returns the
newest of them, newest first. -/
def Restored (s s' : BufferClient α) : Prop :=
  s'.buffer.contents = (s.beforeBatch ++ s.newer.map some).rtake s.buffer.cap ∧
    ∀ n, ∃ b, s'.buffer.batch n = some (b, (s'.buffer.contents.rtake n).reverse)

/-- The call can be made, and if it is a `Reject` it restores. -/
def RejectRestores (s : BufferClient α) (op : BufferOp α) : Prop :=
  ∃ s', step s op = some s' ∧ (op = .reject → Restored s s')

/-! ## The invariant of a run -/

/-- The buffer holds `live`, the outstanding batch is `taken` (both oldest first), and with
the logged calls they are all of `added`. -/
structure Tracks (s : BufferClient α) (added : List α) (F : ℕ) (live taken : List α) :
    Prop where
  ring : s.buffer.Ring F live
  inFlight : s.inFlight = taken.reverse.map some
  noBatch : taken = [] → s.buffer.batchSize = 0
  flight : taken ≠ [] → ∃ BF, s.buffer.InFlight F BF taken.length s.newer.length
  order : s.outstanding = true → ∃ older, s.beforeBatch = (older ++ taken).map some ∧
    live = (older ++ s.newer).rtake s.buffer.cap
  perm : added.Perm (live ++ taken ++ (s.buffer.accepted ++ s.buffer.rejected))
  metricsAdded : s.buffer.metricsAdded = added.length
  metricsWritten : s.buffer.metricsWritten = s.buffer.accepted.length
  metricsDropped : s.buffer.metricsDropped = s.buffer.rejected.length

/-- The invariant after the calls `ops`. -/
def Tracked (ops : List (BufferOp α)) (s : BufferClient α) : Prop :=
  ∃ F live taken, Tracks s (addedMetrics ops) F live taken

variable {capacity : ℕ}

open BoundedStack

theorem tracks_new (hcap : 0 < capacity) : Tracks (new α capacity) [] 0 [] [] where
  ring := Buffer.ring_newBuffer hcap
  inFlight := rfl
  noBatch := fun _ => rfl
  flight := fun h => absurd rfl h
  order := fun h => absurd h (by simp [new])
  perm := List.Perm.refl _
  metricsAdded := rfl
  metricsWritten := rfl
  metricsDropped := rfl

section Steps

variable {s : BufferClient α} {added live taken : List α} {F : ℕ} {b : Buffer α}

theorem step_add_of {metrics : List α} {d : ℕ} (h : s.buffer.addMetrics metrics = some (b, d)) :
    step s (.add metrics) = some { s with buffer := b, newer := s.newer ++ metrics } := by
  rw [step, h]
  rfl

theorem step_batch_of {n : ℕ} {out : List (Option α)} (h : s.buffer.batch n = some (b, out)) :
    step s (.batch n) = some ⟨b, out, true, s.buffer.contents, []⟩ := by
  rw [step, h]
  rfl

theorem step_accept_of (h : s.buffer.accept s.lastBatch = some b) :
    step s .accept = some { s with buffer := b, outstanding := false } := by
  rw [step, h]
  rfl

theorem step_reject_of (h : s.buffer.reject s.lastBatch = some b) :
    step s .reject = some { s with buffer := b, outstanding := false } := by
  rw [step, h]
  rfl

theorem Tracks.lastBatch_eq (h : Tracks s added F live taken) (hout : s.outstanding = true) :
    s.lastBatch = taken.reverse.map some := by
  rw [← h.inFlight, BufferClient.inFlight, if_pos hout]

theorem Tracks.counters (h : Tracks s added F live taken) : s.Counted := by
  unfold Counted
  have hlen := h.perm.length_eq
  simp only [length_append] at hlen
  rw [h.metricsAdded, h.metricsWritten, h.metricsDropped, h.ring.size, h.inFlight,
    length_map, length_reverse, hlen]
  omega

theorem Tracks.conserved [DecidableEq α] (h : Tracks s added F live taken)
    (hnodup : added.Nodup) : Conserved s added where
  places := by
    intro m hm
    have hcount := h.perm.count_eq m
    rw [count_eq_one_of_mem hnodup hm] at hcount
    have hsome : Function.Injective (some : α → Option α) := Option.some_injective α
    rw [h.ring.contents_eq, h.inFlight, count_map_of_injective _ _ hsome,
      count_map_of_injective _ _ hsome, count_reverse]
    simp only [count_append] at hcount
    omega
  counters := h.counters

theorem step_add (h : Tracks s added F live taken) (metrics : List α) :
    ∃ s' F', step s (.add metrics) = some s' ∧
      Tracks s' (added ++ metrics) F' ((live ++ metrics).rtake s.buffer.cap) taken := by
  obtain ⟨_, F', hadd, hring, heff, hflight⟩ := Buffer.addMetrics_spec h.ring metrics
  refine ⟨_, F', step_add_of hadd, hring, h.inFlight, fun h0 => heff.noBatch (h.noBatch h0),
    fun h0 => ?_, fun hout => ?_, ?_, ?_, ?_, ?_⟩
  · obtain ⟨BF, hf⟩ := h.flight h0
    rw [length_append]
    exact hflight BF _ _ (length_pos_of_ne_nil h0) hf
  · obtain ⟨older, hbefore, hlive⟩ := h.order hout
    refine ⟨older, hbefore, ?_⟩
    rw [heff.cap, hlive, rtake_rtake_append, append_assoc]
  · have hsplit := take_append_rtake (live ++ metrics) s.buffer.cap
    rw [length_append] at hsplit
    classical
    rw [perm_iff_count]
    intro a
    have h1 := h.perm.count_eq a
    have h2 := congrArg (count a) hsplit
    simp only [count_append, heff.accepted, heff.rejected] at h1 h2 ⊢
    omega
  · simp only [heff.metricsAdded, h.metricsAdded, length_append]
  · simp only [heff.metricsWritten, heff.accepted, h.metricsWritten]
  · simp only [heff.metricsDropped, heff.rejected, h.metricsDropped, length_append]

theorem step_batch (h : Tracks s added F live []) (n : ℕ) :
    ∃ s', step s (.batch n) = some s' ∧
      Tracks s' added F (live.take (live.length - n)) (live.rtake n) := by
  obtain ⟨_, hbatch, hring, heff, hnil, hne⟩ := Buffer.batch_spec h.ring n
  have hsplit := take_append_rtake live n
  refine ⟨_, step_batch_of hbatch, hring, ?_, fun h0 => ?_, fun h0 => ⟨_, hne h0⟩,
    fun _ => ⟨live.take (live.length - n), ?_, ?_⟩, ?_, heff.metricsAdded.trans h.metricsAdded,
    ?_, ?_⟩
  · rw [inFlight, if_pos rfl, map_reverse]
  · rw [hnil h0]
    exact h.noBatch rfl
  · rw [hsplit, h.ring.contents_eq]
  · rw [append_nil, rtake_of_length_le hring.length_le]
  · rw [hsplit, heff.accepted, heff.rejected]
    simpa using h.perm
  · rw [heff.metricsWritten, heff.accepted, h.metricsWritten]
  · rw [heff.metricsDropped, heff.rejected, h.metricsDropped]

section

variable (h : Tracks s added F live taken) (hout : s.outstanding = true)

include h hout

theorem step_accept : ∃ s', step s .accept = some s' ∧ Tracks s' added F live [] := by
  have hlast := h.lastBatch_eq hout
  have haccept := Buffer.accept_eq s.buffer taken.reverse
  rw [← hlast] at haccept
  refine ⟨_, step_accept_of haccept, ?_, rfl, fun _ => rfl, fun h => absurd rfl h,
    fun h => absurd h (by simp), ?_, h.metricsAdded, ?_, h.metricsDropped⟩
  · exact ⟨h.ring.cap_pos, h.ring.buf_length, h.ring.first, h.ring.last, h.ring.size, h.ring.slots⟩
  · classical
    rw [perm_iff_count]
    intro a
    have h1 := h.perm.count_eq a
    simp only [count_append, count_reverse, count_nil] at h1 ⊢
    omega
  · simp [h.metricsWritten]

theorem step_reject (hok : RejectLossless s .reject) :
    ∃ s' F' live', step s .reject = some s' ∧ Tracks s' added F' live' [] := by
  have hlast := h.lastBatch_eq hout
  by_cases hne : taken = []
  · subst hne
    have hrej : s.buffer.reject s.lastBatch = some s.buffer := by
      rw [hlast]
      rfl
    exact ⟨_, F, live, step_reject_of hrej, h.ring, rfl, fun _ => h.noBatch rfl,
      fun h => absurd rfl h, fun h => absurd h (by simp), h.perm, h.metricsAdded,
      h.metricsWritten, h.metricsDropped⟩
  · obtain ⟨_, hf⟩ := h.flight hne
    have hok' := hok rfl
    rw [hlast, length_map, length_reverse] at hok'
    obtain ⟨_, F', live', _, hrej, hring, heff, hperm⟩ :=
      Buffer.reject_lossless h.ring hf (length_pos_of_ne_nil hne) rfl hok'
    rw [← hlast] at hrej
    refine ⟨_, F', live', step_reject_of hrej, hring, rfl, fun _ => heff.noBatch,
      fun h => absurd rfl h, fun h => absurd h (by simp), ?_, ?_, ?_, ?_⟩
    · classical
      rw [perm_iff_count]
      intro a
      have h1 := h.perm.count_eq a
      have h2 := hperm.count_eq a
      simp only [count_append, count_nil, heff.accepted, heff.rejected] at h1 h2 ⊢
      omega
    · exact heff.metricsAdded.trans h.metricsAdded
    · simp only [heff.metricsWritten, heff.accepted, h.metricsWritten]
    · simp only [heff.metricsDropped, heff.rejected, h.metricsDropped, length_append]

/-- A `Reject` that is not lossless breaks the counters. -/
theorem counters_of_not_lossless
    (hno : ¬RejectLossless s .reject) {s' : BufferClient α} (hs' : step s .reject = some s') :
    s'.buffer.metricsWritten + s'.buffer.metricsDropped + s'.buffer.size + s'.inFlight.length <
      s'.buffer.metricsAdded := by
  have hlast := h.lastBatch_eq hout
  have hno' : ¬Buffer.Lossless s.buffer.cap taken.length s.newer.length := by
    intro _
    refine hno fun _ => ?_
    rwa [hlast, length_map, length_reverse]
  have hne : taken ≠ [] := by
    rintro rfl
    exact hno' (.inr (.inr (by simp)))
  obtain ⟨_, hf⟩ := h.flight hne
  obtain ⟨_, hrej, _, _, _, _⟩ :=
    Buffer.reject_lossy h.ring hf (length_pos_of_ne_nil hne) rfl hno'
  have hcount := h.counters
  rw [Counted, h.inFlight, length_map, length_reverse] at hcount
  rw [step, hlast, hrej] at hs'
  cases hs'
  simp only [inFlight, Bool.false_eq_true, if_false, length_nil]
  omega

end

/-! ## Conservation -/

/-- The steps of a run keep the invariant as long as they are legal and lossless. -/
theorem exists_step_of_lossless {ops : List (BufferOp α)} {op : BufferOp α}
    (h : Tracked ops s) (hlegal : Legal s op) (hok : RejectLossless s op) :
    ∃ s', step s op = some s' ∧ Tracked (ops ++ [op]) s' := by
  obtain ⟨F, live, taken, h⟩ := h
  simp only [Tracked, addedMetrics_append]
  cases op with
  | add metrics =>
    obtain ⟨s', F', hs', h'⟩ := step_add h metrics
    exact ⟨s', hs', F', _, taken, by simpa [addedMetrics] using h'⟩
  | batch n =>
    have hnil : taken = [] := by
      have hlen := congrArg length (h.inFlight.symm.trans hlegal)
      simpa using hlen
    subst hnil
    obtain ⟨s', hs', h'⟩ := step_batch h n
    exact ⟨s', hs', F, _, _, by simpa [addedMetrics] using h'⟩
  | accept =>
    obtain ⟨s', hs', h'⟩ := step_accept h hlegal
    exact ⟨s', hs', F, live, [], by simpa [addedMetrics] using h'⟩
  | reject =>
    obtain ⟨s', F', live', hs', h'⟩ := step_reject h hlegal hok
    exact ⟨s', hs', F', live', [], by simpa [addedMetrics] using h'⟩

end Steps

/-- No metric is lost or finalised twice, at any moment of a run that holds at most one
batch at a time, if and only if every `Reject` is lossless. -/
theorem conserved_iff_lossless [DecidableEq α] {capacity : ℕ} (hcap : 0 < capacity)
    (ops : List (BufferOp α)) (hlegal : AllSteps step Legal (new α capacity) ops)
    (hnodup : (addedMetrics ops).Nodup) :
    (∀ pre, pre <+: ops → ∃ s, run step (new α capacity) pre = some s ∧
        s.Conserved (addedMetrics pre)) ↔
      AllSteps step RejectLossless (new α capacity) ops := by
  have hgood : ∀ ops (s : BufferClient α), Tracked ops s →
      s.Counted ∧ ((addedMetrics ops).Nodup → s.Conserved (addedMetrics ops)) := by
    rintro ops s ⟨F, live, taken, h⟩
    exact ⟨h.counters, h.conserved⟩
  have hbad : ∀ ops (s : BufferClient α) op s', Tracked ops s → Legal s op →
      ¬RejectLossless s op → step s op = some s' →
      ¬(s'.Counted ∧ ((addedMetrics (ops ++ [op])).Nodup →
        s'.Conserved (addedMetrics (ops ++ [op])))) := by
    rintro ops s op s' ⟨F, live, taken, h⟩ hop hno hs' ⟨hcount, -⟩
    obtain rfl : op = .reject := by
      by_contra hne
      exact hno fun h => absurd h hne
    have hlt := counters_of_not_lossless h hop hno hs'
    rw [hcount] at hlt
    exact lt_irrefl _ hlt
  rw [← always_iff_allSteps hgood (fun _ _ _ => exists_step_of_lossless) hbad ops
    [] (new α capacity) ⟨0, [], [], tracks_new hcap⟩ hlegal]
  refine forall₂_congr fun pre hpre => exists_congr fun s => and_congr_right fun _ => ?_
  have hpre' : (addedMetrics pre).Nodup := hnodup.sublist (addedMetrics_sublist hpre)
  exact ⟨fun h => ⟨h.counters, fun _ => h⟩, fun h => h.2 hpre'⟩

theorem conserved_of_add_in_flight :
    AllSteps step Legal (new ℕ 2) [.add [1, 2], .batch 1, .add [3, 4], .reject] ∧
      ∀ pre, pre <+: [.add [1, 2], .batch 1, .add [3, 4], .reject] →
        ∃ s, run step (new ℕ 2) pre = some s ∧ s.Conserved (addedMetrics pre) :=
  ⟨by decide, (conserved_iff_lossless (by decide) _ (by decide) (by decide)).2 (by decide)⟩

/-- Six metrics are added to a buffer of three while two are in flight. On `Reject` the
metric `6` is in the buffer and is overwritten : it is then in none of the four places, and
the counters miss it. -/
theorem reject_overwrites_live :
    let ops := [.add [1, 2], .batch 2, .add [3, 4, 5, 6, 7, 8], .reject]
    AllSteps step Legal (new ℕ 3) ops ∧ (addedMetrics ops).Nodup ∧
      ∃ s, run step (new ℕ 3) ops = some s ∧ 6 ∈ addedMetrics ops ∧
        some 6 ∉ s.buffer.contents ∧ some 6 ∉ s.inFlight ∧ 6 ∉ s.buffer.accepted ∧
        6 ∉ s.buffer.rejected ∧ ¬s.Conserved (addedMetrics ops) := by
  refine ⟨by decide, by decide, _, rfl, by decide, by decide, by decide, by decide, by decide,
    fun h => ?_⟩
  exact absurd h.counters (by unfold Counted; decide)

/-! ## Order of arrival -/

section Restoring

variable {s : BufferClient α} {added live taken : List α} {F : ℕ}

/-- What a ring's next `Batch` returns, in terms of its contents. -/
theorem exists_batch_of_ring {b : Buffer α} (h : b.Ring F live) (n : ℕ) :
    ∃ b', b.batch n = some (b', (b.contents.rtake n).reverse) := by
  obtain ⟨b', hb', -⟩ := Buffer.batch_spec h n
  exact ⟨b', by rw [h.contents_eq, map_rtake, hb']⟩

theorem rejectRestores_of_aligned (h : Tracks s added F live taken) (hout : s.outstanding = true)
    (hok : RejectAligned s .reject) : RejectRestores s .reject := by
  have hlast := h.lastBatch_eq hout
  obtain ⟨_, hbefore, hlive⟩ := h.order hout
  have hring := h.ring
  rw [hlive] at hring
  by_cases hne : taken = []
  · subst hne
    have hrej : s.buffer.reject s.lastBatch = some s.buffer := by
      rw [hlast]
      rfl
    refine ⟨_, step_reject_of hrej, fun _ => ⟨?_, exists_batch_of_ring hring⟩⟩
    rw [hbefore, append_nil, ← map_append, map_rtake]
    exact hring.contents_eq
  · obtain ⟨_, hf⟩ := h.flight hne
    have hok' := hok rfl
    rw [hlast, length_map, length_reverse] at hok'
    obtain ⟨_, _, hrej, hring'⟩ :=
      Buffer.reject_aligned hring hf (length_pos_of_ne_nil hne) rfl hok'
    rw [← hlast] at hrej
    refine ⟨_, step_reject_of hrej, fun _ => ⟨?_, exists_batch_of_ring hring'⟩⟩
    rw [hbefore, ← map_append, map_rtake]
    exact hring'.contents_eq

/-- The newest metric of a batch that is not aligned comes back, though more than `cap`
metrics are newer. -/
theorem aligned_of_rejectRestores (h : Tracks s added F live taken) (hnodup : added.Nodup)
    (hout : s.outstanding = true) (hrest : RejectRestores s .reject) : RejectAligned s .reject := by
  rintro -
  by_contra hno
  have hlast := h.lastBatch_eq hout
  obtain ⟨_, _, hlive⟩ := h.order hout
  rw [hlast, length_map, length_reverse] at hno
  have hne : taken ≠ [] := by
    rintro rfl
    exact hno (.inl rfl)
  obtain ⟨_, hf⟩ := h.flight hne
  obtain ⟨taken, m, rfl⟩ := eq_nil_or_concat' taken |>.resolve_left hne
  obtain ⟨_, hrej, hmem⟩ := Buffer.reject_misaligned h.ring hf rfl hno
  rw [← hlast] at hrej
  obtain ⟨_, hs', hrestored⟩ := hrest
  obtain rfl := Option.some.inj ((step_reject_of hrej).symm.trans hs')
  have hcap : s.buffer.cap ≤ s.newer.length := by
    simp only [Buffer.Aligned, not_or, not_le] at hno
    omega
  have hnewer : live = s.newer.rtake s.buffer.cap := by
    rw [hlive, rtake_append, Nat.sub_eq_zero_of_le hcap, rtake_zero, nil_append]
  have hm : m ∈ live := by
    rw [(hrestored rfl).1, rtake_append, length_map, Nat.sub_eq_zero_of_le hcap,
      rtake_zero, nil_append, map_rtake, ← hnewer] at hmem
    simpa using hmem
  have hdisj := (h.perm.nodup_iff.1 hnodup).of_append_left
  exact disjoint_of_nodup_append hdisj hm (by simp)

end Restoring

variable {s : BufferClient α} {op : BufferOp α}

theorem lossless_of_aligned (h : RejectAligned s op) : RejectLossless s op := by
  intro hop
  rcases h hop with h0 | hle | hdvd
  · exact .inr (.inr (by simp [h0]))
  · exact .inl hle
  · exact .inr (.inl (Nat.mod_eq_zero_of_dvd hdvd))

/-- Every `Reject` of a run restores the order of arrival and keeps the newest metrics if
all of them are aligned ; and only then, where no metric is added twice. -/
theorem restores_iff_aligned {capacity : ℕ} (hcap : 0 < capacity) (ops : List (BufferOp α))
    (hlegal : AllSteps step Legal (new α capacity) ops) :
    (AllSteps step RejectAligned (new α capacity) ops →
        AllSteps step RejectRestores (new α capacity) ops) ∧
      ((addedMetrics ops).Nodup → AllSteps step RejectRestores (new α capacity) ops →
        AllSteps step RejectAligned (new α capacity) ops) := by
  have hkeep : ∀ pre (s : BufferClient α) op, Tracked pre s → Legal s op →
      RejectAligned s op → ∃ s', step s op = some s' ∧ Tracked (pre ++ [op]) s' :=
    fun pre s op h hop hok => exists_step_of_lossless h hop (lossless_of_aligned hok)
  have hstart : Tracked [] (new α capacity) := ⟨0, [], [], tracks_new hcap⟩
  constructor
  · refine allSteps_mono (P := Tracked) (fun pre s op _ h hop hok => ?_) ops [] _ rfl
      hstart hlegal
    obtain ⟨s', hs', h'⟩ := hkeep pre s op h hop hok
    refine ⟨?_, fun t ht => (Option.some.inj (hs'.symm.trans ht)) ▸ h'⟩
    by_cases hrej : op = .reject
    · subst hrej
      obtain ⟨F, live, taken, h⟩ := h
      exact rejectRestores_of_aligned h hop hok
    · exact ⟨s', hs', fun h => absurd h hrej⟩
  · intro hnodup
    refine allSteps_mono (P := Tracked) (fun pre s op hpre h hop hrest => ?_) ops [] _
      rfl hstart hlegal
    have hok : RejectAligned s op := by
      rintro rfl
      obtain ⟨F, live, taken, h⟩ := h
      have hpre' := hnodup.sublist (addedMetrics_sublist hpre)
      rw [addedMetrics_append] at hpre'
      exact aligned_of_rejectRestores h hpre'.of_append_left hop hrest rfl
    obtain ⟨s', hs', h'⟩ := hkeep pre s op h hop hok
    exact ⟨hok, fun t ht => (Option.some.inj (hs'.symm.trans ht)) ▸ h'⟩

theorem restores_of_add_in_flight :
    AllSteps step RejectRestores (new ℕ 2)
      [.add [1, 2], .batch 1, .add [3], .reject, .batch 2, .accept] :=
  (restores_iff_aligned (by decide) _ (by decide)).1 (by decide)

/-- Five metrics are added to a buffer of three while one is in flight. It comes back
between the two newest, and the newest metric but two is gone. -/
theorem reject_misplaces_batch :
    let ops := [.add [1], .batch 1, .add [2, 3, 4, 5, 6], .reject]
    AllSteps step Legal (new ℕ 3) ops ∧ (addedMetrics ops).Nodup ∧
      ∃ s, run step (new ℕ 3) ops = some s ∧
        s.buffer.contents = [some 5, some 1, some 6] ∧
        (s.beforeBatch ++ s.newer.map some).rtake s.buffer.cap = [some 4, some 5, some 6] ∧
        ¬AllSteps step RejectRestores (new ℕ 3) ops := by
  refine ⟨by decide, by decide, _, rfl, by decide, by decide, fun h => ?_⟩
  obtain ⟨_, hs', hrest⟩ := (((h.2 _ rfl).2 _ rfl).2 _ rfl).1
  cases hs'
  exact absurd (hrest rfl).1 (by decide)

/-! ## Without `Reject` -/

/-- The buffer's live metrics hold what the stack holds, and `Reject()` was called on what the
stack dropped. -/
structure Refines (capacity : ℕ) (s : BufferClient α) (r : BoundedStack α) : Prop where
  ring : ∃ F, s.buffer.Ring F r.live
  cap : s.buffer.cap = capacity
  rejected : s.buffer.rejected = r.dropped
  lastBatch : ∃ ms : List α, s.lastBatch = ms.map some

theorem step_refines {r : BoundedStack α} (h : Refines capacity s r) (hop : op ≠ .reject) :
    ∃ s', step s op = some s' ∧ Refines capacity s' (r.step capacity op) := by
  obtain ⟨⟨F, hring⟩, rfl, hrej, ⟨taken, hlast⟩⟩ := h
  cases op with
  | add metrics =>
    obtain ⟨b', F', hadd, hring', heff, -⟩ := Buffer.addMetrics_spec hring metrics
    refine ⟨_, step_add_of hadd, ⟨F', hring'⟩, heff.cap, ?_, taken, hlast⟩
    rw [heff.rejected, hrej, ← length_append]
    rfl
  | batch n =>
    obtain ⟨b', hbatch, hring', heff, -⟩ := Buffer.batch_spec hring n
    exact ⟨_, step_batch_of hbatch, ⟨F, hring'⟩, heff.cap, heff.rejected.trans hrej,
      (r.live.rtake n).reverse, by rw [map_reverse]⟩
  | accept =>
    have haccept := Buffer.accept_eq s.buffer taken
    rw [← hlast] at haccept
    exact ⟨_, step_accept_of haccept, ⟨F, hring.cap_pos, hring.buf_length, hring.first,
      hring.last, hring.size, hring.slots⟩, rfl, hrej, taken, hlast⟩
  | reject => exact absurd rfl hop

/-- After any calls but `Reject` the buffer holds what the bounded stack of the newest
metrics holds, has rejected what that dropped, and the next `Add` and `Batch` return what
the stack drops and pops. -/
theorem refines_boundedStack {capacity : ℕ} (hcap : 0 < capacity) (ops : List (BufferOp α))
    (hops : BufferOp.reject ∉ ops) :
    ∃ s, run step (new α capacity) ops = some s ∧
      s.buffer.contents = (run capacity ops).live.map some ∧
      s.buffer.rejected = (run capacity ops).dropped ∧
      (∀ metrics, ∃ b, s.buffer.addMetrics metrics =
        some (b, ((run capacity ops).overflow capacity metrics).length)) ∧
      ∀ n, ∃ b, s.buffer.batch n =
        some (b, (((run capacity ops).live.rtake n).map some).reverse) := by
  have hstep : ∀ pre (s : BufferClient α) op, Refines capacity s (run capacity pre) →
      op ≠ .reject → ∃ s', step s op = some s' ∧
        Refines capacity s' (run capacity (pre ++ [op])) := by
    intro pre s op h hop
    rw [BoundedStack.run, foldl_append]
    exact step_refines h hop
  obtain ⟨s, hs, ⟨F, hring⟩, rfl, hrej, -⟩ := exists_run_of_allSteps hstep ops [] _
    ⟨⟨0, Buffer.ring_newBuffer hcap⟩, rfl, rfl, [], rfl⟩
    (allSteps_of_forall ops (new α capacity) fun op hop h => hops (h ▸ hop))
  refine ⟨s, hs, hring.contents_eq, hrej, fun metrics => ?_, fun n => ?_⟩
  · obtain ⟨b', _, hadd, -⟩ := Buffer.addMetrics_spec hring metrics
    refine ⟨b', ?_⟩
    rw [overflow, rdrop, length_take, length_append, Nat.min_eq_left (Nat.sub_le _ _)]
    exact hadd
  · obtain ⟨b', hbatch, -⟩ := Buffer.batch_spec hring n
    exact ⟨b', hbatch⟩

theorem refines_boundedStack_add_in_flight :
    ∃ s, run step (new ℕ 2) [.add [1, 2], .batch 1, .add [3, 4], .accept] = some s ∧
      s.buffer.contents = [some 3, some 4] ∧ s.buffer.rejected = [1] := by
  obtain ⟨s, hs, hcontents, hrej, -⟩ := refines_boundedStack (by decide : 0 < 2)
    [.add [1, 2], .batch 1, .add [3, 4], .accept] (by decide)
  exact ⟨s, hs, hcontents.trans (by decide), hrej.trans (by decide)⟩

end BufferClient

end Telegraf
