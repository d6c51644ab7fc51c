import Telegraf.Circular

/-!
# The output buffer

`Buffer` of `internal/models/buffer.go` : the circular store between the agent and an
output. `Add` puts metrics at `last`, dropping the oldest when the ring is full, `Batch`
hands out the newest metrics and empties their slots, and the batch comes back through
`Accept` (written) or `Reject` (put back under the metrics that arrived meanwhile).

A metric is a value of `α`, a slot is an `Option α` with `none` for nil. The calls made
on metrics are logged : `accepted` and `rejected` list the receivers of `Accept()` and
`Reject()` in call order. A function returns `none` where the Go code panics, on a nil
receiver or an index outside `buf`. The mutex makes each exported method one step.
-/

namespace Telegraf

/-- `Buffer` (`buffer.go:16-32`), with the log of the calls made on metrics. -/
structure Buffer (α : Type*) where
  buf : List (Option α)
  /-- Index of the first/oldest metric. -/
  first : ℕ
  /-- One after the index of the last/newest metric. -/
  last : ℕ
  /-- Number of metrics currently in the buffer. -/
  size : ℕ
  cap : ℕ
  /-- Index of the first metric in the batch. -/
  batchFirst : ℕ
  /-- Number of metrics currently in the batch. -/
  batchSize : ℕ
  metricsAdded : ℕ
  metricsWritten : ℕ
  metricsDropped : ℕ
  bufferSize : ℕ
  bufferLimit : ℕ
  /-- Receivers of `Accept()`, in call order. -/
  accepted : List α
  /-- Receivers of `Reject()`, in call order. -/
  rejected : List α
deriving Repr, DecidableEq

/-- `NewBuffer` (`buffer.go:35`), with its self-statistics at zero. -/
def newBuffer (α : Type*) (capacity : ℕ) : Buffer α where
  buf := List.replicate capacity none
  first := 0
  last := 0
  size := 0
  cap := capacity
  batchFirst := 0
  batchSize := 0
  metricsAdded := 0
  metricsWritten := 0
  metricsDropped := 0
  bufferSize := 0
  bufferLimit := capacity
  accepted := []
  rejected := []

namespace Buffer

variable {α : Type*}

/-! ## Indices -/

/-- `length` (`buffer.go:87`), the value of `Len`. -/
def length (b : Buffer α) : ℕ :=
  min (b.size + b.batchSize) b.cap

/-- The next index with wrapping. -/
def next (b : Buffer α) (index : ℕ) : ℕ :=
  if index + 1 = b.cap then 0 else index + 1

/-- The index that is `count` newer with wrapping. -/
def nextby (b : Buffer α) (index count : ℕ) : ℕ :=
  (index + count) % b.cap

/-- The previous index with wrapping. -/
def prev (b : Buffer α) (index : ℕ) : ℕ :=
  if index = 0 then b.cap - 1 else index - 1

/-- The distance between two indexes. -/
def dist (b : Buffer α) (start stop : ℕ) : ℕ :=
  if start ≤ stop then stop - start else b.cap - start + stop

/-! ## Slots and metrics -/

section

variable (b : Buffer α)

/-- `b.buf[index] = m`, a panic outside the slice. -/
def setSlot (index : ℕ) (m : Option α) : Option (Buffer α) :=
  if index < b.buf.length then some { b with buf := b.buf.set index m } else none

def metricAdded : Buffer α :=
  { b with metricsAdded := b.metricsAdded + 1 }

/-- Count the metric as written and call its `Accept()`. -/
def metricWritten : Option α → Option (Buffer α)
  | some m => some { b with
      metricsWritten := b.metricsWritten + 1, accepted := b.accepted ++ [m] }
  | none => none

/-- Count the metric as dropped and call its `Reject()`. -/
def metricDropped : Option α → Option (Buffer α)
  | some m => some { b with
      metricsDropped := b.metricsDropped + 1, rejected := b.rejected ++ [m] }
  | none => none

def resetBatch : Buffer α :=
  { b with batchFirst := 0, batchSize := 0 }

/-- `b.BufferSize.Set(int64(b.length()))`. -/
def setBufferSize : Buffer α :=
  { b with bufferSize := b.length }

end

/-! ## Adding -/

/-- `add` (`buffer.go:107-131`) : the buffer and the number of dropped metrics. -/
def add (b : Buffer α) (m : α) : Option (Buffer α × ℕ) := do
  let (b, dropped) ←
    if b.size = b.cap then do
      let oldest ← b.buf[b.last]?
      let b ← b.metricDropped oldest
      if b.last = b.batchFirst ∧ 0 < b.batchSize then
        pure ({ b with batchSize := b.batchSize - 1, batchFirst := b.next b.batchFirst }, 1)
      else pure (b, 1)
    else pure (b, 0)
  let b := b.metricAdded
  let b ← b.setSlot b.last (some m)
  let b := { b with last := b.next b.last }
  let b := if b.size = b.cap then { b with first := b.next b.first } else b
  pure ({ b with size := min (b.size + 1) b.cap }, dropped)

/-- The loop of `Add`. -/
def addEach (b : Buffer α) : List α → Option (Buffer α × ℕ)
  | [] => some (b, 0)
  | m :: metrics => do
    let (b, n) ← b.add m
    let (b, dropped) ← b.addEach metrics
    pure (b, n + dropped)

/-- `Add` (`buffer.go:134`). -/
def addMetrics (b : Buffer α) (metrics : List α) : Option (Buffer α × ℕ) := do
  let (b, dropped) ← b.addEach metrics
  pure (b.setBufferSize, dropped)

/-! ## Taking a batch -/

/-- The loop of `Batch` : take `n` slots from `batchIndex` on, each in front of the ones
before it, and leave nil. -/
def takeSlots (b : Buffer α) : ℕ → ℕ → List (Option α) → Option (Buffer α × List (Option α))
  | 0, _, out => some (b, out)
  | n + 1, batchIndex, out => do
    let m ← b.buf[batchIndex]?
    let b ← b.setSlot batchIndex none
    b.takeSlots n (b.next batchIndex) (m :: out)

/-- `Batch` (`buffer.go:152-176`). -/
def batch (b : Buffer α) (batchSize : ℕ) : Option (Buffer α × List (Option α)) :=
  let outLen := min b.size batchSize
  if outLen = 0 then some (b, [])
  else do
    let batchFirst := (b.cap + b.last - outLen) % b.cap
    let b := { b with batchFirst := batchFirst, batchSize := outLen }
    let (b, out) ← b.takeSlots outLen batchFirst []
    pure ({ b with last := b.batchFirst, size := b.size - outLen }, out)

/-! ## Giving a batch back -/

/-- The loop of `Accept`. -/
def writtenEach (b : Buffer α) : List (Option α) → Option (Buffer α)
  | [] => some b
  | m :: batch => do
    let b ← b.metricWritten m
    b.writtenEach batch

/-- `Accept` (`buffer.go:179`). -/
def accept (b : Buffer α) (batch : List (Option α)) : Option (Buffer α) := do
  let b ← b.writtenEach batch
  pure b.resetBatch.setBufferSize

/-- The rotation loop of `Reject` (`buffer.go:211-222`), with the final `re`. The loop has
no bound of its own; it returns `none` if `fuel` passes do not end it. -/
def rotateNewer (b : Buffer α) (rb : ℕ) : ℕ → ℕ → ℕ → Option (Buffer α × ℕ)
  | 0, _, _ => none
  | fuel + 1, rp, re =>
    if rb ≠ rp ∧ rp ≠ re then do
      let rp := b.prev rp
      let re := b.prev re
      let old ← b.buf[re]?
      let b ← match old with
        | none => some b
        | some _ => do
          let b ← b.metricDropped old
          pure { b with first := b.next b.first }
      let m ← b.buf[rp]?
      let b ← b.setSlot re m
      let b ← b.setSlot rp none
      b.rotateNewer rb fuel rp re
    else some (b, re)

/-- The loop of `Reject` that copies the batch back (`buffer.go:226-234`), from `batch[i]` on. -/
def restoreBatch (b : Buffer α) (restore : ℕ) : ℕ → ℕ → List (Option α) → Option (Buffer α)
  | _, _, [] => some b
  | i, re, m :: batch =>
    if i < restore then do
      let re := b.prev re
      let b ← b.setSlot re m
      let b := { b with size := min (b.size + 1) b.cap }
      b.restoreBatch restore (i + 1) re batch
    else do
      let b ← b.metricDropped m
      b.restoreBatch restore (i + 1) re batch

/-- `Reject` (`buffer.go:193-238`). -/
def reject (b : Buffer α) (batch : List (Option α)) : Option (Buffer α) :=
  if batch.length = 0 then some b
  else do
    let older := b.dist b.first b.batchFirst
    let free := b.cap - b.size
    let restore := min batch.length (free + older)
    let rb := b.batchFirst
    let rp := b.last
    let re := b.nextby rp restore
    let b := { b with last := re }
    let (b, re) ← b.rotateNewer rb b.cap rp re
    let b ← b.restoreBatch restore 0 re batch
    pure b.resetBatch.setBufferSize

end Buffer

end Telegraf
