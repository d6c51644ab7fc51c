import Telegraf.Machine

/-!
# Closing a gzip stream

`CompressWithGzip` (`internal/internal.go`) starts a goroutine that copies a source through gzip
into a pipe. `ReadWaitCloser.Close` waits for it, but what is returned is the reader of the pipe,
whose `Close` only makes writes to the pipe fail. gzip keeps data back once it has written its
header, so the goroutine can read on without a write. After `Close` the source is not read any more
exactly if the goroutine has stopped copying or is in its last write, or has to write to the pipe
first (`no_read_after_close_iff`).
-/

namespace Telegraf.GzipPipe

/-- Where the goroutine is. -/
inductive CopyPc where
  /-- Before a `Read` on the source. -/
  | reading
  /-- In `gzipWriter.Write`, after a `Read` that was the last one or not. -/
  | writing (last : Bool)
  /-- In `gzipWriter.Close`. -/
  | closing
  | closeWithError
  | wgDone
  | finished
deriving Repr, DecidableEq

/-- The goroutine and its pipe. `pending` is a write to the pipe that has not returned. -/
structure State where
  pc : CopyPc
  pending : Bool
  wroteHeader : Bool
  readerClosed : Bool
  writerClosed : Bool
  wg : ℕ
deriving Repr, DecidableEq

/-- The state that `CompressWithGzip` returns with. -/
def start : State :=
  ⟨.reading, false, false, false, false, 1⟩

/-- The steps of the goroutine, and those of the consumer. -/
inductive Event where
  /-- A `Read` on the source, with data or not, and the last one for an error or the end. -/
  | read (data last : Bool)
  /-- gzip writes to the pipe, first of all its header. How often it does is up to gzip. -/
  | pipeWrite
  /-- The consumer reads a pending write, or a part of it. -/
  | consume (all : Bool)
  | pipeError
  | gzipReturn
  | closeWithError
  | wgDone
  /-- `Close` on what `CompressWithGzip` returned. -/
  | close
deriving Repr, DecidableEq

def step (s : State) : Event → Option State
  | .read data last =>
    if s.pc = .reading then
      some { s with pc := if data then .writing last else if last then .closing else .reading }
    else none
  | .pipeWrite =>
    match s.pc with
    | .writing _ | .closing =>
      if s.pending then none else some { s with pending := true, wroteHeader := true }
    | _ => none
  | .consume all =>
    if s.pending ∧ s.readerClosed = false then some { s with pending := !all } else none
  | .pipeError =>
    if s.pending ∧ s.readerClosed then
      match s.pc with
      -- `io.Copy` returns the error
      | .writing _ => some { s with pending := false, pc := .closing }
      | _ => some { s with pending := false, pc := .closeWithError }
    else none
  | .gzipReturn =>
    if s.pending then none
    else
      match s.pc with
      | .writing last =>
        if s.wroteHeader then some { s with pc := if last then .closing else .reading } else none
      | .closing => some { s with pc := .closeWithError }
      | _ => none
  | .closeWithError =>
    if s.pc = .closeWithError then some { s with pc := .wgDone, writerClosed := true } else none
  | .wgDone => if s.pc = .wgDone then some { s with pc := .finished, wg := s.wg - 1 } else none
  | .close => some { s with readerClosed := true }

/-- The goroutine can read the source without a write to the pipe. -/
def State.CanRead (s : State) : Prop :=
  s.pc = .reading ∨ s.pc = .writing false ∧ s.pending = false ∧ s.wroteHeader = true

/-- No step after `Close` makes the goroutine read again. -/
theorem step_of_not_canRead {s s' : State} {e : Event} (hclosed : s.readerClosed = true)
    (hs : ¬s.CanRead) (hstep : step s e = some s') :
    s'.readerClosed = true ∧ ¬s'.CanRead ∧ ∀ data last, e ≠ .read data last := by
  obtain ⟨_, _, _, readerClosed, _, _⟩ := s
  cases hclosed
  cases e <;> simp only [step] at hstep <;> grind [State.CanRead]

/-- Whatever happened before : the source is not read after `Close` if and only if the goroutine
cannot read it without a write to the pipe. -/
theorem no_read_after_close_iff (s : State) :
    (∀ later s', Machine.run step s (.close :: later) = some s' → ∀ e ∈ later, ∀ data last,
      e ≠ .read data last) ↔ ¬s.CanRead := by
  constructor
  · rintro h (hpc | ⟨hpc, hpending, hheader⟩)
    · exact h [.read false false] _ (by simp [Machine.run, step, hpc]; rfl) _
        List.mem_cons_self _ _ rfl
    · exact h [.gzipReturn, .read false false] _
        (by simp [Machine.run, step, hpc, hpending, hheader]; rfl) _
        (List.mem_cons_of_mem _ List.mem_cons_self) _ _ rfl
  · intro hs later s' hrun
    have hrun : Machine.run step { s with readerClosed := true } later = some s' := hrun
    refine (Machine.run_induction (P := fun later t => t.readerClosed = true ∧ ¬t.CanRead ∧
      ∀ e ∈ later, ∀ data last, e ≠ .read data last) ⟨rfl, hs, by simp⟩ ?_ hrun).2.2
    intro later t e _ ⟨hclosed, ht, hlater⟩ hstep
    obtain ⟨hclosed', ht', he⟩ := step_of_not_canRead hclosed ht hstep
    refine ⟨hclosed', ht', fun e' he' => ?_⟩
    rcases List.mem_append.1 he' with he' | he'
    · exact hlater e' he'
    · rw [List.mem_singleton.1 he']
      exact he

/-- The consumer closes after the header. gzip keeps the data back, and the goroutine reads on. -/
theorem read_after_close :
    (Machine.run step start [.read true false, .pipeWrite, .consume true, .close, .gzipReturn,
      .read true false]).isSome := by
  decide

end Telegraf.GzipPipe
