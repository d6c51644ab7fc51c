import Telegraf.InfluxHandler

/-!
# The streaming line protocol machine

`streamMachine` (`plugins/parsers/influx/machine.go.rl`) reads its input piece by piece into a
buffer. `Next` moves what has not been read to the front of the buffer and reads on, doubling the
buffer when it is full, until the machine has a metric, an error or the end of the input. If the
end of the input is neither, as behind a carriage return at the end of a line, `Next` reads on for
ever.

`streamParser_iff` : however the input is cut into pieces, the calls give what the calls of the
machine over the whole input give, exactly if the automaton is not at such a place after the last
byte.
-/

open List hiding isEmpty_iff

namespace Telegraf.Influx

open Scanner LineMachine MetricHandler Telegraf.Influx.Config

variable {H E M : Type}

/-! ## Readers -/

/-- An `io.Reader` with what its reads will give. The end of the input can come with the last
bytes. -/
structure Reader where
  chunks : List GoString
  eofWithLast : Bool
deriving Repr, DecidableEq

/-- `Read` into a slice of length `n` : the bytes, and whether the error is `io.EOF`. A chunk that
is too long is cut. -/
def Reader.read (r : Reader) (n : ℕ) : GoString × Bool × Reader :=
  match r.chunks with
  | [] => ([], true, r)
  | chunk :: chunks =>
    if chunk.length ≤ n then (chunk, chunks.isEmpty && r.eofWithLast, { r with chunks := chunks })
    else (chunk.take n, false, { r with chunks := chunk.drop n :: chunks })

/-- The bytes that are still to come. -/
def Reader.rest (r : Reader) : GoString :=
  r.chunks.flatten

/-- The number of reads is bounded. -/
def Reader.size (r : Reader) : ℕ :=
  r.rest.length + r.chunks.length

variable {n : ℕ}

theorem Reader.read_spec {r r' : Reader} {bytes : GoString} {atEof : Bool} (hn : 0 < n)
    (hread : r.read n = (bytes, atEof, r')) :
    bytes.length ≤ n ∧ r.rest = bytes ++ r'.rest ∧ (atEof = true → r'.chunks = []) ∧
      (r.chunks = [] → bytes = [] ∧ atEof = true) ∧ (r.chunks ≠ [] → r'.size < r.size) := by
  obtain ⟨chunks, eofWithLast⟩ := r
  cases chunks with
  | nil =>
    obtain ⟨rfl, rfl, rfl⟩ : [] = bytes ∧ true = atEof ∧ ⟨[], eofWithLast⟩ = r' := by
      simpa [read] using hread
    simp [rest]
  | cons chunk =>
    by_cases hlen : chunk.length ≤ n
    · simp only [read, if_pos hlen, Prod.mk.injEq] at hread
      obtain ⟨rfl, rfl, rfl⟩ := hread
      refine ⟨hlen, by simp [rest], fun heof => ?_, by simp, fun _ => ?_⟩
      · simp only [Bool.and_eq_true, List.isEmpty_iff] at heof
        exact heof.1
      · simp only [size, rest, flatten_cons, length_append, length_cons]
        omega
    · simp only [read, if_neg hlen, Prod.mk.injEq] at hread
      obtain ⟨rfl, rfl, rfl⟩ := hread
      refine ⟨by simp only [length_take]; omega, ?_, by simp, by simp, fun _ => ?_⟩
      · rw [rest, rest, flatten_cons, flatten_cons, ← append_assoc, take_append_drop]
      · simp only [size, rest, flatten_cons, length_append, length_cons, length_drop]
        omega

/-! ## The machine -/

namespace LineMachine

/-- `copy(m.data, m.data[m.p:])` with the positions, and the beginning of a call. -/
def shift (m : LineMachine H) : LineMachine H :=
  { m with
    data := m.data.drop m.p ++ m.data.drop (m.data.length - m.p)
    pe := m.pe - m.p
    pb := 0
    p := 0
    eof := none
    key := (0, 0)
    beginMetric := false
    finishMetric := false }

/-- Expand the buffer if it is full. -/
def expand (m : LineMachine H) : LineMachine H :=
  if m.pe = m.data.length then
    { m with data := m.data ++ List.replicate m.data.length 0 }
  else m

/-- What a read does to the buffer. -/
def fill (m : LineMachine H) (bytes : GoString) (atEof : Bool) : LineMachine H :=
  { m with
    data := m.data.take m.pe ++ bytes ++ m.data.drop (m.pe + bytes.length)
    pe := m.pe + bytes.length
    eof := if bytes = [] ∧ atEof then some m.pe else m.eof }

end LineMachine

/-- `streamMachine`. -/
structure StreamMachine (H : Type) where
  machine : LineMachine H
  reader : Reader
deriving Repr, DecidableEq

namespace StreamMachine

/-- `NewStreamMachine`. -/
def new (r : Reader) (s : H) : StreamMachine H where
  machine := { setData (List.replicate 1024 0) s with pe := 0, eof := none }
  reader := r

/-- The loop of `Next`. -/
def loop (h : Handler H E) : ℕ → StreamMachine H → Option (StreamMachine H × Ret E)
  | 0, _ => none
  | fuel + 1, s =>
    let m := s.machine.expand
    match s.reader.read (m.data.length - m.pe) with
    | (bytes, atEof, reader) =>
      match (m.fill bytes atEof).exec h with
      | (m, .nil) => if m.finishMetric then some (⟨m, reader⟩, .nil) else loop h fuel ⟨m, reader⟩
      | (m, r) => some (⟨m, reader⟩, r)

def next (h : Handler H E) (fuel : ℕ) (s : StreamMachine H) : Option (StreamMachine H × Ret E) :=
  if s.machine.p = s.machine.pe ∧ s.machine.eof = some s.machine.pe then some (s, .eof)
  else loop h fuel { s with machine := s.machine.shift }

/-- `StreamParser.Next`, without read errors. -/
def nextResult (h : Handler H E) (metric : H → H × Option M) (fuel : ℕ) (s : StreamMachine H) :
    Option (StreamMachine H × Result M E) :=
  (s.next h fuel).map fun (s, r) =>
    ({ s with machine := { s.machine with handler := (result metric s.machine.handler r).1 } },
      (result metric s.machine.handler r).2)

end StreamMachine

/-- The results of a `StreamParser`. -/
def Streamed (h : Handler H E) (metric : H → H × Option M) (s : H) (reader : Reader)
    (rs : List (Result M E)) : Prop :=
  Gives (fun s r s' => ∃ fuel, StreamMachine.nextResult h metric fuel s = some (s', r))
    Result.IsLast (StreamMachine.new reader s) rs

/-! ## The buffer -/

namespace LineMachine

variable {h : Handler H E} {m : LineMachine H}

theorem slice_congr {data data' : GoString} {n i j : ℕ} (hdata : data.take n = data'.take n)
    (hj : j ≤ n) : slice data i j = slice data' i j := by
  rw [slice, slice, ← min_eq_left hj, ← take_take, hdata, take_take]

/-- What the machine has read is not changed by a change behind it. -/
theorem config_congr {data : GoString} {pe : ℕ} {eof : Option ℕ} (hwf : m.Wf)
    (hdata : data.take m.pe = m.data.take m.pe) :
    { m with data := data, pe := pe, eof := eof }.config = m.config := by
  have hp := hwf.p_le
  have hkey := hwf.key_le
  simp only [config, text, slice_congr hdata hp, slice_congr hdata (hkey.trans hp)]

theorem config_expand (hwf : m.Wf) : m.expand.config = m.config := by
  unfold expand
  split
  · exact config_congr hwf (take_append_of_le_length hwf.pe_le)
  · rfl

theorem unread_expand (hwf : m.Wf) : m.expand.unread = m.unread := by
  unfold expand
  split
  · exact slice_congr (take_append_of_le_length hwf.pe_le) le_rfl
  · rfl

theorem Wf.expand (hwf : m.Wf) : m.expand.Wf := by
  unfold LineMachine.expand
  split
  · refine ⟨hwf.p_le, ?_, hwf.pb_le, hwf.key_le⟩
    have := hwf.pe_le
    simp only [length_append]
    omega
  · exact hwf

theorem room_expand (hwf : m.Wf) (hpos : 0 < m.data.length) :
    0 < m.expand.data.length - m.expand.pe := by
  have := hwf.pe_le
  unfold expand
  split
  · simp only [length_append, length_replicate]
    omega
  · omega

section

variable (hwf : m.Wf) (bytes : GoString) (atEof : Bool)

include hwf bytes atEof

theorem take_fill : (m.fill bytes atEof).data.take m.pe = m.data.take m.pe := by
  have := hwf.pe_le
  simp only [fill, append_assoc]
  rw [take_append_of_le_length (by simp; omega), take_take, min_self]

theorem config_fill : (m.fill bytes atEof).config = m.config :=
  config_congr hwf (take_fill hwf bytes atEof)

theorem unread_fill : (m.fill bytes atEof).unread = m.unread ++ bytes := by
  have hp := hwf.p_le
  have hpe := hwf.pe_le
  have hlen : (m.data.take m.pe).length = m.pe := by simp; omega
  have htake : (m.data.take m.pe ++ bytes ++ m.data.drop (m.pe + bytes.length)).take
      (m.pe + bytes.length) = m.data.take m.pe ++ bytes := by
    rw [take_left']
    simp [hlen]
  simp only [unread, slice, fill]
  rw [htake, drop_append_of_le_length (by omega)]

theorem Wf.fill : (m.fill bytes atEof).Wf := by
  have hp := hwf.p_le
  have hpe := hwf.pe_le
  refine ⟨by simp only [LineMachine.fill]; omega, ?_, hwf.pb_le, hwf.key_le⟩
  simp only [LineMachine.fill, length_append, length_take, length_drop]
  omega

end

theorem length_fill (hwf : m.Wf) {bytes : GoString} (hlen : bytes.length ≤ m.data.length - m.pe)
    (atEof : Bool) : (m.fill bytes atEof).data.length = m.data.length := by
  have hroom := Nat.add_le_of_le_sub' hwf.pe_le hlen
  simp only [fill, length_append, length_take, length_drop]
  omega

theorem config_shift (hcs : begun m.cs = false) : m.shift.config = m.config.start := by
  simp only [config, shift, hcs, slice_self]
  rfl

theorem unread_shift (hwf : m.Wf) : m.shift.unread = m.unread := by
  have hp := hwf.p_le
  have hpe := hwf.pe_le
  have htake : (m.data.drop m.p ++ m.data.drop (m.data.length - m.p)).take (m.pe - m.p) =
      (m.data.drop m.p).take (m.pe - m.p) :=
    take_append_of_le_length (by simp only [length_drop]; omega)
  simp only [unread, slice, shift, drop_zero]
  rw [htake, drop_take]

theorem Wf.shift (hwf : m.Wf) : m.shift.Wf := by
  have hpe := hwf.pe_le
  refine ⟨Nat.zero_le _, ?_, le_rfl, le_rfl⟩
  simp only [LineMachine.shift, length_append, length_drop]
  omega

theorem length_shift (hwf : m.Wf) : m.shift.data.length = m.data.length := by
  have hp := hwf.p_le
  have hpe := hwf.pe_le
  simp only [shift, length_append, length_drop]
  omega

end LineMachine

/-! ## Calls of the streaming machine -/

namespace StreamMachine

variable {h : Handler H E} {metric : H → H × Option M} {s s' : StreamMachine H} {c : Config H}
  {rest : GoString}

/-- Where a call has left the streaming machine. -/
structure Left (s : StreamMachine H) (c : Config H) (rest : GoString) : Prop where
  wf : s.machine.Wf
  pos : 0 < s.machine.data.length
  unread : s.machine.unread ++ s.reader.rest = rest
  handler : s.machine.handler = c.handler
  config : (s.machine.config = c ∧ c.Outside) ∨
    rest = [] ∧ s.machine.p = s.machine.pe ∧ s.machine.eof = some s.machine.pe
  ended : s.machine.eof ≠ none → s.reader.rest = []

/-- With enough fuel the machine does what a call with all of the input does, and if that ends with
nothing the machine does not end. -/
def Meets (run : ℕ → Option (StreamMachine H × Ret E)) : Call H E → Prop
  | .finished c rest => ∃ n s', run n = some (s', .nil) ∧ s'.Left c rest
  | .failed c e rest => ∃ n s', run n = some (s', .error e) ∧ s'.Left c rest
  | .eof => ∃ n s', run n = some (s', .eof)
  | .unfinished _ => ∀ n, run n = none

variable {m : LineMachine H} {reader reader' : Reader}

theorem loop_succ {bytes : GoString} {atEof : Bool}
    (hread : reader.read (m.expand.data.length - m.expand.pe) = (bytes, atEof, reader')) :
    loop h (n + 1) ⟨m, reader⟩ =
      match (m.expand.fill bytes atEof).exec h with
      | (m, .nil) => if m.finishMetric then some (⟨m, reader'⟩, .nil) else loop h n ⟨m, reader'⟩
      | (m, r) => some (⟨m, reader'⟩, r) := by
  rw [loop]
  simp only [hread]

/-- The machine after a read. -/
structure Refilled (m m' : LineMachine H) (bytes : GoString) : Prop where
  wf : m'.Wf
  pos : 0 < m'.data.length
  config : m'.config = m.config
  unread : m'.unread = m.unread ++ bytes
  finishMetric : m'.finishMetric = m.finishMetric

theorem refilled (hwf : m.Wf) (hpos : 0 < m.data.length) (bytes : GoString)
    (hlen : bytes.length ≤ m.expand.data.length - m.expand.pe) (atEof : Bool) :
    Refilled m (m.expand.fill bytes atEof) bytes where
  wf := hwf.expand.fill bytes atEof
  pos := by
    have := room_expand hwf hpos
    rw [length_fill hwf.expand hlen]
    omega
  config := by rw [config_fill hwf.expand, config_expand hwf]
  unread := by rw [unread_fill hwf.expand, unread_expand hwf]
  finishMetric := by
    simp only [fill, expand]
    split <;> rfl

/-- A machine that is stuck at the end of the input reads on for ever. -/
theorem loop_of_stuck : ∀ (n : ℕ) {m : LineMachine H} {reader : Reader}, m.Wf →
    0 < m.data.length → m.p = m.pe → m.finishMetric = false → m.config.Uniform →
    m.config.Stuck → reader.chunks = [] → loop h n ⟨m, reader⟩ = none
  | 0, _, _, _, _, _, _, _, _, _ => rfl
  | n + 1, m, reader, hwf, hpos, hp, hfinish, huniform, hstuck, hchunks => by
    have hread : reader.read (m.expand.data.length - m.expand.pe) = ([], true, reader) := by
      rw [Reader.read, hchunks]
    have hfill := refilled hwf hpos [] (Nat.zero_le _) true
    obtain ⟨heof, hbegin⟩ := readEof_of_stuck (h := h) huniform hstuck
    have hexec : m.config.exec h [] = .unfinished m.config := by
      rw [Config.exec, scan_nil]
      simp only [heof, hbegin, if_true]
    obtain ⟨_, hwf', hdata', -, hspec⟩ := exec_spec (h := h) hfill.wf
      (hfill.config ▸ huniform) (hfill.finishMetric.trans hfinish) (by simp [fill])
    rw [hfill.config, hfill.unread, unread_eq_nil hp, append_nil, hexec] at hspec
    obtain ⟨hret, hfinish', hconfig', hp'⟩ := hspec
    rw [loop_succ hread, hret]
    simp only [hfinish', Bool.false_eq_true, if_false]
    exact loop_of_stuck n hwf' (by rw [hdata']; exact hfill.pos) hp' hfinish' (hconfig' ▸ huniform)
      (hconfig' ▸ hstuck) hchunks

theorem loop_spec_atEof (hwf : m.Wf)
    (hpos : 0 < m.data.length) (huniform : m.config.Uniform) (hfinish : m.finishMetric = false)
    (hread : reader.read (m.expand.data.length - m.expand.pe) = ([], true, reader'))
    (hchunks : reader'.chunks = []) :
    Meets (loop h · ⟨m, reader⟩) (m.config.exec h m.unread) := by
  have hfill := refilled hwf hpos [] (Nat.zero_le _) true
  have hrest : reader'.rest = [] := by rw [Reader.rest, hchunks, flatten_nil]
  obtain ⟨m', hwf', hdata', -, hspec⟩ := exec_spec (h := h) hfill.wf
    (hfill.config ▸ huniform) (hfill.finishMetric.trans hfinish) (by simp [fill])
  rw [hfill.config, hfill.unread, append_nil] at hspec
  have hpos' : 0 < m'.data.length := by
    rw [hdata']
    exact hfill.pos
  have hleft : ∀ {c rest}, m'.Left c rest → Left ⟨m', reader'⟩ c rest := fun hl =>
    ⟨hl.wf, hpos', by rw [hrest, append_nil, hl.unread], hl.handler,
      hl.config.imp_right fun hend => ⟨by rw [← hl.unread, unread_eq_nil hend.1], hend⟩,
      fun _ => hrest⟩
  cases hexec : m.config.exec h m.unread with
  | finished =>
    rw [hexec] at hspec
    obtain ⟨hret, hfinish', hl⟩ := hspec
    refine ⟨1, ⟨m', reader'⟩, (loop_succ hread).trans ?_, hleft hl⟩
    rw [hret]
    simp only [hfinish', if_true]
  | failed =>
    rw [hexec] at hspec
    obtain ⟨hret, hl⟩ := hspec
    refine ⟨1, ⟨m', reader'⟩, (loop_succ hread).trans ?_, hleft hl⟩
    rw [hret]
  | eof =>
    rw [hexec] at hspec
    refine ⟨1, ⟨m', reader'⟩, (loop_succ hread).trans ?_⟩
    rw [hspec]
  | unfinished =>
    rw [hexec] at hspec
    obtain ⟨hret, hfinish', hconfig', hp'⟩ := hspec
    intro n
    cases n with
    | zero => rfl
    | succ n =>
      refine (loop_succ hread).trans ?_
      rw [hret]
      simp only [hfinish', Bool.false_eq_true, if_false]
      obtain ⟨-, hc, hstuck⟩ := stuck_of_exec huniform hexec
      exact loop_of_stuck n hwf' hpos' hp' hfinish' (hconfig' ▸ hc) (hconfig' ▸ hstuck) hchunks

/-- `exec` in the middle of the input, up to the end of the buffer. -/
theorem exec_of_out_of_eof_eq_none (hwf : m.Wf) (heof : m.eof = none)
    (hscan : scan (react h) m.config m.unread = .out c) :
    ∃ m', m.exec h = (m', .nil) ∧ m'.config = c ∧ m'.unread = [] ∧ m'.eof = none ∧
      Execd m m' ∧ m'.finishMetric = m.finishMetric := by
  obtain ⟨m', hexec, hconfig, hp, hexecd, hfinish⟩ := exec_of_out hwf hscan
  have heof' : m'.eof = none := hexecd.eof.trans heof
  refine ⟨m', ?_, hconfig, unread_eq_nil hp, heof', hexecd, hfinish⟩
  rw [hexec]
  simp [testEof, ret, heof']

/-- However the input is cut into pieces, the loop does what a call with all of the input does. -/
theorem loop_spec (k : ℕ) : ∀ {m : LineMachine H} {reader : Reader}, reader.size = k → m.Wf →
    0 < m.data.length → m.config.Uniform → m.finishMetric = false → m.eof = none →
    Meets (loop h · ⟨m, reader⟩) (m.config.exec h (m.unread ++ reader.rest)) := by
  induction k using Nat.strong_induction_on with
  | h k ih =>
    intro m reader hsize hwf hpos huniform hfinish heof
    obtain ⟨bytes, atEof, reader', hread⟩ : ∃ bytes atEof reader',
        reader.read (m.expand.data.length - m.expand.pe) = (bytes, atEof, reader') :=
      ⟨_, _, _, rfl⟩
    obtain ⟨hlen, hrest, hatEof, hnil, hless⟩ :=
      Reader.read_spec (room_expand hwf hpos) hread
    by_cases hend : bytes = [] ∧ atEof = true
    · obtain ⟨rfl, rfl⟩ := hend
      have hchunks := hatEof rfl
      rw [hrest, Reader.rest, hchunks, flatten_nil, append_nil, append_nil]
      exact loop_spec_atEof hwf hpos huniform hfinish hread hchunks
    · have hfill := refilled hwf hpos bytes hlen atEof
      have heof' : (m.expand.fill bytes atEof).eof = none := by
        simp only [fill, hend, if_false, expand]
        split <;> exact heof
      have hless := hless fun hchunks => hend (hnil hchunks)
      rw [hrest, ← append_assoc]
      cases hscan : scan (react h) m.config (m.unread ++ bytes) with
      | stop c r rest =>
        have hbegin : r = none → c.beginMetric = true := by
          rintro rfl
          exact (uniform_scan huniform).2 rest hscan
        have hscan' := hscan
        rw [← hfill.config, ← hfill.unread] at hscan'
        obtain ⟨m', hexec, hconfig, hunread, hexecd, hline⟩ :=
          exec_of_stop hfill.wf hscan' hbegin
        have hleft : Left ⟨m', reader'⟩ c (rest ++ reader'.rest) :=
          ⟨hexecd.wf, by rw [hexecd.data]; exact hfill.pos, by rw [hunread], by rw [← hconfig]; rfl,
            .inl ⟨hconfig, outside_of_scan_stop hscan⟩,
            fun hne => absurd (hexecd.eof.trans heof') hne⟩
        rw [Config.exec, scan_append_of_stop hscan]
        cases r with
        | none =>
          refine ⟨1, ⟨m', reader'⟩, (loop_succ hread).trans ?_, hleft⟩
          rw [hexec]
          simp only [hline, if_true]
        | some =>
          refine ⟨1, ⟨m', reader'⟩, (loop_succ hread).trans ?_, hleft⟩
          rw [hexec]
      | out c =>
        have hscan' := hscan
        rw [← hfill.config, ← hfill.unread] at hscan'
        obtain ⟨m', hexec, hconfig, hunread, heof', hexecd, hfinish'⟩ :=
          exec_of_out_of_eof_eq_none hfill.wf heof' hscan'
        have hfinish' : m'.finishMetric = false := hfinish'.trans (hfill.finishMetric.trans hfinish)
        have hnext : ∀ n, loop h (n + 1) ⟨m, reader⟩ = loop h n ⟨m', reader'⟩ := by
          intro n
          rw [loop_succ hread, hexec]
          simp only [hfinish', Bool.false_eq_true, if_false]
        have hrec := ih reader'.size (hsize ▸ hless) rfl hexecd.wf
          (by rw [hexecd.data]; exact hfill.pos) (hconfig ▸ (uniform_scan huniform).1 hscan)
          hfinish' heof'
        rw [hconfig, hunread, nil_append] at hrec
        rw [exec_append hscan]
        cases hcall : c.exec h reader'.rest with
        | finished | failed =>
          rw [hcall] at hrec
          obtain ⟨n, s', hloop, hleft⟩ := hrec
          exact ⟨n + 1, s', (hnext n).trans hloop, hleft⟩
        | eof =>
          rw [hcall] at hrec
          obtain ⟨n, s', hloop⟩ := hrec
          exact ⟨n + 1, s', (hnext n).trans hloop⟩
        | unfinished =>
          rw [hcall] at hrec
          intro n
          cases n with
          | zero => rfl
          | succ n => exact (hnext n).trans (hrec n)

theorem next_of_outside (hleft : s.Left c rest) (hconfig : s.machine.config = c) (hc : c.Outside)
    (hend : ¬(s.machine.p = s.machine.pe ∧ s.machine.eof = some s.machine.pe)) :
    Meets (s.next h) (c.start.exec h rest) := by
  have hnext : ∀ n, s.next h n = loop h n ⟨s.machine.shift, s.reader⟩ := fun n => if_neg hend
  have hcs : begun s.machine.cs = false := by
    obtain ⟨x, hcs, hx⟩ := hc
    rw [show s.machine.cs = [x] from hcs ▸ congrArg Config.cs hconfig]
    simp [begun, hx]
  have hstart : s.machine.shift.config = c.start := by
    rw [config_shift hcs, hconfig]
  have hspec := loop_spec (h := h) s.reader.size rfl hleft.wf.shift
    (by rw [length_shift hleft.wf]; exact hleft.pos) (hstart ▸ hc.start) rfl rfl
  rw [hstart, unread_shift hleft.wf, hleft.unread] at hspec
  simpa only [hnext] using hspec

theorem next_of_left (hleft : s.Left c rest) (hne : rest ≠ []) :
    Meets (s.next h) (c.start.exec h rest) := by
  obtain ⟨hconfig, hc⟩ := hleft.config.resolve_right fun hend => hne hend.1
  refine next_of_outside hleft hconfig hc ?_
  rintro ⟨hp, heof⟩
  refine hne ?_
  rw [← hleft.unread, unread_eq_nil hp, hleft.ended (by simp [heof]), append_nil]

theorem next_of_left_nil (hleft : s.Left c []) : ∃ n s', s.next h n = some (s', .eof) := by
  by_cases hend : s.machine.p = s.machine.pe ∧ s.machine.eof = some s.machine.pe
  · exact ⟨0, s, if_pos hend⟩
  · obtain ⟨hconfig, hc⟩ := hleft.config.resolve_right fun h => hend h.2
    have hspec := next_of_outside (h := h) hleft hconfig hc hend
    rwa [exec_nil hc] at hspec

theorem loop_mono {r : StreamMachine H × Ret E} (hloop : loop h n s = some r) (k : ℕ) :
    loop h (n + k) s = some r := by
  induction n generalizing s with
  | zero => cases hloop
  | succ n ih =>
    obtain ⟨m, reader⟩ := s
    obtain ⟨bytes, atEof, reader', hread⟩ : ∃ bytes atEof reader',
        reader.read (m.expand.data.length - m.expand.pe) = (bytes, atEof, reader') :=
      ⟨_, _, _, rfl⟩
    rw [loop_succ hread] at hloop
    rw [Nat.add_right_comm, loop_succ hread]
    generalize (m.expand.fill bytes atEof).exec h = res at hloop ⊢
    obtain ⟨m', r'⟩ := res
    cases r' with
    | nil =>
      cases hfinish : m'.finishMetric with
      | true => simpa [hfinish] using hloop
      | false =>
        simp only [hfinish, Bool.false_eq_true, if_false] at hloop ⊢
        exact ih hloop
    | eof | error => exact hloop

/-- Fuel does not matter if there is enough. -/
theorem nextResult_unique {n n' : ℕ} {r r' : StreamMachine H × Result M E}
    (hn : s.nextResult h metric n = some r) (hn' : s.nextResult h metric n' = some r') :
    r = r' := by
  have hmono : ∀ {n : ℕ} {r : StreamMachine H × Result M E}, s.nextResult h metric n = some r →
      ∀ k, s.nextResult h metric (n + k) = some r := by
    intro n r hr k
    obtain ⟨x, hx, rfl⟩ := Option.map_eq_some_iff.1 hr
    have hx' : s.next h (n + k) = some x := by
      unfold next at hx ⊢
      split at hx
      · next hend => rwa [if_pos hend]
      · next hend =>
        rw [if_neg hend]
        exact loop_mono hx k
    rw [nextResult, hx', Option.map_some]
  have h₁ := hmono hn n'
  rw [Nat.add_comm, hmono hn' n] at h₁
  exact (Option.some.inj h₁).symm

theorem nextResult_of_eof (hnext : s.next h n = some (s', .eof)) :
    s.nextResult h metric n = some (s', .eof) := by
  rw [nextResult, hnext]
  rfl

theorem nextResult_of_error {e : ParseErr E} (hnext : s.next h n = some (s', .error e)) :
    s.nextResult h metric n = some (s', .error e) := by
  rw [nextResult, hnext]
  rfl

/-- The handler of the machine after `Metric`. -/
def handled (s : StreamMachine H) (t : H) : StreamMachine H :=
  { s with machine := { s.machine with handler := t } }

section

variable {n : ℕ} (hnext : s.next h n = some (s', .nil)) {t : H}

include hnext

theorem nextResult_of_metric {x : M} (hmetric : metric s'.machine.handler = (t, some x)) :
    s.nextResult h metric n = some (s'.handled t, .metric x) := by
  rw [nextResult, hnext]
  simp only [Option.map_some, result, hmetric]
  rfl

theorem nextResult_of_panic (hmetric : metric s'.machine.handler = (t, none)) :
    s.nextResult h metric n = some (s'.handled t, .panic) := by
  rw [nextResult, hnext]
  simp only [Option.map_some, result, hmetric]
  rfl

end

theorem Left.handled (hleft : s.Left c rest) (t : H) :
    (s.handled t).Left { c with handler := t } rest where
  wf := ⟨hleft.wf.1, hleft.wf.2, hleft.wf.3, hleft.wf.4⟩
  pos := hleft.pos
  unread := hleft.unread
  handler := rfl
  config := hleft.config.imp_left fun ⟨h, hc⟩ => ⟨by rw [← h]; rfl, hc⟩
  ended := hleft.ended

/-- The calls of both machines from where they have been left, if they do not come to be stuck. -/
theorem exists_gives (k : ℕ) : ∀ {m : LineMachine H} {s : StreamMachine H} {c : Config H}
    {rest : GoString}, c.remaining rest = k → m.Left c rest → m.eof = some m.pe → s.Left c rest →
    (rest ≠ [] → ¬(rest.foldl (feed h metric) c.start).Stuck) →
    ∃ rs, Gives (fun m r m' => LineMachine.nextResult h metric m = (m', r)) Result.IsLast m rs ∧
      Gives (fun s r s' => ∃ fuel, nextResult h metric fuel s = some (s', r))
        Result.IsLast s rs := by
  induction k using Nat.strong_induction_on with
  | h k ih =>
    intro m s c rest hk hm heof hs hstuck
    by_cases hne : rest = []
    · subst hne
      obtain ⟨n, s', hs'⟩ := next_of_left_nil (h := h) hs
      exact ⟨[.eof], .last (LineMachine.nextResult_of_eof (LineMachine.next_of_left_nil hm heof))
        trivial, .last ⟨n, nextResult_of_eof hs'⟩ trivial⟩
    · obtain ⟨-, hc⟩ := hm.config_eq hne
      obtain ⟨m', -, heof', hm'⟩ := LineMachine.next_of_left (h := h) hm heof hne
      have hs' := next_of_left (h := h) hs hne
      cases hexec : c.start.exec h rest with
      | eof =>
        rw [hexec] at hm' hs'
        obtain ⟨n, s', hs'⟩ := hs'
        exact ⟨[.eof], .last (LineMachine.nextResult_of_eof hm') trivial,
          .last ⟨n, nextResult_of_eof hs'⟩ trivial⟩
      | unfinished => exact absurd (stuck_foldl_of_exec hc.start hexec) (hstuck hne)
      | failed c' e =>
        rw [hexec] at hm' hs'
        obtain ⟨hm', hmleft⟩ := hm'
        obtain ⟨n, s', hs', hsleft⟩ := hs'
        obtain ⟨hless, hfold, -⟩ := exec_failed metric hc hne hexec
        obtain ⟨rs, hrs, hrs'⟩ := ih _ (hk ▸ hless) rfl hmleft heof' hsleft
          fun hne' => hfold hne' ▸ hstuck hne
        exact ⟨.error e :: rs, .cons (LineMachine.nextResult_of_error hm') id hrs,
          .cons ⟨n, nextResult_of_error hs'⟩ id hrs'⟩
      | finished c' =>
        rw [hexec] at hm' hs'
        obtain ⟨hm', hmleft⟩ := hm'
        obtain ⟨n, s', hs', hsleft⟩ := hs'
        obtain ⟨hless, hfold, -⟩ := exec_finished metric hc hne hexec
        cases hmetric : metric c'.handler with
        | mk t o =>
          cases o with
          | none =>
            exact ⟨[.panic],
              .last (LineMachine.nextResult_of_panic hm' (by rw [hmleft.handler, hmetric])) trivial,
              .last ⟨n, nextResult_of_panic hs' (by rw [hsleft.handler, hmetric])⟩ trivial⟩
          | some x =>
            have hafter : c'.afterMetric metric = { c' with handler := t }.start := by
              rw [afterMetric, hmetric]
            obtain ⟨rs, hrs, hrs'⟩ := ih _ (hk ▸ hless) rfl (hmleft.handled t) heof'
              (hsleft.handled t) fun hne' => hafter ▸ hfold hne' ▸ hstuck hne
            exact ⟨.metric x :: rs,
              .cons (LineMachine.nextResult_of_metric hm' (by rw [hmleft.handler, hmetric])) id hrs,
              .cons ⟨n, nextResult_of_metric hs' (by rw [hsleft.handler, hmetric])⟩ id hrs'⟩

/-- The calls of a streaming machine that comes to be stuck do not come to an end. -/
theorem not_gives (k : ℕ) : ∀ {s : StreamMachine H} {c : Config H} {rest : GoString},
    c.remaining rest = k → s.Left c rest → rest ≠ [] →
    (rest.foldl (feed h metric) c.start).Stuck → ∀ rs,
    ¬Gives (fun s r s' => ∃ fuel, nextResult h metric fuel s = some (s', r))
      Result.IsLast s rs := by
  induction k using Nat.strong_induction_on with
  | h k ih =>
    intro s c rest hk hs hne hstuck rs hrs
    obtain ⟨-, hc⟩ := hs.config.resolve_right fun hend => hne hend.1
    have hs' := next_of_left (h := h) hs hne
    -- the first call gives one result, and it is the one that is known
    obtain ⟨r, s₁, ⟨fuel, hfuel⟩, hrest⟩ : ∃ r s₁, (∃ fuel, s.nextResult h metric fuel =
        some (s₁, r)) ∧ (r.IsLast ∨ ∃ rs, Gives (fun s r s' => ∃ fuel,
          nextResult h metric fuel s = some (s', r)) Result.IsLast s₁ rs) := by
      cases hrs with
      | last hnext hlast => exact ⟨_, _, hnext, .inl hlast⟩
      | cons hnext _ hrs => exact ⟨_, _, hnext, .inr ⟨_, hrs⟩⟩
    cases hexec : c.start.exec h rest with
    | eof => exact not_stuck_foldl_of_exec hc.start hexec hstuck
    | unfinished =>
      rw [hexec] at hs'
      simp [nextResult, hs' fuel] at hfuel
    | failed c' e rest' =>
      rw [hexec] at hs'
      obtain ⟨n, s', hs', hsleft⟩ := hs'
      obtain ⟨hless, hfold, hnil⟩ := exec_failed metric hc hne hexec
      obtain ⟨rfl, rfl⟩ := Prod.mk.inj (nextResult_unique hfuel (nextResult_of_error hs'))
      have hne' : rest' ≠ [] := fun h => hnil h hstuck
      obtain ⟨rs, hrs⟩ := hrest.resolve_left id
      exact ih _ (hk ▸ hless) rfl hsleft hne' (hfold hne' ▸ hstuck) rs hrs
    | finished c' rest' =>
      rw [hexec] at hs'
      obtain ⟨n, s', hs', hsleft⟩ := hs'
      obtain ⟨hless, hfold, hnil⟩ := exec_finished metric hc hne hexec
      have hne' : rest' ≠ [] := fun h => hnil h hstuck
      rw [hfold hne', afterMetric] at hstuck
      cases hmetric : metric c'.handler with
      | mk t o =>
        rw [hmetric] at hstuck
        cases o with
        | none =>
          rw [foldl_feed_of_cs_eq_nil rfl] at hstuck
          exact hstuck.1 rfl
        | some =>
          obtain ⟨rfl, rfl⟩ := Prod.mk.inj (nextResult_unique hfuel
            (nextResult_of_metric hs' (by rw [hsleft.handler, hmetric])))
          obtain ⟨rs, hrs⟩ := hrest.resolve_left id
          exact ih _ (hk ▸ hless) rfl (hsleft.handled t) hne' hstuck rs hrs

end StreamMachine

/-! ## All calls -/

theorem left_new (reader : Reader) (t : H) :
    (StreamMachine.new reader t).Left (init t) reader.rest where
  wf := ⟨le_rfl, Nat.zero_le _, le_rfl, le_rfl⟩
  pos := by
    rw [show (StreamMachine.new reader t).machine.data.length = 1024 from length_replicate]
    exact Nat.succ_pos _
  unread := by rw [unread_eq_nil rfl, nil_append]; rfl
  handler := rfl
  config := .inl ⟨rfl, .align, rfl, rfl⟩
  ended := fun hne => absurd rfl hne

/-- The streaming machine gives what the machine over the whole input gives exactly if it does not
come to be stuck. -/
theorem streamed_iff (h : Handler H E) (metric : H → H × Option M) (t : H) (reader : Reader) :
    (∃ rs, Parsed h metric t reader.rest rs ∧ Streamed h metric t reader rs) ↔
      ¬(reader.rest.foldl (feed h metric) (init t)).Stuck := by
  constructor
  · rintro ⟨rs, -, hrs⟩ hstuck
    by_cases hne : reader.rest = []
    · rw [hne] at hstuck
      exact Outside.not_stuck ⟨.align, rfl, rfl⟩ hstuck
    · exact StreamMachine.not_gives _ rfl (left_new reader t) hne hstuck rs hrs
  · intro hstuck
    exact StreamMachine.exists_gives _ rfl (left_setData reader.rest t) rfl
      (left_new reader t)
      fun _ => hstuck

/-- The results of a `StreamParser` are those of the machine over the whole input exactly if, after
the last byte, the automaton is not at an escape in a name or between a carriage return and a line
feed. It is not if the last byte is neither a backslash nor a carriage return. -/
theorem streamParser_iff {𝔽 : Type} (env : HandlerEnv 𝔽) (t : MetricHandler 𝔽) (reader : Reader) :
    ((∃ rs, Parsed (methods env) (getMetric env) t reader.rest rs ∧
        Streamed (methods env) (getMetric env) t reader rs) ↔
      ¬(reader.rest.foldl (feed (methods env) (getMetric env))
        (init t)).Stuck) ∧
    ((∀ b ∈ reader.rest.getLast?, b ≠ 92 ∧ b ≠ 13) →
      ∃ rs, Parsed (methods env) (getMetric env) t reader.rest rs ∧
        Streamed (methods env) (getMetric env) t reader rs) :=
  ⟨streamed_iff _ _ t reader, fun hlast => (streamed_iff _ _ t reader).2
    (not_stuck_foldl ⟨.align, rfl, rfl⟩ hlast)⟩

/-- A line and a comment in three pieces, one of them empty. -/
theorem streamParser_three_pieces :
    ∃ (env : HandlerEnv Unit) (reader : Reader), reader.rest = str "cpu v=1 2\n# end" ∧
      ∃ rs, Parsed (methods env) (getMetric env) .new reader.rest rs ∧
        Streamed (methods env) (getMetric env) .new reader rs := by
  refine ⟨⟨fun _ => 0, fun _ => .ok ()⟩, ⟨[str "cpu v=", [], str "1 2\n# end"], true⟩,
    by decide, ?_⟩
  refine (streamParser_iff _ _ _).2 fun b hb => ?_
  have hlast : some 100 = some b := hb
  rw [← Option.some.inj hlast]
  decide

/-- Behind the carriage return at the end of an input the streaming parser does not end, and the
machine over the whole input gives a metric. -/
theorem streamParser_carriage_return :
    ∃ (env : HandlerEnv Unit) (reader : Reader) (x : Metric Unit),
      reader.rest = str "cpu v=1\r" ∧
      Parsed (methods env) (getMetric env) .new reader.rest
        [.metric x, .eof] ∧
      ¬∃ rs, Streamed (methods env) (getMetric env) .new reader rs := by
  refine ⟨⟨fun _ => 0, fun _ => .ok ()⟩, ⟨[str "cpu v=1\r"], true⟩,
    ⟨str "cpu", [], [⟨str "v", .float ()⟩], 0, .untyped, false, by decide, by decide⟩, rfl,
    .cons (Prod.ext rfl (by decide)) id (.last (Prod.ext rfl (by decide)) trivial), ?_⟩
  rintro ⟨rs, hrs⟩
  exact StreamMachine.not_gives _ rfl (left_new _ _) (by decide) (by decide) rs hrs

end Telegraf.Influx
