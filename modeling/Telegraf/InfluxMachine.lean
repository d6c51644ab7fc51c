import Telegraf.InfluxGrammar
import Telegraf.Scanner

/-!
# The line protocol machine

`machine` (`plugins/parsers/influx/machine.go.rl`) drives the automaton of the grammar over a
buffer. A token begins at `pb` and a key is a slice of the buffer, and both can be left over when
the buffer has been read to its end, so that `exec` goes on with them when it is called again.

`Config` is the machine without the buffer : it has the bytes of the token and of the key. A
`Config` reads a list of bytes with `scan`, and `run_spec` says that the loop over the buffer does
the same with the part of the buffer that has not been read.
-/

namespace Telegraf.Influx

open Scanner List

variable {H E S : Type}

/-! ## Handlers -/

/-- `Handler`. -/
structure Handler (H E : Type) where
  setMeasurement : GoString → H → H × Option E
  addTag : GoString → GoString → H → H × Option E
  addInt : GoString → GoString → H → H × Option E
  addUint : GoString → GoString → H → H × Option E
  addFloat : GoString → GoString → H → H × Option E
  addString : GoString → GoString → H → H × Option E
  addBool : GoString → GoString → H → H × Option E
  setTimestamp : GoString → H → H × Option E

/-- The call of the handler in an action, with `m.key` and `m.text()`. -/
def Handler.call (h : Handler H E) (key text : GoString) (s : H) : Action → H × Option E
  | .name => h.setMeasurement text s
  | .tagvalue => h.addTag key text s
  | .integer => h.addInt key text s
  | .unsigned => h.addUint key text s
  | .float => h.addFloat key text s
  | .bool => h.addBool key text s
  | .string => h.addString key text s
  | .timestamp => h.setTimestamp text s
  | .beginMetric | .begin | .tagkey | .fieldkey => (s, none)

/-! ## The loop of the automaton -/

/-- What the automaton works on : its state, and the effect of an action. -/
structure Registers (S E : Type) where
  cs : S → List Pos
  setCs : List Pos → S → S
  perform : Action → S → S × Option E

namespace Registers

variable (R : Registers S E)

/-- Actions in order, up to an error. -/
def performAll : List Action → S → S × Option E
  | [], s => (s, none)
  | a :: as, s =>
    match R.perform a s with
    | (s, some e) => (s, some e)
    | (s, none) => performAll as s

/-- What every action keeps, the actions keep in order. -/
theorem performAll_keeps {P : S → Prop} (hP : ∀ a s, P s → P (R.perform a s).1) :
    ∀ (as : List Action) {s : S}, P s → P (R.performAll as s).1
  | [], _, hs => hs
  | a :: as, s, hs => by
    have hstep := hP a s hs
    rw [performAll]
    split
    · next s' e heq => rwa [heq] at hstep
    · next s' heq =>
      rw [heq] at hstep
      exact performAll_keeps hP as hstep

/-- A byte moves the automaton. An error leaves it at the byte in `discard_line`, and the end of a
line breaks after the byte in `align`. -/
def readOnce (s : S) (b : UInt8) : Reaction S (Option (ParseErr E)) :=
  match move (R.cs s) b with
  | .error e => .before (R.setCs [.discardLine] s) (some e)
  | .ok (as, cs) =>
    match R.performAll as s with
    | (s, some e) => .before (R.setCs [.discardLine] s) (some (.handler e))
    | (s, none) =>
      if .eol ∈ cs then .after (R.setCs [.align] s) none else .go (R.setCs cs s)

/-- The automaton at a byte, which is read again if the new state holds it. -/
def read (s : S) (b : UInt8) : Reaction S (Option (ParseErr E)) :=
  match R.readOnce s b with
  | .go s' => if held (R.cs s') then R.readOnce s' b else .go s'
  | r => r

section

variable {s s' : S} {b : UInt8} {r : Option (ParseErr E)}

/-- What is behind a reaction that stops. -/
theorem readOnce_before (h : R.readOnce s b = .before s' r) :
    (∃ e, r = some e) ∧ ∃ s'', s' = R.setCs [.discardLine] s'' := by
  unfold readOnce at h
  split at h
  · cases h
    exact ⟨⟨_, rfl⟩, _, rfl⟩
  · split at h
    · cases h
      exact ⟨⟨_, rfl⟩, _, rfl⟩
    · split at h <;> cases h

theorem readOnce_after
    (h : R.readOnce s b = .after s' r) : r = none ∧ ∃ s'', s' = R.setCs [.align] s'' := by
  unfold readOnce at h
  split at h
  · cases h
  · split at h
    · cases h
    · split at h <;> cases h
      exact ⟨rfl, _, rfl⟩

end

variable {b : UInt8}

theorem readOnce_go {s s' : S} (h : R.readOnce s b = .go s') :
    ∃ as cs s'', (move (R.cs s) b : Except (ParseErr E) _) = .ok (as, cs) ∧
      s' = R.setCs cs s'' := by
  unfold readOnce at h
  split at h
  · cases h
  · next as cs hmove =>
    split at h
    · cases h
    · split at h <;> cases h
      exact ⟨as, cs, _, hmove, rfl⟩

theorem read_cases {s : S} {r : Reaction S (Option (ParseErr E))}
    (h : R.read s b = r) : (∃ s₁, R.readOnce s₁ b = r) := by
  unfold read at h
  split at h
  · split at h
    · exact ⟨_, h⟩
    · next _ hs' _ => exact ⟨s, hs'.trans h⟩
  · exact ⟨s, h⟩

/-- The automaton at the end of the input. -/
def readEof (s : S) : S × AtEof E :=
  match R.performAll (actionsAtEof (R.cs s)) s with
  | (s', some e) => (s', .error (.handler e))
  | (s', none) => (s', atEof (R.cs s))

end Registers

/-! ## The machine -/

/-- `data[i:j]`. -/
def slice (data : GoString) (i j : ℕ) : GoString :=
  (data.take j).drop i

/-- `machine`, without the line and column numbers. `eof` is `none` for -1, and `key` has the
bounds of the slice. -/
structure LineMachine (H : Type) where
  data : GoString
  cs : List Pos
  p : ℕ
  pe : ℕ
  eof : Option ℕ
  pb : ℕ
  key : ℕ × ℕ
  beginMetric : Bool
  finishMetric : Bool
  handler : H
deriving Repr, DecidableEq

/-- What `exec` and `Next` return. -/
inductive Ret (E : Type) where
  | nil
  | eof
  | error (e : ParseErr E)
deriving Repr, DecidableEq

namespace LineMachine

def text (m : LineMachine H) : GoString :=
  slice m.data m.pb m.p

def perform (h : Handler H E) : Action → LineMachine H → LineMachine H × Option E
  | .beginMetric, m => ({ m with beginMetric := true }, none)
  | .begin, m => ({ m with pb := m.p }, none)
  | .tagkey, m | .fieldkey, m => ({ m with key := (m.pb, m.p) }, none)
  | a, m =>
    let r := h.call (slice m.data m.key.1 m.key.2) m.text m.handler a
    ({ m with handler := r.1 }, r.2)

def registers (h : Handler H E) : Registers (LineMachine H) E where
  cs := LineMachine.cs
  setCs := fun cs m => { m with cs := cs }
  perform := perform h

/-- The loop over the buffer, with the number of bytes that are left. The result is `none` at the
end of the buffer. -/
def run (h : Handler H E) : ℕ → LineMachine H → LineMachine H × Option (Option (ParseErr E))
  | 0, m => (m, none)
  | n + 1, m =>
    match (registers h).read m (m.data.getD m.p 0) with
    | .go m => run h n { m with p := m.p + 1 }
    | .before m r => (m, some r)
    | .after m r => ({ m with p := m.p + 1, finishMetric := true }, some r)

/-- The part of `exec` behind the loop over the buffer. -/
def testEof (h : Handler H E) (m : LineMachine H) : LineMachine H × Option (ParseErr E) :=
  if m.eof = some m.p then
    match (registers h).readEof m with
    | (m, .finishMetric) => ({ m with finishMetric := true }, none)
    | (m, .error e) => ({ m with cs := [] }, some e)
    | (m, .nothing) => (m, none)
  else (m, none)

/-- `exec` after the automaton. -/
def ret (m : LineMachine H) : Option (ParseErr E) → LineMachine H × Ret E
  | some e => (m, .error e)
  | none =>
    if m.beginMetric = false ∧ m.p = m.pe ∧ m.eof = some m.pe then (m, .eof) else (m, .nil)

def exec (h : Handler H E) (m : LineMachine H) : LineMachine H × Ret E :=
  match m.run h (m.pe - m.p) with
  | (m, some r) => m.ret r
  | (m, none) =>
    match m.testEof h with
    | (m, r) => m.ret r

/-- `NewMachine` and `SetData`. -/
def setData (data : GoString) (s : H) : LineMachine H where
  data := data
  cs := [.align]
  p := 0
  pe := data.length
  eof := some data.length
  pb := 0
  key := (0, 0)
  beginMetric := false
  finishMetric := false
  handler := s

/-- The beginning of `Next`. -/
def start (m : LineMachine H) : LineMachine H :=
  { m with key := (0, 0), beginMetric := false, finishMetric := false }

def next (h : Handler H E) (m : LineMachine H) : LineMachine H × Ret E :=
  if m.p = m.pe ∧ m.eof = some m.pe then (m, .eof) else m.start.exec h

end LineMachine

/-! ## The machine without the buffer -/

/-- The machine as it depends on the bytes it has read : with the bytes since `begin`, if it is
inside a metric, and the bytes of the key. -/
structure Config (H : Type) where
  cs : List Pos
  token : GoString
  key : GoString
  beginMetric : Bool
  handler : H
deriving Repr, DecidableEq

namespace Config

def setCs (cs : List Pos) (c : Config H) : Config H :=
  { c with cs := cs, token := if begun cs then c.token else [] }

def perform (h : Handler H E) : Action → Config H → Config H × Option E
  | .beginMetric, c => ({ c with beginMetric := true }, none)
  | .begin, c => ({ c with token := [] }, none)
  | .tagkey, c | .fieldkey, c => ({ c with key := c.token }, none)
  | a, c => ({ c with handler := (h.call c.key c.token c.handler a).1 },
      (h.call c.key c.token c.handler a).2)

def registers (h : Handler H E) : Registers (Config H) E where
  cs := Config.cs
  setCs := setCs
  perform := perform h

/-- The byte has been read. -/
def push (c : Config H) (b : UInt8) : Config H :=
  { c with token := if begun c.cs then c.token ++ [b] else [] }

/-- The reaction to a byte. -/
def react (h : Handler H E) (c : Config H) (b : UInt8) :
    Reaction (Config H) (Option (ParseErr E)) :=
  match (registers h).read c b with
  | .go c => .go (c.push b)
  | .before c r => .before c r
  | .after c r => .after c r

/-- The beginning of `Next`. -/
def start (c : Config H) : Config H :=
  { c with key := [], beginMetric := false }

end Config

/-- What a call of `Next` comes to : a metric, an error, the end of the input, or the end of the
input at a place of a metric for which the grammar has no action. -/
inductive Call (H E : Type) where
  | finished (c : Config H) (rest : GoString)
  | failed (c : Config H) (e : ParseErr E) (rest : GoString)
  | eof
  | unfinished (c : Config H)
deriving Repr, DecidableEq

namespace Config

/-- A call without a buffer. -/
def exec (h : Handler H E) (c : Config H) (input : GoString) : Call H E :=
  match scan (react h) c input with
  | .stop c none rest => .finished c rest
  | .stop c (some e) rest => .failed c e rest
  | .out c =>
    match (registers h).readEof c with
    | (c, .finishMetric) => .finished c []
    | (c, .error e) => .failed c e []
    | (c, .nothing) => if c.beginMetric then .unfinished c else .eof

variable {c c' : Config H}

theorem exec_append {h : Handler H E} {l : GoString} (hscan : scan (react h) c l = .out c')
    (t : GoString) : c.exec h (l ++ t) = c'.exec h t := by
  rw [exec, exec, scan_append hscan]

/-- Inside a metric that has begun in this call, or at one position outside of one. -/
def Uniform (c : Config H) : Prop :=
  (c.beginMetric = true ∧ c.cs ≠ [] ∧ ∀ x ∈ c.cs, inside x = true) ∨
    c.beginMetric = false ∧ ∃ x, c.cs = [x] ∧ inside x = false

variable {c : Config H}

theorem uniform_start {x : Pos} (hcs : c.cs = [x]) (hx : inside x = false) : c.start.Uniform :=
  .inr ⟨rfl, x, hcs, hx⟩

section

variable {h : Handler H E}

theorem beginMetric_performAll (as : List Action)
    (hc : c.beginMetric = true) : ((registers h).performAll as c).1.beginMetric = true :=
  (registers h).performAll_keeps (P := fun c => c.beginMetric = true)
    (fun a c hc => by cases a <;> simp [registers, perform, hc]) as hc

theorem uniform_readOnce (hc : c.Uniform) (b : UInt8) :
    (∀ c', (registers h).readOnce c b = .go c' → c'.Uniform) ∧
      ∀ c' r, (registers h).readOnce c b = .after c' r → c'.beginMetric = true := by
  unfold Registers.readOnce
  split
  · simp
  · next as cs hmove =>
    obtain ⟨hne, has, hcs'⟩ := move_eq_ok hmove
    rcases hc with ⟨hbegin, -, hin⟩ | ⟨hbegin, x, hcs, hx⟩
    · have hbegin' := beginMetric_performAll (h := h) as hbegin
      have hcs_ne : cs ≠ [] := by simpa [hcs', dedup_eq_nil] using hne
      have hin' : ∀ x ∈ cs, inside x = true := by
        rw [hcs']
        intro y hy
        obtain ⟨e, he, rfl⟩ := mem_map.1 (mem_dedup.1 hy)
        obtain ⟨x, hx, he⟩ := mem_flatMap.1 he
        exact (mem_delta he).1 (hin x hx)
      generalize (registers h).performAll as c = r at hbegin'
      obtain ⟨c', e⟩ := r
      cases e with
      | some => simp
      | none =>
        dsimp only
        split
        · refine ⟨by simp, ?_⟩
          rintro _ _ ⟨⟩
          exact hbegin'
        · refine ⟨?_, by simp⟩
          rintro _ ⟨⟩
          exact .inl ⟨hbegin', hcs_ne, hin'⟩
    · have hmoves : moves ((registers h).cs c) b = delta x b := by
        rw [moves, show (registers h).cs c = [x] from hcs, flatMap_singleton]
      rw [hmoves] at hne has hcs'
      rcases delta_outside hx b with hd | ⟨q, hd, hq⟩ | ⟨q, hd, hq⟩
      · exact absurd hd hne
      · -- a metric begins
        obtain rfl : as = [.beginMetric, .begin] := by rw [has, hd]; rfl
        obtain rfl : cs = [q] := by rw [hcs', hd]; rfl
        simp only [Registers.performAll, registers, perform]
        split
        · refine ⟨by simp, ?_⟩
          rintro _ _ ⟨⟩
          rfl
        · refine ⟨?_, by simp⟩
          rintro _ ⟨⟩
          exact .inl ⟨rfl, by simp [setCs], by simpa [setCs] using hq⟩
      · obtain rfl : as = [] := by rw [has, hd]; rfl
        obtain rfl : cs = [q] := by rw [hcs', hd]; rfl
        have heol : Pos.eol ∉ [q] := by
          rintro hmem
          rw [mem_singleton] at hmem
          rw [← hmem] at hq
          cases hq
        simp only [Registers.performAll, heol, if_false]
        refine ⟨?_, by simp⟩
        rintro _ ⟨⟩
        exact .inr ⟨hbegin, q, rfl, hq⟩

theorem uniform_read (hc : c.Uniform) (b : UInt8) :
    (∀ c', (registers h).read c b = .go c' → c'.Uniform) ∧
      ∀ c' r, (registers h).read c b = .after c' r → c'.beginMetric = true := by
  have hfirst := uniform_readOnce (h := h) hc b
  unfold Registers.read
  cases hr : (registers h).readOnce c b with
  | go c' =>
    have hc' := hfirst.1 c' hr
    dsimp only
    split
    · exact uniform_readOnce hc' b
    · refine ⟨?_, by simp⟩
      rintro _ ⟨⟩
      exact hc'
  | before => simp
  | after =>
    refine ⟨by simp, ?_⟩
    rintro _ _ ⟨⟩
    exact hfirst.2 _ _ hr

/-- A metric that is ended has begun. -/
theorem uniform_scan (hc : c.Uniform) {input : GoString} :
    (scan (react h) c input = .out c' → c'.Uniform) ∧
      ∀ rest, scan (react h) c input = .stop c' none rest → c'.beginMetric = true := by
  induction input generalizing c with
  | nil =>
    refine ⟨fun heq => ?_, nofun⟩
    obtain rfl : c = c' := by simpa using heq
    exact hc
  | cons b input ih =>
    obtain ⟨hgo, hafter⟩ := uniform_read (h := h) hc b
    cases hr : (registers h).read c b with
    | go c₁ =>
      have hreact : react h c b = .go (c₁.push b) := by rw [react, hr]
      have hc₁ : (c₁.push b).Uniform := hgo c₁ hr
      rw [scan_cons_of_go hreact]
      exact ih hc₁
    | before c₁ r =>
      have hreact : react h c b = .before c₁ r := by rw [react, hr]
      obtain ⟨_, hc₂⟩ := Registers.read_cases _ hr
      obtain ⟨⟨e, rfl⟩, -⟩ := Registers.readOnce_before _ hc₂
      simp [scan_cons_of_before hreact]
    | after c₁ r =>
      have hreact : react h c b = .after c₁ r := by rw [react, hr]
      rw [scan_cons_of_after hreact]
      refine ⟨by simp, fun rest heq => ?_⟩
      cases heq
      exact hafter _ _ hr

theorem beginMetric_readEof (hc : c.Uniform)
    (hread : (registers h).readEof c = (c', .finishMetric)) : c'.beginMetric = true := by
  have hall := beginMetric_performAll (h := h) (actionsAtEof c.cs) (c := c)
  unfold Registers.readEof at hread
  generalize hperform : (registers h).performAll (actionsAtEof c.cs) c = r at hall
  rw [show (registers h).cs c = c.cs from rfl, hperform] at hread
  obtain ⟨_, e⟩ := r
  cases e with
  | some => cases hread
  | none =>
    obtain ⟨rfl, heof⟩ := Prod.mk.inj hread
    refine hall ?_
    rcases hc with ⟨hbegin, -, -⟩ | ⟨-, x, hcs, hx⟩
    · exact hbegin
    · -- outside there is no metric to finish
      obtain ⟨y, hy, hfinal⟩ := exists_final heof
      rw [hcs, mem_singleton] at hy
      rw [hy] at hfinal
      rw [inside_of_final hfinal] at hx
      cases hx

end

end Config

namespace LineMachine

variable {h : Handler H E} {m m' : LineMachine H} {b : UInt8}

/-- What the machine has read. -/
def config (m : LineMachine H) : Config H where
  cs := m.cs
  token := if begun m.cs then m.text else []
  key := slice m.data m.key.1 m.key.2
  beginMetric := m.beginMetric
  handler := m.handler

theorem slice_self (data : GoString) (i : ℕ) : slice data i i = [] := by
  simp [slice]

theorem config_perform (hb : begun m.cs = true) (a : Action) :
    (m.perform h a).1.config = (m.config.perform h a).1 ∧
      (m.perform h a).2 = (m.config.perform h a).2 := by
  cases a <;> simp [perform, Config.perform, config, text, hb, slice_self]

/-- What an action leaves as it is. -/
structure Kept (m m' : LineMachine H) : Prop where
  data : m'.data = m.data
  p : m'.p = m.p
  pe : m'.pe = m.pe
  eof : m'.eof = m.eof
  finishMetric : m'.finishMetric = m.finishMetric
  pb_le : m.pb ≤ m.p → m'.pb ≤ m.p
  key_le : m.pb ≤ m.p → m.key.2 ≤ m.p → m'.key.2 ≤ m.p

theorem Kept.refl (m : LineMachine H) : Kept m m :=
  ⟨rfl, rfl, rfl, rfl, rfl, id, fun _ => id⟩

variable {m₁ m₂ m₃ : LineMachine H}

theorem Kept.trans (h₁ : Kept m₁ m₂) (h₂ : Kept m₂ m₃) : Kept m₁ m₃ where
  data := h₂.data.trans h₁.data
  p := h₂.p.trans h₁.p
  pe := h₂.pe.trans h₁.pe
  eof := h₂.eof.trans h₁.eof
  finishMetric := h₂.finishMetric.trans h₁.finishMetric
  pb_le := fun hpb => by
    have := h₂.pb_le
    rw [h₁.p] at this
    exact this (h₁.pb_le hpb)
  key_le := fun hpb hkey => by
    have := h₂.key_le
    rw [h₁.p] at this
    exact this (h₁.pb_le hpb) (h₁.key_le hpb hkey)

theorem kept_perform (m : LineMachine H) (a : Action) : Kept m (m.perform h a).1 := by
  cases a <;> constructor <;> simp [perform]

theorem cs_perform (m : LineMachine H) (a : Action) : (m.perform h a).1.cs = m.cs := by
  cases a <;> rfl

theorem kept_performAll (as : List Action) (m : LineMachine H) :
    Kept m ((registers h).performAll as m).1 :=
  (registers h).performAll_keeps (P := Kept m) (fun a m' hm => hm.trans (kept_perform m' a)) as
    (Kept.refl m)

theorem config_performAll (as : List Action) (hb : begun m.cs = true) :
    (Config.registers h).performAll as m.config =
        Prod.map config id ((registers h).performAll as m) ∧
      ((registers h).performAll as m).1.cs = m.cs := by
  induction as generalizing m with
  | nil => exact ⟨rfl, rfl⟩
  | cons a as ih =>
    obtain ⟨hconfig, herr⟩ := config_perform (h := h) hb a
    have hcs := cs_perform (h := h) m a
    simp only [Registers.performAll, registers, Config.registers] at ih ⊢
    generalize m.perform h a = r at hconfig herr hcs
    generalize m.config.perform h a = r' at hconfig herr
    obtain ⟨m', e⟩ := r
    obtain ⟨c', e'⟩ := r'
    obtain rfl : m'.config = c' := hconfig
    obtain rfl : e = e' := herr
    cases e with
    | some => exact ⟨rfl, hcs⟩
    | none =>
      have hb' : begun m'.cs = true := by rw [show m'.cs = m.cs from hcs, hb]
      obtain ⟨hall, hcs'⟩ := ih hb'
      exact ⟨hall, hcs'.trans hcs⟩

theorem config_setCs (hb : begun m.cs = true) (cs : List Pos) :
    { m with cs := cs }.config = m.config.setCs cs := by
  simp [config, Config.setCs, text, hb]

theorem config_setCs_of_not_begun {cs : List Pos} (hcs : begun cs = false) :
    { m with cs := cs }.config = m.config.setCs cs := by
  simp [config, Config.setCs, hcs]

section

variable (m : LineMachine H) (b : UInt8)

/-- The machine's reaction is that of its configuration. -/
theorem config_readOnce :
    ((registers h).readOnce m b).map config = (Config.registers h).readOnce m.config b := by
  have hcs : (registers h).cs m = (Config.registers h).cs m.config := rfl
  unfold Registers.readOnce
  rw [← hcs]
  cases hmove : (move ((registers h).cs m) b : Except (ParseErr E) _) with
  | error e => exact congrArg (Reaction.before · (some e)) (config_setCs_of_not_begun rfl)
  | ok r =>
    obtain ⟨as, cs⟩ := r
    dsimp only
    cases hb : begun m.cs with
    | true =>
      obtain ⟨hall, hcs⟩ := config_performAll (h := h) as hb
      rw [hall]
      generalize (registers h).performAll as m = r at hcs ⊢
      obtain ⟨m', e⟩ := r
      have hb' : begun m'.cs = true := by rw [show m'.cs = m.cs from hcs, hb]
      cases e with
      | some => exact congrArg (Reaction.before · _) (config_setCs_of_not_begun rfl)
      | none =>
        dsimp only
        split
        · exact congrArg (Reaction.after · _) (config_setCs_of_not_begun rfl)
        · exact congrArg Reaction.go (config_setCs hb' cs)
    | false =>
      -- the token is empty, and begins with the metric
      rcases move_of_not_begun hb hmove with rfl | ⟨rfl, hcs'⟩
      · simp only [Registers.performAll, registers, Config.registers, perform, Config.perform]
        split <;> simp [Reaction.map, config, Config.setCs, text, slice_self, begun, inside]
      · simp only [Registers.performAll, registers, Config.registers]
        split
        · exact congrArg (Reaction.after · _) (config_setCs_of_not_begun rfl)
        · exact congrArg Reaction.go (config_setCs_of_not_begun hcs')

theorem config_read :
    ((registers h).read m b).map config = (Config.registers h).read m.config b := by
  have hfirst := config_readOnce (h := h) m b
  unfold Registers.read
  rw [← hfirst]
  cases (registers h).readOnce m b with
  | go m' =>
    have hcs : (Config.registers h).cs m'.config = (registers h).cs m' := rfl
    simp only [Reaction.map_go, hcs]
    cases held ((registers h).cs m') with
    | true => exact config_readOnce m' b
    | false => rfl
  | before | after => rfl

theorem kept_readOnce : Kept m ((registers h).readOnce m b).state := by
  have hcs : ∀ {m' : LineMachine H} (cs : List Pos), Kept m m' →
      Kept m ((registers h).setCs cs m') := fun cs h =>
    ⟨h.data, h.p, h.pe, h.eof, h.finishMetric, h.pb_le, h.key_le⟩
  unfold Registers.readOnce
  split
  · exact hcs _ (Kept.refl m)
  · next as cs _ =>
    have hall := kept_performAll (h := h) as m
    generalize (registers h).performAll as m = r at hall
    obtain ⟨m', e⟩ := r
    cases e with
    | some => exact hcs _ hall
    | none =>
      dsimp only
      split
      · exact hcs _ hall
      · exact hcs _ hall

theorem kept_read : Kept m ((registers h).read m b).state := by
  have hfirst := kept_readOnce (h := h) m b
  unfold Registers.read
  cases hr : (registers h).readOnce m b with
  | go m' =>
    rw [hr] at hfirst
    dsimp only
    split
    · exact hfirst.trans (kept_readOnce m' b)
    · exact hfirst
  | before | after => rwa [hr] at hfirst

end

variable {data : GoString} {i j : ℕ}

theorem slice_succ (hij : i ≤ j) (hj : j < data.length) :
    slice data i (j + 1) = slice data i j ++ [data.getD j 0] := by
  have hlen : (data.take j).length = j := by simp; omega
  rw [slice, slice, take_succ_eq_append_getElem hj, drop_append_of_le_length (by omega),
    getD_eq_getElem _ _ hj]

theorem slice_cons (hij : i < j) (hj : j ≤ data.length) :
    slice data i j = data.getD i 0 :: slice data (i + 1) j := by
  have hi : i < (data.take j).length := by simp; omega
  rw [slice, slice, drop_eq_getElem_cons hi, getElem_take,
    getD_eq_getElem _ _ (by omega)]

theorem config_advance (hpb : m.pb ≤ m.p) (hp : m.p < m.data.length) :
    { m with p := m.p + 1 }.config = m.config.push (m.data.getD m.p 0) := by
  simp only [config, Config.push, text, slice_succ hpb hp]
  split <;> rfl

/-- The effect of the loop over the buffer up to `e`. -/
structure Ran (m m' : LineMachine H) (e : ℕ) (r : Option (Option (ParseErr E))) : Prop where
  data : m'.data = m.data
  pe : m'.pe = m.pe
  eof : m'.eof = m.eof
  p_le : m'.p ≤ e
  pb_le : m'.pb ≤ m'.p
  key_le : m'.key.2 ≤ m'.p
  out : r = none → m'.p = e ∧ m'.finishMetric = m.finishMetric
  line : r = some none → m'.finishMetric = true

/-- The loop over the buffer as a scan. -/
def scanned (e : ℕ) (m : LineMachine H) :
    Option (Option (ParseErr E)) → Scan (Config H) UInt8 (Option (ParseErr E))
  | none => .out m.config
  | some r => .stop m.config r (slice m.data m.p e)

theorem Ran.of_kept {e : ℕ} {r : Option (Option (ParseErr E))}
    (h₁ : Kept m₁ m₂) (h₂ : Ran { m₂ with p := m₂.p + 1 } m₃ e r) : Ran m₁ m₃ e r :=
  ⟨h₂.data.trans h₁.data, h₂.pe.trans h₁.pe, h₂.eof.trans h₁.eof, h₂.p_le, h₂.pb_le, h₂.key_le,
    fun h => ⟨(h₂.out h).1, (h₂.out h).2.trans h₁.finishMetric⟩, h₂.line⟩

/-- The loop scans what has not been read of the buffer. -/
theorem run_spec : ∀ (n : ℕ) (m : LineMachine H) (e : ℕ), m.p + n = e → m.pb ≤ m.p →
    m.key.2 ≤ m.p → e ≤ m.data.length →
    Ran m (m.run h n).1 e (m.run h n).2 ∧
      scan (Config.react h) m.config (slice m.data m.p e) = scanned e (m.run h n).1 (m.run h n).2
  | 0, m, e, hn, hpb, hkey, _ => by
    obtain rfl : m.p = e := hn
    refine ⟨⟨rfl, rfl, rfl, le_rfl, hpb, hkey, fun _ => ⟨rfl, rfl⟩, by simp [run]⟩, ?_⟩
    rw [slice_self]
    rfl
  | n + 1, m, e, hn, hpb, hkey, hlen => by
    have hread := config_read (h := h) m (m.data.getD m.p 0)
    have hkept := kept_read (h := h) m (m.data.getD m.p 0)
    rw [slice_cons (by omega) hlen, run]
    cases hr : (registers h).read m (m.data.getD m.p 0) with
    | go m' =>
      rw [hr] at hread hkept
      have hkept : Kept m m' := hkept
      have hp := hkept.p
      have hpb' := hkept.pb_le hpb
      have hkey' := hkept.key_le hpb hkey
      have hreact : Config.react h m.config (m.data.getD m.p 0) =
          .go { m' with p := m'.p + 1 }.config := by
        rw [Config.react, ← hread, config_advance (by omega) (by rw [hkept.data]; omega),
          hkept.data, hp]
        rfl
      obtain ⟨hran, hscan⟩ := run_spec n { m' with p := m'.p + 1 } e (by simp only; omega)
        (by simp only; omega) (by simp only; omega) (by rw [hkept.data]; exact hlen)
      refine ⟨hran.of_kept hkept, ?_⟩
      rw [scan_cons_of_go hreact, ← hscan, hkept.data, hp]
    | before m' =>
      rw [hr] at hread hkept
      have hkept : Kept m m' := hkept
      have hp := hkept.p
      have hdata := hkept.data
      obtain ⟨s₁, hs₁⟩ := Registers.read_cases _ hr
      obtain ⟨⟨e', rfl⟩, -⟩ := Registers.readOnce_before _ hs₁
      have hreact : Config.react h m.config (m.data.getD m.p 0) = .before m'.config (some e') := by
        rw [Config.react, ← hread]
        rfl
      refine ⟨⟨hkept.data, hkept.pe, hkept.eof, by simp only; omega, ?_, ?_, by simp, by simp⟩, ?_⟩
      · rw [hp]
        exact hkept.pb_le hpb
      · rw [hp]
        exact hkept.key_le hpb hkey
      · rw [scan_cons_of_before hreact, ← slice_cons (by omega) hlen]
        simp only [scanned]
        rw [hdata, hp]
    | after m' =>
      rw [hr] at hread hkept
      have hkept : Kept m m' := hkept
      have hp := hkept.p
      have hpb' := hkept.pb_le hpb
      have hkey' := hkept.key_le hpb hkey
      have hdata := hkept.data
      obtain ⟨s₁, hs₁⟩ := Registers.read_cases _ hr
      obtain ⟨rfl, _, hs₂⟩ := Registers.readOnce_after _ hs₁
      have hcs : m'.cs = [.align] := by rw [hs₂]; rfl
      have hconfig : { m' with p := m'.p + 1, finishMetric := true }.config = m'.config := by
        simp [config, hcs, begun, inside]
      have hreact : Config.react h m.config (m.data.getD m.p 0) = .after m'.config none := by
        rw [Config.react, ← hread]
        rfl
      refine ⟨⟨hkept.data, hkept.pe, hkept.eof, by simp only; omega, by simp only; omega,
        by simp only; omega, by simp, fun _ => rfl⟩, ?_⟩
      rw [scan_cons_of_after hreact]
      simp only [scanned]
      rw [hconfig, hdata, hp]

theorem config_readEof (m : LineMachine H) :
    ((registers h).readEof m).1.config = ((Config.registers h).readEof m.config).1 ∧
      ((registers h).readEof m).2 = ((Config.registers h).readEof m.config).2 := by
  have hcs : (Config.registers h).cs m.config = (registers h).cs m := rfl
  unfold Registers.readEof
  rw [hcs]
  cases hb : begun m.cs with
  | true =>
    rw [(config_performAll _ hb).1]
    generalize (registers h).performAll _ m = r
    obtain ⟨_, e⟩ := r
    cases e with
    | some | none => exact ⟨rfl, rfl⟩
  | false =>
    rw [show actionsAtEof ((registers h).cs m) = [] from actionsAtEof_of_not_begun hb]
    exact ⟨rfl, rfl⟩

theorem kept_readEof (m : LineMachine H) : Kept m ((registers h).readEof m).1 := by
  have hall := kept_performAll (h := h) (actionsAtEof ((registers h).cs m)) m
  unfold Registers.readEof
  generalize (registers h).performAll _ m = r at hall
  obtain ⟨_, e⟩ := r
  cases e <;> exact hall

end LineMachine

end Telegraf.Influx
