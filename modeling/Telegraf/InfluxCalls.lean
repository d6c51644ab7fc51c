import Telegraf.InfluxMachine

/-!
# Calls of the line protocol machine

A caller of `Next` gets a metric, an error or the end of the input, and calls again until the end
(`Parsed`). `feed` follows the machine over these calls byte by byte. The last call can end inside a
metric with neither a metric nor an error, and that it does is a matter of the automaton's state
after the last byte (`Stuck`).
-/

open List

namespace Telegraf.Influx

open Scanner Registers

variable {H E M : Type}

/-! ## Results -/

/-- What a call of a parser gives. `panic` is a nil dereference in `Metric`. -/
inductive Result (M E : Type) where
  | metric (x : M)
  | error (e : ParseErr E)
  | panic
  | eof
deriving Repr, DecidableEq

/-- There is no call after this one. -/
def Result.IsLast : Result M E → Prop
  | .panic | .eof => True
  | .metric _ | .error _ => False

/-- What a parser makes of what `Next` returned, with `Metric` of its handler. -/
def result (metric : H → H × Option M) (s : H) : Ret E → H × Result M E
  | .eof => (s, .eof)
  | .error e => (s, .error e)
  | .nil =>
    match metric s with
    | (s, some x) => (s, .metric x)
    | (s, none) => (s, .panic)

/-- `Next` and the handling of its result. -/
def LineMachine.nextResult (h : Handler H E) (metric : H → H × Option M) (m : LineMachine H) :
    LineMachine H × Result M E :=
  match m.next h with
  | (m, r) => ({ m with handler := (result metric m.handler r).1 }, (result metric m.handler r).2)

/-- The results of the machine over a whole input, continued after each error. -/
def Parsed (h : Handler H E) (metric : H → H × Option M) (s : H) (input : GoString)
    (rs : List (Result M E)) : Prop :=
  Gives (fun m r m' => LineMachine.nextResult h metric m = (m', r)) Result.IsLast
    (LineMachine.setData input s) rs

/-! ## The automaton over several calls -/

namespace Config

variable {h : Handler H E} {metric : H → H × Option M} {c c' : Config H} {b : UInt8}
  {input rest : GoString}

/-- A machine that has read nothing. -/
def init (s : H) : Config H :=
  ⟨[.align], [], [], false, s⟩

/-- The machine in the next call, if `Metric` does not panic. -/
def afterMetric (metric : H → H × Option M) (c : Config H) : Config H :=
  match metric c.handler with
  | (s, some _) => { c with handler := s }.start
  | (_, none) => { c with cs := [] }

/-- The machine at a byte, with another call if it stops. After a panic it stays where it is. -/
def feed (h : Handler H E) (metric : H → H × Option M) (c : Config H) (b : UInt8) : Config H :=
  if c.cs = [] then c
  else
    match react h c b with
    | .go c => c
    | .before c _ =>
      match react h c.start b with
      | .go c => c
      | _ => c
    | .after c _ => c.afterMetric metric

/-- At positions where the end of the input means nothing. -/
def Stuck (c : Config H) : Prop :=
  c.cs ≠ [] ∧ ∀ x ∈ c.cs, x = .nameEsc ∨ x = .cr

instance (c : Config H) : Decidable c.Stuck :=
  inferInstanceAs (Decidable (c.cs ≠ [] ∧ ∀ x ∈ c.cs, x = .nameEsc ∨ x = .cr))

/-- Outside of a metric. -/
def Outside (c : Config H) : Prop :=
  ∃ x, c.cs = [x] ∧ inside x = false

theorem Outside.start (hc : c.Outside) : c.start.Uniform := by
  obtain ⟨x, hcs, hx⟩ := hc
  exact uniform_start hcs hx

theorem Outside.not_stuck (hc : c.Outside) : ¬c.Stuck := by
  rintro ⟨-, hstuck⟩
  obtain ⟨x, hcs, hx⟩ := hc
  rcases hstuck x (by simp [hcs]) with rfl | rfl <;> cases hx

variable {r : Option (ParseErr E)}

theorem react_before (hr : react h c b = .before c' r) :
    (∃ e, r = some e) ∧ c'.cs = [.discardLine] := by
  unfold react at hr
  split at hr
  · cases hr
  · next _ _ hread =>
    cases hr
    obtain ⟨_, hc₂⟩ := read_cases _ hread
    obtain ⟨he, _, rfl⟩ := readOnce_before _ hc₂
    exact ⟨he, rfl⟩
  · cases hr

theorem react_after (hr : react h c b = .after c' r) : r = none ∧ c'.cs = [.align] := by
  unfold react at hr
  split at hr
  · cases hr
  · cases hr
  · next _ _ hread =>
    cases hr
    obtain ⟨_, hc₂⟩ := read_cases _ hread
    obtain ⟨he, _, rfl⟩ := readOnce_after _ hc₂
    exact ⟨he, rfl⟩

theorem react_discardLine (hcs : c.cs = [.discardLine]) (b : UInt8) :
    ∃ c', react h c b = .go c' := by
  have hmove : ∃ q, (move [.discardLine] b : Except (ParseErr E) _) = .ok ([], [q]) ∧
      (q = .align ∨ q = .discardLine) := by
    by_cases hb : b = 10
    · exact ⟨.align, by simp [move, moves, delta, on, hb, actions], .inl rfl⟩
    · exact ⟨.discardLine, by simp [move, moves, delta, on, hb, actions], .inr rfl⟩
  obtain ⟨q, hmove, hq⟩ := hmove
  have hread : (registers h).read c b = .go (c.setCs [q]) := by
    have hcs' : (registers h).cs c = [.discardLine] := hcs
    unfold Registers.read Registers.readOnce
    rw [hcs', hmove]
    rcases hq with rfl | rfl <;> rfl
  exact ⟨_, by rw [react, hread]⟩

/-- Where a scan stops : after a line, or at a byte with an error. -/
theorem scan_stop (hscan : scan (react h) c input = .stop c' r rest) :
    (r = none ∧ c'.cs = [.align] ∧ rest.length < input.length) ∨
      ∃ e, r = some e ∧ c'.cs = [.discardLine] ∧ rest.length ≤ input.length := by
  obtain ⟨_, b, _, _, rfl, -, ⟨hr, rfl⟩ | ⟨hr, rfl⟩⟩ := exists_of_scan_stop hscan
  · obtain ⟨⟨e, he⟩, hcs⟩ := react_before hr
    exact .inr ⟨e, he, hcs, by simp⟩
  · obtain ⟨he, hcs⟩ := react_after hr
    exact .inl ⟨he, hcs, by simp only [length_append, length_cons]; omega⟩

theorem Outside.of_cs_eq {x : Pos} (hcs : c.cs = [x]) (hx : inside x = false) : c.Outside :=
  ⟨x, hcs, hx⟩

theorem outside_of_scan_stop (hscan : scan (react h) c input = .stop c' r rest) : c'.Outside := by
  rcases scan_stop hscan with ⟨-, hcs, -⟩ | ⟨-, -, hcs, -⟩
  · exact Outside.of_cs_eq hcs rfl
  · exact Outside.of_cs_eq hcs rfl

/-- Calls come to an end : each one leaves less to do. -/
def remaining (c : Config H) (rest : GoString) : ℕ :=
  2 * rest.length + if c.cs = [.discardLine] then 0 else 1

theorem remaining_of_scan_stop (hne : input ≠ [])
    (hscan : scan (react h) c.start input = .stop c' r rest) :
    c'.remaining rest < c.remaining input := by
  unfold remaining
  by_cases hcs : c.cs = [.discardLine]
  · -- the first byte is taken, so the rest is shorter
    obtain ⟨b, input, rfl⟩ := exists_cons_of_ne_nil hne
    obtain ⟨_, hc₁⟩ := react_discardLine (h := h) (c := c.start) hcs b
    rw [scan_cons_of_go hc₁] at hscan
    have hle : rest.length ≤ input.length := by
      rcases scan_stop hscan with ⟨-, -, hlt⟩ | ⟨-, -, -, hle⟩
      · exact hlt.le
      · exact hle
    rw [if_pos hcs, length_cons]
    split <;> omega
  · rw [if_neg hcs]
    rcases scan_stop hscan with ⟨-, -, hlt⟩ | ⟨-, -, hcs', hle⟩
    · split <;> omega
    · rw [if_pos hcs']
      omega

theorem cs_ne_nil_of_go (hr : react h c b = .go c') : c.cs ≠ [] := by
  intro hcs
  have hread : (registers h).read c b =
      .before (c.setCs [.discardLine]) (some .errParse) := by
    have hcs' : (registers h).cs c = [] := hcs
    unfold Registers.read Registers.readOnce
    rw [hcs']
    rfl
  simp [react, hread] at hr

theorem Uniform.cs_ne_nil (hc : c.Uniform) : c.cs ≠ [] := by
  rcases hc with ⟨-, hne, -⟩ | ⟨-, x, hcs, -⟩
  · exact hne
  · simp [hcs]

theorem feed_of_go (hr : react h c b = .go c') : c.feed h metric b = c' := by
  rw [feed, if_neg (cs_ne_nil_of_go hr), hr]

theorem foldl_feed_of_out (hscan : scan (react h) c input = .out c') :
    input.foldl (feed h metric) c = c' := by
  induction input generalizing c with
  | nil => simpa using hscan
  | cons b input ih =>
    cases hr : react h c b with
    | go =>
      rw [scan_cons_of_go hr] at hscan
      rw [foldl_cons, feed_of_go hr, ih hscan]
    | before => simp [scan_cons_of_before hr] at hscan
    | after => simp [scan_cons_of_after hr] at hscan

variable {e : ParseErr E}

theorem foldl_feed_of_error (hc : c.Uniform)
    (hscan : scan (react h) c input = .stop c' (some e) rest) :
    input.foldl (feed h metric) c = rest.foldl (feed h metric) c'.start := by
  obtain ⟨_, b, _, c₁, rfl, hpre, ⟨hr, rfl⟩ | ⟨hr, rfl⟩⟩ := exists_of_scan_stop hscan
  · have hne : c₁.cs ≠ [] := ((uniform_scan hc).1 hpre).cs_ne_nil
    obtain ⟨-, hcs⟩ := react_before hr
    obtain ⟨_, hc₂⟩ := react_discardLine (h := h) (c := c'.start) hcs b
    rw [foldl_append, foldl_feed_of_out hpre, foldl_cons, foldl_cons,
      feed_of_go hc₂, feed, if_neg hne, hr]
    simp only [hc₂]
  · cases (react_after hr).1

theorem foldl_feed_of_line (hc : c.Uniform) (hscan : scan (react h) c input = .stop c' none rest) :
    input.foldl (feed h metric) c = rest.foldl (feed h metric) (c'.afterMetric metric) := by
  obtain ⟨_, b, _, c₁, rfl, hpre, ⟨hr, rfl⟩ | ⟨hr, rfl⟩⟩ := exists_of_scan_stop hscan
  · obtain ⟨⟨e, he⟩, -⟩ := react_before hr
    cases he
  · have hne : c₁.cs ≠ [] := ((uniform_scan hc).1 hpre).cs_ne_nil
    rw [foldl_append, foldl_feed_of_out hpre, foldl_cons, feed, if_neg hne, hr]

theorem foldl_feed_of_cs_eq_nil (hcs : c.cs = []) : input.foldl (feed h metric) c = c := by
  induction input with
  | nil => rfl
  | cons b input ih => rw [foldl_cons, feed, if_pos hcs, ih]

/-- A state that is stuck comes from a backslash or a carriage return. -/
theorem not_stuck_of_go (hr : react h c b = .go c') (hb : b ≠ 92 ∧ b ≠ 13) : ¬c'.Stuck := by
  rintro ⟨hne, hpos⟩
  obtain ⟨c₁, hread, hcs⟩ : ∃ c₁, (registers h).read c b = .go c₁ ∧ c₁.cs = c'.cs := by
    unfold react at hr
    split at hr
    · next c₁ hread =>
      cases hr
      exact ⟨c₁, hread, rfl⟩
    · cases hr
    · cases hr
  obtain ⟨c₂, hc₂⟩ := read_cases _ hread
  obtain ⟨_, cs, _, hmove, rfl⟩ := readOnce_go _ hc₂
  obtain ⟨-, -, hmoves⟩ := move_eq_ok hmove
  have hcs' : c'.cs = ((moves ((registers h).cs c₂) b).map Prod.snd).dedup := hcs.symm.trans hmoves
  obtain ⟨x, hx⟩ := exists_mem_of_ne_nil _ hne
  have hstuck := hpos x hx
  rw [hcs', mem_dedup] at hx
  obtain ⟨e, he, rfl⟩ := mem_map.1 hx
  obtain ⟨y, -, he⟩ := mem_flatMap.1 he
  obtain ⟨-, hesc, hcr⟩ := mem_delta he
  rcases hstuck with h' | h'
  · exact hb.1 (hesc h')
  · exact hb.2 (hcr h')

theorem not_stuck_feed (hb : b ≠ 92 ∧ b ≠ 13) : ¬(c.feed h metric b).Stuck := by
  unfold feed
  split
  · next hcs => exact fun hstuck => hstuck.1 hcs
  · cases hr : react h c b with
    | go => exact not_stuck_of_go hr hb
    | before c₁ =>
      obtain ⟨-, hcs⟩ := react_before hr
      obtain ⟨_, hc₂⟩ := react_discardLine (h := h) (c := c₁.start) hcs b
      simp only [hc₂]
      exact not_stuck_of_go hc₂ hb
    | after =>
      obtain ⟨-, hcs⟩ := react_after hr
      dsimp only [afterMetric]
      split
      · exact Outside.not_stuck ⟨.align, hcs, rfl⟩
      · exact fun hstuck => hstuck.1 rfl

/-- An input that ends with neither of the two bytes does not leave the machine stuck. -/
theorem not_stuck_foldl (hc : c.Outside) (hlast : ∀ b ∈ input.getLast?, b ≠ 92 ∧ b ≠ 13) :
    ¬(input.foldl (feed h metric) c).Stuck := by
  rcases eq_nil_or_concat input with rfl | ⟨l, b, rfl⟩
  · exact hc.not_stuck
  · rw [concat_eq_append, foldl_append]
    exact not_stuck_feed (hlast b (by simp))

/-- A call ends with nothing exactly if it is stuck after the last byte, and then it stays. -/
theorem readEof_of_stuck (hc : c.Uniform) (hstuck : c.Stuck) :
    (registers h).readEof c = (c, .nothing) ∧ c.beginMetric = true := by
  obtain ⟨_, hpos⟩ := hstuck
  have hin : ∀ x ∈ c.cs, inside x = true := by
    intro x hx
    rcases hpos x hx with rfl | rfl <;> rfl
  have hleave : c.cs.flatMap leaving = [] :=
    flatMap_eq_nil_iff.2 fun x hx => leaving_of_nameEsc_or_cr (hpos x hx)
  have hbegin : c.beginMetric = true := by
    rcases hc with ⟨hbegin, -, -⟩ | ⟨-, x, hcs, hx⟩
    · exact hbegin
    · rw [hin x (by simp [hcs])] at hx
      cases hx
  refine ⟨?_, hbegin⟩
  have hactions : actionsAtEof ((registers h).cs c) = [] := by
    rw [actionsAtEof, show (registers h).cs c = c.cs from rfl, hleave]
    rfl
  have hnothing : (atEof ((registers h).cs c) : AtEof E) = .nothing := (atEof_eq_nothing hin).2 hpos
  rw [readEof, hactions, hnothing]
  rfl

theorem stuck_of_readEof (hc : c.Uniform) (hread : (registers h).readEof c = (c', .nothing))
    (hbegin : c'.beginMetric = true) : c.Stuck := by
  unfold readEof at hread
  rcases hc with ⟨-, hne, hin⟩ | ⟨hfalse, x, hcs, hx⟩
  · split at hread
    · cases hread
    · obtain ⟨-, hnothing⟩ := Prod.mk.inj hread
      exact ⟨hne, (atEof_eq_nothing hin).1 hnothing⟩
  · -- outside nothing is performed, so that no metric has begun
    have hactions : actionsAtEof ((registers h).cs c) = [] :=
      actionsAtEof_of_not_begun (by simp [registers, hcs, begun, hx])
    rw [hactions] at hread
    obtain ⟨rfl, -⟩ := Prod.mk.inj hread
    rw [hfalse] at hbegin
    cases hbegin

/-- A call that ends with nothing is stuck where it ends. -/
theorem stuck_of_exec (hc : c.Uniform) (hexec : c.exec h input = .unfinished c') :
    scan (react h) c input = .out c' ∧ c'.Uniform ∧ c'.Stuck := by
  unfold exec at hexec
  split at hexec
  · cases hexec
  · cases hexec
  · next _ hscan =>
    have hc₁ := (uniform_scan hc).1 hscan
    split at hexec
    · cases hexec
    · cases hexec
    · next _ hread =>
      split at hexec <;> cases hexec
      next hbegin =>
        have hstuck := stuck_of_readEof hc₁ hread hbegin
        rw [(readEof_of_stuck hc₁ hstuck).1] at hread
        obtain ⟨rfl, -⟩ := Prod.mk.inj hread
        exact ⟨hscan, hc₁, hstuck⟩

/-- At the end of the input there is no metric outside of one. -/
theorem exec_nil (hc : c.Outside) : c.start.exec h [] = .eof := by
  obtain ⟨x, hcs, hx⟩ := hc
  have hactions : actionsAtEof ((registers h).cs c.start) = [] :=
    actionsAtEof_of_not_begun (by simp [registers, start, hcs, begun, hx])
  have hnothing : (atEof ((registers h).cs c.start) : AtEof E) = .nothing := by
    rw [show (registers h).cs c.start = [x] from hcs]
    cases x <;> first | rfl | cases hx
  rw [exec, scan_nil]
  simp only [readEof, hactions, hnothing, performAll]
  rfl

theorem stuck_foldl_of_exec (hc : c.Uniform) (hexec : c.exec h input = .unfinished c') :
    (input.foldl (feed h metric) c).Stuck := by
  obtain ⟨hscan, -, _⟩ := stuck_of_exec hc hexec
  rwa [foldl_feed_of_out hscan]

theorem not_stuck_foldl_of_exec (hc : c.Uniform) (hexec : c.exec h input = .eof) :
    ¬(input.foldl (feed h metric) c).Stuck := by
  intro hstuck
  unfold exec at hexec
  split at hexec
  · cases hexec
  · cases hexec
  · next _ hscan =>
    rw [foldl_feed_of_out hscan] at hstuck
    obtain ⟨hread, hbegin⟩ := readEof_of_stuck (h := h) ((uniform_scan hc).1 hscan) hstuck
    simp [hread, hbegin] at hexec

/-- A call that gives an error, and the calls after it. -/
theorem exec_failed (metric : H → H × Option M) (hc : c.Outside) (hne : input ≠ [])
    (hexec : c.start.exec h input = .failed c' e rest) :
    c'.remaining rest < c.remaining input ∧
      (rest ≠ [] → input.foldl (feed h metric) c.start = rest.foldl (feed h metric) c'.start) ∧
      (rest = [] → ¬(input.foldl (feed h metric) c.start).Stuck) := by
  have hpos := length_pos_iff.2 hne
  unfold exec at hexec
  split at hexec
  · cases hexec
  · next c₁ _ _ hscan =>
    cases hexec
    have hfold : input.foldl (feed h metric) c.start = rest.foldl (feed h metric) c'.start :=
      foldl_feed_of_error hc.start hscan
    refine ⟨remaining_of_scan_stop hne hscan, fun _ => hfold, ?_⟩
    rintro rfl
    rw [hfold]
    exact (outside_of_scan_stop hscan).not_stuck
  · next c₁ hscan =>
    have hc₁ := (uniform_scan hc.start).1 hscan
    split at hexec
    · cases hexec
    · next _ _ hread =>
      cases hexec
      refine ⟨by simp only [remaining, length_nil]; split <;> omega, by simp, fun _ hstuck => ?_⟩
      rw [foldl_feed_of_out hscan] at hstuck
      rw [(readEof_of_stuck hc₁ hstuck).1] at hread
      cases hread
    · split at hexec <;> cases hexec

/-- A call that gives a metric, and the calls after it. -/
theorem exec_finished (metric : H → H × Option M) (hc : c.Outside) (hne : input ≠ [])
    (hexec : c.start.exec h input = .finished c' rest) :
    c'.remaining rest < c.remaining input ∧
      (rest ≠ [] → input.foldl (feed h metric) c.start =
        rest.foldl (feed h metric) (c'.afterMetric metric)) ∧
      (rest = [] → ¬(input.foldl (feed h metric) c.start).Stuck) := by
  have hpos := length_pos_iff.2 hne
  unfold exec at hexec
  split at hexec
  · next c₁ _ hscan =>
    cases hexec
    have hfold : input.foldl (feed h metric) c.start =
        rest.foldl (feed h metric) (c'.afterMetric metric) := foldl_feed_of_line hc.start hscan
    refine ⟨remaining_of_scan_stop hne hscan, fun _ => hfold, ?_⟩
    rintro rfl
    rw [hfold, foldl_nil, afterMetric]
    obtain ⟨x, hcs, hx⟩ := outside_of_scan_stop hscan
    split
    · exact Outside.not_stuck ⟨x, hcs, hx⟩
    · exact fun hstuck => hstuck.1 rfl
  · cases hexec
  · next c₁ hscan =>
    have hc₁ := (uniform_scan hc.start).1 hscan
    split at hexec
    · next _ hread =>
      cases hexec
      refine ⟨by simp only [remaining, length_nil]; split <;> omega, by simp, fun _ hstuck => ?_⟩
      rw [foldl_feed_of_out hscan] at hstuck
      rw [(readEof_of_stuck hc₁ hstuck).1] at hread
      cases hread
    · cases hexec
    · split at hexec <;> cases hexec

end Config

/-! ## `exec` -/

namespace LineMachine

variable {h : Handler H E} {metric : H → H × Option M} {m m' : LineMachine H} {c : Config H}
  {rest : GoString}

/-- The part of the buffer that has not been read. -/
def unread (m : LineMachine H) : GoString :=
  slice m.data m.p m.pe

/-- The positions are inside the buffer and in order. -/
structure Wf (m : LineMachine H) : Prop where
  p_le : m.p ≤ m.pe
  pe_le : m.pe ≤ m.data.length
  pb_le : m.pb ≤ m.p
  key_le : m.key.2 ≤ m.p

/-- A call leaves the buffer as it is. -/
structure Execd (m m' : LineMachine H) : Prop where
  data : m'.data = m.data
  pe : m'.pe = m.pe
  eof : m'.eof = m.eof
  wf : m'.Wf

theorem unread_eq_nil (h : m.p = m.pe) : m.unread = [] := by
  rw [unread, h, slice_self]

theorem length_unread (h : m.Wf) : m.unread.length = m.pe - m.p := by
  have := h.pe_le
  simp only [unread, slice, length_drop, length_take]
  omega

/-- The loop of `exec` scans what is unread, and keeps the machine well-formed. -/
theorem exists_run (hwf : m.Wf) : ∃ m' r, m.run h (m.pe - m.p) = (m', r) ∧ Ran m m' m.pe r ∧
    scan (Config.react h) m.config m.unread = scanned m.pe m' r ∧ Execd m m' := by
  obtain ⟨hran, hrun⟩ := run_spec (h := h) (m.pe - m.p) m m.pe (by have := hwf.p_le; omega)
    hwf.pb_le hwf.key_le hwf.pe_le
  refine ⟨_, _, rfl, hran, hrun, hran.data, hran.pe, hran.eof, ?_⟩
  exact ⟨by rw [hran.pe]; exact hran.p_le, by rw [hran.pe, hran.data]; exact hwf.pe_le,
    hran.pb_le, hran.key_le⟩

theorem exec_of_stop (hwf : m.Wf) {c : Config H} {r : Option (ParseErr E)} {rest : GoString}
    (hscan : scan (Config.react h) m.config m.unread = .stop c r rest)
    (hbegin : r = none → c.beginMetric = true) :
    ∃ m', m.exec h = (m', match r with | none => .nil | some e => .error e) ∧ m'.config = c ∧
      m'.unread = rest ∧ Execd m m' ∧ (r = none → m'.finishMetric = true) := by
  obtain ⟨m', r', heq, hran, hrun, hexecd⟩ := exists_run (h := h) hwf
  rw [hscan] at hrun
  cases r' with
  | none => cases hrun
  | some =>
    simp only [scanned, Scan.stop.injEq] at hrun
    obtain ⟨rfl, rfl, rfl⟩ := hrun
    refine ⟨m', ?_, rfl, by rw [unread, hexecd.pe], hexecd, fun hr => hran.line (by rw [hr])⟩
    rw [exec, heq]
    cases r with
    | some => rfl
    | none =>
      have htrue : m'.beginMetric = true := hbegin rfl
      simp [ret, htrue]

theorem exec_of_out (hwf : m.Wf) {c : Config H}
    (hscan : scan (Config.react h) m.config m.unread = .out c) :
    ∃ m', m.exec h = (m'.testEof h).1.ret (m'.testEof h).2 ∧ m'.config = c ∧ m'.p = m'.pe ∧
      Execd m m' ∧ m'.finishMetric = m.finishMetric := by
  obtain ⟨m', r, heq, hran, hrun, hexecd⟩ := exists_run (h := h) hwf
  rw [hscan] at hrun
  cases r with
  | some => cases hrun
  | none =>
    simp only [scanned, Scan.out.injEq] at hrun
    obtain ⟨hp, hfinish⟩ := hran.out rfl
    exact ⟨m', by rw [exec, heq], hrun.symm, hp.trans hexecd.pe.symm, hexecd, hfinish⟩

/-- Where a call has left the machine : at a configuration with a rest, or at the end for good. -/
structure Left (m : LineMachine H) (c : Config H) (rest : GoString) : Prop where
  wf : m.Wf
  unread : m.unread = rest
  handler : m.handler = c.handler
  config : (m.config = c ∧ c.Outside) ∨ m.p = m.pe ∧ m.eof = some m.pe

theorem ret_testEof (hwf : m.Wf) (hp : m.p = m.pe) (huniform : m.config.Uniform)
    (hfinish : m.finishMetric = false) (heof : m.eof = some m.pe) :
    ∃ m', m'.Wf ∧ m'.data = m.data ∧ m'.eof = some m'.pe ∧ m'.p = m'.pe ∧
      match (Config.registers h).readEof m.config with
      | (c, .finishMetric) => (m.testEof h).1.ret (m.testEof h).2 = (m', .nil) ∧
          m'.finishMetric = true ∧ m'.handler = c.handler
      | (c, .error e) => (m.testEof h).1.ret (m.testEof h).2 = (m', .error e) ∧
          m'.handler = c.handler
      | (c, .nothing) => (m.testEof h).1.ret (m.testEof h).2 =
            (m', if c.beginMetric then .nil else .eof) ∧
          m'.finishMetric = false ∧ m'.config = c := by
  obtain ⟨hconfig, hres⟩ := config_readEof (h := h) m
  have hkept := kept_readEof (h := h) m
  have hbegin : (Config.registers h).readEof m.config =
      (((registers h).readEof m).1.config, .finishMetric) →
      ((registers h).readEof m).1.config.beginMetric = true :=
    Config.beginMetric_readEof huniform
  unfold testEof
  rw [hp, if_pos heof]
  generalize (registers h).readEof m = r at hconfig hres hkept hbegin
  generalize (Config.registers h).readEof m.config = r' at hconfig hres hbegin
  obtain ⟨m', a⟩ := r
  obtain ⟨c, a'⟩ := r'
  obtain rfl : m'.config = c := hconfig
  obtain rfl : a = a' := hres
  have hkept : Kept m m' := hkept
  have hp' : m'.p = m'.pe := by rw [hkept.p, hkept.pe, hp]
  have heof' : m'.eof = some m'.pe := by rw [hkept.eof, hkept.pe, heof]
  have hwf' : m'.Wf := by
    refine ⟨hp'.le, ?_, ?_, ?_⟩
    · rw [hkept.pe, hkept.data]
      exact hwf.pe_le
    · rw [hkept.p]
      exact hkept.pb_le hwf.pb_le
    · rw [hkept.p]
      exact hkept.key_le hwf.pb_le hwf.key_le
  cases a with
  | finishMetric =>
    have hbegin : m'.beginMetric = true := hbegin rfl
    refine ⟨{ m' with finishMetric := true }, ⟨hwf'.1, hwf'.2, hwf'.3, hwf'.4⟩, hkept.data, heof',
      hp', ?_⟩
    simp [ret, hbegin, config]
  | error =>
    refine ⟨{ m' with cs := [] }, ⟨hwf'.1, hwf'.2, hwf'.3, hwf'.4⟩, hkept.data, heof', hp', ?_⟩
    simp [ret, config]
  | nothing =>
    refine ⟨m', hwf', hkept.data, heof', hp', ?_, hkept.finishMetric.trans hfinish, rfl⟩
    cases hbegin : m'.beginMetric <;> simp [ret, config, hbegin, hp', heof']

theorem exec_spec (hwf : m.Wf) (huniform : m.config.Uniform) (hfinish : m.finishMetric = false)
    (heof : m.eof = some m.pe) :
    ∃ m', m'.Wf ∧ m'.data = m.data ∧ m'.eof = some m'.pe ∧
      match m.config.exec h m.unread with
      | .finished c rest => m.exec h = (m', .nil) ∧ m'.finishMetric = true ∧ m'.Left c rest
      | .failed c e rest => m.exec h = (m', .error e) ∧ m'.Left c rest
      | .eof => m.exec h = (m', .eof)
      | .unfinished c => m.exec h = (m', .nil) ∧ m'.finishMetric = false ∧ m'.config = c ∧
          m'.p = m'.pe := by
  unfold Config.exec
  cases hscan : scan (Config.react h) m.config m.unread with
  | stop c r rest =>
    have hbegin : r = none → c.beginMetric = true := by
      rintro rfl
      exact (Config.uniform_scan huniform).2 rest hscan
    obtain ⟨m', hexec, hconfig, hunread, hexecd, hline⟩ := exec_of_stop hwf hscan hbegin
    have hleft : m'.Left c rest := ⟨hexecd.wf, hunread, hconfig ▸ rfl,
      .inl ⟨hconfig, Config.outside_of_scan_stop hscan⟩⟩
    refine ⟨m', hexecd.wf, hexecd.data, by rw [hexecd.eof, hexecd.pe, heof], ?_⟩
    cases r with
    | none => exact ⟨hexec, hline rfl, hleft⟩
    | some => exact ⟨hexec, hleft⟩
  | out c =>
    obtain ⟨m₁, hexec, hconfig, hp, hexecd, hfin⟩ := exec_of_out hwf hscan
    have huniform₁ : m₁.config.Uniform := hconfig ▸ (Config.uniform_scan huniform).1 hscan
    have heof₁ : m₁.eof = some m₁.pe := by rw [hexecd.eof, heof, hexecd.pe]
    obtain ⟨m', hwf', hdata', heof', hp', hspec⟩ :=
      ret_testEof (h := h) hexecd.wf hp huniform₁ (hfin.trans hfinish) heof₁
    rw [hconfig] at hspec
    refine ⟨m', hwf', hdata'.trans hexecd.data, heof', ?_⟩
    dsimp only
    generalize (Config.registers h).readEof c = r at hspec
    obtain ⟨c', a⟩ := r
    cases a with
    | finishMetric =>
      obtain ⟨hret, hfinish', hhandler⟩ := hspec
      exact ⟨hexec.trans hret, hfinish', hwf', unread_eq_nil hp', hhandler, .inr ⟨hp', heof'⟩⟩
    | error =>
      obtain ⟨hret, hhandler⟩ := hspec
      exact ⟨hexec.trans hret, hwf', unread_eq_nil hp', hhandler, .inr ⟨hp', heof'⟩⟩
    | nothing =>
      obtain ⟨hret, hfinish', hconfig'⟩ := hspec
      dsimp only at hret ⊢
      cases hbegin : c'.beginMetric with
      | true =>
        rw [hbegin] at hret
        exact ⟨hexec.trans hret, hfinish', hconfig', hp'⟩
      | false =>
        rw [hbegin] at hret
        exact hexec.trans hret

/-! ## Calls over a whole input -/

theorem config_start (m : LineMachine H) : m.start.config = m.config.start := by
  simp only [config, start, Config.start, text, slice_self]
  rfl

theorem Wf.start (hwf : m.Wf) : m.start.Wf :=
  ⟨hwf.p_le, hwf.pe_le, hwf.pb_le, Nat.zero_le _⟩

theorem Left.p_eq (hleft : m.Left c []) : m.p = m.pe := by
  have hlen := length_unread hleft.wf
  have hle := hleft.wf.p_le
  rw [hleft.unread, length_nil] at hlen
  omega

theorem Left.config_eq (hleft : m.Left c rest) (hne : rest ≠ []) : m.config = c ∧ c.Outside := by
  refine hleft.config.resolve_right fun hend => hne ?_
  rw [← hleft.unread, unread_eq_nil hend.1]

theorem left_setData (input : GoString) (s : H) : (setData input s).Left (Config.init s) input where
  wf := ⟨Nat.zero_le _, le_rfl, le_rfl, le_rfl⟩
  unread := by simp [LineMachine.unread, setData, slice]
  handler := rfl
  config := .inl ⟨rfl, .align, rfl, rfl⟩

/-- A call of `Next` with the rest of the input in the buffer. -/
theorem next_of_left (hleft : m.Left c rest) (heof : m.eof = some m.pe) (hne : rest ≠ []) :
    ∃ m', m'.Wf ∧ m'.eof = some m'.pe ∧
      match c.start.exec h rest with
      | .finished c' rest' => m.next h = (m', .nil) ∧ m'.Left c' rest'
      | .failed c' e rest' => m.next h = (m', .error e) ∧ m'.Left c' rest'
      | .eof => m.next h = (m', .eof)
      | .unfinished _ => m.next h = (m', .nil) := by
  obtain ⟨hconfig, hc⟩ := hleft.config_eq hne
  have hstart : m.start.config = c.start := by rw [config_start, hconfig]
  have hunread : m.start.unread = rest := hleft.unread
  have hp : ¬(m.p = m.pe ∧ m.eof = some m.pe) := fun hend =>
    hne (hleft.unread ▸ unread_eq_nil hend.1)
  have hnext : m.next h = m.start.exec h := if_neg hp
  obtain ⟨m', hwf', -, heof', hspec⟩ :=
    exec_spec (h := h) hleft.wf.start (hstart ▸ hc.start) rfl heof
  rw [hstart, hunread, ← hnext] at hspec
  refine ⟨m', hwf', heof', ?_⟩
  cases hexec : c.start.exec h rest with
  | finished =>
    rw [hexec] at hspec
    exact ⟨hspec.1, hspec.2.2⟩
  | failed | eof =>
    rw [hexec] at hspec
    exact hspec
  | unfinished =>
    rw [hexec] at hspec
    exact hspec.1

theorem next_of_left_nil (hleft : m.Left c []) (heof : m.eof = some m.pe) : m.next h = (m, .eof) :=
  if_pos ⟨hleft.p_eq, heof⟩

theorem Left.handled (hleft : m.Left c rest) (s : H) :
    { m with handler := s }.Left { c with handler := s } rest where
  wf := ⟨hleft.wf.1, hleft.wf.2, hleft.wf.3, hleft.wf.4⟩
  unread := hleft.unread
  handler := rfl
  config := hleft.config.imp_left fun ⟨h, hc⟩ => ⟨by rw [← h]; rfl, hc⟩

theorem nextResult_of_eof (hnext : m.next h = (m', .eof)) : m.nextResult h metric = (m', .eof) := by
  rw [nextResult, hnext]
  rfl

theorem nextResult_of_error {e : ParseErr E} (hnext : m.next h = (m', .error e)) :
    m.nextResult h metric = (m', .error e) := by
  rw [nextResult, hnext]
  rfl

theorem nextResult_of_metric (hnext : m.next h = (m', .nil)) {s : H} {x : M}
    (hmetric : metric m'.handler = (s, some x)) :
    m.nextResult h metric = ({ m' with handler := s }, .metric x) := by
  rw [nextResult, hnext]
  simp only [result, hmetric]

theorem nextResult_of_panic (hnext : m.next h = (m', .nil)) {s : H}
    (hmetric : metric m'.handler = (s, none)) :
    m.nextResult h metric = ({ m' with handler := s }, .panic) := by
  rw [nextResult, hnext]
  simp only [result, hmetric]

end LineMachine

end Telegraf.Influx
