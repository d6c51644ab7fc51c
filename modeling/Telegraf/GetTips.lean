import Telegraf.Machine

/-!
# Tipsets behind the head

`headBuffer` of `plugins/inputs/lotus/rpc/head_buffer.go`, and the goroutine of `GetTips` in
`rpc.go` as a machine : it receives notifications of head changes, walks back from the current
head to the last height, holds back what is applied in the head buffer and sends the rest. The
node, the consumer of the channel and the context are in the labels.

`sent_append_buffer` : the tipsets sent and then those in the buffer are the stack of the
applied and not reverted tipsets.
-/

open List

namespace Telegraf

open Machine

/-- The `Type` of a head change. -/
inductive ChangeType where
  | current
  | apply
  | revert
  | other
deriving Repr, DecidableEq

/-- `api.HeadChange`. -/
structure HeadChange (T : Type*) where
  type : ChangeType
  val : T
deriving Repr, DecidableEq

/-- `headBuffer`, with the front of its list first. -/
structure HeadBuffer (T : Type*) where
  buffer : List (HeadChange T)
  size : ℤ
deriving Repr, DecidableEq

namespace HeadBuffer

variable {T : Type*} (h : HeadBuffer T)

/-- `NewHeadBuffer`. -/
def new (size : ℤ) : HeadBuffer T :=
  ⟨[], size⟩

/-- `Push`. `none` is the nil pointer dereference of an empty list that counts as full. -/
def push (hc : HeadChange T) : Option (HeadBuffer T × Option (HeadChange T)) :=
  if (h.buffer.length : ℤ) = h.size then
    match h.buffer with
    | [] => none
    | el :: rest => some ({ h with buffer := rest ++ [hc] }, some el)
  else some ({ h with buffer := h.buffer ++ [hc] }, none)

/-- `Pop`. -/
def pop : HeadBuffer T :=
  { h with buffer := h.buffer.dropLast }

variable {h}

/-- A full buffer gives its front for the new change, another one only takes it. -/
theorem push_cases (hsize : 1 ≤ h.size) (hlen : (h.buffer.length : ℤ) ≤ h.size)
    (hc : HeadChange T) :
    (∃ el rest, h.buffer = el :: rest ∧ (h.buffer.length : ℤ) = h.size ∧
      h.push hc = some ({ h with buffer := rest ++ [hc] }, some el)) ∨
    (h.buffer.length : ℤ) < h.size ∧
      h.push hc = some ({ h with buffer := h.buffer ++ [hc] }, none) := by
  unfold push
  by_cases hfull : (h.buffer.length : ℤ) = h.size
  · rw [if_pos hfull]
    cases hbuffer : h.buffer with
    | nil =>
      rw [hbuffer, length_nil] at hfull
      omega
    | cons el rest => exact .inl ⟨el, rest, rfl, by rw [← hbuffer]; exact hfull, rfl⟩
  · rw [if_neg hfull]
    exact .inr ⟨by omega, rfl⟩

end HeadBuffer

/-! ## The goroutine -/

/-- Where the goroutine is. -/
inductive TipsPc (T : Type*) where
  /-- At the `select`. -/
  | select
  /-- In the loop over the changes of a notification. -/
  | changes (rest : List (HeadChange T))
  /-- In `loadTipsets`. -/
  | walking (curr : T) (tipsets : List T) (rest : List (HeadChange T))
  /-- Sending tipsets. -/
  | sending (tipsets : List T) (rest : List (HeadChange T))
  /-- Returned, with the channel closed. -/
  | returned
  | panicked
deriving Repr, DecidableEq

/-- `GetTips` with its channels. `handled` is the history of the changes taken up so far. -/
structure GetTips (T : Type*) where
  notif : List (List (HeadChange T))
  notifClosed : Bool
  ctxDone : Bool
  hb : HeadBuffer T
  pc : TipsPc T
  sent : List T
  handled : List (HeadChange T)
deriving Repr, DecidableEq

/-- A step of the goroutine, or of the node or the context. -/
inductive TipsEvent (T : Type*) where
  | notify (changes : List (HeadChange T))
  | closeNotif
  | cancel
  /-- The case of the `select` for the notifications. -/
  | receive
  /-- The case of the `select` for the context. -/
  | done
  /-- The goroutine goes on by itself. -/
  | next
  /-- `ChainGetTipSet` answers, or fails. -/
  | answer (tipset : Option T)
  /-- The consumer takes a tipset. -/
  | send
deriving Repr, DecidableEq

namespace GetTips

variable {T : Type*} (height : T → ℤ) (lastHeight : ℤ)

/-- The start of the goroutine, `headlag` being the size of the head buffer. -/
def start (headlag : ℤ) : GetTips T :=
  ⟨[], false, false, HeadBuffer.new headlag, .select, [], []⟩

/-- The walk of `loadTipsets` ends at this tipset. -/
def WalkEnds (curr : T) : Prop :=
  height curr = 0 ∨ height curr ≤ lastHeight

instance (curr : T) : Decidable (WalkEnds height lastHeight curr) := by
  unfold WalkEnds
  infer_instance

section

variable (s : GetTips T) (change : HeadChange T) (rest : List (HeadChange T))

/-- The body of the loop over the changes. -/
def handle : GetTips T :=
  let s := { s with handled := s.handled ++ [change] }
  match change.type with
  | .current => { s with pc := .walking change.val [] rest }
  | .apply =>
    match s.hb.push change with
    | none => { s with pc := .panicked }
    | some (hb, none) => { s with hb := hb, pc := .changes rest }
    | some (hb, some out) => { s with hb := hb, pc := .sending [out.val] rest }
  | .revert => { s with hb := s.hb.pop, pc := .changes rest }
  | .other => { s with pc := .changes rest }

/-- Handling a change touches the buffer and the program counter, and does not return. -/
theorem handle_eq :
    ∃ hb pc, handle s change rest =
      { s with hb := hb, pc := pc, handled := s.handled ++ [change] } ∧ pc ≠ .returned := by
  unfold handle
  match change.type with
  | .apply =>
    dsimp only
    match s.hb.push change with
    | none | some (_, none) | some (_, some _) => exact ⟨_, _, rfl, nofun⟩
  | .current | .revert | .other => exact ⟨_, _, rfl, nofun⟩

@[simp] theorem sent_handle : (handle s change rest).sent = s.sent := by
  obtain ⟨_, _, h, -⟩ := handle_eq s change rest
  rw [h]

@[simp] theorem handled_handle :
    (handle s change rest).handled = s.handled ++ [change] := by
  obtain ⟨_, _, h, -⟩ := handle_eq s change rest
  rw [h]

end

/-- A step of the goroutine in its surroundings. -/
def step (s : GetTips T) : TipsEvent T → Option (GetTips T)
  | .notify changes =>
    if s.notifClosed then none else some { s with notif := s.notif ++ [changes] }
  | .closeNotif => some { s with notifClosed := true }
  | .cancel => some { s with ctxDone := true }
  | .receive =>
    match s.pc, s.notif with
    | .select, changes :: notif => some { s with notif := notif, pc := .changes changes }
    -- a closed channel gives nil
    | .select, [] => if s.notifClosed then some { s with pc := .changes [] } else none
    | _, _ => none
  | .done =>
    match s.pc with
    | .select => if s.ctxDone then some { s with pc := .returned } else none
    | _ => none
  | .next =>
    match s.pc with
    | .changes [] => some { s with pc := .select }
    | .changes (change :: rest) => some (handle s change rest)
    | .walking curr tipsets rest =>
      if WalkEnds height lastHeight curr then
        some { s with pc := .sending tipsets.reverse rest }
      else none
    | .sending [] rest => some { s with pc := .changes rest }
    | _ => none
  | .answer tipset =>
    match s.pc with
    | .walking curr tipsets rest =>
      if WalkEnds height lastHeight curr then none
      else
        match tipset with
        | some prev => some { s with pc := .walking prev (tipsets ++ [curr]) rest }
        | none => some { s with pc := .returned }
    | _ => none
  | .send =>
    match s.pc with
    | .sending (tipset :: tipsets) rest =>
      some { s with pc := .sending tipsets rest, sent := s.sent ++ [tipset] }
    | _ => none

/-- Where the goroutine cannot go on by itself or with the consumer. -/
theorem goes_on (s : GetTips T) :
    s.pc = .select ∨ s.pc = .returned ∨ s.pc = .panicked ∨
      (∃ curr tipsets rest, s.pc = .walking curr tipsets rest ∧
        ¬WalkEnds height lastHeight curr) ∨
      (step height lastHeight s .next).isSome ∨ (step height lastHeight s .send).isSome := by
  unfold step
  match s.pc with
  | .select => simp
  | .changes [] => simp
  | .changes (_ :: _) => simp
  | .walking curr _ _ => by_cases hend : WalkEnds height lastHeight curr <;> simp [hend]
  | .sending [] _ => simp
  | .sending (_ :: _) _ => simp
  | .returned => simp
  | .panicked => simp

/-- The tipsets that are still to be sent. -/
def unsent : TipsPc T → List T
  | .sending tipsets _ => tipsets
  | _ => []

@[simp] theorem unsent_select : unsent (.select : TipsPc T) = [] :=
  rfl

@[simp] theorem unsent_changes (rest : List (HeadChange T)) : unsent (.changes rest) = [] :=
  rfl

@[simp] theorem unsent_sending (tipsets : List T) (rest : List (HeadChange T)) :
    unsent (.sending tipsets rest) = tipsets :=
  rfl

@[simp] theorem unsent_returned : unsent (.returned : TipsPc T) = [] :=
  rfl

/-- The steps of the goroutine, with the answers and the consumer it waits for. -/
def Own : TipsEvent T → Prop
  | .notify _ | .closeNotif | .cancel => False
  | _ => True

/-- What a step does. -/
inductive Moves (s : GetTips T) : TipsEvent T → GetTips T → Prop
  /-- A step of the node or of the context. -/
  | outside {e notif notifClosed ctxDone} (hown : ¬Own e)
      (hctx : s.ctxDone = true → ctxDone = true) :
      Moves s e { s with notif := notif, notifClosed := notifClosed, ctxDone := ctxDone }
  /-- Between two changes or two notifications, or the end. -/
  | turn {e notif pc} (hlabel : e = .receive ∨ e = .done ∨ e = .next)
      (hpc : s.pc = .select ∨ s.pc = .changes [] ∨ ∃ rest, s.pc = .sending [] rest)
      (hpc' : pc = .select ∨ (∃ rest, pc = .changes rest) ∨ pc = .returned ∧ s.ctxDone = true) :
      Moves s e { s with notif := notif, pc := pc }
  | handled {change rest} (hpc : s.pc = .changes (change :: rest)) :
      Moves s .next (handle s change rest)
  | walked {curr tipsets rest} (hpc : s.pc = .walking curr tipsets rest)
      (hend : WalkEnds height lastHeight curr) :
      Moves s .next { s with pc := .sending tipsets.reverse rest }
  | stepped {curr tipsets rest prev} (hpc : s.pc = .walking curr tipsets rest)
      (hend : ¬WalkEnds height lastHeight curr) :
      Moves s (.answer (some prev)) { s with pc := .walking prev (tipsets ++ [curr]) rest }
  | failed {curr tipsets rest} (hpc : s.pc = .walking curr tipsets rest)
      (hend : ¬WalkEnds height lastHeight curr) :
      Moves s (.answer none) { s with pc := .returned }
  | sent {tipset tipsets rest} (hpc : s.pc = .sending (tipset :: tipsets) rest) :
      Moves s .send { s with pc := .sending tipsets rest, sent := s.sent ++ [tipset] }

variable {height lastHeight} {s s' : GetTips T} {e : TipsEvent T}

theorem moves_of_step
    (h : step height lastHeight s e = some s') : Moves height lastHeight s e s' := by
  cases e with
  | notify =>
    rw [step] at h
    split_ifs at h
    cases h
    exact .outside id id
  | closeNotif =>
    cases h
    exact .outside id id
  | cancel =>
    cases h
    exact .outside id fun _ => rfl
  | receive =>
    rw [step] at h
    split at h
    · cases h
      exact .turn (.inl rfl) (.inl ‹_›) (.inr (.inl ⟨_, rfl⟩))
    · split_ifs at h
      cases h
      exact .turn (.inl rfl) (.inl ‹_›) (.inr (.inl ⟨_, rfl⟩))
    · cases h
  | done =>
    rw [step] at h
    split at h
    · split_ifs at h with hctx
      cases h
      exact .turn (.inr (.inl rfl)) (.inl ‹_›) (.inr (.inr ⟨rfl, hctx⟩))
    · cases h
  | next =>
    rw [step] at h
    split at h
    · cases h
      exact .turn (.inr (.inr rfl)) (.inr (.inl ‹_›)) (.inl rfl)
    · cases h
      exact .handled ‹_›
    · split_ifs at h with hend
      cases h
      exact .walked ‹_› hend
    · cases h
      exact .turn (.inr (.inr rfl)) (.inr (.inr ⟨_, ‹_›⟩)) (.inr (.inl ⟨_, rfl⟩))
    · cases h
  | answer =>
    rw [step] at h
    split at h
    · split_ifs at h with hend
      split at h
      · cases h
        exact .stepped ‹_› hend
      · cases h
        exact .failed ‹_› hend
    · cases h
  | send =>
    rw [step] at h
    split at h <;> cases h
    exact .sent ‹_›

/-! ## The stack of applied tipsets -/

/-- What is applied and not reverted, the oldest first. -/
def stack (changes : List (HeadChange T)) : List T :=
  changes.foldl (fun stack change =>
    match change.type with
    | .apply => stack ++ [change.val]
    | .revert => stack.dropLast
    | _ => stack) []

@[simp] theorem stack_snoc_apply (changes : List (HeadChange T)) (v : T) :
    stack (changes ++ [⟨.apply, v⟩]) = stack changes ++ [v] := by
  simp [stack]

@[simp] theorem stack_snoc_revert (changes : List (HeadChange T)) (v : T) :
    stack (changes ++ [⟨.revert, v⟩]) = (stack changes).dropLast := by
  simp [stack]

/-- Only applied tipsets and reverted ones, and none is reverted while the buffer is empty. -/
def Stacked (s : GetTips T) : TipsEvent T → Prop
  | .next =>
    match s.pc with
    | .changes (change :: _) =>
      change.type = .apply ∨ change.type = .revert ∧ s.hb.buffer ≠ []
    | _ => True
  | _ => True

instance (s : GetTips T) (e : TipsEvent T) : Decidable (Stacked s e) := by
  unfold Stacked
  split
  · split <;> infer_instance
  · infer_instance

/-- The tipsets of the buffer. -/
def held (s : GetTips T) : List T :=
  s.hb.buffer.map HeadChange.val

/-- The goroutine with the stack split into what is sent, what is being sent and the buffer. -/
structure Lagged (headlag : ℤ) (s : GetTips T) : Prop where
  size : s.hb.size = headlag
  length_le : (s.hb.buffer.length : ℤ) ≤ headlag
  stack_eq : s.sent ++ unsent s.pc ++ s.held = stack s.handled
  sending : ∀ tipsets rest, s.pc = .sending tipsets rest → tipsets.length ≤ 1 ∧
    (tipsets ≠ [] → (s.hb.buffer.length : ℤ) = headlag)
  walking : ∀ curr tipsets rest, s.pc ≠ .walking curr tipsets rest
  panicked : s.pc ≠ .panicked
  returned : s.pc = .returned → s.ctxDone = true

section Lagged

variable {headlag : ℤ} {s s' : GetTips T} {rest : List (HeadChange T)}

/-- Outside of sending, the stack is what is sent and the buffer. -/
theorem Lagged.of_changes (hsize : s.hb.size = headlag)
    (hlen : (s.hb.buffer.length : ℤ) ≤ headlag) (hstack : s.sent ++ s.held = stack s.handled)
    (hpc : s.pc = .changes rest) : Lagged headlag s where
  size := hsize
  length_le := hlen
  stack_eq := by rw [hpc, unsent_changes, append_nil, hstack]
  sending tipsets rest h := by
    rw [hpc] at h
    cases h
  walking curr tipsets rest h := by
    rw [hpc] at h
    cases h
  panicked h := by
    rw [hpc] at h
    cases h
  returned h := by
    rw [hpc] at h
    cases h

theorem Lagged.apply (hlag : 1 ≤ headlag) (h : Lagged headlag s) {v : T}
    (hpc : s.pc = .changes (⟨.apply, v⟩ :: rest)) : Lagged headlag (handle s ⟨.apply, v⟩ rest) := by
  have hstack := h.stack_eq
  rw [hpc, unsent_changes, append_nil] at hstack
  obtain rfl := h.size
  rcases s.hb.push_cases hlag h.length_le ⟨.apply, v⟩ with
    ⟨el, buffer, hbuffer, hfull, hpush⟩ | ⟨hroom, hpush⟩
  · -- the front of the buffer is to be sent
    have hlen : ((buffer ++ [⟨.apply, v⟩] : List (HeadChange T)).length : ℤ) = s.hb.size := by
      rw [← hfull, hbuffer, length_append]
      rfl
    have hheld : s.held = el.val :: buffer.map HeadChange.val := by
      rw [held, hbuffer, map_cons]
    simp only [handle, hpush]
    refine ⟨rfl, Int.le_of_eq hlen, ?_, ?_, ?_, ?_, ?_⟩
    · rw [unsent_sending, stack_snoc_apply, ← hstack, hheld]
      simp [held]
    · intro _ _ heq
      cases heq
      exact ⟨Nat.le_refl 1, fun _ => hlen⟩
    · nofun
    · nofun
    · nofun
  · simp only [handle, hpush]
    refine Lagged.of_changes rfl ?_ ?_ rfl
    · rw [length_append]
      exact_mod_cast hroom
    · rw [stack_snoc_apply, ← hstack, held, held, map_append, ← append_assoc]
      rfl

theorem Lagged.revert (h : Lagged headlag s) {v : T} (hpc : s.pc = .changes (⟨.revert, v⟩ :: rest))
    (hne : s.hb.buffer ≠ []) : Lagged headlag (handle s ⟨.revert, v⟩ rest) := by
  have hstack := h.stack_eq
  rw [hpc, unsent_changes, append_nil] at hstack
  refine Lagged.of_changes h.size ?_ ?_ rfl
  · have hle : (s.hb.buffer.dropLast.length : ℤ) ≤ s.hb.buffer.length := by
      rw [length_dropLast]
      omega
    exact Int.le_trans hle h.length_le
  · have hheld : s.held ≠ [] := fun hnil => hne (map_eq_nil_iff.1 hnil)
    rw [handle, stack_snoc_revert, ← hstack, dropLast_append_of_ne_nil hheld, held, held,
      HeadBuffer.pop, map_dropLast]

theorem Lagged.turn {notif : List (List (HeadChange T))} {pc : TipsPc T} (h : Lagged headlag s)
    (hpc : s.pc = .select ∨ s.pc = .changes [] ∨ ∃ rest, s.pc = .sending [] rest)
    (hpc' : pc = .select ∨ (∃ rest, pc = .changes rest) ∨ pc = .returned ∧ s.ctxDone = true) :
    Lagged headlag { s with notif := notif, pc := pc } := by
  have hunsent : unsent s.pc = [] := by
    rcases hpc with hpc | hpc | ⟨rest, hpc⟩ <;> rw [hpc] <;> rfl
  have hstack := h.stack_eq
  rw [hunsent] at hstack
  rcases hpc' with rfl | ⟨_, rfl⟩ | ⟨rfl, hctx⟩
  · exact ⟨h.size, h.length_le, hstack, nofun, nofun, nofun, nofun⟩
  · exact ⟨h.size, h.length_le, hstack, nofun, nofun, nofun, nofun⟩
  · exact ⟨h.size, h.length_le, hstack, nofun, nofun, nofun, fun _ => hctx⟩

theorem Lagged.step (hlag : 1 ≤ headlag) (h : Lagged headlag s) (hok : Stacked s e)
    (hstep : GetTips.step height lastHeight s e = some s') : Lagged headlag s' := by
  cases moves_of_step hstep with
  | outside hown hctx =>
    obtain ⟨hsize, hlen, hstack, hsending, hwalking, hpanicked, hreturned⟩ := h
    exact ⟨hsize, hlen, hstack, hsending, hwalking, hpanicked, fun hpc => hctx (hreturned hpc)⟩
  | turn hlabel hpc hpc' => exact h.turn hpc hpc'
  | @handled change rest hpc =>
    obtain ⟨_, v⟩ := change
    simp only [Stacked, hpc] at hok
    rcases hok with rfl | ⟨rfl, hne⟩
    · exact h.apply hlag hpc
    · exact h.revert hpc hne
  | walked hpc | stepped hpc | failed hpc => exact absurd hpc (h.walking _ _ _)
  | @sent tipset tipsets rest hpc =>
    obtain ⟨hone, _⟩ := h.sending _ _ hpc
    obtain rfl : tipsets = [] := by
      rw [length_cons] at hone
      exact length_eq_zero_iff.1 (by omega)
    have hstack := h.stack_eq
    rw [hpc, unsent_sending] at hstack
    refine ⟨h.size, h.length_le, ?_, ?_, ?_, ?_, ?_⟩
    · rw [unsent_sending, append_nil]
      exact hstack
    · intro tipsets _ heq
      cases heq
      exact ⟨Nat.zero_le 1, fun hne => absurd rfl hne⟩
    · nofun
    · nofun
    · nofun

theorem Lagged.run {is : List (TipsEvent T)} (hlag : 1 ≤ headlag) (h : Lagged headlag s)
    (hok : AllSteps (GetTips.step height lastHeight) Stacked s is)
    (hrun : run (GetTips.step height lastHeight) s is = some s') : Lagged headlag s' :=
  run_induction_of_allSteps (P := fun _ s => Lagged headlag s)
    (fun _ _ _ _ h hok hstep => h.step hlag hok hstep) is [] s s' h hok hrun

/-- The goroutine waits for a notification, has returned, or goes on once the consumer takes what
it sends. -/
theorem Lagged.progress (h : Lagged headlag s) :
    s.pc = .select ∨ s.pc = .returned ∧ s.ctxDone = true ∨
      (GetTips.step height lastHeight s .next).isSome ∨
      (GetTips.step height lastHeight s .send).isSome := by
  rcases s.goes_on height lastHeight with hpc | hpc | hpc | ⟨_, _, _, hpc, -⟩ | hstep
  · exact .inl hpc
  · exact .inr (.inl ⟨hpc, h.returned hpc⟩)
  · exact absurd hpc h.panicked
  · exact absurd hpc (h.walking _ _ _)
  · exact .inr (.inr hstep)

end Lagged

/-- What is sent stays sent and what is handled stays handled. -/
theorem prefix_of_step (h : step height lastHeight s e = some s') :
    s.sent <+: s'.sent ∧ s.handled <+: s'.handled := by
  cases moves_of_step h with
  | outside | turn | walked | stepped | failed => exact ⟨prefix_rfl, prefix_rfl⟩
  | handled =>
    rw [sent_handle, handled_handle]
    exact ⟨prefix_rfl, prefix_append _ _⟩
  | sent => exact ⟨prefix_append _ _, prefix_rfl⟩

/-- Only the loop over the changes takes one up. -/
theorem pc_of_handled_ne (h : step height lastHeight s e = some s') (hne : s'.handled ≠ s.handled) :
    ∃ change rest, s.pc = .changes (change :: rest) ∧ s' = handle s change rest := by
  cases moves_of_step h with
  | outside | turn | walked | stepped | failed | sent => exact absurd rfl hne
  | handled hpc => exact ⟨_, _, hpc, rfl⟩

theorem prefix_of_run {is : List (TipsEvent T)} (h : run (step height lastHeight) s is = some s') :
    s.sent <+: s'.sent ∧ s.handled <+: s'.handled := by
  refine run_induction (P := fun _ t => s.sent <+: t.sent ∧ s.handled <+: t.handled)
    ⟨prefix_rfl, prefix_rfl⟩ (fun _ t e t' hpre hstep => ?_) h
  have hstep' := prefix_of_step hstep
  exact ⟨hpre.1.trans hstep'.1, hpre.2.trans hstep'.2⟩

variable {headlag : ℤ}

theorem lagged_start (hlag : 1 ≤ headlag) : Lagged headlag (start headlag : GetTips T) where
  size := rfl
  length_le := Int.le_trans Int.one_nonneg hlag
  stack_eq := rfl
  sending tipsets rest h := by cases h
  walking curr tipsets rest h := by cases h
  panicked h := by cases h
  returned h := by cases h

/-- Every tipset applied and not reverted is sent, being sent or in the buffer, in this order.
A tipset is sent when there are `headlag` newer ones in the buffer, what is sent is and stays
the start of the stack, and the goroutine is never stuck with a change. -/
theorem sent_append_buffer {headlag : ℤ} (hlag : 1 ≤ headlag) {is : List (TipsEvent T)}
    {s : GetTips T} (hrun : run (step height lastHeight) (start headlag) is = some s)
    (hstacked : AllSteps (step height lastHeight) Stacked (start headlag) is) :
    s.sent ++ unsent s.pc ++ s.held = stack s.handled ∧
      (∀ tipset tipsets rest, s.pc = .sending (tipset :: tipsets) rest →
        tipsets = [] ∧ (s.held.length : ℤ) = headlag) ∧
      (∀ pre s', pre <+: is → run (step height lastHeight) (start headlag) pre = some s' →
        s'.sent <+: stack s.handled) ∧
      (s.pc = .select ∨ s.pc = .returned ∧ s.ctxDone = true ∨
        (step height lastHeight s .next).isSome ∨ (step height lastHeight s .send).isSome) := by
  have hlagged := (lagged_start hlag).run hlag hstacked hrun
  refine ⟨hlagged.stack_eq, fun tipset tipsets rest hpc => ?_, ?_, hlagged.progress⟩
  · obtain ⟨hone, hfull⟩ := hlagged.sending _ _ hpc
    rw [length_cons] at hone
    refine ⟨length_eq_zero_iff.1 (by omega), ?_⟩
    rw [held, length_map]
    exact hfull (cons_ne_nil _ _)
  · rintro pre s' ⟨rest, rfl⟩ hpre
    rw [run_append, hpre, Option.bind_some] at hrun
    refine (prefix_of_run hrun).1.trans ?_
    rw [← hlagged.stack_eq, append_assoc]
    exact prefix_append _ _

/-- The steps for a tipset that is applied over another, reverted and replaced. -/
def replacing : List (TipsEvent ℕ) :=
  [.notify [⟨.apply, 1⟩, ⟨.apply, 2⟩, ⟨.revert, 2⟩], .notify [⟨.apply, 3⟩, ⟨.apply, 4⟩],
    .receive, .next, .next, .send, .next, .next, .next, .receive, .next, .next, .send]

/-- With a lag of one the first tipset and the replacement are sent. -/
theorem sent_append_buffer_of_replacing :
    ∃ s, run (step (fun t : ℕ => (t : ℤ)) 0) (start 1) replacing = some s ∧
      s.sent = [1, 3] ∧ s.held = [4] ∧ s.sent ++ unsent s.pc ++ s.held = stack s.handled := by
  refine Exists.imp (fun s hrun => ⟨hrun, ?_⟩) ⟨_, rfl⟩
  have hs : s.sent = [1, 3] ∧ s.held = [4] := by
    cases hrun
    decide
  exact ⟨hs.1, hs.2, (sent_append_buffer (by decide) hrun (by decide)).1⟩

/-- Applied and reverted tipsets, none of them reverted while the buffer is empty, `n` being its
length. -/
def Feeds (size : ℤ) : ℕ → List (HeadChange T) → Prop
  | _, [] => True
  | n, change :: rest =>
    match change.type with
    | .apply => Feeds size (if (n : ℤ) = size then n else n + 1) rest
    | .revert => n ≠ 0 ∧ Feeds size (n - 1) rest
    | _ => False

variable {change : HeadChange T}

theorem feeds_handle {s : GetTips T} {rest : List (HeadChange T)} (hlag : 1 ≤ headlag)
    (h : Lagged headlag s) (hpc : s.pc = .changes (change :: rest))
    (hfeeds : Feeds headlag s.hb.buffer.length (change :: rest)) :
    Stacked s .next ∧ Feeds headlag (handle s change rest).hb.buffer.length rest ∧
      ((handle s change rest).pc = .changes rest ∨
        ∃ tipset, (handle s change rest).pc = .sending [tipset] rest) := by
  obtain ⟨type, v⟩ := change
  obtain rfl := h.size
  simp only [Stacked, hpc]
  match type with
  | .apply =>
    simp only [Feeds] at hfeeds
    rcases s.hb.push_cases hlag h.length_le ⟨.apply, v⟩ with
      ⟨el, buffer, hbuffer, hfull, hpush⟩ | ⟨hroom, hpush⟩
    · simp only [handle, hpush]
      rw [if_pos hfull, hbuffer] at hfeeds
      rw [length_append]
      exact ⟨.inl trivial, hfeeds, .inr ⟨_, rfl⟩⟩
    · simp only [handle, hpush]
      rw [if_neg (by omega)] at hfeeds
      rw [length_append]
      exact ⟨.inl trivial, hfeeds, .inl trivial⟩
  | .revert =>
    obtain ⟨hpos, hfeeds⟩ := hfeeds
    refine ⟨.inr ⟨rfl, fun hnil => hpos (by rw [hnil]; rfl)⟩, ?_, .inl rfl⟩
    simp only [handle, HeadBuffer.pop, length_dropLast]
    exact hfeeds

section

variable (height lastHeight)

theorem exists_run_of_change {s : GetTips T} {rest : List (HeadChange T)} (hlag : 1 ≤ headlag)
    (h : Lagged headlag s) (hpc : s.pc = .changes (change :: rest))
    (hfeeds : Feeds headlag s.hb.buffer.length (change :: rest)) :
    ∃ js s', run (step height lastHeight) s js = some s' ∧ Lagged headlag s' ∧
      s'.pc = .changes rest ∧ s'.handled = s.handled ++ [change] ∧
      Feeds headlag s'.hb.buffer.length rest := by
  have hnext : step height lastHeight s .next = some (handle s change rest) := by
    simp [step, hpc]
  obtain ⟨hok, hfeeds', hpc' | ⟨tipset, hpc'⟩⟩ := feeds_handle hlag h hpc hfeeds
  · exact ⟨[.next], _, by rw [run_cons, hnext]; rfl, h.step hlag hok hnext, hpc',
      handled_handle _ _ _, hfeeds'⟩
  · have hsend : step height lastHeight (handle s change rest) .send = some
        { handle s change rest with pc := .sending [] rest, sent := s.sent ++ [tipset] } := by
      simp [step, hpc']
    have hrun : run (step height lastHeight) s [.next, .send, .next] = some
        { handle s change rest with pc := .changes rest, sent := s.sent ++ [tipset] } := by
      rw [run_cons, hnext, Option.bind_some, run_cons, hsend]
      rfl
    have hlagged := (h.step hlag hok hnext).step hlag (e := .send) trivial hsend
    exact ⟨_, _, hrun, hlagged.turn (.inr (.inr ⟨rest, rfl⟩)) (.inr (.inl ⟨rest, rfl⟩)), rfl,
      handled_handle s change rest, hfeeds'⟩

theorem exists_run_of_changes (hlag : 1 ≤ headlag) :
    ∀ (changes : List (HeadChange T)) {s : GetTips T}, Lagged headlag s → s.pc = .changes changes →
      Feeds headlag s.hb.buffer.length changes →
      ∃ js s', run (step height lastHeight) s js = some s' ∧ Lagged headlag s' ∧
        s'.pc = .changes [] ∧ s'.handled = s.handled ++ changes
  | [], s, h, hpc, _ => ⟨[], s, rfl, h, hpc, (List.append_nil _).symm⟩
  | change :: changes, s, h, hpc, hfeeds => by
    obtain ⟨js, _, hjs, h₁, hpc₁, hhandled, hfeeds₁⟩ :=
      exists_run_of_change height lastHeight hlag h hpc hfeeds
    obtain ⟨ks, s', hks, h', hpc', hhandled'⟩ :=
      exists_run_of_changes hlag changes h₁ hpc₁ hfeeds₁
    refine ⟨js ++ ks, s', by rw [run_append, hjs, Option.bind_some, hks], h', hpc', ?_⟩
    rw [hhandled', hhandled, append_assoc]
    rfl

/-- Every such sequence of changes is handled by some run, which sends all but the buffer. -/
theorem exists_run_of_feeds (hlag : 1 ≤ headlag) {changes : List (HeadChange T)}
    (hfeeds : Feeds headlag 0 changes) :
    ∃ is s, run (step height lastHeight) (start headlag) is = some s ∧
      s.handled = changes ∧ s.sent ++ s.held = stack changes := by
  have hlagged : Lagged headlag { start headlag with pc := .changes changes } :=
    (lagged_start hlag).turn (.inl rfl) (.inr (.inl ⟨changes, rfl⟩))
  obtain ⟨js, s, hjs, h, hpc, hhandled⟩ :=
    exists_run_of_changes height lastHeight hlag changes hlagged rfl hfeeds
  refine ⟨.notify changes :: .receive :: js, s, hjs, hhandled, ?_⟩
  have hstack := h.stack_eq
  rw [hpc, unsent_changes, append_nil, hhandled] at hstack
  exact hstack

end

/-- A tipset is replaced, and with a lag of one the replacement is sent. -/
theorem exists_run_of_replaced : ∃ is s,
    run (step (fun t : ℕ => (t : ℤ)) 0) (start 1) is = some s ∧
      s.handled = [⟨.apply, 1⟩, ⟨.revert, 1⟩, ⟨.apply, 2⟩, ⟨.apply, 3⟩] ∧
      s.sent ++ s.held = [2, 3] := by
  have hfeeds : Feeds 1 0 [⟨.apply, 1⟩, ⟨.revert, 1⟩, ⟨.apply, 2⟩, ⟨.apply, 3⟩] := by simp [Feeds]
  exact exists_run_of_feeds (fun t : ℕ => (t : ℤ)) 0 (Int.le_refl 1) hfeeds

/-! ## A closed notification channel -/

/-- While the context lives, the goroutine returns with a failure of `ChainGetTipSet` only. -/
theorem returned_of_own_step (hown : Own e)
    (hctx : s.ctxDone = false) (h : step height lastHeight s e = some s') :
    s'.notifClosed = s.notifClosed ∧ s'.ctxDone = false ∧ s.pc ≠ .returned ∧
      (s'.pc = .returned ↔ e = .answer none) := by
  cases moves_of_step h with
  | outside hnot => exact absurd hown hnot
  | turn hlabel hpc hpc' =>
    refine ⟨rfl, hctx, ?_, iff_of_false ?_ ?_⟩
    · rcases hpc with hpc | hpc | ⟨rest, hpc⟩ <;> rw [hpc] <;> nofun
    · rcases hpc' with rfl | ⟨rest, rfl⟩ | ⟨rfl, hdone⟩
      · nofun
      · nofun
      · exact absurd (hctx.symm.trans hdone) Bool.false_ne_true
    · rcases hlabel with rfl | rfl | rfl <;> nofun
  | @handled change rest hpc =>
    obtain ⟨_, pc, heq, hne⟩ := handle_eq s change rest
    rw [heq, hpc]
    exact ⟨rfl, hctx, nofun, iff_of_false hne nofun⟩
  | walked hpc hend | stepped hpc hend =>
    rw [hpc]
    exact ⟨rfl, hctx, nofun, iff_of_false nofun nofun⟩
  | failed hpc =>
    rw [hpc]
    exact ⟨rfl, hctx, nofun, iff_of_true rfl rfl⟩
  | sent hpc =>
    rw [hpc]
    exact ⟨rfl, hctx, nofun, iff_of_false nofun nofun⟩

/-- Once the notification channel is closed the goroutine goes on in its loop, unless
`ChainGetTipSet` fails. -/
theorem returned_iff_of_closed {is : List (TipsEvent T)} {s s' : GetTips T}
    (hclosed : s.notifClosed = true) (hctx : s.ctxDone = false) (hown : ∀ e ∈ is, Own e)
    (hrun : run (step height lastHeight) s is = some s') :
    (s'.pc = .returned ↔ s.pc = .returned ∨ .answer none ∈ is) ∧
      (s'.pc ≠ .returned → s'.pc ≠ .panicked →
        ∃ e, Own e ∧ (step height lastHeight s' e).isSome) := by
  have hinv : s'.notifClosed = true ∧ s'.ctxDone = false ∧
      (s'.pc = .returned ↔ s.pc = .returned ∨ .answer none ∈ is) := by
    refine run_induction (P := fun is t => (∀ e ∈ is, Own e) → t.notifClosed = true ∧
      t.ctxDone = false ∧ (t.pc = .returned ↔ s.pc = .returned ∨ .answer none ∈ is))
      (fun _ => ⟨hclosed, hctx, by simp⟩) (fun is t e t' ht hstep hown => ?_) hrun hown
    obtain ⟨hclosed', hctx', hpc⟩ := ht fun e he => hown e (mem_append_left _ he)
    obtain ⟨hclosed'', hctx'', hne, hpc'⟩ := returned_of_own_step (hown e (by simp)) hctx' hstep
    refine ⟨hclosed''.trans hclosed', hctx'', ?_⟩
    rw [hpc', mem_append, mem_singleton, ← or_assoc, ← hpc]
    constructor
    · rintro rfl
      exact .inr rfl
    · rintro (h | h)
      · exact absurd h hne
      · exact h.symm
  obtain ⟨hclosed', hctx', hpc⟩ := hinv
  refine ⟨hpc, fun hreturned hpanicked => ?_⟩
  rcases s'.goes_on height lastHeight with h | h | h | ⟨_, _, _, h, hend⟩ | h | h
  · -- the closed channel gives nil once it is empty
    refine ⟨.receive, trivial, ?_⟩
    unfold step
    match s'.notif with
    | [] => simp [h, hclosed']
    | _ :: _ => simp [h]
  · exact absurd h hreturned
  · exact absurd h hpanicked
  · exact ⟨.answer none, trivial, by simp [step, h, hend]⟩
  · exact ⟨.next, trivial, h⟩
  · exact ⟨.send, trivial, h⟩

/-- A walk that fails after the channel is closed. -/
theorem returned_iff_of_closed_walk :
    ∃ s s', run (step (fun t : ℕ => (t : ℤ)) 0) (start 3)
        [.notify [⟨.current, 1⟩], .closeNotif, .receive, .next] = some s ∧
      run (step (fun t : ℕ => (t : ℤ)) 0) s [.answer none] = some s' ∧
      s'.pc = .returned := by
  refine Exists.imp (fun s hrun => Exists.imp (fun s' hrun' => ⟨hrun, hrun', ?_⟩) ?_) ⟨_, rfl⟩
  case refine_2 =>
    cases hrun
    exact ⟨_, rfl⟩
  have hs : s.notifClosed = true ∧ s.ctxDone = false := by
    cases hrun
    decide
  exact (returned_iff_of_closed hs.1 hs.2 (by simp [Own]) hrun').1.2 (.inr (by simp))

/-- The channel is closed with nothing in it and the goroutine stays in its loop for ever. -/
theorem select_of_closed_channel :
    ∃ s, run (step (fun t : ℕ => (t : ℤ)) 0) (start 3) [.closeNotif] = some s ∧
      s.notifClosed = true ∧ s.notif = [] ∧ s.ctxDone = false ∧ s.pc = .select ∧
      ∀ n, run (step (fun t : ℕ => (t : ℤ)) 0) s
        (List.replicate n [.receive, .next]).flatten = some s := by
  refine ⟨_, rfl, rfl, rfl, rfl, rfl, fun n => ?_⟩
  induction n with
  | zero => rfl
  | succ n ih =>
    rw [replicate_succ, flatten_cons, run_append]
    exact ih

end GetTips

end Telegraf
