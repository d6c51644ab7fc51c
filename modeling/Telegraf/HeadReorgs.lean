import Telegraf.Ancestry
import Telegraf.GetTips

/-!
# Reorganisations of the chain

The head changes of a node follow a chain : the first one carries the current head, then an applied
tipset is a child of the head and a reverted one is the head itself. `head` is the head after some
changes. A reorganisation is shallow when it reverts no tipset that had `headlag` others on top of
it at some time.

The head buffer keeps what such a reorganisation may revert. The walk back from the current head
does not go through the buffer, so its tipsets are sent at once and the current head may still be
reverted. `sent_canonical_iff` : what is sent stays canonical as long as it is not.
-/

open List Option

namespace Telegraf

open Ancestry Machine

namespace GetTips

variable {T : Type*} [DecidableEq T] (parent : T → Option T) (height : T → ℤ) (lastHeight : ℤ)

/-! ## The chain that the changes follow -/

/-- The head after one more change, `none` if it does not fit the head. -/
def headStep (h : T) (change : HeadChange T) : Option T :=
  match change.type with
  | .apply => if parent change.val = some h then some change.val else none
  | .revert => if change.val = h then parent h else none
  | _ => none

/-- The head after the changes, `none` if they do not follow a chain. -/
def head : List (HeadChange T) → Option T
  | [] => none
  | change :: changes =>
    if change.type = .current then run (headStep parent) change.val changes else none

/-- No tipset is reverted after `headlag` others have been on top of it. -/
def Shallow (headlag : ℤ) (changes : List (HeadChange T)) : Prop :=
  ∀ pre v, pre ++ [⟨.revert, v⟩] <+: changes → ∀ pre' h l, pre' <+: pre →
    head parent pre' = some h → OnTop parent v l h → (l.length : ℤ) < headlag

/-- `ChainGetTipSet` returns the parent, if anything. -/
def Answered (s : GetTips T) : TipsEvent T → Prop
  | .answer (some prev) =>
    match s.pc with
    | .walking curr _ _ => parent curr = some prev
    | _ => True
  | _ => True

instance (s : GetTips T) : ∀ e : TipsEvent T, Decidable (Answered parent s e)
  | .answer (some prev) =>
    show Decidable (match s.pc with
      | .walking curr _ _ => parent curr = some prev
      | _ => True) from
    match s.pc with
    | .walking curr _ _ => inferInstanceAs (Decidable (parent curr = some prev))
    | .select | .changes _ | .sending _ _ | .returned | .panicked => .isTrue trivial
  | .answer none | .notify _ | .closeNotif | .cancel | .receive | .done | .next | .send =>
    .isTrue trivial

variable {parent height lastHeight} {changes : List (HeadChange T)} {change : HeadChange T}

theorem headStep_eq_some {h h' : T} (hstep : headStep parent h change = some h') :
    change = ⟨.apply, h'⟩ ∧ parent h' = some h ∨ change = ⟨.revert, h⟩ ∧ parent h = some h' := by
  obtain ⟨type, v⟩ := change
  unfold headStep at hstep
  match type with
  | .apply =>
    obtain ⟨hparent, hv⟩ := ite_none_right_eq_some.1 hstep
    cases hv
    exact .inl ⟨rfl, hparent⟩
  | .revert =>
    obtain ⟨hv, hparent⟩ := ite_none_right_eq_some.1 hstep
    obtain rfl : v = h := hv
    exact .inr ⟨rfl, hparent⟩

theorem head_singleton {h : T} (hhead : head parent [change] = some h) :
    change = ⟨.current, h⟩ := by
  obtain ⟨type, v⟩ := change
  obtain ⟨htype, hv⟩ := ite_none_right_eq_some.1 hhead
  obtain rfl : type = .current := htype
  cases hv
  rfl

theorem head_snoc (hne : changes ≠ []) :
    head parent (changes ++ [change]) =
      (head parent changes).bind fun h => headStep parent h change := by
  obtain ⟨_, _, rfl⟩ := exists_cons_of_ne_nil hne
  rw [cons_append, head, head]
  split
  · rw [run_snoc]
  · rfl

variable {pre : List (HeadChange T)}

/-- The changes so far follow a chain if all of them do. -/
theorem exists_head_of_prefix {h : T} (hpre : pre <+: changes) (hne : pre ≠ [])
    (hhead : head parent changes = some h) : ∃ h', head parent pre = some h' := by
  obtain ⟨_, rfl⟩ := hpre
  obtain ⟨_, _, rfl⟩ := exists_cons_of_ne_nil hne
  rw [cons_append, head] at hhead
  obtain ⟨htype, hrun⟩ := ite_none_right_eq_some.1 hhead
  rw [run_append] at hrun
  obtain ⟨h', hh', -⟩ := bind_eq_some_iff.1 hrun
  exact ⟨h', by rw [head, if_pos htype, hh']⟩

/-! ## What is sent below the buffer -/

/-- `b` cannot be reverted any more : it is the current head that the walk sent, or had `headlag`
others on top of it. -/
def Pinned (parent : T → Option T) (height : T → ℤ) (lastHeight headlag : ℤ) (c : T)
    (changes : List (HeadChange T)) (b : T) : Prop :=
  b = c ∧ ¬WalkEnds height lastHeight c ∨
    ∃ pre h l, pre <+: changes ∧ head parent pre = some h ∧ OnTop parent b l h ∧
      headlag ≤ l.length

/-- The tipsets `out` are sent or being sent and `held` are in the buffer. The buffer leads from
`b` up to the head and `out` is below. -/
structure Based (parent : T → Option T) (height : T → ℤ) (lastHeight headlag : ℤ) (c : T)
    (changes : List (HeadChange T)) (out held : List T) (h b : T) : Prop where
  head : head parent changes = some h
  onTop : OnTop parent b held h
  ancestor : ∀ t ∈ out, Ancestor parent t b
  increasing : out.Pairwise (height · < height ·)
  pinned : out ≠ [] → Pinned parent height lastHeight headlag c changes b

section Based

variable {headlag : ℤ} {c h b : T} {out held : List T}

theorem Pinned.mono
    (hp : Pinned parent height lastHeight headlag c pre b) (hpre : pre <+: changes) :
    Pinned parent height lastHeight headlag c changes b := by
  rcases hp with hp | ⟨pre', h, l, hpre', hrest⟩
  · exact .inl hp
  · exact .inr ⟨pre', h, l, hpre'.trans hpre, hrest⟩

/-- What the walk back from the current head loads is below it. -/
theorem based_current (hheight : ∀ t p, parent t = some p → height p < height t)
    (hpath : OnTop parent b out c) (hwalk : out ≠ [] → ¬WalkEnds height lastHeight c) :
    Based parent height lastHeight headlag c [⟨.current, c⟩] out [] c c where
  head := rfl
  onTop := rfl
  ancestor _ ht := hpath.ancestor_of_mem ht
  increasing := hpath.pairwise_height hheight
  pinned hne := .inl ⟨rfl, hwalk hne⟩

/-- The front of the buffer goes out below a full buffer. -/
theorem Based.emit {el : T} (hheight : ∀ t p, parent t = some p → height p < height t)
    (hb : Based parent height lastHeight headlag c changes out (el :: held) h b)
    (hfull : headlag ≤ held.length) :
    Based parent height lastHeight headlag c changes (out ++ [el]) held h el where
  head := hb.head
  onTop := hb.onTop.2
  ancestor t ht := by
    rcases mem_append.1 ht with ht | ht
    · exact (hb.ancestor t ht).trans (Ancestor.of_parent hb.onTop.1)
    · rw [mem_singleton.1 ht]
      exact Ancestor.refl el
  increasing := by
    refine pairwise_append.2 ⟨hb.increasing, pairwise_singleton _ _, fun t ht x hx => ?_⟩
    rw [mem_singleton.1 hx]
    exact Int.lt_of_le_of_lt ((hb.ancestor t ht).height_le hheight) (hheight el b hb.onTop.1)
  pinned _ := .inr ⟨changes, h, held, prefix_rfl, hb.head, hb.onTop.2, hfull⟩

/-- The head is reverted with nothing in the buffer, so nothing was sent. -/
theorem Based.out_eq_nil {total : List (HeadChange T)}
    (hb : Based parent height lastHeight headlag c changes out [] h b)
    (hpre : changes ++ [⟨.revert, h⟩] <+: total) (hshallow : Shallow parent headlag total)
    (hc : WalkEnds height lastHeight c ∨ h ≠ c) : out = [] := by
  obtain rfl : b = h := hb.onTop
  by_contra hne
  rcases hb.pinned hne with ⟨rfl, hwalk⟩ | ⟨pre, h', l, hpre', hhead, honTop, _⟩
  · rcases hc with hc | hc
    · exact hwalk hc
    · exact hc rfl
  · have hlt := hshallow changes b hpre pre h' l hpre' hhead honTop
    omega

variable (hb : Based parent height lastHeight headlag c changes out held h b)

include hb

theorem Based.push {v : T} (hparent : parent v = some h)
    (hhead : GetTips.head parent (changes ++ [⟨.apply, v⟩]) = some v) :
    Based parent height lastHeight headlag c (changes ++ [⟨.apply, v⟩]) out (held ++ [v]) v b where
  head := hhead
  onTop := onTop_snoc.2 ⟨rfl, h, hb.onTop, hparent⟩
  ancestor := hb.ancestor
  increasing := hb.increasing
  pinned hne := (hb.pinned hne).mono (prefix_append _ _)

theorem Based.pop {p : T} (hne : held ≠ []) (hparent : parent h = some p)
    (hhead : GetTips.head parent (changes ++ [⟨.revert, h⟩]) = some p) :
    Based parent height lastHeight headlag c (changes ++ [⟨.revert, h⟩]) out held.dropLast p b where
  head := hhead
  onTop := by
    have honTop := hb.onTop
    rw [← dropLast_append_getLast hne] at honTop
    obtain ⟨hlast, _, hrest, hb'⟩ := onTop_snoc.1 honTop
    rw [hlast, hparent] at hb'
    rw [some.inj hb']
    exact hrest
  ancestor := hb.ancestor
  increasing := hb.increasing
  pinned hne := (hb.pinned hne).mono (prefix_append _ _)

theorem Based.changes_ne_nil : changes ≠ [] := by
  rintro rfl
  cases hb.head

theorem Based.canonical {t : T} (ht : t ∈ out) : Ancestor parent t h :=
  (hb.ancestor t ht).trans ⟨held, hb.onTop⟩

end Based

/-! ## The goroutine along the chain -/

/-- The goroutine before the first change, in the walk back from the current head `c`, and after
it. -/
inductive Phase (parent : T → Option T) (height : T → ℤ) (lastHeight headlag : ℤ) (c : T)
    (s : GetTips T) : Prop
  | idle (hhandled : s.handled = []) (hsent : s.sent = []) (hbuffer : s.hb.buffer = [])
      (hunsent : unsent s.pc = []) (hpc : ∀ curr tipsets rest, s.pc ≠ .walking curr tipsets rest)
  | walking {curr tipsets rest} (hpc : s.pc = .walking curr tipsets rest)
      (hhandled : s.handled = [⟨.current, c⟩]) (hsent : s.sent = []) (hbuffer : s.hb.buffer = [])
      (hpath : OnTop parent curr tipsets.reverse c)
      (hwalk : tipsets ≠ [] → ¬WalkEnds height lastHeight c)
  | based {h b}
      (hbased : Based parent height lastHeight headlag c s.handled (s.sent ++ unsent s.pc) s.held
        h b)
      (hpc : ∀ curr tipsets rest, s.pc ≠ .walking curr tipsets rest)
      (hwalked : ¬WalkEnds height lastHeight c → s.pc ≠ .returned → c ∈ s.sent ++ unsent s.pc)

/-- The goroutine follows the chain, with no more than `headlag` tipsets in the buffer. -/
structure Following (parent : T → Option T) (height : T → ℤ) (lastHeight headlag : ℤ) (c : T)
    (s : GetTips T) : Prop where
  size : s.hb.size = headlag
  length_le : (s.hb.buffer.length : ℤ) ≤ headlag
  phase : Phase parent height lastHeight headlag c s

section Following

variable {headlag : ℤ} {c : T} {s s' : GetTips T}

theorem following_start (hlag : 1 ≤ headlag) :
    Following parent height lastHeight headlag c (start headlag) where
  size := rfl
  length_le := Int.le_trans Int.one_nonneg hlag
  phase := .idle rfl rfl rfl rfl nofun

variable {notif : List (List (HeadChange T))}
  (hf : Following parent height lastHeight headlag c s)

include hf

theorem Following.outside {notifClosed ctxDone : Bool} :
    Following parent height lastHeight headlag c
      { s with notif := notif, notifClosed := notifClosed, ctxDone := ctxDone } := by
  refine ⟨hf.size, hf.length_le, ?_⟩
  rcases hf.phase with ⟨h1, h2, h3, h4, h5⟩ | ⟨h1, h2, h3, h4, h5, h6⟩ | ⟨h1, h2, h3⟩
  · exact .idle h1 h2 h3 h4 h5
  · exact .walking h1 h2 h3 h4 h5 h6
  · exact .based h1 h2 h3

/-- Between two changes or two notifications nothing is left to be sent. -/
theorem Following.turn {pc : TipsPc T}
    (hpc : s.pc = .select ∨ s.pc = .changes [] ∨ ∃ rest, s.pc = .sending [] rest)
    (hpc' : pc = .select ∨ (∃ rest, pc = .changes rest) ∨ pc = .returned ∧ s.ctxDone = true) :
    Following parent height lastHeight headlag c { s with notif := notif, pc := pc } := by
  have hunsent : unsent s.pc = [] ∧ s.pc ≠ .returned := by
    rcases hpc with hpc | hpc | ⟨rest, hpc⟩ <;> rw [hpc] <;> simp
  have hunsent' : unsent pc = [] ∧ ∀ curr tipsets rest, pc ≠ .walking curr tipsets rest := by
    rcases hpc' with rfl | ⟨rest, rfl⟩ | ⟨rfl, -⟩ <;> simp
  refine ⟨hf.size, hf.length_le, ?_⟩
  rcases hf.phase with ⟨h1, h2, h3, h4, h5⟩ | ⟨h1, h2, h3, h4, h5, _⟩ | ⟨h1, h2, h3⟩
  · exact .idle h1 h2 h3 hunsent'.1 hunsent'.2
  · rcases hpc with hpc | hpc | ⟨rest, hpc⟩ <;> cases hpc.symm.trans h1
  · rw [hunsent.1, ← hunsent'.1] at h1 h3
    exact .based h1 hunsent'.2 fun hwalk _ => h3 hwalk hunsent.2

variable {curr : T} {tipsets : List T} {rest total : List (HeadChange T)} {hd : T}

theorem Following.of_walking (hpc : s.pc = .walking curr tipsets rest) :
    s.handled = [⟨.current, c⟩] ∧ s.sent = [] ∧ s.held = [] ∧ OnTop parent curr tipsets.reverse c ∧
      (tipsets ≠ [] → ¬WalkEnds height lastHeight c) := by
  rcases hf.phase with ⟨-, -, -, -, h5⟩ | ⟨h1, h2, h3, h4, h5, h6⟩ | ⟨-, h2, -⟩
  · exact absurd hpc (h5 _ _ _)
  · cases hpc.symm.trans h1
    exact ⟨h2, h3, by rw [held, h4, map_nil], h5, h6⟩
  · exact absurd hpc (h2 _ _ _)

theorem Following.stepped {prev : T} (hpc : s.pc = .walking curr tipsets rest)
    (hend : ¬WalkEnds height lastHeight curr) (hprev : parent curr = some prev) :
    Following parent height lastHeight headlag c
      { s with pc := .walking prev (tipsets ++ [curr]) rest } := by
  obtain ⟨hhandled, hsent, hheld, hpath, hwalk⟩ := hf.of_walking hpc
  refine ⟨hf.size, hf.length_le, .walking rfl hhandled hsent (map_eq_nil_iff.1 hheld) ?_ ?_⟩
  · rw [reverse_append]
    exact ⟨hprev, hpath⟩
  · intro _
    by_cases hnil : tipsets = []
    · rw [hnil] at hpath
      obtain rfl : curr = c := hpath
      exact hend
    · exact hwalk hnil

theorem Following.send {tipset : T} (hpc : s.pc = .sending (tipset :: tipsets) rest) :
    Following parent height lastHeight headlag c
      { s with pc := .sending tipsets rest, sent := s.sent ++ [tipset] } := by
  have hout : s.sent ++ unsent s.pc = s.sent ++ [tipset] ++ tipsets := by
    rw [hpc, unsent_sending, append_assoc]
    rfl
  rcases hf.phase with ⟨-, -, -, h4, -⟩ | ⟨h1, -⟩ | ⟨h1, -, h3⟩
  · rw [hpc] at h4
    cases h4
  · cases hpc.symm.trans h1
  · rw [hout] at h1 h3
    refine ⟨hf.size, hf.length_le, .based h1 nofun fun hc _ => h3 hc fun hreturned => ?_⟩
    cases hpc.symm.trans hreturned

theorem Following.revert {h b p : T}
    (hbased : Based parent height lastHeight headlag c s.handled s.sent s.held h b)
    (hwalked : ¬WalkEnds height lastHeight c → c ∈ s.sent) (hparent : parent h = some p)
    (hhead : GetTips.head parent (s.handled ++ [⟨.revert, h⟩]) = some p)
    (hpre : s.handled ++ [⟨.revert, h⟩] <+: total) (hshallow : Shallow parent headlag total)
    (hc : WalkEnds height lastHeight c ∨ h ≠ c) :
    Following parent height lastHeight headlag c (handle s ⟨.revert, h⟩ rest) := by
  have hlen : (s.hb.buffer.dropLast.length : ℤ) ≤ headlag := by
    have hle := hf.length_le
    rw [length_dropLast]
    omega
  have hpop : s.held.dropLast = s.hb.buffer.dropLast.map HeadChange.val := map_dropLast.symm
  have hbased' : ∃ b', Based parent height lastHeight headlag c (s.handled ++ [⟨.revert, h⟩])
      s.sent s.held.dropLast p b' := by
    by_cases hnil : s.held = []
    · -- nothing is in the buffer, so nothing was sent and the chain below it may change
      rw [hnil] at hbased ⊢
      rw [hbased.out_eq_nil hpre hshallow hc]
      exact ⟨p, hhead, rfl, fun _ ht => absurd ht not_mem_nil, List.Pairwise.nil,
        fun hne => absurd rfl hne⟩
    · exact ⟨b, hbased.pop hnil hparent hhead⟩
  obtain ⟨b', hbased'⟩ := hbased'
  rw [hpop] at hbased'
  refine ⟨hf.size, hlen, .based (h := p) (b := b') ?_ nofun fun hc _ => ?_⟩
  · rw [handle, unsent_changes, append_nil]
    exact hbased'
  · exact mem_append_left _ (hwalked hc)

variable (hheight : ∀ t p, parent t = some p → height p < height t)

include hheight

theorem Following.walked
    (hpc : s.pc = .walking curr tipsets rest) (hend : WalkEnds height lastHeight curr) :
    Following parent height lastHeight headlag c
      { s with pc := .sending tipsets.reverse rest } := by
  obtain ⟨hhandled, hsent, hheld, hpath, hwalk⟩ := hf.of_walking hpc
  have hne : ¬WalkEnds height lastHeight c → tipsets.reverse ≠ [] := by
    intro hc hnil
    rw [hnil] at hpath
    obtain rfl : curr = c := hpath
    exact hc hend
  refine ⟨hf.size, hf.length_le, .based (h := c) (b := c) ?_ ?_ ?_⟩
  · rw [hhandled, hsent]
    change Based _ _ _ _ _ _ _ s.held _ _
    rw [hheld]
    exact based_current hheight hpath fun h => hwalk (mt reverse_eq_nil_iff.2 h)
  · nofun
  · intro hc _
    exact mem_append_right _ (hpath.mem_of_ne_nil (hne hc))

theorem Following.failed (hpc : s.pc = .walking curr tipsets rest) :
    Following parent height lastHeight headlag c { s with pc := .returned } := by
  obtain ⟨hhandled, hsent, hheld, _, _⟩ := hf.of_walking hpc
  refine ⟨hf.size, hf.length_le, .based (h := c) (b := c) ?_ ?_ ?_⟩
  · rw [hhandled, hsent]
    change Based _ _ _ _ _ _ _ s.held _ _
    rw [hheld]
    exact based_current hheight (b := c) rfl fun h => absurd rfl h
  · nofun
  · intro _ hreturned
    exact absurd rfl hreturned

theorem Following.apply {h b v : T} (hlag : 1 ≤ headlag)
    (hbased : Based parent height lastHeight headlag c s.handled s.sent s.held h b)
    (hwalked : ¬WalkEnds height lastHeight c → c ∈ s.sent) (hparent : parent v = some h)
    (hhead : GetTips.head parent (s.handled ++ [⟨.apply, v⟩]) = some v) :
    Following parent height lastHeight headlag c (handle s ⟨.apply, v⟩ rest) := by
  have hpush := hbased.push hparent hhead
  obtain rfl := hf.size
  rcases s.hb.push_cases hlag hf.length_le ⟨.apply, v⟩ with
    ⟨el, buffer, hbuffer, hfull, heq⟩ | ⟨hroom, heq⟩
  · have hlen : ((buffer ++ [⟨.apply, v⟩] : List (HeadChange T)).length : ℤ) = s.hb.size := by
      rw [← hfull, hbuffer, length_append]
      rfl
    have hheld : s.held ++ [v] =
        el.val :: (buffer ++ [(⟨.apply, v⟩ : HeadChange T)]).map HeadChange.val := by
      rw [held, hbuffer, map_append]
      rfl
    rw [hheld] at hpush
    have hemit := hpush.emit hheight (Int.le_of_eq (by rw [length_map, hlen]))
    simp only [handle, heq]
    refine ⟨rfl, Int.le_of_eq hlen, .based hemit (by simp) fun hc _ => ?_⟩
    exact mem_append_left _ (hwalked hc)
  · simp only [handle, heq]
    refine ⟨rfl, ?_, .based (h := v) (b := b) ?_ (by simp) fun hc _ => ?_⟩
    · rw [length_append]
      exact_mod_cast hroom
    · rw [unsent_changes, append_nil, held, map_append]
      exact hpush
    · exact mem_append_left _ (hwalked hc)

theorem Following.handle (hlag : 1 ≤ headlag) (hpc : s.pc = .changes (change :: rest))
    (hpre : s.handled ++ [change] <+: total) (hfirst : total.head? = some ⟨.current, c⟩)
    (hhead : GetTips.head parent total = some hd) (hshallow : Shallow parent headlag total)
    (hc : WalkEnds height lastHeight c ∨ change ≠ ⟨.revert, c⟩) :
    Following parent height lastHeight headlag c (handle s change rest) := by
  obtain ⟨_, hh'⟩ := exists_head_of_prefix hpre (by simp) hhead
  rcases hf.phase with ⟨h1, h2, h3, _, _⟩ | ⟨h1, -⟩ | @⟨h, b, hbased, -, hwalked⟩
  · -- the first change carries the current head
    rw [h1, nil_append] at hpre hh'
    obtain rfl := head_singleton hh'
    obtain ⟨_, rfl⟩ := hpre
    cases hfirst
    exact ⟨hf.size, hf.length_le, .walking rfl (by rw [handled_handle, h1]; rfl) h2 h3 rfl
      fun hne => absurd rfl hne⟩
  · cases hpc.symm.trans h1
  · rw [hpc, unsent_changes, append_nil] at hbased hwalked
    have hwalked' : ¬WalkEnds height lastHeight c → c ∈ s.sent := by
      intro hwalk
      exact hwalked hwalk nofun
    have hstep := hh'
    rw [head_snoc hbased.changes_ne_nil, hbased.head, bind_some] at hstep
    rcases headStep_eq_some hstep with ⟨rfl, hparent⟩ | ⟨rfl, hparent⟩
    · exact hf.apply hheight hlag hbased hwalked' hparent hh'
    · refine hf.revert hbased hwalked' hparent hh' hpre hshallow ?_
      refine hc.imp_right fun hne heq => hne ?_
      rw [heq]

theorem Following.step (hlag : 1 ≤ headlag)
    (hfirst : total.head? = some ⟨.current, c⟩) (hhead : GetTips.head parent total = some hd)
    (hshallow : Shallow parent headlag total) {e : TipsEvent T} (hans : Answered parent s e)
    (hstep : GetTips.step height lastHeight s e = some s') (hpre : s'.handled <+: total)
    (hc : WalkEnds height lastHeight c ∨ ⟨.revert, c⟩ ∉ s'.handled) :
    Following parent height lastHeight headlag c s' := by
  cases moves_of_step hstep with
  | outside => exact hf.outside
  | turn hlabel hpc hpc' => exact hf.turn hpc hpc'
  | handled hpc =>
    rw [handled_handle] at hpre hc
    refine hf.handle hheight hlag hpc hpre hfirst hhead hshallow (hc.imp_right fun hnot heq => ?_)
    exact hnot (mem_append_right _ (mem_singleton.2 heq.symm))
  | walked hpc hend => exact hf.walked hheight hpc hend
  | stepped hpc hend =>
    simp only [Answered, hpc] at hans
    exact hf.stepped hpc hend hans
  | failed hpc => exact hf.failed hheight hpc
  | sent hpc => exact hf.send hpc

end Following

/-! ## Runs -/

section Runs

variable {headlag : ℤ} {c hd : T} {s : GetTips T} {is : List (TipsEvent T)}
  {total : List (HeadChange T)}

theorem following_of_run (hlag : 1 ≤ headlag)
    (hheight : ∀ t p, parent t = some p → height p < height t)
    (hfirst : total.head? = some ⟨.current, c⟩) (hhead : head parent total = some hd)
    (hshallow : Shallow parent headlag total)
    (hrun : run (step height lastHeight) (start headlag) is = some s)
    (hans : AllSteps (step height lastHeight) (Answered parent) (start headlag) is)
    (hpre : s.handled <+: total) (hc : WalkEnds height lastHeight c ∨ ⟨.revert, c⟩ ∉ s.handled) :
    Following parent height lastHeight headlag c s := by
  refine run_induction_of_allSteps
    (P := fun _ t => t.handled <+: total → (WalkEnds height lastHeight c ∨
      ⟨.revert, c⟩ ∉ t.handled) → Following parent height lastHeight headlag c t)
    (fun _ t e t' hf hok hstep hpre hc => ?_) is [] (start headlag) s
    (fun _ _ => following_start hlag) hans hrun hpre hc
  have hhandled := (prefix_of_step hstep).2
  have hf := hf (hhandled.trans hpre) (hc.imp_right (mt fun hmem => hhandled.subset hmem))
  exact hf.step hheight hlag hfirst hhead hshallow hok hstep hpre hc

theorem Following.canonical (hf : Following parent height lastHeight headlag c s) :
    s.sent.Pairwise (height · < height ·) ∧
      ∀ t ∈ s.sent, ∀ h, head parent s.handled = some h → Ancestor parent t h := by
  rcases hf.phase with ⟨-, h2, -⟩ | ⟨-, -, h3, -⟩ | ⟨hbased, -⟩
  · rw [h2]
    exact ⟨List.Pairwise.nil, fun t ht => absurd ht not_mem_nil⟩
  · rw [h3]
    exact ⟨List.Pairwise.nil, fun t ht => absurd ht not_mem_nil⟩
  · refine ⟨hbased.increasing.sublist (sublist_append_left _ _), fun t ht h hh => ?_⟩
    obtain rfl := some.inj (hbased.head.symm.trans hh)
    exact hbased.canonical (mem_append_left _ ht)

/-- The current head has been sent and is not on the chain once it is reverted. -/
theorem Following.not_canonical (hheight : ∀ t p, parent t = some p → height p < height t)
    (hf : Following parent height lastHeight headlag c s) (hwalk : ¬WalkEnds height lastHeight c)
    {rest : List (HeadChange T)} (hpc : s.pc = .changes (⟨.revert, c⟩ :: rest))
    (hhead : head parent (s.handled ++ [⟨.revert, c⟩]) = some hd) :
    c ∈ s.sent ∧ ¬Ancestor parent c hd := by
  rcases hf.phase with ⟨h1, -⟩ | ⟨h1, -⟩ | ⟨hbased, -, hwalked⟩
  · rw [h1] at hhead
    cases head_singleton hhead
  · cases hpc.symm.trans h1
  · rw [hpc, unsent_changes, append_nil] at hwalked
    rw [head_snoc hbased.changes_ne_nil, hbased.head, bind_some] at hhead
    refine ⟨hwalked hwalk nofun, ?_⟩
    rcases headStep_eq_some hhead with ⟨heq, -⟩ | ⟨heq, hparent⟩
    · cases heq
    · cases heq
      exact not_ancestor_parent hheight hparent

/-- As long as no reorganisation is deeper than the head buffer, what is sent has increasing
heights and is on the chain of every later head, if and only if the walk back from the current head
sends nothing or the current head is never reverted. -/
theorem sent_canonical_iff (hlag : 1 ≤ headlag)
    (hheight : ∀ t p, parent t = some p → height p < height t)
    (hrun : run (step height lastHeight) (start headlag) is = some s)
    (hans : AllSteps (step height lastHeight) (Answered parent) (start headlag) is)
    (hfirst : s.handled.head? = some ⟨.current, c⟩) (hhead : head parent s.handled = some hd)
    (hshallow : Shallow parent headlag s.handled) :
    (∀ pre s', pre <+: is → run (step height lastHeight) (start headlag) pre = some s' →
      s'.sent.Pairwise (height · < height ·) ∧
        ∀ t ∈ s'.sent, ∀ h, head parent s'.handled = some h → Ancestor parent t h) ↔
      WalkEnds height lastHeight c ∨ ⟨.revert, c⟩ ∉ s.handled := by
  have hsofar : ∀ {pre : List (TipsEvent T)} {s' : GetTips T}, pre <+: is →
      run (step height lastHeight) (start headlag) pre = some s' →
      s'.handled <+: s.handled ∧
        AllSteps (step height lastHeight) (Answered parent) (start headlag) pre := by
    rintro pre s' ⟨post, rfl⟩ hpre
    rw [run_append, hpre, bind_some] at hrun
    exact ⟨(prefix_of_run hrun).2, ((allSteps_append pre post _).1 hans).1⟩
  constructor
  · intro hgood
    by_contra hno
    obtain ⟨hwalk, hrevert⟩ := not_or.1 hno
    -- the step that takes up the first revert of the current head
    obtain ⟨pre, e, s₁, s₂, hpre, hs₁, hstep, hnot, hmem⟩ :=
      exists_step_of_run (D := fun t => ⟨.revert, c⟩ ∈ t.handled)
        (by simp [start]) hrun (not_not.1 hrevert)
    have hs₂ : run (step height lastHeight) (start headlag) (pre ++ [e]) = some s₂ := by
      rw [run_snoc, hs₁, bind_some, hstep]
    obtain ⟨hpre₁, hans₁⟩ := hsofar ((prefix_append _ _).trans hpre) hs₁
    have hf := following_of_run hlag hheight hfirst hhead hshallow hs₁ hans₁ hpre₁ (.inr hnot)
    have hne : s₂.handled ≠ s₁.handled := fun heq => hnot (heq ▸ hmem)
    obtain ⟨change, _, hpc, rfl⟩ := pc_of_handled_ne hstep hne
    rw [handled_handle] at hmem
    obtain rfl : ⟨.revert, c⟩ = change := mem_singleton.1 ((mem_append.1 hmem).resolve_left hnot)
    obtain ⟨h₂, hh₂⟩ := exists_head_of_prefix (hsofar hpre hs₂).1 (by simp) hhead
    obtain ⟨_, hanc⟩ := hf.not_canonical hheight hwalk hpc (by rw [← hh₂, handled_handle])
    exact hanc ((hgood _ _ hpre hs₂).2 c (by rwa [sent_handle]) h₂ hh₂)
  · intro hc pre s' hpre hs'
    obtain ⟨hpre', hans'⟩ := hsofar hpre hs'
    exact (following_of_run hlag hheight hfirst hhead hshallow hs' hans' hpre'
      (hc.imp_right (mt fun hmem => hpre'.subset hmem))).canonical

/-- Reorganisations are shallow when no head before a revert is `headlag` higher than what is
reverted. -/
theorem shallow_of_height (hheight : ∀ t p, parent t = some p → height p < height t)
    (h : ∀ pre ∈ total.inits, ∀ change ∈ pre.getLast?, change.type = .revert →
      ∀ pre' ∈ pre.dropLast.inits, ∀ t ∈ head parent pre', height t - height change.val < headlag) :
    Shallow parent headlag total := by
  intro pre v hpre pre' t l hpre' ht honTop
  have hlen := honTop.height_add_length_le hheight
  have hlt := h _ ((mem_inits _ _).2 hpre) ⟨.revert, v⟩ (by simp) rfl pre'
    (by simpa using hpre') t ht
  simp only at hlt
  omega

/-- A chain with one tipset at each height. -/
def linear : ℕ → Option ℕ
  | 0 => none
  | n + 1 => some n

theorem height_linear (t p : ℕ) (h : linear t = some p) : (p : ℤ) < t := by
  match t with
  | t + 1 =>
    cases h
    omega

/-- The steps until the goroutine has sent the current head and the tipset below it. -/
def walkBack (changes : List (HeadChange ℕ)) : List (TipsEvent ℕ) :=
  [.notify (⟨.current, 2⟩ :: changes), .receive, .next, .answer (some 1), .answer (some 0), .next,
    .send, .send, .next]

/-- The current head has been sent and a tipset above it is reverted. -/
theorem sent_canonical_iff_of_apply :
    ∃ s, run (step (fun t : ℕ => (t : ℤ)) 0) (start 1)
        (walkBack [⟨.apply, 3⟩, ⟨.revert, 3⟩] ++ [.next, .next]) = some s ∧
      s.sent = [1, 2] ∧ head linear s.handled = some 2 ∧ ∀ t ∈ s.sent, Ancestor linear t 2 := by
  refine Exists.imp (fun s hrun => ⟨hrun, ?_⟩) ⟨_, rfl⟩
  have hs : s.sent = [1, 2] ∧ s.handled = [⟨.current, 2⟩, ⟨.apply, 3⟩, ⟨.revert, 3⟩] := by
    cases hrun
    decide
  have hhead : head linear s.handled = some 2 := by
    rw [hs.2]
    decide
  have hshallow : Shallow linear 1 s.handled := by
    refine shallow_of_height height_linear ?_
    rw [hs.2]
    decide
  refine ⟨hs.1, hhead, fun t ht => ?_⟩
  refine ((sent_canonical_iff (by decide) height_linear hrun (by decide) (by rw [hs.2]; rfl) hhead
    hshallow).2 ?_ _ s prefix_rfl hrun).2 t ht 2 hhead
  rw [hs.2]
  exact .inr (by decide)

/-- The current head is sent and then reverted, the lag being one. It is sent a second time when it
is applied again. -/
theorem not_canonical_of_current_reverted :
    ∃ s s', run (step (fun t : ℕ => (t : ℤ)) 0) (start 1)
        (walkBack [⟨.revert, 2⟩, ⟨.apply, 2⟩, ⟨.apply, 3⟩] ++ [.next]) = some s ∧
      run (step (fun t : ℕ => (t : ℤ)) 0) s [.next, .next, .send] = some s' ∧
      AllSteps (step (fun t : ℕ => (t : ℤ)) 0) (Answered linear) (start 1)
        (walkBack [⟨.revert, 2⟩, ⟨.apply, 2⟩, ⟨.apply, 3⟩] ++ [.next, .next, .next, .send]) ∧
      s'.handled = [⟨.current, 2⟩, ⟨.revert, 2⟩, ⟨.apply, 2⟩, ⟨.apply, 3⟩] ∧
      head linear s'.handled = some 3 ∧ Shallow linear 1 s'.handled ∧
      2 ∈ s.sent ∧ head linear s.handled = some 1 ∧ ¬Ancestor linear 2 1 ∧
      s'.sent = [1, 2, 2] := by
  refine Exists.imp (fun s hrun => Exists.imp (fun s' hrun' => ⟨hrun, hrun', ?_⟩) ?_) ⟨_, rfl⟩
  case refine_2 =>
    cases hrun
    exact ⟨_, rfl⟩
  have hs : s.sent = [1, 2] ∧ head linear s.handled = some 1 := by
    cases hrun
    decide
  have hs' : s'.sent = [1, 2, 2] ∧
      s'.handled = [⟨.current, 2⟩, ⟨.revert, 2⟩, ⟨.apply, 2⟩, ⟨.apply, 3⟩] := by
    cases hrun
    cases hrun'
    decide
  refine ⟨by decide, hs'.2, ?_, ?_, ?_, hs.2, ?_, hs'.1⟩
  · rw [hs'.2]
    decide
  · refine shallow_of_height height_linear ?_
    rw [hs'.2]
    decide
  · rw [hs.1]
    decide
  · exact not_ancestor_parent height_linear rfl

end Runs

end GetTips

end Telegraf
