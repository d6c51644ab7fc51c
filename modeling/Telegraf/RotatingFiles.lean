import Mathlib.Algebra.Order.Ring.Int

/-!
# Rotating files

`FileWriter` of `internal/rotate` : `openCurrent` rotates a file that is too old or too large, and
opens again whether or not the rotation worked. A file that cannot be moved is as old and as large
as before, so `openCurrent` and `rotateIfNeeded` call each other without end. They return with an
open file exactly if the answers of the file system lead to a file that need not be rotated before
an opening fails or the removal of archives panics (`returns_open_iff`).
-/

namespace Telegraf.Rotate

structure FileWriter where
  interval : ℤ
  maxSizeInBytes : ℤ
  maxArchives : ℤ

/-- The fields of `FileWriter` that change. -/
structure State where
  /-- `current` is an open file. -/
  current : Bool
  expireTime : ℤ
  bytesWritten : ℤ

structure File where
  size : ℤ
  modTime : ℤ

/-- What the file system and the clock answer in a call of `openCurrent` and the rotation after it.
`Glob` returns a number of names, in a slice with room for more, or an error. -/
structure Round where
  openFile : Bool
  stat : Bool
  close : Bool
  rename : Bool
  glob : Option (ℕ × ℕ)
  remove : ℕ → Bool
  opened : ℤ
  checked : ℤ

/-- The file is moved away, if it is rotated. -/
def Round.Moves (r : Round) : Prop :=
  r.close = true ∧ r.rename = true

/-- How a call ends. -/
inductive Outcome
  | returned (s : State) (ok : Bool)
  | panicked

namespace FileWriter

variable (w : FileWriter)

/-- `purgeArchivesIfNeeded` : whether there was no error, and `none` where the end of the slice is
beyond its capacity. -/
def purgeArchivesIfNeeded (r : Round) : Option Bool :=
  if w.maxArchives = -1 then some true
  else
    match r.glob with
    | none => some false
    | some (count, spare) =>
      if w.maxArchives < count then
        if (count + spare : ℤ) < count - w.maxArchives then none
        else some ((List.range (count - w.maxArchives).toNat).all r.remove)
      else some true

/-- `rotate` : the file if it is still there, and whether there was no error. -/
def rotate (r : Round) (file : File) : Option (Option File × Bool) :=
  if !r.close then some (some file, false)
  else if !r.rename then some (some file, false)
  else (w.purgeArchivesIfNeeded r).map fun ok => (none, ok)

/-- The condition of `rotateIfNeeded`. -/
def needsRotation (s : State) (now : ℤ) : Bool :=
  (0 < w.interval && s.expireTime < now) ||
    (0 < w.maxSizeInBytes && w.maxSizeInBytes ≤ s.bytesWritten)

/-- `rotateIfNeeded`, with the call of `openCurrent` behind it. The error of `rotate` is only
printed. -/
def rotateIfNeeded (r : Round) (openCurrent : Option File → Option Outcome) (s : State)
    (file : File) : Option Outcome :=
  if w.needsRotation s r.checked then
    match w.rotate r file with
    | none => some .panicked
    | some (file, _) => openCurrent file
  else some (.returned s true)

/-- What `openCurrent` knows of a file it has opened. -/
def afterOpen (r : Round) (file : File) : State :=
  if r.stat then ⟨true, file.modTime + w.interval, file.size⟩
  else ⟨true, r.opened + w.interval, 0⟩

/-- `openCurrent` in the round `n`, with the number of calls it may make : the writer, and whether
there was no error. -/
def openCurrent (env : ℕ → Round) : ℕ → ℕ → Option File → Option Outcome
  | 0, _, _ => none
  | fuel + 1, n, file =>
    let r := env n
    if !r.openFile then some (.returned ⟨false, r.opened + w.interval, 0⟩ false)
    else
      let file := file.getD ⟨0, r.opened⟩
      w.rotateIfNeeded r (openCurrent env fuel (n + 1)) (w.afterOpen r file) file

/-- `NewFileWriter`. Without limits the writer is the file itself. -/
def newFileWriter (env : ℕ → Round) (fuel : ℕ) (file : Option File) : Option Outcome :=
  if w.interval = 0 ∧ w.maxSizeInBytes ≤ 0 then
    some (.returned ⟨(env 0).openFile, 0, 0⟩ (env 0).openFile)
  else w.openCurrent env fuel 0 file

/-- `Write` of bytes to an open file. The round 0 has no opening. -/
def write (env : ℕ → Round) (fuel : ℕ) (s : State) (file : File) (len : ℤ) (written : Bool) :
    Option Outcome :=
  if !written then some (.returned s false)
  else
    w.rotateIfNeeded (env 0) (w.openCurrent env fuel 1)
      { s with bytesWritten := s.bytesWritten + len } ⟨file.size + len, (env 0).opened⟩

/-! ## The answers -/

/-- The time since which the file is there is too long ago. -/
def Expired (since now : ℤ) : Prop :=
  0 < w.interval ∧ since + w.interval < now

def Full (size : ℤ) : Prop :=
  0 < w.maxSizeInBytes ∧ w.maxSizeInBytes ≤ size

/-- The removal of archives panics : the slice has no room for a negative number of archives. -/
def Panics (r : Round) : Prop :=
  r.Moves ∧ w.maxArchives ≠ -1 ∧ ∃ count spare, r.glob = some (count, spare) ∧
    (spare : ℤ) < -w.maxArchives

variable (env : ℕ → Round) (start : Option File)

/-- After rotations in all rounds before it, the round `n` need not rotate : the file that was
created behind the last move is young, or no file was moved and the first one is young and small.
Where `Stat` fails, the time of the opening counts. -/
def Fresh (n : ℕ) : Prop :=
  if (env n).stat then
    (∃ k < n, (env k).Moves ∧ (∀ j, k < j → j < n → ¬(env j).Moves) ∧
      ¬w.Expired (env (k + 1)).opened (env n).checked) ∨
    (∀ j < n, ¬(env j).Moves) ∧
      ¬w.Expired (start.getD ⟨0, (env 0).opened⟩).modTime (env n).checked ∧
      ¬w.Full (start.getD ⟨0, (env 0).opened⟩).size
  else ¬w.Expired (env n).opened (env n).checked

/-- A round from `m` on need not rotate, the files up to it are opened, and nothing panics
before. -/
def Settles (m : ℕ) : Prop :=
  ∃ n, m ≤ n ∧ w.Fresh env start n ∧ (∀ k, m ≤ k → k ≤ n → (env k).openFile = true) ∧
    ∀ k, m ≤ k → k < n → ¬w.Panics (env k)

/-- A call returns, and with an open file. -/
def ReturnsOpen (call : ℕ → Option Outcome) : Prop :=
  ∃ fuel s ok, call fuel = some (.returned s ok) ∧ s.current = true

/-! ## Rounds -/

open Classical in
/-- The file that the round `n` finds, where all rounds before it rotate. -/
noncomputable def fileAt : ℕ → Option File
  | 0 => start
  | n + 1 =>
    if (env n).Moves then none else some ((fileAt n).getD ⟨0, (env n).opened⟩)

/-- The file that the round `n` opens. -/
noncomputable def openedAt (n : ℕ) : File :=
  (fileAt env start n).getD ⟨0, (env n).opened⟩

variable {w env start} {n : ℕ} {r : Round} {file : File}

theorem rotate_of_panics (h : w.Panics r) : w.rotate r file = none := by
  obtain ⟨⟨hclose, hrename⟩, hskip, count, spare, hglob, hlt⟩ := h
  simp only [rotate, hclose, hrename, purgeArchivesIfNeeded, hskip, hglob]
  simp only [Bool.not_true, Bool.false_eq_true, if_false]
  rw [if_pos (by omega), if_pos (by omega)]
  rfl

open Classical in
variable (file) in
theorem rotate_of_not_panics (h : ¬w.Panics r) :
    ∃ ok, w.rotate r file = some (if r.Moves then none else some file, ok) := by
  unfold rotate
  cases hclose : r.close with
  | false => exact ⟨false, by simp [Round.Moves, hclose]⟩
  | true =>
    cases hrename : r.rename with
    | false => exact ⟨false, by simp [Round.Moves, hrename]⟩
    | true =>
      have hmoves : r.Moves := ⟨hclose, hrename⟩
      obtain ⟨ok, hok⟩ : ∃ ok, w.purgeArchivesIfNeeded r = some ok := by
        unfold purgeArchivesIfNeeded
        by_cases hskip : w.maxArchives = -1
        · exact ⟨true, if_pos hskip⟩
        · rw [if_neg hskip]
          cases hglob : r.glob with
          | none => exact ⟨false, rfl⟩
          | some found =>
            obtain ⟨count, spare⟩ := found
            have hroom : ¬(spare : ℤ) < -w.maxArchives := fun hlt =>
              h ⟨hmoves, hskip, count, spare, hglob, hlt⟩
            dsimp only
            split_ifs with _ hshort
            · omega
            · exact ⟨_, rfl⟩
            · exact ⟨_, rfl⟩
      exact ⟨ok, by simp [hok, hmoves]⟩

/-- Behind a move the file is new. -/
theorem openedAt_of_moves {k : ℕ} (hk : (env k).Moves) (hlt : k < n)
    (hstays : ∀ j, k < j → j < n → ¬(env j).Moves) :
    openedAt env start n = ⟨0, (env (k + 1)).opened⟩ := by
  induction n, hlt using Nat.le_induction with
  | base => rw [openedAt, fileAt, if_pos hk, Option.getD_none]
  | succ n hlt ih =>
    rw [openedAt, fileAt, if_neg (hstays n hlt n.lt_succ_self), Option.getD_some]
    exact ih fun j hj hjn => hstays j hj (hjn.trans n.lt_succ_self)

/-- Without a move it is the first one. -/
theorem openedAt_of_not_moves (hstays : ∀ j < n, ¬(env j).Moves) :
    openedAt env start n = start.getD ⟨0, (env 0).opened⟩ := by
  induction n with
  | zero => rfl
  | succ n ih =>
    rw [openedAt, fileAt, if_neg (hstays n n.lt_succ_self), Option.getD_some]
    exact ih fun j hj => hstays j (hj.trans n.lt_succ_self)

theorem exists_last_move (env : ℕ → Round) (n : ℕ) : (∀ j < n, ¬(env j).Moves) ∨
    ∃ k < n, (env k).Moves ∧ ∀ j, k < j → j < n → ¬(env j).Moves := by
  induction n with
  | zero => exact .inl fun _ hj => absurd hj (Nat.not_lt_zero _)
  | succ n ih =>
    by_cases hn : (env n).Moves
    · exact .inr ⟨n, n.lt_succ_self, hn, fun j _ _ => by omega⟩
    · have hlast : ∀ j, j < n + 1 → (j < n → ¬(env j).Moves) → ¬(env j).Moves := by
        intro j hj hbelow
        rcases Nat.lt_succ_iff_lt_or_eq.1 hj with hj | rfl
        · exact hbelow hj
        · exact hn
      rcases ih with hstays | ⟨k, hk, hmoves, hstays⟩
      · exact .inl fun j hj => hlast j hj (hstays j)
      · exact .inr ⟨k, hk.trans n.lt_succ_self, hmoves, fun j hkj hj => hlast j hj (hstays j hkj)⟩

theorem needsRotation_afterOpen_iff {now : ℤ} :
    w.needsRotation (w.afterOpen r file) now = true ↔
      if r.stat then w.Expired file.modTime now ∨ w.Full file.size
      else w.Expired r.opened now := by
  unfold needsRotation afterOpen Expired Full
  cases r.stat <;> simp

/-- What the answers say of a round is what it finds. -/
theorem fresh_iff : w.Fresh env start n ↔
    ¬w.needsRotation (w.afterOpen (env n) (openedAt env start n)) (env n).checked = true := by
  rw [needsRotation_afterOpen_iff, Fresh]
  cases (env n).stat with
  | false => rfl
  | true =>
    simp only [if_true, not_or]
    rcases exists_last_move env n with hstays | ⟨k, hk, hmoves, hstays⟩
    · rw [openedAt_of_not_moves hstays]
      constructor
      · rintro (⟨k, hk, hmoves, -⟩ | ⟨-, hyoung⟩)
        · exact absurd hmoves (hstays k hk)
        · exact hyoung
      · exact fun hyoung => .inr ⟨hstays, hyoung⟩
    · rw [openedAt_of_moves hmoves hk hstays]
      have hempty : ¬w.Full 0 := fun hfull => absurd hfull.1 (not_lt.2 hfull.2)
      constructor
      · rintro (⟨k', hk', hmoves', hstays', hyoung⟩ | ⟨hnone, -⟩)
        · obtain rfl : k' = k := by
            rcases Nat.lt_trichotomy k' k with hlt | heq | hgt
            · exact absurd hmoves (hstays' k hlt hk)
            · exact heq
            · exact absurd hmoves' (hstays k' hgt hk')
          exact ⟨hyoung, hempty⟩
        · exact absurd hmoves (hnone k hk)
      · exact fun hyoung => .inl ⟨k, hk, hmoves, hstays, hyoung.1⟩

theorem current_afterOpen : (w.afterOpen r file).current = true := by
  unfold afterOpen
  split <;> rfl

/-! ## Calls -/

theorem openCurrent_of_fresh (fuel : ℕ) (hopen : (env n).openFile = true)
    (hfresh : w.Fresh env start n) : w.openCurrent env (fuel + 1) n (fileAt env start n) =
      some (.returned (w.afterOpen (env n) (openedAt env start n)) true) := by
  rw [openCurrent, hopen]
  exact if_neg (fresh_iff.1 hfresh)

theorem openCurrent_of_panics (fuel : ℕ) (hopen : (env n).openFile = true)
    (hrotate : ¬w.Fresh env start n) (hpanics : w.Panics (env n)) :
    w.openCurrent env (fuel + 1) n (fileAt env start n) = some .panicked := by
  rw [openCurrent, hopen]
  refine (if_pos (not_not.1 (mt fresh_iff.2 hrotate))).trans ?_
  rw [rotate_of_panics hpanics]

variable (start) in
theorem rotateIfNeeded_of_not_panics {s : State} {next : Option File → Option Outcome}
    (hneeds : w.needsRotation s (env n).checked = true) (hpanics : ¬w.Panics (env n)) :
    w.rotateIfNeeded (env n) next s (openedAt env start n) = next (fileAt env start (n + 1)) := by
  obtain ⟨ok, hrotate⟩ := rotate_of_not_panics (openedAt env start n) hpanics
  rw [rotateIfNeeded, if_pos hneeds, hrotate]
  rfl

theorem openCurrent_of_rotated (fuel : ℕ) (hopen : (env n).openFile = true)
    (hrotate : ¬w.Fresh env start n) (hpanics : ¬w.Panics (env n)) :
    w.openCurrent env (fuel + 1) n (fileAt env start n) =
      w.openCurrent env fuel (n + 1) (fileAt env start (n + 1)) := by
  rw [openCurrent, hopen]
  exact rotateIfNeeded_of_not_panics start (not_not.1 (mt fresh_iff.2 hrotate)) hpanics

theorem Settles.of_succ (h : w.Settles env start (n + 1)) (hopen : (env n).openFile = true)
    (hpanics : ¬w.Panics (env n)) : w.Settles env start n := by
  obtain ⟨n', hle, hfresh, hopens, hno⟩ := h
  refine ⟨n', by omega, hfresh, fun k hk hkn => ?_, fun k hk hkn => ?_⟩
  · rcases hk.eq_or_lt with rfl | hk
    · exact hopen
    · exact hopens k hk hkn
  · rcases hk.eq_or_lt with rfl | hk
    · exact hpanics
    · exact hno k hk hkn

theorem settles_of_openCurrent : ∀ {fuel n : ℕ} {s : State} {ok : Bool},
    w.openCurrent env fuel n (fileAt env start n) = some (.returned s ok) → s.current = true →
      w.Settles env start n
  | fuel + 1, n, s, ok, h, hcurrent => by
    cases hopen : (env n).openFile with
    | false =>
      rw [openCurrent, hopen] at h
      cases h
      cases hcurrent
    | true =>
      by_cases hfresh : w.Fresh env start n
      · refine ⟨n, le_rfl, hfresh, fun k hk hkn => ?_, fun k hk hkn => by omega⟩
        rw [le_antisymm hkn hk, hopen]
      · by_cases hpanics : w.Panics (env n)
        · rw [openCurrent_of_panics fuel hopen hfresh hpanics] at h
          cases h
        · rw [openCurrent_of_rotated fuel hopen hfresh hpanics] at h
          exact (settles_of_openCurrent h hcurrent).of_succ hopen hpanics

/-- The rounds up to a fresh one, by the number of them that are left. -/
theorem returnsOpen_of_fresh (d : ℕ) : ∀ n, w.Fresh env start (n + d) →
    (∀ k, n ≤ k → k ≤ n + d → (env k).openFile = true) →
    (∀ k, n ≤ k → k < n + d → ¬w.Panics (env k)) →
    ReturnsOpen fun fuel => w.openCurrent env fuel n (fileAt env start n) := by
  induction d with
  | zero =>
    intro n hfresh hopens _
    exact ⟨1, _, true, openCurrent_of_fresh 0 (hopens n le_rfl le_rfl) hfresh, current_afterOpen⟩
  | succ d ih =>
    intro n hfresh hopens hno
    have hopen := hopens n le_rfl (Nat.le_add_right n _)
    by_cases hnow : w.Fresh env start n
    · exact ⟨1, _, true, openCurrent_of_fresh 0 hopen hnow, current_afterOpen⟩
    · have hsum : n + 1 + d = n + (d + 1) := by omega
      obtain ⟨fuel, s, ok, hout, hcurrent⟩ := ih (n + 1) (hsum ▸ hfresh)
        (fun k hk hkn => hopens k (by omega) (by omega))
        (fun k hk hkn => hno k (by omega) (by omega))
      have hpanics := hno n le_rfl (by omega)
      exact ⟨fuel + 1, s, ok, (openCurrent_of_rotated fuel hopen hnow hpanics).trans hout, hcurrent⟩

theorem returnsOpen_openCurrent_iff :
    (ReturnsOpen fun fuel => w.openCurrent env fuel n (fileAt env start n)) ↔
      w.Settles env start n := by
  refine ⟨fun ⟨fuel, s, ok, hout, hcurrent⟩ => settles_of_openCurrent hout hcurrent, ?_⟩
  rintro ⟨n', hle, hfresh, hopens, hno⟩
  obtain ⟨d, rfl⟩ := Nat.exists_eq_add_of_le hle
  exact returnsOpen_of_fresh d n hfresh hopens hno

/-- Without limits no file needs rotation. -/
theorem settles_of_unlimited (hplain : w.interval = 0 ∧ w.maxSizeInBytes ≤ 0)
    (hopen : (env 0).openFile = true) : w.Settles env start 0 := by
  have hyoung : ∀ since now, ¬w.Expired since now := fun _ _ h => absurd h.1 (by omega)
  refine ⟨0, le_rfl, ?_, fun k _ hk => by rwa [Nat.le_zero.1 hk], fun k _ hk => by omega⟩
  unfold Fresh
  split
  · exact .inr ⟨fun j hj => by omega, hyoung _ _, fun h => absurd h.1 (by omega)⟩
  · exact hyoung _ _

/-- `NewFileWriter` and `Write` return with an open file, whatever the file system and the clock
answer, if and only if the answers lead to a file that need not be rotated, where they rotate at
all. Where the first opening fails, `NewFileWriter` returns no writer. -/
theorem returns_open_iff (w : FileWriter) (env : ℕ → Round) (start : Option File)
    (expireTime bytesWritten : ℤ) (file : File) (len : ℤ) (written : Bool) :
    ((∃ fuel s ok, w.newFileWriter env fuel start = some (.returned s ok) ∧
        (s.current = true ∨ (env 0).openFile = false)) ↔
      (env 0).openFile = false ∨ w.Settles env start 0) ∧
    ((ReturnsOpen fun fuel => w.write env fuel ⟨true, expireTime, bytesWritten⟩ file len written) ↔
      (written = true →
        (0 < w.interval ∧ expireTime < (env 0).checked) ∨ w.Full (bytesWritten + len) →
          ¬w.Panics (env 0) ∧ w.Settles env (some ⟨file.size + len, (env 0).opened⟩) 1)) := by
  constructor
  · unfold newFileWriter
    by_cases hplain : w.interval = 0 ∧ w.maxSizeInBytes ≤ 0
    · cases hopen : (env 0).openFile with
      | false => exact iff_of_true ⟨0, _, _, if_pos hplain, .inr rfl⟩ (.inl rfl)
      | true =>
        exact iff_of_true ⟨0, _, _, if_pos hplain, .inl rfl⟩
          (.inr (settles_of_unlimited hplain hopen))
    · simp only [if_neg hplain]
      cases hopen : (env 0).openFile with
      | false =>
        have hfails : w.openCurrent env 1 0 start =
            some (.returned ⟨false, (env 0).opened + w.interval, 0⟩ false) := by
          rw [openCurrent, hopen]
          rfl
        exact iff_of_true ⟨1, _, _, hfails, .inr rfl⟩ (.inl rfl)
      | true =>
        rw [← returnsOpen_openCurrent_iff]
        simp only [Bool.true_eq_false, or_false, false_or]
        rfl
  · cases written with
    | false => exact iff_of_true ⟨0, _, _, rfl, rfl⟩ fun h => nomatch h
    | true =>
      have hneeds : w.needsRotation ⟨true, expireTime, bytesWritten + len⟩ (env 0).checked = true ↔
          (0 < w.interval ∧ expireTime < (env 0).checked) ∨ w.Full (bytesWritten + len) := by
        simp [needsRotation, Full]
      rw [imp_iff_right rfl, ← hneeds, ← returnsOpen_openCurrent_iff]
      by_cases hrotate : w.needsRotation ⟨true, expireTime, bytesWritten + len⟩ (env 0).checked
      · rw [imp_iff_right hrotate]
        by_cases hpanics : w.Panics (env 0)
        · refine iff_of_false ?_ fun h => h.1 hpanics
          rintro ⟨fuel, s, ok, hout, -⟩
          have hwrite : w.write env fuel ⟨true, expireTime, bytesWritten⟩ file len true =
              some .panicked := (if_pos hrotate).trans (by rw [rotate_of_panics hpanics])
          cases hwrite.symm.trans hout
        · have hwrite : ∀ fuel, w.write env fuel ⟨true, expireTime, bytesWritten⟩ file len true =
              w.openCurrent env fuel 1
                (fileAt env (some ⟨file.size + len, (env 0).opened⟩) 1) := fun fuel =>
            rotateIfNeeded_of_not_panics (some ⟨file.size + len, (env 0).opened⟩) (n := 0)
              hrotate hpanics
          simp only [hwrite, hpanics, not_false_iff, true_and]
      · refine iff_of_true ⟨0, _, true, if_neg hrotate, rfl⟩ fun h => absurd h hrotate

/-- The file is as large as it may be, and is never moved : `NewFileWriter` does not return. With a
number of archives below -1 it panics. -/
theorem never_returns :
    (¬∃ fuel out, newFileWriter ⟨0, 1, 5⟩ (fun _ =>
      ⟨true, true, true, false, some (0, 0), fun _ => true, 0, 0⟩) fuel (some ⟨1, 0⟩) = some out) ∧
    newFileWriter ⟨0, 1, -2⟩ (fun _ => ⟨true, true, true, true, some (0, 0), fun _ => true, 0, 0⟩) 1
      (some ⟨1, 0⟩) = some .panicked := by
  refine ⟨?_, rfl⟩
  have hnone : ∀ fuel n, openCurrent ⟨0, 1, 5⟩ (fun _ =>
      ⟨true, true, true, false, some (0, 0), fun _ => true, 0, 0⟩) fuel n (some ⟨1, 0⟩) = none := by
    intro fuel
    induction fuel with
    | zero => exact fun n => rfl
    | succ fuel ih => exact fun n => ih (n + 1)
  rintro ⟨fuel, out, hout⟩
  cases (hnone fuel 0).symm.trans hout

end FileWriter

end Telegraf.Rotate
