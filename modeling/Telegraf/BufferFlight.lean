import Telegraf.BufferRing

/-!
# A batch in flight

Between `Batch` and `Accept` or `Reject` the ring goes on taking metrics, into the slots
of the batch and then over the older metrics. `InFlight` is the bookkeeping of a batch of
`k` metrics at position `BF`, `n` metrics after it was taken. While `F ≤ BF`, the slots
from `F` to `BF` hold the metrics older than the batch. When all of those are gone,
`batchFirst` moves along with `first` and `batchSize` shrinks; when it is used up,
`batchFirst` stays and `first` runs past it.

`addMetrics_spec` gives `Add` on a ring : the last `cap` of the old contents and the new
metrics stay. `Reject` restores the same way (`reject_of_le`) as long as `first` has not
run past `batchFirst`. After that its distance `dist(first, batchFirst)` counts metrics
newer than the batch as older (`reject_of_lt`).
-/

open List

namespace Telegraf

open Circular Nat

namespace Buffer

variable {α : Type*}

/-- The bookkeeping of a batch of `k` metrics at position `BF`, with `n` metrics added
since. -/
structure InFlight (b : Buffer α) (F BF k n : ℕ) : Prop where
  batchFirst : b.batchFirst = BF % b.cap
  batchSize_le : b.batchSize ≤ k
  count : F + b.size + (k - b.batchSize) = BF + n
  room : BF + k ≤ F + b.cap
  kept : 0 < b.batchSize → F ≤ BF
  shrunk : b.batchSize < k → BF ≤ F
  full : BF < F → b.size = b.cap

/-- What adding does besides the slots : `n` metrics counted, `dropped` rejected. -/
structure AddEffect (b b' : Buffer α) (n : ℕ) (dropped : List α) : Prop where
  cap : b'.cap = b.cap
  metricsAdded : b'.metricsAdded = b.metricsAdded + n
  metricsWritten : b'.metricsWritten = b.metricsWritten
  metricsDropped : b'.metricsDropped = b.metricsDropped + dropped.length
  accepted : b'.accepted = b.accepted
  rejected : b'.rejected = b.rejected ++ dropped
  noBatch : b.batchSize = 0 → b'.batchSize = 0

theorem AddEffect.trans {b₁ b₂ b₃ : Buffer α} {n₁ n₂ : ℕ} {d₁ d₂ : List α}
    (h₁ : AddEffect b₁ b₂ n₁ d₁) (h₂ : AddEffect b₂ b₃ n₂ d₂) :
    AddEffect b₁ b₃ (n₁ + n₂) (d₁ ++ d₂) where
  cap := h₂.cap.trans h₁.cap
  metricsAdded := by rw [h₂.metricsAdded, h₁.metricsAdded, add_assoc]
  metricsWritten := h₂.metricsWritten.trans h₁.metricsWritten
  metricsDropped := by
    rw [h₂.metricsDropped, h₁.metricsDropped, length_append, add_assoc]
  accepted := h₂.accepted.trans h₁.accepted
  rejected := by rw [h₂.rejected, h₁.rejected, append_assoc]
  noBatch := fun h => h₂.noBatch (h₁.noBatch h)

/-! ## Adding -/

variable {b b' : Buffer α} {F BF k n : ℕ}

/-- A metric is added to a full ring while a batch is out : the slot of the batch's oldest metric
may be taken, and the batch shrinks. -/
theorem InFlight.add_of_full (hf : InFlight b F BF k n)
    (hk : 0 < k) (hpos : 0 < b.cap) (hlast : b.last = F % b.cap) (hsize : b.size = b.cap)
    (hcap : b'.cap = b.cap) (hsize' : b'.size = b.size)
    (hfirst : b'.batchFirst = if b.last = b.batchFirst ∧ 0 < b.batchSize then b.next b.batchFirst
      else b.batchFirst)
    (hbatch : b'.batchSize = if b.last = b.batchFirst ∧ 0 < b.batchSize then b.batchSize - 1
      else b.batchSize) :
    ∃ BF', InFlight b' (F + 1) BF' k (n + 1) := by
  have hcount := hf.count
  have hroom := hf.room
  have hkept := hf.kept
  have hshrunk := hf.shrunk
  have hbs := hf.batchSize_le
  by_cases hb : b.last = b.batchFirst ∧ 0 < b.batchSize
  · have hmod : F % b.cap = BF % b.cap := by rw [← hlast, hb.1, hf.batchFirst]
    have hBF : F = BF := eq_of_mod_eq (hkept hb.2) (by omega) hmod
    rw [if_pos hb] at hfirst hbatch
    refine ⟨BF + 1, ?_, by omega, by omega, by omega, by omega, by omega, by omega⟩
    rw [hfirst, hcap, hf.batchFirst, next_mod hpos]
  · rw [if_neg hb] at hfirst hbatch
    refine ⟨BF, by rw [hfirst, hcap, hf.batchFirst], by omega, by omega, by omega, fun hpos' => ?_,
      fun hlt => ?_, fun _ => by omega⟩
    · have hne : F ≠ BF := by
        rintro rfl
        exact hb ⟨by rw [hlast, hf.batchFirst], by omega⟩
      have := hkept (by omega)
      omega
    · have := hshrunk (by omega)
      omega

variable {b : Buffer α} {live : List α} {F : ℕ}

/-- `add` on a ring, with or without a batch in flight. -/
theorem add_spec (h : Ring b F live) (m : α) :
    ∃ b' F', b.add m = some (b', live.length + 1 - b.cap) ∧
      Ring b' F' ((live ++ [m]).rtake b.cap) ∧
      AddEffect b b' 1 ((live ++ [m]).take (live.length + 1 - b.cap)) ∧
      ∀ BF k n, 0 < k → InFlight b F BF k n → ∃ BF', InFlight b' F' BF' k (n + 1) := by
  have hle := h.length_le
  rcases lt_or_ge live.length b.cap with hlt | hge
  · have hzero : live.length + 1 - b.cap = 0 := by omega
    refine ⟨_, F, by rw [hzero]; exact add_of_lt h hlt m, ?_, ?_, fun BF k n hk hf => ⟨BF, ?_⟩⟩
    · rw [rtake_of_length_le (by simp; omega)]
      exact ring_add_of_lt h hlt m
    · rw [hzero]
      exact ⟨rfl, rfl, rfl, rfl, rfl, by simp, id⟩
    · have hcount := hf.count
      refine ⟨hf.batchFirst, hf.batchSize_le, by simp only; omega, hf.room, hf.kept, hf.shrunk,
        fun hBF => ?_⟩
      have := hf.full hBF
      rw [h.size] at this
      omega
  · have hfull : live.length = b.cap := le_antisymm hle hge
    cases live with
    | nil =>
      have := h.cap_pos
      simp at hfull
      omega
    | cons x live =>
      have hfull' : live.length + 1 = b.cap := by simpa using hfull
      have hone : (x :: live).length + 1 - b.cap = 1 := by omega
      refine ⟨_, F + 1, by rw [hone]; exact add_of_full h hfull' m, ?_, ?_, fun BF k n hk hf => ?_⟩
      · have hrt : (x :: live ++ [m]).rtake b.cap = live ++ [m] := by
          rw [rtake, length_append, hfull, length_singleton, Nat.add_sub_cancel_left]
          rfl
        rw [hrt]
        exact ring_add_of_full h hfull' m _ _ _ _ _
      · rw [hone]
        refine ⟨rfl, rfl, rfl, rfl, rfl, by simp, fun h0 => ?_⟩
        simp [h0]
      · exact hf.add_of_full hk h.cap_pos (by rw [h.last, hfull, add_mod_right])
          (by rw [h.size, hfull]) rfl rfl rfl rfl

theorem addEach_spec : ∀ (ms : List α) {b : Buffer α} {F : ℕ} {live : List α}, Ring b F live →
    ∃ b' F', b.addEach ms = some (b', live.length + ms.length - b.cap) ∧
      Ring b' F' ((live ++ ms).rtake b.cap) ∧
      AddEffect b b' ms.length ((live ++ ms).take (live.length + ms.length - b.cap)) ∧
      ∀ BF k n, 0 < k → InFlight b F BF k n → ∃ BF', InFlight b' F' BF' k (n + ms.length)
  | [], b, F, live, h => by
    have hle := h.length_le
    have hzero : live.length + ([] : List α).length - b.cap = 0 := by simp; omega
    refine ⟨b, F, by rw [hzero]; rfl, ?_, ?_, fun BF k n _ hf => ⟨BF, hf⟩⟩
    · rw [append_nil, rtake_of_length_le hle]
      exact h
    · rw [hzero]
      exact ⟨rfl, rfl, rfl, rfl, rfl, by simp, id⟩
  | m :: ms, b, F, live, h => by
    have hle := h.length_le
    obtain ⟨_, _, hadd, hring, heff, hflight⟩ := add_spec h m
    obtain ⟨b₂, F₂, hadds, hring₂, heff₂, hflight₂⟩ := addEach_spec ms hring
    rw [heff.cap] at hadds hring₂ heff₂
    have hlen : ((live ++ [m]).rtake b.cap).length = min (live.length + 1) b.cap := by
      rw [length_rtake, length_append, length_singleton]
    have hdrop : live.length + 1 - b.cap + (min (live.length + 1) b.cap + ms.length - b.cap) =
        live.length + (ms.length + 1) - b.cap := by omega
    rw [hlen] at hadds heff₂
    refine ⟨b₂, F₂, ?_, ?_, ?_, fun BF k n hk hf => ?_⟩
    · rw [addEach, hadd]
      simp only [Option.bind_eq_bind, Option.bind_some, hadds, length_cons, ← hdrop]
      rfl
    · rw [rtake_rtake_append] at hring₂
      simpa using hring₂
    · have hsplit : live ++ m :: ms = (live ++ [m]).take (live.length + 1 - b.cap) ++
          ((live ++ [m]).rtake b.cap ++ ms) := by
        have := take_append_rtake (live ++ [m]) b.cap
        rw [length_append, length_singleton] at this
        rw [← append_assoc, this]
        simp
      have htake : (live ++ m :: ms).take (live.length + (ms.length + 1) - b.cap) =
          (live ++ [m]).take (live.length + 1 - b.cap) ++
            ((live ++ [m]).rtake b.cap ++ ms).take
              (min (live.length + 1) b.cap + ms.length - b.cap) := by
        rw [hsplit, take_append, ← hdrop]
        congr 1
        · exact take_of_length_le (by simp)
        · congr 1
          simp
      rw [length_cons, htake, add_comm ms.length 1]
      exact heff.trans heff₂
    · obtain ⟨BF₁, hf₁⟩ := hflight BF k n hk hf
      obtain ⟨BF₂, hf₂⟩ := hflight₂ BF₁ k (n + 1) hk hf₁
      refine ⟨BF₂, ?_⟩
      rwa [add_assoc, add_comm 1] at hf₂

/-- `Add` on a ring keeps the last `cap` of its contents and the new metrics, rejects the
others, oldest first, and returns their number. -/
theorem addMetrics_spec (h : Ring b F live) (ms : List α) :
    ∃ b' F', b.addMetrics ms = some (b', live.length + ms.length - b.cap) ∧
      Ring b' F' ((live ++ ms).rtake b.cap) ∧
      AddEffect b b' ms.length ((live ++ ms).take (live.length + ms.length - b.cap)) ∧
      ∀ BF k n, 0 < k → InFlight b F BF k n → ∃ BF', InFlight b' F' BF' k (n + ms.length) := by
  obtain ⟨b', F', hadd, hring, heff, hflight⟩ := addEach_spec ms h
  refine ⟨b'.setBufferSize, F', ?_, ?_, ?_, fun BF k n hk hf => ?_⟩
  · rw [addMetrics, hadd]
    rfl
  · exact ⟨hring.cap_pos, hring.buf_length, hring.first, hring.last, hring.size, hring.slots⟩
  · exact ⟨heff.cap, heff.metricsAdded, heff.metricsWritten, heff.metricsDropped, heff.accepted,
      heff.rejected, heff.noBatch⟩
  · obtain ⟨BF', hf'⟩ := hflight BF k n hk hf
    exact ⟨BF', hf'.batchFirst, hf'.batchSize_le, hf'.count, hf'.room, hf'.kept, hf'.shrunk,
      hf'.full⟩

/-! ## Taking a batch -/

/-- What taking a batch does besides the slots : nothing is counted or finalised. -/
structure BatchEffect (b b' : Buffer α) : Prop where
  cap : b'.cap = b.cap
  metricsAdded : b'.metricsAdded = b.metricsAdded
  metricsWritten : b'.metricsWritten = b.metricsWritten
  metricsDropped : b'.metricsDropped = b.metricsDropped
  accepted : b'.accepted = b.accepted
  rejected : b'.rejected = b.rejected

/-- `Batch` on a ring returns its newest metrics, newest first, and none is newer. -/
theorem batch_spec (h : Ring b F live) (n : ℕ) :
    ∃ b', b.batch n = some (b', ((live.rtake n).map some).reverse) ∧
      Ring b' F (live.take (live.length - n)) ∧ BatchEffect b b' ∧
      (live.rtake n = [] → b' = b) ∧
      (live.rtake n ≠ [] → InFlight b' F (F + (live.take (live.length - n)).length)
        (live.rtake n).length 0) := by
  have hsplit := take_append_rtake live n
  have hlen := length_rtake live n
  have hsize := h.size
  rcases Nat.eq_zero_or_pos (min b.size n) with h0 | _
  · have hnil : live.rtake n = [] := length_eq_zero_iff.1 (by omega)
    rw [hnil, append_nil] at hsplit
    rw [hnil, hsplit]
    exact ⟨b, batch_of_eq_zero h0, h, ⟨rfl, rfl, rfl, rfl, rfl, rfl⟩, fun _ => rfl,
      fun hne => absurd rfl hne⟩
  · have hne : live.rtake n ≠ [] := length_pos_iff.1 (by omega)
    rw [← hsplit] at h
    have hle := h.length_le
    rw [length_append] at hle
    have hn : (live.rtake n).length =
        min (live.take (live.length - n) ++ live.rtake n).length n := by
      rw [hsplit, hlen]
    obtain ⟨_, hbatch, hring⟩ := batch_eq h hne hn
    refine ⟨_, hbatch, hring, ⟨rfl, rfl, rfl, rfl, rfl, rfl⟩, fun hnil => absurd hnil hne,
      fun _ => ⟨rfl, le_rfl, ?_, ?_, fun _ => le_add_right _ _,
        fun hlt => absurd hlt (lt_irrefl _), fun hlt => absurd hlt (by omega)⟩⟩
    · simp
    · simp only
      omega

/-! ## Rejecting -/

/-- What rejecting does besides the slots : `dropped` rejected, the batch forgotten. -/
structure RejectEffect (b b' : Buffer α) (dropped : List α) : Prop where
  cap : b'.cap = b.cap
  metricsAdded : b'.metricsAdded = b.metricsAdded
  metricsWritten : b'.metricsWritten = b.metricsWritten
  metricsDropped : b'.metricsDropped = b.metricsDropped + dropped.length
  accepted : b'.accepted = b.accepted
  rejected : b'.rejected = b.rejected ++ dropped
  noBatch : b'.batchSize = 0

/-- The distance of two positions less than a turn apart. -/
theorem dist_mod (hcap : 0 < b.cap) {p q : ℕ} (hle : p ≤ q)
    (hlt : q < p + b.cap) : b.dist (p % b.cap) (q % b.cap) = q - p := by
  obtain ⟨d, rfl⟩ := Nat.exists_eq_add_of_le hle
  have hp := mod_lt p hcap
  have hq : (p + d) % b.cap =
      if p % b.cap + d < b.cap then p % b.cap + d else p % b.cap + d - b.cap := by
    rw [← mod_add_mod]
    split_ifs with h
    · exact mod_eq_of_lt h
    · rw [mod_eq_sub_mod (by omega), mod_eq_of_lt (by omega)]
  rw [dist, hq]
  split_ifs <;> omega

variable {ms : List α}

/-- Metrics no more than the slots that move past them are all dropped, last one first. -/
theorem evicted_of_le {m f : ℕ} (h : ms.length ≤ m) :
    evicted m (List.replicate f none ++ ms.map some) = ms.reverse := by
  have hdrop : (replicate m (none : Option α) ++ (replicate f none ++ ms.map some)).drop
      (f + ms.length) = replicate (m - ms.length) none ++ ms.map some := by
    rw [← append_assoc, replicate_append_replicate,
      drop_append_of_le_length (by simp; omega), drop_replicate]
    congr 2
    omega
  rw [evicted, length_append, length_replicate, length_map, hdrop]
  simp [reduceOption]

/-- Of more metrics than slots that move past them, only so many are dropped. -/
theorem length_evicted_of_lt {m : ℕ} (h : m < ms.length) :
    (evicted m (ms.map some)).length = m := by
  have hdrop : (replicate m (none : Option α) ++ ms.map some).drop ms.length =
      (ms.drop (ms.length - m)).map some := by
    rw [drop_append, drop_of_length_le (by simp; omega), length_replicate, nil_append, map_drop]
  rw [evicted, length_map, hdrop, ← map_reverse]
  simp [reduceOption]
  omega

/-- Of the free slots and the oldest metrics the first `r` are taken. -/
theorem free_append_eq {free r : ℕ} {oldest older : List α} (h : oldest.length = r - free) :
    List.replicate free (none : Option α) ++ (oldest ++ older).map some =
      (List.replicate (min r free) none ++ oldest.map some) ++
        (List.replicate (free - r) none ++ older.map some) := by
  rcases le_total r free with hrf | hrf
  · obtain rfl : oldest = [] := length_eq_zero_iff.1 (by omega)
    have hfree : replicate free (none : Option α) =
        replicate r none ++ replicate (free - r) none := by
      rw [replicate_append_replicate, Nat.add_sub_cancel' hrf]
    rw [min_eq_left hrf, hfree]
    simp only [map_nil, nil_append, append_nil, append_assoc]
  · simp [Nat.min_eq_right hrf, Nat.sub_eq_zero_of_le hrf]

/-- `Reject` while the slots from `F` to `BF` hold the metrics older than the batch : `r` of
the batch go back between `older` and `newer`, over the `oldest` metrics where the free
slots do not suffice. -/
theorem reject_of_le {F k n r : ℕ} {oldest older newer taken : List α}
    (h : Ring b F (oldest ++ older ++ newer)) (hf : InFlight b F (F + (oldest ++ older).length) k n)
    (hk : 0 < k) (htaken : taken.length = k) (hr : r = min k (b.cap - newer.length))
    (hold : oldest.length = r - (b.cap - (oldest ++ older ++ newer).length)) :
    ∃ b', b.reject (taken.reverse.map some) = some b' ∧
      Ring b' (F + oldest.length) (older ++ (taken.rtake r ++ newer)) ∧
      RejectEffect b b' (oldest.reverse ++ taken.reverse.drop r) := by
  have hcap := h.cap_pos
  have hlen := h.buf_length
  have hle := h.length_le
  have hroom := hf.room
  obtain ⟨free, hfree⟩ : ∃ free, free = b.cap - (oldest ++ older ++ newer).length := ⟨_, rfl⟩
  rw [← hfree] at hold
  have hslots := h.slots
  rw [← hfree, map_append, append_assoc] at hslots
  replace hslots := rotate_add_of_append hslots
  rw [length_map] at hslots
  simp only [length_append] at hle hfree hroom
  have hdist : b.dist b.first b.batchFirst = oldest.length + older.length := by
    rw [h.first, hf.batchFirst, dist_mod hcap (by omega) (by simp; omega), Nat.add_sub_cancel_left,
      length_append]
  -- the free slots and `oldest` are what the batch is restored into, `older` stays
  have hslots' : b.buf.rotate (F + (oldest ++ older).length) = newer.map some ++
      (replicate (min r free) none ++ oldest.map some) ++
        (replicate (free - r) none ++ older.map some) := by
    rw [hslots, append_assoc, append_assoc, free_append_eq hold]
  have hX : (replicate (min r free) none ++ oldest.map some).length = r := by
    rw [length_append, length_replicate, length_map]
    omega
  have hsize : b.size = oldest.length + older.length + newer.length := by
    rw [h.size, length_append, length_append]
  have hne : taken.reverse ≠ [] := by
    rw [← length_pos_iff, length_reverse]
    omega
  obtain ⟨buf, hrej, hbuf⟩ := reject_eq taken.reverse hne hcap hlen (by omega) h.first
    hf.batchFirst (by rw [h.last, length_append, add_assoc]) hslots'
    (by rw [hX, hdist, length_reverse]; omega)
  rw [evicted_of_le (by omega), hX] at hrej
  rw [hX, ← rtake_eq_reverse_take_reverse] at hbuf
  have hrest : (taken.rtake r).length = r := length_rtake_of_le (by omega)
  have htotal : F + oldest.length + (older ++ (taken.rtake r ++ newer)).length =
      F + (oldest ++ older).length + newer.length + r := by
    simp only [length_append, hrest]
    omega
  refine ⟨_, hrej, ⟨hcap, ?_, ?_, ?_, ?_, ?_⟩, ?_⟩
  · have hbl := length_of_rotate hbuf
    simp only [length_append, length_map, length_replicate, hrest] at hbl
    show buf.length = b.cap
    omega
  · simp
  · rw [htotal]
  · show min (b.size + r) b.cap = _
    simp only [length_append, hrest]
    omega
  · show buf.rotate (F + oldest.length) = _
    have hfree' : b.cap - (older ++ (taken.rtake r ++ newer)).length = free - r := by
      simp only [length_append, hrest]
      omega
    rw [hfree', map_append, append_assoc]
    refine rotate_of_add_append ?_
    rw [length_map, add_assoc, ← length_append, hbuf]
    simp only [map_append, append_assoc]
  · refine ⟨rfl, rfl, rfl, ?_, rfl, ?_, rfl⟩
    · simp only [length_append, length_reverse, length_drop]
      omega
    · simp only [append_assoc]

/-- `Reject` right after `Batch` puts everything back, and drops nothing. -/
theorem reject_batch {F n : ℕ} {out : List (Option α)}
    (h : Ring b F live) (hbatch : b.batch n = some (b', out)) (hne : live.rtake n ≠ []) :
    ∃ b'', b'.reject out = some b'' ∧ Ring b'' F live ∧ RejectEffect b' b'' [] := by
  obtain ⟨_, hb₁, _, heff, -, hflight⟩ := batch_spec h n
  obtain ⟨rfl, rfl⟩ := Prod.mk.inj (Option.some.inj (hbatch.symm.trans hb₁))
  have hsplit := take_append_rtake live n
  have hle := h.length_le
  rw [← heff.cap] at hle
  have hlen := congrArg List.length hsplit
  rw [length_append] at hlen
  obtain ⟨older, holder⟩ : ∃ older, older = live.take (live.length - n) := ⟨_, rfl⟩
  have hring' : Ring b' F ([] ++ older ++ []) := by rwa [nil_append, append_nil, holder]
  have hflight' : InFlight b' F (F + ([] ++ older).length) (live.rtake n).length 0 := by
    rw [nil_append, holder]
    exact hflight hne
  rw [← holder] at hlen hsplit
  obtain ⟨b'', hrej, hring'', heff''⟩ := reject_of_le hring' hflight'
    (length_pos_of_ne_nil hne) rfl (r := (live.rtake n).length) (by simp; omega)
    (by simp; omega)
  refine ⟨b'', ?_, ?_, ?_⟩
  · rw [← map_reverse]
    exact hrej
  · rw [rtake_of_length_le le_rfl, append_nil, hsplit] at hring''
    exact hring''
  · have hdrop : (live.rtake n).reverse.drop (live.rtake n).length = [] :=
      drop_of_length_le (by simp)
    simpa [hdrop] using heff''

section

variable {F BF k n r : ℕ} {front back taken : List α} (h : Ring b F (front ++ back))
  (hf : InFlight b F BF k n) (hk : 0 < k) (htaken : taken.length = k) (hlt : BF < F)
  (hback : back.length = (F - BF) % b.cap)
  (hr : r = if back.length = 0 then 0 else min k front.length)

include h hf hk htaken hlt hback hr

/-- `Reject` after `first` has run past `batchFirst`, on a full ring whose metrics `back` lie
from `BF` to `F` : `r` of the batch go in front of `back`, over the metrics `front`. -/
theorem reject_of_lt :
    ∃ buf, b.reject (taken.reverse.map some) = some { b with
        buf := buf, first := (F + (evicted back.length ((front.take r).map some)).length) % b.cap,
        last := (BF + back.length + r) % b.cap, size := b.cap, batchFirst := 0, batchSize := 0,
        metricsDropped := b.metricsDropped +
          (evicted back.length ((front.take r).map some)).length + (k - r),
        rejected := b.rejected ++ evicted back.length ((front.take r).map some) ++
          taken.reverse.drop r,
        bufferSize := b.cap } ∧
      buf.rotate BF = (taken.rtake r ++ (back ++ front.drop r)).map some := by
  have hcap := h.cap_pos
  have hlen := h.buf_length
  have hsize : b.size = b.cap := hf.full hlt
  have hfull : front.length + back.length = b.cap := by
    rw [← hsize, h.size, length_append]
  have hmod : (BF + back.length) % b.cap = F % b.cap := by
    rw [hback, Nat.add_mod_mod, Nat.add_sub_cancel' hlt.le]
  have hrot : b.buf.rotate (BF + (back.map some).length) = front.map some ++ back.map some := by
    have hslots := h.slots
    rw [length_append, hfull, Nat.sub_self, replicate_zero, append_nil, map_append] at hslots
    rw [length_map, ← hslots]
    exact rotate_congr (by rw [hlen, hmod])
  have hslots : b.buf.rotate BF = back.map some ++ (front.take r).map some ++
      (front.drop r).map some := by
    rw [rotate_of_add_append hrot, append_assoc]
    congr 1
    rw [← map_append, take_append_drop]
  have hdist : b.dist b.first b.batchFirst = if back.length = 0 then 0 else front.length := by
    rw [h.first, hf.batchFirst, ← hmod]
    split_ifs with hb
    · rw [hb, Nat.add_zero, dist_mod hcap le_rfl (by omega), Nat.sub_self]
    · rw [← add_mod_right BF b.cap, dist_mod hcap (by omega) (by omega)]
      omega
  have hX : ((front.take r).map some).length = r := by
    rw [length_map, length_take]
    split_ifs at hr <;> omega
  have hne : taken.reverse ≠ [] := by
    rw [← length_pos_iff, length_reverse]
    omega
  obtain ⟨buf, hrej, hbuf⟩ := reject_eq taken.reverse hne hcap hlen hsize.le h.first hf.batchFirst
    (by rw [h.last, length_append, hfull, add_mod_right, hmod]) hslots
    (by rw [hX, hdist, length_reverse]; split_ifs at hr ⊢ <;> omega)
  have hmin : min (b.size + r) b.cap = b.cap := by omega
  refine ⟨buf, ?_, ?_⟩
  · rw [hX, hmin, length_reverse, htaken] at hrej
    exact hrej
  · rw [hbuf, hX, ← rtake_eq_reverse_take_reverse]
    simp only [map_append]

/-- No metric is lost if no more come back than lie from `BF` to `F`. -/
theorem reject_of_lt_of_le (hle : r ≤ back.length) :
    ∃ b', b.reject (taken.reverse.map some) = some b' ∧
      Ring b' (F + r) (front.drop r ++ (taken.rtake r ++ back)) ∧
      RejectEffect b b' ((front.take r).reverse ++ taken.reverse.drop r) := by
  have hfull : front.length + back.length = b.cap := by
    rw [← hf.full hlt, h.size, length_append]
  have hrf : r ≤ front.length := by split_ifs at hr <;> omega
  have hrk : r ≤ k := by split_ifs at hr <;> omega
  have hmod : (BF + back.length) % b.cap = F % b.cap := by
    rw [hback, Nat.add_mod_mod, Nat.add_sub_cancel' hlt.le]
  obtain ⟨buf, hrej, hbuf⟩ := reject_of_lt h hf hk htaken hlt hback hr
  have hev : evicted back.length ((front.take r).map some) = (front.take r).reverse := by
    have hlen : (front.take r).length ≤ back.length := by
      rw [length_take]
      omega
    simpa using evicted_of_le (f := 0) hlen
  rw [hev, length_reverse, length_take, min_eq_left hrf] at hrej
  have hrest : (taken.rtake r).length = r := length_rtake_of_le (by omega)
  have htotal : (front.drop r ++ (taken.rtake r ++ back)).length = b.cap := by
    simp only [length_append, length_drop, hrest]
    omega
  have hbl : buf.length = b.cap := by
    have hbl := length_of_rotate hbuf
    simp only [length_append, length_map, length_drop, hrest] at hbl
    omega
  refine ⟨_, hrej, ⟨h.cap_pos, hbl, rfl, ?_, ?_, ?_⟩, ?_⟩
  · rw [htotal]
    show (BF + back.length + r) % b.cap = (F + r + b.cap) % b.cap
    rw [add_mod_right, ← mod_add_mod, hmod, mod_add_mod]
  · exact htotal.symm
  · rw [htotal, Nat.sub_self, replicate_zero, append_nil]
    show buf.rotate (F + r) = _
    have hrot : buf.rotate (BF + ((taken.rtake r ++ back).map some).length) =
        (front.drop r).map some ++ (taken.rtake r ++ back).map some := by
      refine rotate_add_of_append ?_
      rw [hbuf]
      simp only [map_append, append_assoc]
    rw [map_append, ← hrot]
    refine rotate_congr ?_
    rw [hbl, length_map, length_append, hrest, ← mod_add_mod, ← hmod, mod_add_mod]
    congr 1
    omega
  · refine ⟨rfl, rfl, rfl, ?_, rfl, by simp only [append_assoc], rfl⟩
    simp only [length_append, length_reverse, length_take, length_drop]
    omega

end

/-! ## Which rejects lose or misplace metrics

For a batch of `k` metrics rejected after `n` more were added : `first` has run past
`batchFirst` if and only if `cap + k < n` (`lt_iff`), and by `n - k` modulo `cap`. -/

/-- The batch goes back in chronological order. -/
def Aligned (cap k n : ℕ) : Prop :=
  k = 0 ∨ n ≤ cap + k ∨ cap ∣ n - k

/-- No live metric is overwritten without being dropped. -/
def Lossless (cap k n : ℕ) : Prop :=
  n ≤ cap + k ∨ (n - k) % cap = 0 ∨ min k (cap - (n - k) % cap) ≤ (n - k) % cap

instance (cap k n : ℕ) : Decidable (Aligned cap k n) :=
  inferInstanceAs (Decidable (_ ∨ _ ∨ _))

instance (cap k n : ℕ) : Decidable (Lossless cap k n) :=
  inferInstanceAs (Decidable (_ ∨ _ ∨ _))

namespace InFlight

variable {b : Buffer α} {F BF k n : ℕ}

theorem lt_iff (hf : InFlight b F BF k n) (hsize : b.size ≤ b.cap) : BF < F ↔ b.cap + k < n := by
  have hcount := hf.count
  have hkept := hf.kept
  constructor
  · intro h
    have := hf.full h
    omega
  · intro h
    omega

theorem mod_eq (hf : InFlight b F BF k n) (hlt : BF < F) : (F - BF) % b.cap = (n - k) % b.cap := by
  have hcount := hf.count
  have hkept := hf.kept
  have hfull := hf.full hlt
  rw [show n - k = F - BF + b.cap by omega, add_mod_right]

theorem le_add_size (hf : InFlight b F BF k n) : BF ≤ F + b.size := by
  have hcount := hf.count
  have hshrunk := hf.shrunk
  have := hf.batchSize_le
  omega

end InFlight

section Reject

theorem exists_append_of_le {l : List α} {n : ℕ} (h : n ≤ l.length) :
    ∃ l₁ l₂, l = l₁ ++ l₂ ∧ l₁.length = n :=
  ⟨l.take n, l.drop n, (take_append_drop n l).symm, by rw [length_take]; omega⟩

/-- The metrics of a full ring from `BF` to `F`, those in front of them, and how many come back. -/
theorem Ring.exists_append (h : Ring b F live) (hf : InFlight b F BF k n) (hlt : BF < F) :
    ∃ front back r, live = front ++ back ∧ front.length = b.cap - (F - BF) % b.cap ∧
      back.length = (F - BF) % b.cap ∧
      r = if back.length = 0 then 0 else min k front.length := by
  have hfull := hf.full hlt
  have hsize := h.size
  have hmod := mod_lt (F - BF) h.cap_pos
  obtain ⟨front, back, rfl, hfront⟩ :=
    exists_append_of_le (by omega : b.cap - (F - BF) % b.cap ≤ live.length)
  rw [length_append] at hsize
  exact ⟨front, back, _, rfl, hfront, by omega, rfl⟩

theorem perm_restored (gone kept rest taken : List α) (r : ℕ) :
    (gone ++ kept ++ rest ++ taken).Perm
      (kept ++ (taken.rtake r ++ rest) ++ (gone.reverse ++ taken.reverse.drop r)) := by
  classical
  rw [perm_iff_count]
  intro a
  have htaken : taken.count a = (taken.rtake r).count a + (taken.reverse.drop r).count a := by
    rw [rtake_eq_reverse_take_reverse, count_reverse, ← count_append,
      take_append_drop, count_reverse]
  simp only [count_append, count_reverse, htaken]
  omega

variable {b : Buffer α} {F BF k n : ℕ} {live taken : List α}

section

variable (h : Ring b F live) (hf : InFlight b F BF k n) (hk : 0 < k) (htaken : taken.length = k)

include h hf hk htaken

/-- A lossless `Reject` keeps or drops every metric of the buffer and of the batch. -/
theorem reject_lossless (hok : Lossless b.cap k n) :
    ∃ b' F' live' dropped, b.reject (taken.reverse.map some) = some b' ∧ Ring b' F' live' ∧
      RejectEffect b b' dropped ∧ (live ++ taken).Perm (live' ++ dropped) := by
  have hlen := h.length_le
  have hsize := h.size
  rcases lt_or_ge BF F with hlt | hge
  · -- `first` has run past the batch
    have hmod := mod_lt (F - BF) h.cap_pos
    have hnk := hf.mod_eq hlt
    have hno := (hf.lt_iff (by omega)).1 hlt
    obtain ⟨front, back, r, rfl, hfront, hback, hr⟩ := h.exists_append hf hlt
    have hle : r ≤ back.length := by
      rcases hok with hn | hj | hj
      · omega
      · rw [hr, if_pos (by omega)]
        omega
      · rw [← hnk, ← hback] at hj
        split_ifs at hr <;> omega
    obtain ⟨b', hrej, hring, heff⟩ := reject_of_lt_of_le h hf hk htaken hlt hback hr hle
    refine ⟨b', _, _, _, hrej, hring, heff, ?_⟩
    have := perm_restored (front.take r) (front.drop r) back taken r
    rwa [take_append_drop] at this
  · obtain ⟨o, rfl⟩ := Nat.exists_eq_add_of_le hge
    have ho := hf.le_add_size
    obtain ⟨front, newer, rfl, hfront⟩ := exists_append_of_le (by omega : o ≤ live.length)
    rw [length_append] at hlen
    obtain ⟨r, hr⟩ : ∃ r, r = min k (b.cap - newer.length) := ⟨_, rfl⟩
    obtain ⟨_, _, rfl, holdest⟩ := exists_append_of_le
      (by rw [length_append]; omega : r - (b.cap - (front ++ newer).length) ≤ front.length)
    obtain ⟨b', hrej, hring, heff⟩ := reject_of_le h (by rwa [hfront]) hk htaken hr holdest
    exact ⟨b', _, _, _, hrej, hring, heff, perm_restored _ _ _ _ _⟩

/-- A `Reject` that is not lossless drops fewer metrics than it puts back. -/
theorem reject_lossy (hno : ¬Lossless b.cap k n) :
    ∃ b', b.reject (taken.reverse.map some) = some b' ∧ b'.size = b.size ∧
      b'.metricsAdded = b.metricsAdded ∧ b'.metricsWritten = b.metricsWritten ∧
      b'.metricsDropped < b.metricsDropped + k := by
  have hlen := h.length_le
  have hsize := h.size
  have hpos := h.cap_pos
  simp only [Lossless, not_or, not_le] at hno
  obtain ⟨_, hj, hjr⟩ := hno
  have hlt : BF < F := (hf.lt_iff (by omega)).2 (by omega)
  have hmod := mod_lt (F - BF) hpos
  have hfull := hf.full hlt
  rw [← hf.mod_eq hlt] at hj hjr
  obtain ⟨front, back, r, rfl, _, hback, hr⟩ := h.exists_append hf hlt
  rw [length_append] at hsize
  obtain ⟨_, hrej, -⟩ := reject_of_lt h hf hk htaken hlt hback hr
  rw [if_neg (by omega)] at hr
  refine ⟨_, hrej, hfull.symm, rfl, rfl, ?_⟩
  show b.metricsDropped + (evicted back.length ((front.take r).map some)).length + (k - r) < _
  rw [length_evicted_of_lt (by rw [length_take]; omega)]
  omega

end

/-- Of `o` older metrics `room` fit, and `k` that come back take the place of the oldest ones. -/
theorem sub_add_restored (o room k : ℕ) :
    o - room + (min k room - (room - o)) = o - (room - k) := by
  omega

theorem restored_sub_le (o room k : ℕ) : min k room - (room - o) ≤ min o room := by
  omega

section

variable {older newer : List α}
  (h : Ring b F (older.rtake (b.cap - newer.length) ++ newer.rtake b.cap))
  (hf : InFlight b F BF k newer.length) (hk : 0 < k) (htaken : taken.length = k)

include h hf hk htaken

/-- `first` has run past `batchFirst` by whole turns, and the batch is dropped. -/
theorem reject_aligned_of_lt
    (hok : Aligned b.cap k newer.length) (hsize : b.size ≤ b.cap) (hlt : BF < F) :
    ∃ b' F', b.reject (taken.reverse.map some) = some b' ∧
      Ring b' F' (older.rtake (b.cap - newer.length - taken.length) ++
        taken.rtake (b.cap - newer.length) ++ newer.rtake b.cap) := by
  have hn := (hf.lt_iff hsize).1 hlt
  have hdvd : b.cap ∣ newer.length - k := by
    rcases hok with h0 | h0 | h0
    · omega
    · omega
    · exact h0
  have hmod : (F - BF) % b.cap = 0 := by
    rw [hf.mod_eq hlt]
    exact mod_eq_zero_of_dvd hdvd
  have hzero : b.cap - newer.length = 0 := by omega
  rw [hzero, rtake_zero, ← append_nil ([] ++ _)] at h
  obtain ⟨b', hrej, hring, -⟩ := reject_of_lt_of_le (r := 0) h hf hk htaken hlt
    (by rw [hmod]; rfl) rfl (zero_le _)
  refine ⟨b', F + 0, hrej, ?_⟩
  rw [hzero, Nat.zero_sub, rtake_zero, rtake_zero]
  simpa using hring

/-- The metrics from `first` to `batchFirst` are what is left of `older`. -/
theorem reject_aligned_of_ge
    (hsize : b.size = min (older.length + newer.length) b.cap) (hge : F ≤ BF) :
    ∃ b' F', b.reject (taken.reverse.map some) = some b' ∧
      Ring b' F' (older.rtake (b.cap - newer.length - taken.length) ++
        taken.rtake (b.cap - newer.length) ++ newer.rtake b.cap) := by
  have hcount := hf.count
  have hshrunk := hf.shrunk
  have hfront := length_rtake older (b.cap - newer.length)
  have hnewer := length_rtake newer b.cap
  have hBF : BF = F + (older.rtake (b.cap - newer.length)).length := by
    have := hf.batchSize_le
    omega
  obtain ⟨r, hr⟩ : ∃ r, r = min k (b.cap - (newer.rtake b.cap).length) := ⟨_, rfl⟩
  obtain ⟨free, hfree⟩ : ∃ free, free = b.cap -
    (older.rtake (b.cap - newer.length) ++ newer.rtake b.cap).length := ⟨_, rfl⟩
  have hfree' := hfree
  rw [length_append] at hfree'
  have hr' : r = min k (b.cap - newer.length) := by
    rw [hr, hnewer, min_comm _ b.cap, ← Nat.sub_eq_sub_min]
  have hfree'' : free = b.cap - newer.length - older.length := by
    rw [hfree', hfront, hnewer, Nat.add_comm, ← Nat.sub_sub, min_comm _ b.cap,
      ← Nat.sub_eq_sub_min, min_comm, ← Nat.sub_eq_sub_min]
  have hlost : r - free ≤ (older.rtake (b.cap - newer.length)).length := by
    rw [hr', hfree'', hfront]
    exact restored_sub_le _ _ _
  obtain ⟨oldest, kept, hsplit, holdest⟩ := exists_append_of_le hlost
  have hkept : kept = older.rtake (b.cap - newer.length - taken.length) := by
    have : kept = (older.rtake (b.cap - newer.length)).drop (r - free) := by
      rw [hsplit, ← holdest, drop_left]
    rw [this, rtake, rtake, drop_drop, hr', hfree'', htaken]
    exact congrArg (older.drop ·) (sub_add_restored _ _ _)
  have htk : taken.rtake r = taken.rtake (b.cap - newer.length) := by
    rw [rtake, rtake, hr', htaken, ← Nat.sub_eq_sub_min]
  rw [hfree, hsplit] at holdest
  rw [hsplit] at h hBF
  obtain ⟨b', hrej, hring, -⟩ := reject_of_le h (by rwa [← hBF]) hk htaken hr holdest
  refine ⟨b', F + oldest.length, hrej, ?_⟩
  rwa [hkept, htk, ← append_assoc] at hring

end

/-- An aligned `Reject` restores the order of arrival and keeps the newest metrics. -/
theorem reject_aligned {older newer : List α} (h : Ring b F ((older ++ newer).rtake b.cap))
    (hf : InFlight b F BF k newer.length) (hk : 0 < k) (htaken : taken.length = k)
    (hok : Aligned b.cap k newer.length) :
    ∃ b' F', b.reject (taken.reverse.map some) = some b' ∧
      Ring b' F' ((older ++ taken ++ newer).rtake b.cap) := by
  have hsize := h.size
  rw [length_rtake, length_append] at hsize
  rw [rtake_append _ newer, rtake_append older taken]
  rw [rtake_append] at h
  rcases lt_or_ge BF F with hlt | hge
  · exact reject_aligned_of_lt h hf hk htaken hok (by omega) hlt
  · exact reject_aligned_of_ge h hf hk htaken hsize hge

/-- A `Reject` that is not aligned puts the newest metric of the batch back into a buffer
full of newer metrics. -/
theorem reject_misaligned {m : α} (h : Ring b F live) (hf : InFlight b F BF k n)
    (htaken : (taken ++ [m]).length = k) (hno : ¬Aligned b.cap k n) :
    ∃ b', b.reject ((taken ++ [m]).reverse.map some) = some b' ∧ some m ∈ b'.contents := by
  have hlen := h.length_le
  have hsize := h.size
  have hpos := h.cap_pos
  simp only [Aligned, not_or, not_le] at hno
  obtain ⟨_, _, hdvd⟩ := hno
  have hlt : BF < F := (hf.lt_iff (by omega)).2 (by omega)
  have hmod := mod_lt (F - BF) hpos
  have hfull := hf.full hlt
  have hj : (F - BF) % b.cap ≠ 0 := by
    rw [hf.mod_eq hlt]
    exact fun h0 => hdvd (dvd_of_mod_eq_zero h0)
  obtain ⟨front, back, r, rfl, _, hback, hr⟩ := h.exists_append hf hlt
  rw [length_append] at hsize
  obtain ⟨buf, hrej, hbuf⟩ := reject_of_lt h hf (by omega) htaken hlt hback hr
  rw [if_neg (by omega)] at hr
  obtain ⟨r, rfl⟩ : ∃ r', r = r' + 1 := ⟨r - 1, by omega⟩
  refine ⟨_, hrej, ?_⟩
  have hbl : buf.length = b.cap := by
    have hbl := length_of_rotate hbuf
    simp only [length_map, length_append, length_drop, length_rtake]
      at hbl htaken
    omega
  rw [contents_of_full hbl rfl, mem_rotate, ← mem_rotate (n := BF)]
  show some m ∈ buf.rotate BF
  rw [hbuf, rtake_concat_succ]
  simp

end Reject

end Buffer

end Telegraf
