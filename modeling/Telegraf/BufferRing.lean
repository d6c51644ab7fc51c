import Mathlib.Data.List.ReduceOption
import Telegraf.Buffer

/-!
# The buffer as a ring

`Ring b F live` says what the slots of `b` hold : read from `first`, the metrics `live`,
oldest first, and nil in every other slot. `F` is the position of the oldest metric on
an unrolled ring, `first` its slot, so that positions only grow and no index wraps.

Each method has one lemma that computes it on a ring (`add_of_lt`, `add_of_full`,
`batch_eq`, `accept_eq`, `reject_eq`), and none of them panics there.
-/

open List hiding getElem?_eq_some_iff

open Option

namespace Telegraf

open Circular Nat

namespace Buffer

variable {α : Type*}

/-- The `size` slots starting at `first`. -/
def contents (b : Buffer α) : List (Option α) :=
  (List.range b.size).map fun i => (b.buf[(b.first + i) % b.cap]?).join

/-- The slots of `b` from position `F` hold `live`, oldest first, and the others nil. -/
structure Ring (b : Buffer α) (F : ℕ) (live : List α) : Prop where
  cap_pos : 0 < b.cap
  buf_length : b.buf.length = b.cap
  first : b.first = F % b.cap
  last : b.last = (F + live.length) % b.cap
  size : b.size = live.length
  slots : b.buf.rotate F = live.map some ++ List.replicate (b.cap - live.length) none

variable {b : Buffer α}

/-- A full buffer's contents are its slots from `first` on. -/
theorem contents_of_full (hlen : b.buf.length = b.cap) (hsize : b.size = b.cap) :
    b.contents = b.buf.rotate b.first := by
  refine ext_getElem (by simp [contents, hlen, hsize]) fun i hi hi' => ?_
  have hi'' : i < b.buf.length := by simpa using hi'
  have hpos : (b.first + i) % b.cap < b.buf.length := by
    rw [hlen]
    exact mod_lt _ (by omega)
  simp [contents, getElem_rotate, hlen, add_comm i, getElem?_eq_getElem hpos]

namespace Ring

variable {b : Buffer α} {F : ℕ} {live : List α}

theorem length_le (h : Ring b F live) : live.length ≤ b.cap := by
  have hlen := length_of_rotate h.slots
  simp only [length_append, length_map, length_replicate, h.buf_length] at hlen
  omega

theorem contents_eq (h : Ring b F live) : b.contents = live.map some := by
  have hle := h.length_le
  have hlen := h.buf_length
  refine ext_getElem (by simp [contents, h.size]) fun i hi hi' => ?_
  have hi'' : i < live.length := by simpa using hi'
  have hslot : b.buf[(b.first + i) % b.cap]? = some (some live[i]) := by
    rw [h.first, mod_add_mod, ← hlen,
      getElem?_mod _ (le_add_right F i) (by omega), h.slots,
      Nat.add_sub_cancel_left, getElem?_append_left (by simpa using hi'')]
    simp [hi'']
  simp [contents, hslot]

end Ring

/-! ## Indices on the unrolled ring -/

theorem next_mod (hcap : 0 < b.cap) (p : ℕ) : b.next (p % b.cap) = (p + 1) % b.cap :=
  succ_mod hcap p

theorem prev_mod (hcap : 0 < b.cap) (p : ℕ) : b.prev ((p + 1) % b.cap) = p % b.cap :=
  pred_mod hcap p

theorem nextby_mod (b : Buffer α) (p n : ℕ) : b.nextby (p % b.cap) n = (p + n) % b.cap :=
  mod_add_mod _ _ _

theorem ring_newBuffer {capacity : ℕ} (hcap : 0 < capacity) : Ring (newBuffer α capacity) 0 [] where
  cap_pos := hcap
  buf_length := by simp [newBuffer]
  first := by simp [newBuffer]
  last := by simp [newBuffer]
  size := rfl
  slots := by simp [newBuffer]

/-! ## Adding -/

section Add

variable {b : Buffer α} {F : ℕ} {live : List α}

theorem Ring.last_lt (h : Ring b F live) : b.last < b.buf.length := by
  rw [h.last, h.buf_length]
  exact mod_lt _ h.cap_pos

/-- With room, `add` writes the slot at `last` and drops nothing. -/
theorem add_of_lt (h : Ring b F live) (hlt : live.length < b.cap) (m : α) :
    b.add m = some ({ b with
      buf := b.buf.set b.last (some m), last := b.next b.last, size := b.size + 1,
      metricsAdded := b.metricsAdded + 1 }, 0) := by
  have hne : b.size ≠ b.cap := by rw [h.size]; omega
  have hlast := h.last_lt
  have hmin : min (b.size + 1) b.cap = b.size + 1 := by rw [h.size]; omega
  simp [add, hne, setSlot, metricAdded, hlast, next, hmin]

theorem ring_add_of_lt (h : Ring b F live) (hlt : live.length < b.cap) (m : α) :
    Ring { b with
      buf := b.buf.set b.last (some m), last := b.next b.last, size := b.size + 1,
      metricsAdded := b.metricsAdded + 1 } F (live ++ [m]) where
  cap_pos := h.cap_pos
  buf_length := by simp [h.buf_length]
  first := h.first
  last := by
    show b.next b.last = _
    rw [h.last, next_mod h.cap_pos]
    simp [add_assoc]
  size := by simp [h.size]
  slots := by
    have hlen := h.buf_length
    show (b.buf.set b.last (some m)).rotate F = _
    rw [h.last, ← hlen, rotate_set_mod _ (by omega) (by omega), h.slots,
      Nat.add_sub_cancel_left]
    obtain ⟨n, hn⟩ : ∃ n, b.cap - live.length = n + 1 := ⟨b.cap - live.length - 1, by omega⟩
    have hn' : b.buf.length - (live ++ [m]).length = n := by simp; omega
    rw [hn, hn', replicate_succ]
    simp

section

variable {x : α} (h : Ring b F (x :: live)) (hfull : live.length + 1 = b.cap) (m : α)

include h hfull m

/-- On a full ring, `add` drops the oldest metric and takes its slot. A batch that starts
at that slot shrinks by it. -/
theorem add_of_full :
    b.add m = some ({ b with
      buf := b.buf.set b.last (some m), first := b.next b.first, last := b.next b.last,
      batchFirst := if b.last = b.batchFirst ∧ 0 < b.batchSize then b.next b.batchFirst
        else b.batchFirst,
      batchSize := if b.last = b.batchFirst ∧ 0 < b.batchSize then b.batchSize - 1
        else b.batchSize,
      metricsAdded := b.metricsAdded + 1, metricsDropped := b.metricsDropped + 1,
      rejected := b.rejected ++ [x] }, 1) := by
  have heq : b.size = b.cap := by rw [h.size, length_cons, hfull]
  have hlast := h.last_lt
  have hlen := h.buf_length
  have hold : b.buf[b.last]? = some (some x) := by
    rw [h.last, length_cons, hfull, add_mod_right, ← hlen,
      getElem?_mod _ le_rfl (by omega), h.slots]
    simp
  by_cases hb : b.last = b.batchFirst ∧ 0 < b.batchSize
  · obtain ⟨hb₁, hb₂⟩ := hb
    simp only [hb₁] at hold hlast
    obtain ⟨_, hget⟩ := List.getElem?_eq_some_iff.1 hold
    simp [add, heq, hb₁, hb₂, hget, metricDropped, setSlot, metricAdded, hlast, next]
  · obtain ⟨_, hget⟩ := List.getElem?_eq_some_iff.1 hold
    simp [add, heq, hget, metricDropped, hb, setSlot, metricAdded, hlast, next]

theorem ring_add_of_full (batchFirst batchSize metricsAdded metricsDropped : ℕ)
    (rejected : List α) :
    Ring { b with
      buf := b.buf.set b.last (some m), first := b.next b.first, last := b.next b.last,
      batchFirst := batchFirst, batchSize := batchSize, metricsAdded := metricsAdded,
      metricsDropped := metricsDropped, rejected := rejected } (F + 1) (live ++ [m]) where
  cap_pos := h.cap_pos
  buf_length := by simp [h.buf_length]
  first := by
    show b.next b.first = _
    rw [h.first, next_mod h.cap_pos]
  last := by
    show b.next b.last = _
    rw [h.last, next_mod h.cap_pos]
    simp only [length_cons, length_append, length_nil]
    congr 1
    omega
  size := by simp [h.size]
  slots := by
    have hlen := h.buf_length
    show (b.buf.set b.last (some m)).rotate (F + 1) = _
    have hslots : b.buf.rotate F = [some x] ++ live.map some := by
      rw [h.slots, length_cons, hfull]
      simp
    have hrot := rotate_add_of_append hslots
    rw [h.last, length_cons, hfull, ← hlen, rotate_set_mod _ (by omega) (by omega),
      show b.buf.rotate (F + 1) = _ from hrot]
    have hoff : F + b.buf.length - (F + 1) = live.length := by omega
    rw [hoff]
    simp [hlen, hfull]

end

end Add

/-! ## Taking a batch -/

/-- Taking the slots `xs` from position `p` leaves them nil. -/
theorem takeSlots_eq : ∀ (xs ys out : List (Option α)) (b : Buffer α) (p : ℕ), 0 < b.cap →
    b.buf.length = b.cap → b.buf.rotate p = xs ++ ys →
    ∃ buf, b.takeSlots xs.length (p % b.cap) out =
        some ({ b with buf := buf }, xs.reverse ++ out) ∧
      buf.rotate p = List.replicate xs.length none ++ ys
  | [], ys, out, b, p, _, _, h => ⟨b.buf, rfl, h⟩
  | x :: xs, ys, out, b, p, hcap, hlen, h => by
    have hp : p % b.cap < b.buf.length := by
      rw [hlen]
      exact mod_lt _ hcap
    have hget : b.buf[p % b.cap]? = some x := by
      rw [← hlen, getElem?_mod _ le_rfl (by omega), h]
      simp
    have hset : (b.buf.set (p % b.cap) none).rotate p = [none] ++ (xs ++ ys) := by
      rw [← hlen, rotate_set_mod _ le_rfl (by omega), h]
      simp
    have hrot := rotate_add_of_append hset
    rw [append_assoc] at hrot
    obtain ⟨buf, htake, hbuf⟩ := takeSlots_eq xs (ys ++ [none]) (x :: out)
      { b with buf := b.buf.set (p % b.cap) none } (p + 1) hcap (by simpa using hlen) hrot
    refine ⟨buf, ?_, ?_⟩
    · rw [length_cons, takeSlots, hget]
      simp only [bind_eq_bind, bind_some, setSlot, hp, if_true]
      rw [show next { b with buf := b.buf.set (p % b.cap) none } (p % b.cap) = (p + 1) % b.cap from
        next_mod hcap p, htake]
      simp
    · rw [← append_assoc] at hbuf
      have hbuf' : buf.rotate p = [none] ++ (replicate xs.length none ++ ys) :=
        rotate_of_add_append hbuf
      rw [hbuf', length_cons, replicate_succ]
      rfl

/-- The index `Batch` computes for the first metric of the batch. -/
theorem batchFirst_mod {cap F n k : ℕ} (hk : k ≤ n) (hn : n ≤ cap) :
    (cap + (F + n) % cap - k) % cap = (F + (n - k)) % cap := by
  have hdiv := div_add_mod (F + n) cap
  rw [← add_mul_mod_self_left (cap + (F + n) % cap - k) cap ((F + n) / cap),
    show cap + (F + n) % cap - k + cap * ((F + n) / cap) = F + (n - k) + cap by omega,
    add_mod_right]

/-- `Batch` takes the newest metrics `taken` off a ring, newest first. -/
theorem batch_eq {F : ℕ} {older taken : List α} (h : Ring b F (older ++ taken))
    (hne : taken ≠ []) {n : ℕ} (hn : taken.length = min (older ++ taken).length n) :
    ∃ buf, b.batch n = some ({ b with
        buf := buf, last := (F + older.length) % b.cap, size := older.length,
        batchFirst := (F + older.length) % b.cap, batchSize := taken.length },
        (taken.map some).reverse) ∧
      Ring { b with
        buf := buf, last := (F + older.length) % b.cap, size := older.length,
        batchFirst := (F + older.length) % b.cap, batchSize := taken.length } F older := by
  have hcap := h.cap_pos
  have hlen := h.buf_length
  have hle := h.length_le
  have hpos : 0 < taken.length := length_pos_of_ne_nil hne
  have hout : min b.size n = (taken.map some).length := by rw [h.size, ← hn, length_map]
  have hfirst : (b.cap + b.last - (taken.map some).length) % b.cap =
      (F + older.length) % b.cap := by
    rw [h.last, batchFirst_mod (by simp) hle]
    simp
  have hslots : b.buf.rotate (F + older.length) = taken.map some ++
      (replicate (b.cap - (older ++ taken).length) none ++ older.map some) := by
    have := h.slots
    rw [map_append, append_assoc] at this
    have := rotate_add_of_append this
    rwa [length_map, append_assoc] at this
  obtain ⟨buf, htake, hbuf⟩ := takeSlots_eq (taken.map some) _ []
    { b with batchFirst := (F + older.length) % b.cap, batchSize := (taken.map some).length }
    (F + older.length) hcap hlen hslots
  have hbuf' : buf.rotate F =
      older.map some ++ replicate (b.cap - older.length) none := by
    refine rotate_of_add_append ?_
    rw [length_map, hbuf, ← append_assoc, replicate_append_replicate]
    congr 2
    simp only [length_append, length_map] at hle ⊢
    omega
  refine ⟨buf, ?_, ?_⟩
  · simp only [batch, hout, hfirst]
    rw [if_neg (by simpa using hne)]
    simp only [htake, bind_eq_bind, bind_some]
    simp [h.size]
  · refine ⟨hcap, ?_, h.first, rfl, rfl, hbuf'⟩
    have hlen' := length_of_rotate hbuf'
    simp only [length_append, length_map, length_replicate] at hlen' hle
    show buf.length = b.cap
    omega

theorem batch_of_eq_zero {n : ℕ} (h : min b.size n = 0) : b.batch n = some (b, []) := by
  simp [batch, h]

/-! ## Accepting a batch -/

theorem writtenEach_eq : ∀ (ms : List α) (b : Buffer α),
    b.writtenEach (ms.map some) = some { b with
      metricsWritten := b.metricsWritten + ms.length, accepted := b.accepted ++ ms }
  | [], b => by simp [writtenEach]
  | m :: ms, b => by
    simp [writtenEach, metricWritten, writtenEach_eq ms, add_assoc, add_comm 1]

/-- `Accept` writes every metric of the batch and forgets it. -/
theorem accept_eq (b : Buffer α) (ms : List α) :
    b.accept (ms.map some) = some { b with
      batchFirst := 0, batchSize := 0, metricsWritten := b.metricsWritten + ms.length,
      accepted := b.accepted ++ ms, bufferSize := min b.size b.cap } := by
  simp [accept, writtenEach_eq, resetBatch, setBufferSize, length]

/-! ## Rejecting a batch -/

/-- `b` with the slots `buf` and the metrics `ms` dropped from its front, at position `F`. -/
def dropFront (b : Buffer α) (buf : List (Option α)) (F : ℕ) (ms : List α) : Buffer α :=
  { b with
    buf := buf, first := (F + ms.length) % b.cap,
    metricsDropped := b.metricsDropped + ms.length, rejected := b.rejected ++ ms }

theorem dropFront_dropFront (b : Buffer α) (buf buf' : List (Option α)) (F : ℕ) (ms ms' : List α) :
    (b.dropFront buf F ms).dropFront buf' (F + ms.length) ms' = b.dropFront buf' F (ms ++ ms') := by
  simp [dropFront, add_assoc]

/-- One pass of the rotation loop, at offset `i` from position `BF`. -/
theorem rotateNewer_succ {BF F r i : ℕ} {old m : Option α} (fuel : ℕ)
    (hr : 0 < r) (hcap : 0 < b.cap) (hlen : b.buf.length = b.cap) (hfirst : b.first = F % b.cap)
    (hle : i + 1 + r ≤ b.cap) (hold : (b.buf.rotate BF)[i + r]? = some old)
    (hm : (b.buf.rotate BF)[i]? = some m) :
    ∃ buf, b.rotateNewer (BF % b.cap) (fuel + 1) ((BF + (i + 1)) % b.cap)
          ((BF + (i + 1) + r) % b.cap) =
        (b.dropFront buf F old.toList).rotateNewer (BF % b.cap) fuel ((BF + i) % b.cap)
          ((BF + i + r) % b.cap) ∧
      buf.rotate BF = ((b.buf.rotate BF).set (i + r) m).set i none := by
  have hrp : (BF + i) % b.cap < b.cap := mod_lt _ hcap
  have hre : (BF + i + r) % b.cap < b.cap := mod_lt _ hcap
  have hgo : BF % b.cap ≠ (BF + (i + 1)) % b.cap ∧
      (BF + (i + 1)) % b.cap ≠ (BF + (i + 1) + r) % b.cap := by
    constructor
    · intro h
      have := eq_of_mod_eq (by omega) (by omega) h
      omega
    · intro h
      have := eq_of_mod_eq (by omega) (by omega) h
      omega
  have hprev : b.prev ((BF + (i + 1)) % b.cap) = (BF + i) % b.cap := prev_mod hcap (BF + i)
  have hprev' : b.prev ((BF + (i + 1) + r) % b.cap) = (BF + i + r) % b.cap := by
    rw [show BF + (i + 1) + r = BF + i + r + 1 by omega, prev_mod hcap]
  have hold' : b.buf[(BF + i + r) % b.cap]? = some old := by
    rw [← hold, ← hlen, getElem?_mod _ (by omega : BF ≤ BF + i + r) (by omega)]
    congr 1
    omega
  have hm' : b.buf[(BF + i) % b.cap]? = some m := by
    rw [← hm, ← hlen, getElem?_mod _ (by omega : BF ≤ BF + i) (by omega)]
    congr 1
    omega
  refine ⟨(b.buf.set ((BF + i + r) % b.cap) m).set ((BF + i) % b.cap) none, ?_, ?_⟩
  · rw [rotateNewer, if_pos hgo]
    simp only [hprev, hprev', hold', bind_eq_bind, bind_some]
    cases old with
    | none => simp only [bind_some, hm', setSlot, length_set, hlen, hre, hrp, if_true,
        dropFront, ← hfirst, toList_none, length_nil, add_zero, append_nil]
    | some =>
      simp only [bind_some, metricDropped, pure, hm', setSlot, length_set, hlen, hre,
        hrp, if_true, dropFront, hfirst, next, succ_mod hcap, toList_some,
        length_singleton]
  · have hset := rotate_set_mod b.buf (by omega : BF ≤ BF + i + r) (by omega) m
    have hset' := rotate_set_mod (b.buf.set ((BF + i + r) % b.cap) m)
      (by omega : BF ≤ BF + i) (by simp; omega) none
    rw [length_set, hlen] at hset'
    rw [hlen] at hset
    rw [hset', hset]
    congr 2 <;> omega

/-- The rotation loop moves the `i` slots from position `BF` forward by `r`, and drops
every metric it overwrites. -/
theorem rotateNewer_eq (BF : ℕ) {r : ℕ} (hr : 0 < r) : ∀ (i fuel : ℕ) (b : Buffer α) (F : ℕ),
    0 < b.cap → b.buf.length = b.cap → b.first = F % b.cap → i + r ≤ b.cap →
    ∃ buf, b.rotateNewer (BF % b.cap) (i + fuel + 1) ((BF + i) % b.cap) ((BF + i + r) % b.cap) =
        some (b.dropFront buf F (shiftBlock r i (b.buf.rotate BF)).2.reduceOption,
          (BF + r) % b.cap) ∧
      buf.rotate BF = (shiftBlock r i (b.buf.rotate BF)).1
  | 0, fuel, b, F, _, _, hfirst, _ => by
    refine ⟨b.buf, ?_, rfl⟩
    simp [rotateNewer, shiftBlock, dropFront, ← hfirst]
  | i + 1, fuel, b, F, hcap, hlen, hfirst, hle => by
    obtain ⟨old, hold⟩ : ∃ old, (b.buf.rotate BF)[i + r]? = some old :=
      ⟨_, getElem?_eq_getElem (by simp; omega)⟩
    obtain ⟨m, hm⟩ : ∃ m, (b.buf.rotate BF)[i]? = some m :=
      ⟨_, getElem?_eq_getElem (by simp; omega)⟩
    obtain ⟨buf₁, hpass, hbuf₁⟩ := rotateNewer_succ (i + fuel + 1) hr hcap hlen hfirst hle hold hm
    have hlen₁ : buf₁.length = b.cap := by
      simpa [hlen] using length_of_rotate hbuf₁
    obtain ⟨buf, hrun, hbuf⟩ := rotateNewer_eq BF hr i fuel (b.dropFront buf₁ F old.toList)
      (F + old.toList.length) hcap hlen₁ rfl (by simp only [dropFront]; omega)
    have hshift : shiftBlock r (i + 1) (b.buf.rotate BF) =
        ((shiftBlock r i (buf₁.rotate BF)).1,
          old :: (shiftBlock r i (buf₁.rotate BF)).2) := by
      rw [shiftBlock, hold, hm, hbuf₁]
      rfl
    have hred : (old :: (shiftBlock r i (buf₁.rotate BF)).2).reduceOption =
        old.toList ++ (shiftBlock r i (buf₁.rotate BF)).2.reduceOption := by
      cases old <;> simp
    refine ⟨buf, ?_, ?_⟩
    · rw [hshift, hred, ← dropFront_dropFront, show i + 1 + fuel + 1 = i + fuel + 1 + 1 by omega,
        hpass]
      exact hrun
    · rw [hshift]
      exact hbuf

variable {restore : ℕ}

/-- Past `restore`, every metric of the batch is dropped. -/
theorem restoreBatch_of_le : ∀ (ms : List α) (b : Buffer α) (i re : ℕ),
    restore ≤ i → b.restoreBatch restore i re (ms.map some) = some { b with
      metricsDropped := b.metricsDropped + ms.length, rejected := b.rejected ++ ms }
  | [], b, _, _, _ => by simp [restoreBatch]
  | m :: ms, b, i, re, hi => by
    have ih := fun b' : Buffer α => restoreBatch_of_le ms b' (i + 1) re (hi.trans (le_succ i))
    simp [restoreBatch, not_lt.2 hi, metricDropped, ih, add_assoc, add_comm 1]

/-- Copying the batch back fills the `t` slots `Y` from position `p`, newest metric last,
and drops the rest. -/
theorem restoreBatch_eq (p : ℕ) : ∀ (ms : List α) (b : Buffer α) (i t : ℕ)
    (Y Z : List (Option α)), 0 < b.cap → b.buf.length = b.cap → b.size ≤ b.cap →
    i + t = restore → t ≤ ms.length → Y.length = t → b.buf.rotate p = Y ++ Z →
    ∃ buf, b.restoreBatch restore i ((p + t) % b.cap) (ms.map some) = some { b with
        buf := buf, size := min (b.size + t) b.cap,
        metricsDropped := b.metricsDropped + (ms.length - t),
        rejected := b.rejected ++ ms.drop t } ∧
      buf.rotate p = (ms.take t).reverse.map some ++ Z
  | ms, b, i, 0, Y, Z, hcap, hlen, hsize, hi, ht, hY, h => by
    obtain rfl := length_eq_zero_iff.1 hY
    refine ⟨b.buf, ?_, by simpa using h⟩
    rw [restoreBatch_of_le ms b i _ (by omega)]
    simp [min_eq_left hsize]
  | m :: ms, b, i, t + 1, Y, Z, hcap, hlen, hsize, hi, ht, hY, h => by
    obtain ⟨Y', y, rfl⟩ : ∃ Y' y, Y = Y' ++ [y] :=
      ⟨Y.dropLast, Y.getLast (ne_nil_of_length_pos (by omega)),
        (dropLast_append_getLast _).symm⟩
    have hY' : Y'.length = t := by simpa using hY
    have hp : (p + t) % b.cap < b.cap := mod_lt _ hcap
    have ht' : t + 1 ≤ b.cap := by
      have hlen' := length_of_rotate h
      simp only [length_append, length_singleton] at hlen'
      omega
    have hset : (b.buf.set ((p + t) % b.cap) (some m)).rotate p = Y' ++ some m :: Z := by
      rw [← hlen, rotate_set_mod _ (le_add_right p t) (by omega), h]
      simp [← hY']
    obtain ⟨buf, hrun, hbuf⟩ := restoreBatch_eq p ms
      { b with buf := b.buf.set ((p + t) % b.cap) (some m), size := min (b.size + 1) b.cap }
      (i + 1) t Y' (some m :: Z) hcap (by simpa using hlen) (min_le_right _ _)
      (by omega : i + 1 + t = restore) (by simpa using ht) hY' hset
    refine ⟨buf, ?_, by simpa using hbuf⟩
    rw [map_cons, restoreBatch, if_pos (by omega)]
    simp only [← add_assoc, prev_mod hcap, setSlot, hlen, hp, if_true, bind_eq_bind, bind_some]
    rw [hrun]
    simp only [length_cons, drop_succ_cons, reduceSubDiff, add_assoc]
    congr 2
    omega

/-- The metrics the rotation drops when `m` slots move past the slots `X`, in call order. -/
def evicted (m : ℕ) (X : List (Option α)) : List α :=
  ((List.replicate m none ++ X).drop X.length).reverse.reduceOption

/-- `Reject` with `r` metrics to restore. -/
theorem reject_of_restore {batch : List (Option α)} {r : ℕ} (hne : batch ≠ [])
    (hr : min batch.length (b.cap - b.size + b.dist b.first b.batchFirst) = r) :
    b.reject batch =
      (({ b with last := b.nextby b.last r }).rotateNewer b.batchFirst b.cap b.last
        (b.nextby b.last r)).bind fun p =>
          (p.1.restoreBatch r 0 p.2 batch).bind fun b' => some b'.resetBatch.setBufferSize := by
  subst hr
  simp [reject, hne]

/-- `Reject` on slots that read, from the batch's position `BF`, the metrics `A` up to
`last`, the slots `X` to restore into, and the rest `R` : the newest metrics of the batch
go in front of `A`, what `X` held at its end is dropped with the rest of the batch. -/
theorem reject_eq {F BF : ℕ} {A : List α} {X R : List (Option α)} (ms : List α) (hne : ms ≠ [])
    (hcap : 0 < b.cap) (hlen : b.buf.length = b.cap) (hsize : b.size ≤ b.cap)
    (hfirst : b.first = F % b.cap) (hbatch : b.batchFirst = BF % b.cap)
    (hlast : b.last = (BF + A.length) % b.cap) (hslots : b.buf.rotate BF = A.map some ++ X ++ R)
    (hX : X.length = min ms.length (b.cap - b.size + b.dist b.first b.batchFirst)) :
    ∃ buf, b.reject (ms.map some) = some { b with
        buf := buf, first := (F + (evicted A.length X).length) % b.cap,
        last := (BF + A.length + X.length) % b.cap, size := min (b.size + X.length) b.cap,
        batchFirst := 0, batchSize := 0,
        metricsDropped := b.metricsDropped + (evicted A.length X).length +
          (ms.length - X.length),
        rejected := b.rejected ++ evicted A.length X ++ ms.drop X.length,
        bufferSize := min (b.size + X.length) b.cap } ∧
      buf.rotate BF = (ms.take X.length).reverse.map some ++ (A.map some ++ R) := by
  have htotal : A.length + X.length + R.length = b.cap := by
    have hlen' := length_of_rotate hslots
    simp only [length_append, length_map] at hlen'
    omega
  have hX' : min (ms.map some).length (b.cap - b.size + b.dist b.first b.batchFirst) =
      X.length := by
    rw [length_map, hX]
  rw [reject_of_restore (by simpa using hne) hX', hlast, hbatch, nextby_mod]
  rcases Nat.eq_zero_or_pos X.length with hr | hr
  · -- nothing to restore : neither loop writes a slot
    obtain rfl := length_eq_zero_iff.1 hr
    obtain ⟨fuel, hfuel⟩ : ∃ fuel, b.cap = fuel + 1 := ⟨b.cap - 1, by omega⟩
    have hstop : ∀ b' : Buffer α, b'.rotateNewer (BF % b.cap) b.cap ((BF + A.length) % b.cap)
        ((BF + A.length) % b.cap) = some (b', (BF + A.length) % b.cap) := by
      intro b'
      rw [hfuel]
      simp [rotateNewer]
    refine ⟨b.buf, ?_, by simpa using hslots⟩
    simp only [length_nil, add_zero, hstop, bind_some, restoreBatch_of_le ms _ 0 _ le_rfl]
    simp [evicted, resetBatch, setBufferSize, length, ← hfirst, min_eq_left hsize]
  · obtain ⟨fuel, hfuel⟩ : ∃ fuel, b.cap = A.length + fuel + 1 := ⟨b.cap - A.length - 1, by omega⟩
    obtain ⟨buf₁, hrun, hbuf₁⟩ := rotateNewer_eq BF hr A.length fuel
      { b with last := (BF + A.length + X.length) % b.cap, batchFirst := BF % b.cap } F hcap hlen
      hfirst (by show A.length + X.length ≤ b.cap; omega)
    have hshift := shiftBlock_append hr (A.map some) X R rfl
    rw [length_map] at hshift
    simp only [hslots, hshift] at hrun hbuf₁
    have hlen₁ : buf₁.length = b.cap := by
      have hlen' := length_of_rotate hbuf₁
      simp at hlen'
      omega
    obtain ⟨buf, hrestore, hbuf⟩ := restoreBatch_eq BF ms
      (({ b with last := (BF + A.length + X.length) % b.cap, batchFirst := BF % b.cap }).dropFront
        buf₁ F (evicted A.length X)) 0 X.length ((replicate A.length none ++ X).take X.length)
      (A.map some ++ R) hcap hlen₁ hsize (zero_add _) (by rw [hX]; exact min_le_left _ _)
      (by simp) (hbuf₁.trans (append_assoc _ _ _))
    refine ⟨buf, ?_, hbuf⟩
    rw [← hfuel] at hrun
    rw [hrun]
    refine (congrArg (fun o => o.bind fun b' => some b'.resetBatch.setBufferSize) hrestore).trans ?_
    simp [resetBatch, setBufferSize, length, dropFront]

end Buffer

end Telegraf
