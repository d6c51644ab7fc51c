import Telegraf.DistinctKeys

/-!
# Ranges of registers

`InitRegister` of `plugins/inputs/modbus` sorts the addresses of the fields and reads them in ranges
of consecutive addresses. The ranges are the maximal runs of the addresses (`ranges_maximal`).
-/

open List

namespace Telegraf.Modbus

structure FieldContainer where
  address : List UInt16

structure RegisterRange where
  address : UInt16
  length : UInt16
deriving Repr, DecidableEq

/-- The loop over the sorted addresses, in a range from `start` to `last` so far. -/
def scan (start last : UInt16) : List UInt16 → List RegisterRange
  | [] => [⟨start, last - start + 1⟩]
  | a :: addrs =>
    if a - last = 1 then scan start a addrs
    else ⟨start, last - start + 1⟩ :: scan a a addrs

/-- The addresses that `InitRegister` scans. -/
def addresses (fields : List FieldContainer) : List UInt16 :=
  (fields.flatMap FieldContainer.address).eraseDups.mergeSort fun a b => decide (a ≤ b)

/-- The ranges that `InitRegister` registers. -/
def registersRange (fields : List FieldContainer) : List RegisterRange :=
  match addresses fields with
  | [] => []
  | a :: addrs => scan a a addrs

namespace RegisterRange

/-- The number of addresses. A length 0 stands for all of them. -/
def size (r : RegisterRange) : ℕ :=
  if r.length = 0 then 2 ^ 16 else r.length.toNat

def Covers (r : RegisterRange) (a : UInt16) : Prop :=
  r.address ≤ a ∧ a.toNat < r.address.toNat + r.size

/-- The other range is behind this one, and not adjacent. -/
def Before (r r' : RegisterRange) : Prop :=
  r.address.toNat + r.size < r'.address.toNat

end RegisterRange

theorem address_add_size {start last : UInt16} (h : start ≤ last) :
    start.toNat + (RegisterRange.mk start (last - start + 1)).size = last.toNat + 1 := by
  have hlast := last.toNat_lt
  have hle := UInt16.le_iff_toNat_le.1 h
  have hlength : (last - start + 1).toNat = (last.toNat - start.toNat + 1) % 2 ^ 16 := by
    rw [UInt16.toNat_add, UInt16.toNat_sub_of_le _ _ h]
    rfl
  unfold RegisterRange.size
  split_ifs with hzero
  · have hzero' : (last - start + 1).toNat = 0 := congrArg UInt16.toNat hzero
    omega
  · have hzero' : (last - start + 1).toNat ≠ 0 := fun h => hzero (UInt16.toNat_inj.1 h)
    dsimp only
    omega

theorem sub_eq_one_iff {a last : UInt16} (h : last < a) :
    a - last = 1 ↔ a.toNat = last.toNat + 1 := by
  have hlt := UInt16.lt_iff_toNat_lt.1 h
  rw [← UInt16.toNat_inj, UInt16.toNat_sub_of_le _ _ (UInt16.le_of_lt h)]
  change a.toNat - last.toNat = 1 ↔ _
  omega

/-- The first range begins at `start`, and the ranges are the maximal runs of the addresses from
`start` to `last` and those behind them. -/
theorem scan_spec (addrs : List UInt16) : ∀ {start last : UInt16}, start ≤ last →
    (last :: addrs).Pairwise (· < ·) →
      (∀ r ∈ scan start last addrs, start ≤ r.address) ∧
      (scan start last addrs).Pairwise RegisterRange.Before ∧
      ∀ a, (∃ r ∈ scan start last addrs, r.Covers a) ↔ start ≤ a ∧ a ≤ last ∨ a ∈ addrs := by
  induction addrs with
  | nil =>
    intro start last hle _
    have hsize := address_add_size hle
    refine ⟨by simp [scan], by simp [scan], fun a => ?_⟩
    simp only [scan, mem_singleton, exists_eq_left, not_mem_nil, or_false, RegisterRange.Covers,
      hsize, UInt16.le_iff_toNat_le]
    omega
  | cons b addrs ih =>
    intro start last hle hsorted
    obtain ⟨hlast, hsorted'⟩ := pairwise_cons.1 hsorted
    have hb := hlast b mem_cons_self
    have hlt := UInt16.lt_iff_toNat_lt.1 hb
    rw [scan]
    split_ifs with hnext
    · -- the range goes on
      rw [sub_eq_one_iff hb] at hnext
      obtain ⟨hfirst, hbefore, hcovers⟩ := ih (UInt16.le_trans hle (UInt16.le_of_lt hb)) hsorted'
      refine ⟨hfirst, hbefore, fun a => ?_⟩
      simp only [hcovers, mem_cons, ← UInt16.toNat_inj, UInt16.le_iff_toNat_le] at hle ⊢
      grind
    · rw [sub_eq_one_iff hb] at hnext
      obtain ⟨hfirst, hbefore, hcovers⟩ := ih (UInt16.le_refl b) hsorted'
      have hsize := address_add_size hle
      refine ⟨forall_mem_cons.2 ⟨UInt16.le_refl start, fun r hr => ?_⟩,
        pairwise_cons.2 ⟨fun r hr => ?_, hbefore⟩, fun a => ?_⟩
      · exact UInt16.le_trans (UInt16.le_trans hle (UInt16.le_of_lt hb)) (hfirst r hr)
      · have hr' := UInt16.le_iff_toNat_le.1 (hfirst r hr)
        rw [RegisterRange.Before, hsize]
        omega
      · simp only [mem_cons, exists_eq_or_imp, hcovers]
        simp only [RegisterRange.Covers, hsize, UInt16.le_iff_toNat_le, ← UInt16.toNat_inj]
        grind

/-- The ranges are in increasing order, disjoint and not adjacent, and cover the addresses of the
fields, and no others. -/
theorem ranges_maximal (fields : List FieldContainer) :
    (registersRange fields).Pairwise RegisterRange.Before ∧
      ∀ a, (∃ r ∈ registersRange fields, r.Covers a) ↔ ∃ f ∈ fields, a ∈ f.address := by
  have hle : (addresses fields).Pairwise fun a b => decide (a ≤ b) = true :=
    pairwise_mergeSort (by simpa using fun _ _ _ => UInt16.le_trans)
      (by simpa using UInt16.le_total) _
  have hnodup : (addresses fields).Nodup :=
    (mergeSort_perm _ _).nodup_iff.2 (DistinctKeys.nodup_eraseDups _)
  have hsorted : (addresses fields).Pairwise (· < ·) :=
    (hle.and hnodup).imp fun h => UInt16.lt_of_le_of_ne (of_decide_eq_true h.1) h.2
  have hmem : ∀ a, a ∈ addresses fields ↔ ∃ f ∈ fields, a ∈ f.address := fun a => by
    rw [addresses, mem_mergeSort, mem_eraseDups, mem_flatMap]
  simp only [← hmem]
  unfold registersRange
  cases haddrs : addresses fields with
  | nil => simp
  | cons a addrs =>
    rw [haddrs] at hsorted
    obtain ⟨-, hbefore, hcovers⟩ := scan_spec addrs (UInt16.le_refl a) hsorted
    refine ⟨hbefore, fun b => ?_⟩
    rw [hcovers, mem_cons, ← UInt16.toNat_inj, UInt16.le_iff_toNat_le, UInt16.le_iff_toNat_le]
    grind

end Telegraf.Modbus
