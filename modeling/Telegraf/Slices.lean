import Mathlib.Data.List.Nodup
import Mathlib.Data.List.Perm.Basic

/-!
# Slices of pointers

A heap of objects and of arrays of pointers to them, with the operations of Go on slices :
`append` writes into the array while there is room and moves to another array when there is
not, `copy` shifts within an array, and the element at an index is a pointer whose object can
be written.

`Owns` says what a slice holds, and `Becomes` what an operation makes of it and that it touches
nothing else.
-/

open List hiding getElem?_eq_some_iff

open Option hiding map_map

namespace Slices

/-- Objects and arrays of pointers. A pointer is the index of its object, nil is `none`. -/
structure Heap (α : Type*) where
  objects : List α
  arrays : List (List (Option ℕ))

/-- A slice from the start of an array. -/
structure Slice where
  array : ℕ
  len : ℕ
deriving Repr, DecidableEq

namespace Heap

variable {α : Type*} (h : Heap α) (s : Slice)

def empty : Heap α :=
  ⟨[], []⟩

/-- The whole array of the slice. -/
def backing : List (Option ℕ) :=
  (h.arrays[s.array]?).getD []

/-- The pointers in the slice. -/
def contents : List (Option ℕ) :=
  (h.backing s).take s.len

def setBacking (a : List (Option ℕ)) : Heap α :=
  { h with arrays := h.arrays.set s.array a }

/-- `&T{...}`, which is at the pointer `h.objects.length`. -/
def alloc (a : α) : Heap α :=
  { h with objects := h.objects ++ [a] }

/-- `make([]*T, len, cap)`. The nil slice is `make` with no elements. -/
def make (len cap : ℕ) : Heap α × Slice :=
  ({ h with arrays := h.arrays ++ [List.replicate cap none] }, ⟨h.arrays.length, len⟩)

/-- `append(s, p)`, where a new array gets `room` more places. -/
def append (room : ℕ) (p : Option ℕ) : Heap α × Slice :=
  if s.len < (h.backing s).length then
    (h.setBacking s ((h.backing s).set s.len p), ⟨s.array, s.len + 1⟩)
  else
    ({ h with arrays := h.arrays ++ [h.contents s ++ p :: List.replicate room none] },
      ⟨h.arrays.length, s.len + 1⟩)

/-- `s[i] = p`. -/
def setAt (i : ℕ) (p : Option ℕ) : Option (Heap α) :=
  if i < s.len then some (h.setBacking s ((h.backing s).set i p)) else none

/-- `copy(s[i:], s[j:])`. -/
def copyWithin (i j : ℕ) : Option (Heap α) :=
  if i ≤ s.len ∧ j ≤ s.len then
    let n := min (s.len - i) (s.len - j)
    some (h.setBacking s ((h.backing s).take i ++ ((h.backing s).drop j).take n ++
      (h.backing s).drop (i + n)))
  else none

/-- The pointer `s[i]`, which is not nil. -/
def pointer (i : ℕ) : Option ℕ :=
  ((h.contents s)[i]?).join

/-- `*s[i]`. -/
def load (i : ℕ) : Option α :=
  (h.pointer s i).bind fun p => h.objects[p]?

/-- `*s[i] = a`. -/
def store (i : ℕ) (a : α) : Option (Heap α) :=
  (h.pointer s i).map fun p => { h with objects := h.objects.set p a }

/-- The objects of the slice, if no pointer is nil. -/
def values : Option (List α) :=
  (h.contents s).mapM fun p => p.bind fun p => h.objects[p]?

/-- `sort.Slice(s, less)`, where `le` is that `less` does not hold the other way. -/
def sortBy (le : α → α → Bool) : Option (Heap α) := do
  let xs ← h.values s
  let sorted := ((h.contents s).zip xs).mergeSort fun a b => le a.2 b.2
  pure (h.setBacking s (sorted.map Prod.fst ++ (h.backing s).drop s.len))

/-! ## Idioms -/

/-- `s = append(s, &a)`. -/
def push (room : ℕ) (a : α) : Heap α × Slice :=
  (h.alloc a).append s room (some h.objects.length)

/-- `s[i] = &a`. -/
def replaceAt (i : ℕ) (a : α) : Option (Heap α) :=
  (h.alloc a).setAt s i (some h.objects.length)

/-- `s = append(s, nil); copy(s[i+1:], s[i:]); s[i] = &a`. -/
def insertAt (room i : ℕ) (a : α) : Option (Heap α × Slice) := do
  let (h, s) := h.append s room none
  let h ← h.copyWithin s (i + 1) i
  let h ← h.replaceAt s i a
  pure (h, s)

/-- `copy(s[i:], s[i+1:]); s[len(s)-1] = nil; s = s[:len(s)-1]`. -/
def removeAt (i : ℕ) : Option (Heap α × Slice) := do
  let h ← h.copyWithin s i (i + 1)
  let h ← h.setAt s (s.len - 1) none
  pure (h, ⟨s.array, s.len - 1⟩)

/-- `for i, x := range src { dst[i] = &(*x) }` from the index `i`, for `n` more elements. -/
def copyFrom (src dst : Slice) : Heap α → ℕ → ℕ → Option (Heap α)
  | h, _, 0 => some h
  | h, i, n + 1 => do
    let a ← h.load src i
    let h ← h.replaceAt dst i a
    copyFrom src dst h (i + 1) n

/-- A copy of the slice with copies of its objects. -/
def deepCopy : Option (Heap α × Slice) :=
  let (h, dst) := h.make s.len s.len
  (copyFrom s dst h 0 s.len).map (·, dst)

end Heap

/-! ## Changes of one slice -/

variable {α : Type*} {h h' h'' : Heap α} {s s' s'' : Slice}

/-- The slice is inside an array. -/
structure Valid (h : Heap α) (s : Slice) : Prop where
  array_lt : s.array < h.arrays.length
  len_le : s.len ≤ (h.backing s).length

/-- Only the array of the slice is changed, or the slice has a new array. -/
structure ArraysKept (h : Heap α) (s : Slice) (h' : Heap α) (s' : Slice) : Prop where
  arrays_le : h.arrays.length ≤ h'.arrays.length
  arrays : ∀ a < h.arrays.length, a ≠ s.array → h'.arrays[a]? = h.arrays[a]?
  array : s'.array = s.array ∨ h.arrays.length ≤ s'.array

open Heap

theorem ArraysKept.refl : ArraysKept h s h s :=
  ⟨Nat.le_refl _, fun _ _ _ => rfl, .inl rfl⟩

theorem ArraysKept.trans (h₁ : ArraysKept h s h' s') (h₂ : ArraysKept h' s' h'' s'') :
    ArraysKept h s h'' s'' where
  arrays_le := Nat.le_trans h₁.arrays_le h₂.arrays_le
  arrays a ha hne := by
    have hne' : a ≠ s'.array := by
      rcases h₁.array with heq | _
      · rwa [heq]
      · omega
    rw [h₂.arrays a (Nat.lt_of_lt_of_le ha h₁.arrays_le) hne', h₁.arrays a ha hne]
  array := by
    rcases h₂.array with heq | hge
    · rw [heq]
      exact h₁.array
    · exact .inr (Nat.le_trans h₁.arrays_le hge)

/-- From `s` in `h` to `s'` in `h'` with the pointers `cs`, and no object is changed. -/
structure Moves (h : Heap α) (s : Slice) (h' : Heap α) (s' : Slice) (cs : List (Option ℕ)) :
    Prop extends ArraysKept h s h' s' where
  valid : Valid h' s'
  contents : h'.contents s' = cs
  objects : h.objects <+: h'.objects

theorem Moves.trans {cs cs' : List (Option ℕ)} (h₁ : Moves h s h' s' cs)
    (h₂ : Moves h' s' h'' s'' cs') : Moves h s h'' s'' cs' :=
  ⟨h₁.toArraysKept.trans h₂.toArraysKept, h₂.valid, h₂.contents, h₁.objects.trans h₂.objects⟩

theorem Valid.length_contents (hv : Valid h s) : (h.contents s).length = s.len := by
  rw [contents, length_take, Nat.min_eq_left hv.len_le]

theorem Heap.backing_eq (h : Heap α) (s : Slice) :
    h.backing s = h.contents s ++ (h.backing s).drop s.len :=
  (take_append_drop _ _).symm

theorem moves_alloc (hv : Valid h s) (a : α) : Moves h s (h.alloc a) s (h.contents s) where
  toArraysKept := ⟨Nat.le_refl _, fun _ _ _ => rfl, .inl rfl⟩
  valid := ⟨hv.array_lt, hv.len_le⟩
  contents := rfl
  objects := prefix_append _ _

/-- Writing the array of the slice, to hold `cs` at its start. -/
theorem moves_setBacking (hv : Valid h s) (s' : Slice) (hs : s'.array = s.array)
    {cs rest : List (Option ℕ)} (hlen : cs.length = s'.len) :
    Moves h s (h.setBacking s (cs ++ rest)) s' cs := by
  have hback : (h.setBacking s (cs ++ rest)).backing s' = cs ++ rest := by
    simp [backing, setBacking, hs, hv.array_lt]
  exact
    { valid := ⟨by simpa [setBacking, hs] using hv.array_lt, by simp [hback, ← hlen]⟩
      contents := by rw [contents, hback, ← hlen, take_left]
      objects := prefix_rfl
      arrays_le := by simp [setBacking]
      arrays := fun a _ hne => getElem?_set_ne hne.symm
      array := .inl hs }

/-- Going on in a new array. -/
theorem moves_newArray (cs rest : List (Option ℕ)) :
    Moves h s { h with arrays := h.arrays ++ [cs ++ rest] } ⟨h.arrays.length, cs.length⟩ cs := by
  have hback : backing { h with arrays := h.arrays ++ [cs ++ rest] }
      ⟨h.arrays.length, cs.length⟩ = cs ++ rest := by
    simp [backing]
  exact
    { valid := ⟨by simp, by simp [hback]⟩
      contents := by rw [contents, hback, take_left]
      objects := prefix_rfl
      arrays_le := by simp
      arrays := fun a ha _ => getElem?_append_left ha
      array := .inr (Nat.le_refl _) }

theorem moves_reslice (hv : Valid h s) {n : ℕ} (hn : n ≤ s.len) :
    Moves h s h ⟨s.array, n⟩ ((h.contents s).take n) where
  toArraysKept := ⟨Nat.le_refl _, fun _ _ _ => rfl, .inl rfl⟩
  valid := ⟨hv.array_lt, Nat.le_trans hn hv.len_le⟩
  contents := by rw [contents, contents, take_take, Nat.min_eq_left hn]; rfl
  objects := prefix_rfl

theorem moves_append (hv : Valid h s) (room : ℕ) (p : Option ℕ) :
    Moves h s (h.append s room p).1 (h.append s room p).2 (h.contents s ++ [p]) := by
  have hlen := hv.length_contents
  unfold append
  split_ifs with hroom
  · have hset : (h.backing s).set s.len p =
        h.contents s ++ [p] ++ (h.backing s).drop (s.len + 1) := by
      rw [set_eq_take_append_cons_drop, if_pos hroom, append_assoc]
      rfl
    rw [hset]
    exact moves_setBacking hv ⟨s.array, s.len + 1⟩ rfl (by simp [hlen])
  · have hmoves := moves_newArray (h := h) (s := s) (h.contents s ++ [p]) (replicate room none)
    rwa [length_append, hlen, append_assoc] at hmoves

variable {i : ℕ}

theorem moves_setAt (hv : Valid h s) (hi : i < s.len) (p : Option ℕ) :
    ∃ h', h.setAt s i p = some h' ∧ Moves h s h' s ((h.contents s).set i p) := by
  have hlen := hv.length_contents
  refine ⟨_, if_pos hi, ?_⟩
  rw [h.backing_eq s, set_append_left _ _ (by omega)]
  exact moves_setBacking hv s rfl (by simp [hlen])

theorem moves_copyWithin (hv : Valid h s) {i j n : ℕ} (hi : i ≤ s.len) (hj : j ≤ s.len)
    (hn : min (s.len - i) (s.len - j) = n) :
    ∃ h', h.copyWithin s i j = some h' ∧ Moves h s h' s
      ((h.contents s).take i ++ ((h.contents s).drop j).take n ++ (h.contents s).drop (i + n)) := by
  have hlen := hv.length_contents
  refine ⟨_, if_pos ⟨hi, hj⟩, ?_⟩
  simp only [hn]
  have hback : (h.backing s).take i ++ ((h.backing s).drop j).take n ++
      (h.backing s).drop (i + n) =
      ((h.contents s).take i ++ ((h.contents s).drop j).take n ++ (h.contents s).drop (i + n)) ++
        (h.backing s).drop s.len := by
    conv_lhs => rw [h.backing_eq s]
    rw [take_append_of_le_length (by omega), drop_append_of_le_length (by omega),
      drop_append_of_le_length (by omega),
      take_append_of_le_length (by rw [length_drop]; omega)]
    simp only [append_assoc]
  rw [hback]
  exact moves_setBacking hv s rfl (by simp [hlen]; omega)

/-! ## What a slice holds -/

/-- The slice holds pointers to its own objects `xs`. -/
structure Owns (h : Heap α) (s : Slice) (ps : List ℕ) (xs : List α) : Prop where
  valid : Valid h s
  contents : h.contents s = ps.map some
  objects : ps.map (fun p => h.objects[p]?) = xs.map some
  nodup : ps.Nodup

/-- Nothing is changed but the slice with the pointers `ps`, which has become one with the
pointers `ps'`, and what it uses more is new. -/
structure Within (h : Heap α) (s : Slice) (ps : List ℕ) (h' : Heap α) (s' : Slice)
    (ps' : List ℕ) : Prop extends ArraysKept h s h' s' where
  objects_le : h.objects.length ≤ h'.objects.length
  objects : ∀ p < h.objects.length, p ∉ ps → h'.objects[p]? = h.objects[p]?
  pointers : ∀ p ∈ ps', p ∈ ps ∨ h.objects.length ≤ p

/-- The operation succeeds, its slice then holds `xs`, and nothing else is changed. -/
def Becomes (h : Heap α) (s : Slice) (ps : List ℕ) (r : Option (Heap α × Slice))
    (xs : List α) : Prop :=
  ∃ h' s' ps', r = some (h', s') ∧ Owns h' s' ps' xs ∧ Within h s ps h' s' ps'

variable {ps ps' ps'' : List ℕ} {xs xs' : List α}

theorem Within.trans (h₁ : Within h s ps h' s' ps') (h₂ : Within h' s' ps' h'' s'' ps'') :
    Within h s ps h'' s'' ps'' where
  toArraysKept := h₁.toArraysKept.trans h₂.toArraysKept
  objects_le := Nat.le_trans h₁.objects_le h₂.objects_le
  objects p hp hmem := by
    have hmem' : p ∉ ps' := by
      intro hmem'
      rcases h₁.pointers p hmem' with hold | _
      · exact hmem hold
      · omega
    rw [h₂.objects p (Nat.lt_of_lt_of_le hp h₁.objects_le) hmem', h₁.objects p hp hmem]
  pointers p hp := by
    rcases h₂.pointers p hp with hmem | hge
    · exact h₁.pointers p hmem
    · exact .inr (Nat.le_trans h₁.objects_le hge)

theorem becomes_refl (ho : Owns h s ps xs) : Becomes h s ps (some (h, s)) xs :=
  ⟨h, s, ps, rfl, ho, ⟨ArraysKept.refl, Nat.le_refl _, fun _ _ _ => rfl, fun _ hp => .inl hp⟩⟩

/-- One operation after the other. -/
theorem Becomes.bind {r : Option (Heap α × Slice)} {k : Heap α × Slice → Option (Heap α × Slice)}
    (h₁ : Becomes h s ps r xs)
    (h₂ : ∀ {h' s' ps'}, Owns h' s' ps' xs → Becomes h' s' ps' (k (h', s')) xs') :
    Becomes h s ps (r.bind k) xs' := by
  obtain ⟨_, _, _, rfl, howns, hwithin⟩ := h₁
  obtain ⟨h₂', s₂', ps₂', hk, howns', hwithin'⟩ := h₂ howns
  exact ⟨h₂', s₂', ps₂', hk, howns', hwithin.trans hwithin'⟩

theorem Moves.within {cs : List (Option ℕ)} (hm : Moves h s h' s' cs)
    (hps : ∀ p ∈ ps', p ∈ ps ∨ h.objects.length ≤ p) : Within h s ps h' s' ps' where
  toArraysKept := hm.toArraysKept
  objects_le := hm.objects.length_le
  objects p hp _ := by
    obtain ⟨_, hrest⟩ := hm.objects
    rw [← hrest, getElem?_append_left hp]
  pointers := hps

section

variable (ho : Owns h s ps xs)

include ho

theorem Owns.length : ps.length = xs.length := by
  have hlen := congrArg List.length ho.objects
  rwa [List.length_map, List.length_map] at hlen

theorem Owns.len_eq : s.len = xs.length := by
  rw [← ho.valid.length_contents, ho.contents, length_map, ho.length]

theorem Owns.lt_of_mem {p : ℕ} (hp : p ∈ ps) : p < h.objects.length := by
  have hmem : h.objects[p]? ∈ xs.map some := ho.objects ▸ mem_map_of_mem hp
  obtain ⟨x, -, hx⟩ := mem_map.1 hmem
  exact (List.getElem?_eq_some_iff.1 hx.symm).1

/-- The objects of the slice are still there. -/
theorem Owns.objects_of_prefix {objects : List α}
    (hpre : h.objects <+: objects) : ps.map (fun p => objects[p]?) = xs.map some := by
  obtain ⟨_, rfl⟩ := hpre
  rw [← ho.objects]
  exact map_congr_left fun p hp => getElem?_append_left (ho.lt_of_mem hp)

/-- The pointers from `i` to `j` make way for a new one. -/
theorem Owns.splice {i j q : ℕ} {a : α} (hij : i ≤ j)
    (hm : Moves h s h' s' ((ps.take i ++ q :: ps.drop j).map some))
    (hq : h.objects.length ≤ q) (ha : h'.objects[q]? = some a) :
    Owns h' s' (ps.take i ++ q :: ps.drop j) (xs.take i ++ a :: xs.drop j) ∧
      Within h s ps h' s' (ps.take i ++ q :: ps.drop j) := by
  have hsub : (ps.take i ++ ps.drop j).Sublist ps := by
    conv_rhs => rw [← take_append_drop i ps]
    exact (List.Sublist.refl _).append (drop_sublist_drop_left ps hij)
  refine ⟨⟨hm.valid, hm.contents, ?_, ?_⟩, hm.within fun p hp => ?_⟩
  · have hold := ho.objects_of_prefix hm.objects
    simp only [map_append, map_cons, map_take, map_drop, hold, ha]
  · rw [nodup_middle, nodup_cons]
    refine ⟨fun hmem => ?_, ho.nodup.sublist hsub⟩
    have hlt := ho.lt_of_mem (hsub.mem hmem)
    omega
  · simp only [mem_append, mem_cons] at hp
    rcases hp with hp | rfl | hp
    · exact .inl (mem_of_mem_take hp)
    · exact .inr hq
    · exact .inl (mem_of_mem_drop hp)

theorem Owns.load_eq (i : ℕ) : h.load s i = xs[i]? := by
  have hobj := congrArg (fun l => l[i]?) ho.objects
  simp only [getElem?_map] at hobj
  rw [load, pointer, ho.contents, getElem?_map]
  cases hp : ps[i]? <;> cases hx : xs[i]? <;> simp_all

/-- Writing an object changes that object only, since no two pointers are the same. -/
theorem Owns.objects_set {a : α} (hi : i < ps.length) :
    ps.map (fun p => (h.objects.set ps[i] a)[p]?) = (xs.set i a).map some := by
  refine ext_getElem? fun k => ?_
  have hobj := congrArg (fun l => l[k]?) ho.objects
  simp only [getElem?_map] at hobj ⊢
  by_cases hk : k = i
  · subst hk
    rw [getElem?_eq_getElem hi, getElem?_set_self (ho.length ▸ hi), map_some,
      getElem?_set_self (ho.lt_of_mem (getElem_mem hi)), map_some]
  · rw [getElem?_set_ne (Ne.symm hk), ← hobj]
    cases hp : ps[k]? with
    | none => rfl
    | some =>
      obtain ⟨_, rfl⟩ := List.getElem?_eq_some_iff.1 hp
      have hne : ps[i] ≠ ps[k] := fun heq => hk (ho.nodup.getElem_inj_iff.1 heq).symm
      rw [map_some, map_some, getElem?_set_ne hne]

end

/-! ## The operations -/

theorem Heap.getElem?_of_alloc (h : Heap α) (a : α) {objects : List α}
    (hpre : (h.alloc a).objects <+: objects) : objects[h.objects.length]? = some a := by
  obtain ⟨_, rfl⟩ := hpre
  simp [alloc]

/-- What shifting by one place and then writing does. -/
theorem shift_insert {β : Type*} (l : List β) (x y : β) (hi : i ≤ l.length) :
    ((l ++ [x]).take (i + 1) ++ ((l ++ [x]).drop i).take (l.length - i) ++
      (l ++ [x]).drop (i + 1 + (l.length - i))).set i y = l.take i ++ y :: l.drop i := by
  obtain ⟨A, B, rfl, rfl⟩ : ∃ A B, l = A ++ B ∧ A.length = i :=
    ⟨l.take i, l.drop i, (take_append_drop i l).symm, by simp [hi]⟩
  obtain ⟨c, hc⟩ : ∃ c, (B ++ [x]).take 1 = [c] := by
    cases B <;> simp
  have hfront : (A ++ B ++ [x]).take (A.length + 1) = A ++ [c] := by
    rw [append_assoc, take_length_add_append, hc]
  have hmiddle : ((A ++ B ++ [x]).drop A.length).take ((A ++ B).length - A.length) = B := by
    simp
  have hback : (A ++ B ++ [x]).drop (A.length + 1 + ((A ++ B).length - A.length)) = [] :=
    drop_of_length_le (by simp; omega)
  rw [hfront, hmiddle, hback]
  simp

theorem shift_remove {β : Type*} (l : List β) (x : β) (hi : i < l.length) :
    ((l.take i ++ (l.drop (i + 1)).take (l.length - i - 1) ++
      l.drop (i + (l.length - i - 1))).set (l.length - 1) x).take (l.length - 1) =
      l.eraseIdx i := by
  have hrest : (l.drop (i + 1)).take (l.length - i - 1) = l.drop (i + 1) :=
    take_of_length_le (by rw [length_drop]; omega)
  have hlen : (l.take i ++ l.drop (i + 1)).length = l.length - 1 := by
    rw [length_append, length_take, length_drop]
    omega
  rw [hrest, eraseIdx_eq_take_drop_succ, take_set_of_le (Nat.le_refl _), ← hlen, take_left]

theorem mapM_of_map {β γ : Type*} {f : β → Option γ} : ∀ {l : List β} {ys : List γ},
    l.map f = ys.map some → l.mapM f = some ys
  | [], [], _ => rfl
  | x :: l, y :: ys, heq => by
    rw [map_cons, map_cons, cons.injEq] at heq
    simp [heq.1, mapM_of_map heq.2]

theorem mem_zip_of_map {β γ : Type*} {f : β → Option γ} : ∀ {l : List β} {ys : List γ},
    l.map f = ys.map some → ∀ z ∈ l.zip ys, f z.1 = some z.2
  | [], [], _, z, hz => by simp at hz
  | x :: l, y :: ys, heq, z, hz => by
    rw [map_cons, map_cons, cons.injEq] at heq
    rcases mem_cons.1 hz with rfl | hz
    · exact heq.1
    · exact mem_zip_of_map heq.2 z hz

section Operations

variable (ho : Owns h s ps xs) (room : ℕ) {i : ℕ} (a : α)

include ho

theorem becomes_push : Becomes h s ps (some (h.push s room a)) (xs ++ [a]) := by
  have halloc := moves_alloc ho.valid a
  have happend := moves_append halloc.valid room (some h.objects.length)
  have hmoves := halloc.trans happend
  rw [halloc.contents, ho.contents] at hmoves
  obtain ⟨howns, hwithin⟩ := ho.splice (Nat.le_refl ps.length) (q := h.objects.length)
    (by simpa using hmoves) (Nat.le_refl _) (h.getElem?_of_alloc a happend.objects)
  have hxs : xs.take ps.length ++ a :: xs.drop ps.length = xs ++ [a] := by
    rw [ho.length, take_length, drop_length]
  exact ⟨_, _, _, rfl, hxs ▸ howns, hwithin⟩

theorem becomes_replaceAt (hi : i < xs.length) :
    Becomes h s ps ((h.replaceAt s i a).map (·, s)) (xs.set i a) := by
  have halloc := moves_alloc ho.valid a
  obtain ⟨h', hset, hmove⟩ := moves_setAt halloc.valid (ho.len_eq ▸ hi) (some h.objects.length)
  have hmoves := halloc.trans hmove
  rw [halloc.contents, ho.contents, ← map_set,
    set_eq_take_append_cons_drop, if_pos (ho.length ▸ hi)] at hmoves
  obtain ⟨howns, hwithin⟩ := ho.splice (Nat.le_add_right i 1) hmoves (Nat.le_refl _)
    (h.getElem?_of_alloc a hmove.objects)
  rw [set_eq_take_append_cons_drop, if_pos hi]
  exact ⟨h', s, _, by rw [replaceAt, hset, map_some], howns, hwithin⟩

theorem becomes_insertAt (hi : i ≤ xs.length) :
    Becomes h s ps (h.insertAt s room i a) (xs.take i ++ a :: xs.drop i) := by
  obtain ⟨⟨h₁, s₁⟩, hr⟩ : ∃ r, h.append s room none = r := ⟨_, rfl⟩
  have happend : Moves h s h₁ s₁ (ps.map some ++ [none]) := by
    have hmoves := moves_append ho.valid room none
    rwa [hr, ho.contents] at hmoves
  have hlen : s₁.len = ps.length + 1 := by
    rw [← happend.valid.length_contents, happend.contents, length_append, length_map]
    rfl
  have hps := ho.length
  obtain ⟨h₂, hcopy, hshift⟩ := moves_copyWithin happend.valid (i := i + 1) (j := i)
    (n := ps.length - i) (by omega) (by omega) (by omega)
  have halloc := moves_alloc hshift.valid a
  obtain ⟨h₃, hset, hwrite⟩ := moves_setAt halloc.valid (i := i) (by omega) (some h₂.objects.length)
  have hmoves := ((happend.trans hshift).trans halloc).trans hwrite
  have hcontents : ((h₂.alloc a).contents s₁).set i (some h₂.objects.length) =
      (ps.take i ++ h₂.objects.length :: ps.drop i).map some := by
    have hinsert := shift_insert (ps.map some) none (some h₂.objects.length) (i := i)
      (by rw [length_map]; omega)
    rw [length_map] at hinsert
    rw [halloc.contents, hshift.contents, happend.contents, hinsert]
    simp
  rw [hcontents] at hmoves
  have hfresh : h.objects.length ≤ h₂.objects.length := (happend.trans hshift).objects.length_le
  obtain ⟨howns, hwithin⟩ := ho.splice (Nat.le_refl i) hmoves hfresh
    (h₂.getElem?_of_alloc a hwrite.objects)
  refine ⟨h₃, s₁, _, ?_, howns, hwithin⟩
  simp [insertAt, hr, hcopy, replaceAt, hset]

theorem becomes_removeAt (hi : i < xs.length) :
    Becomes h s ps (h.removeAt s i) (xs.eraseIdx i) := by
  have hlen := ho.len_eq
  have hps := ho.length
  obtain ⟨_, hcopy, hshift⟩ := moves_copyWithin ho.valid (i := i) (j := i + 1)
    (n := ps.length - i - 1) (by omega) (by omega) (by omega)
  obtain ⟨h₂, hset, hwrite⟩ := moves_setAt hshift.valid (i := s.len - 1) (by omega) none
  have hmoves := (hshift.trans hwrite).trans (moves_reslice hwrite.valid (Nat.sub_le s.len 1))
  have hcontents : (h₂.contents s).take (s.len - 1) = (ps.eraseIdx i).map some := by
    have hremove := shift_remove (ps.map some) none (i := i) (by rw [length_map]; omega)
    rw [length_map, hps, ← hlen] at hremove
    rw [hwrite.contents, hshift.contents, ho.contents, hps, ← hlen, hremove, eraseIdx_map]
  rw [hcontents] at hmoves
  refine ⟨h₂, _, ps.eraseIdx i, ?_, ⟨hmoves.valid, hmoves.contents, ?_, ?_⟩, hmoves.within ?_⟩
  · simp [removeAt, hcopy, hset]
  · rw [← eraseIdx_map, ho.objects_of_prefix hmoves.objects, eraseIdx_map]
  · exact ho.nodup.sublist (eraseIdx_sublist _ _)
  · exact fun p hp => .inl (mem_of_mem_eraseIdx hp)

theorem becomes_store (hi : i < xs.length) :
    Becomes h s ps ((h.store s i a).map (·, s)) (xs.set i a) := by
  have hps : i < ps.length := ho.length ▸ hi
  have hpointer : h.pointer s i = some ps[i] := by
    rw [pointer, ho.contents, getElem?_map, getElem?_eq_getElem hps]
    rfl
  refine ⟨{ h with objects := h.objects.set ps[i] a }, s, ps, ?_, ?_, ?_⟩
  · simp [store, hpointer]
  · exact ⟨⟨ho.valid.array_lt, ho.valid.len_le⟩, ho.contents, ho.objects_set hps, ho.nodup⟩
  · exact ⟨⟨Nat.le_refl _, fun _ _ _ => rfl, .inl rfl⟩, by simp, fun p _ hp =>
      getElem?_set_ne fun heq : ps[i] = p => hp (heq ▸ getElem_mem hps),
      fun p hp => .inl hp⟩

theorem Owns.values_eq : h.values s = some xs := by
  rw [values, ho.contents]
  refine mapM_of_map ?_
  rw [map_map]
  exact ho.objects

theorem becomes_sortBy (le : α → α → Bool) :
    Becomes h s ps ((h.sortBy s le).map (·, s)) (xs.mergeSort le) := by
  have hlen := ho.length
  -- the pointers together with their objects, in the new order
  let zs := (ps.zip xs).mergeSort fun a b => le a.2 b.2
  have hperm : zs.Perm (ps.zip xs) := mergeSort_perm _ _
  have hps : (zs.map Prod.fst).Perm ps := by
    have hfst := hperm.map Prod.fst
    rwa [map_fst_zip (Nat.le_of_eq hlen)] at hfst
  have hxs : zs.map Prod.snd = xs.mergeSort le := by
    have hmap : zs.map Prod.snd = ((ps.zip xs).map Prod.snd).mergeSort le :=
      map_mergeSort fun _ _ _ _ => rfl
    rw [hmap, map_snd_zip (Nat.le_of_eq hlen.symm)]
  have hsorted : (((h.contents s).zip xs).mergeSort fun a b => le a.2 b.2).map Prod.fst =
      (zs.map Prod.fst).map some := by
    have hzip : (ps.map some).zip xs = (ps.zip xs).map fun z => (some z.1, z.2) := by
      rw [zip_map_left]
      rfl
    have hmap : zs.map (fun z => (some z.1, z.2)) =
        ((ps.zip xs).map fun z => (some z.1, z.2)).mergeSort fun a b => le a.2 b.2 :=
      map_mergeSort fun _ _ _ _ => rfl
    rw [ho.contents, hzip, ← hmap, map_map, map_map]
    rfl
  have hobjects : (zs.map Prod.fst).map (fun p => h.objects[p]?) = (zs.map Prod.snd).map some := by
    rw [map_map, map_map]
    exact map_congr_left fun z hz => mem_zip_of_map ho.objects z (hperm.mem_iff.1 hz)
  have hmoves : Moves h s (h.setBacking s ((zs.map Prod.fst).map some ++
      (h.backing s).drop s.len)) s ((zs.map Prod.fst).map some) :=
    moves_setBacking ho.valid s rfl (by
      rw [length_map, hps.length_eq, ho.length, ho.len_eq])
  refine ⟨_, s, zs.map Prod.fst, ?_, ⟨hmoves.valid, hmoves.contents, hxs ▸ hobjects, ?_⟩,
    hmoves.within ?_⟩
  · rw [← hsorted, sortBy, ho.values_eq]
    rfl
  · exact hps.nodup_iff.2 ho.nodup
  · exact fun p hp => .inl (hps.mem_iff.1 hp)

end Operations

/-! ## New slices -/

/-- Where no slice is yet. -/
def Heap.nowhere (h : Heap α) : Slice :=
  ⟨h.arrays.length, 0⟩

theorem becomes_make (h : Heap α) (cap : ℕ) : Becomes h h.nowhere [] (some (h.make 0 cap)) [] := by
  have hmoves := moves_newArray (h := h) (s := h.nowhere) [] (replicate cap none)
  exact ⟨_, _, [], rfl, ⟨hmoves.valid, hmoves.contents, rfl, nodup_nil⟩,
    hmoves.within fun p hp => absurd hp not_mem_nil⟩

section

variable {t t' : Slice} {qs qs' : List ℕ} (ho : Owns h s ps xs) (hw : Within h t qs h' t' qs')

include ho hw

/-- A slice is not changed by what is done to another. -/
theorem Owns.frame (hne : s.array ≠ t.array) (hdis : ps.Disjoint qs) : Owns h' s ps xs := by
  have harray := hw.arrays s.array ho.valid.array_lt hne
  have hback : h'.backing s = h.backing s := by
    rw [backing, harray, backing]
  refine ⟨⟨Nat.lt_of_lt_of_le ho.valid.array_lt hw.arrays_le, hback ▸ ho.valid.len_le⟩, ?_, ?_,
    ho.nodup⟩
  · rw [Heap.contents, hback]
    exact ho.contents
  · rw [← ho.objects]
    exact map_congr_left fun p hp => hw.objects p (ho.lt_of_mem hp) (hdis hp)

theorem Owns.disjoint_of_within (hdis : ps.Disjoint qs) : ps.Disjoint qs' := by
  intro p hp hp'
  rcases hw.pointers p hp' with hmem | _
  · exact hdis hp hmem
  · have hlt := ho.lt_of_mem hp
    omega

theorem Owns.array_ne_of_within (hne : s.array ≠ t.array) : s.array ≠ t'.array := by
  rcases hw.array with heq | _
  · rwa [heq]
  · have hlt := ho.valid.array_lt
    omega

end

/-- Within the array, setting the next element is appending. -/
theorem replaceAt_eq_push {dst : Slice} (a : α) (hi : i < dst.len)
    (hlen : dst.len ≤ (h.backing dst).length) :
    h.replaceAt dst i a = some (h.push ⟨dst.array, i⟩ 0 a).1 ∧
      (h.push ⟨dst.array, i⟩ 0 a).2 = ⟨dst.array, i + 1⟩ ∧
      ((h.push ⟨dst.array, i⟩ 0 a).1.backing dst).length = (h.backing dst).length := by
  have hroom : i < ((h.alloc a).backing ⟨dst.array, i⟩).length := Nat.lt_of_lt_of_le hi hlen
  have hpush : h.push ⟨dst.array, i⟩ 0 a = ((h.alloc a).setBacking ⟨dst.array, i⟩
      (((h.alloc a).backing ⟨dst.array, i⟩).set i (some h.objects.length)), ⟨dst.array, i + 1⟩) :=
    if_pos hroom
  rw [hpush]
  refine ⟨if_pos hi, rfl, ?_⟩
  have harray : dst.array < h.arrays.length := by
    by_contra hge
    rw [backing, getElem?_eq_none (Nat.le_of_not_lt hge)] at hlen
    simp only [getD_none, length_nil] at hlen
    omega
  simp [backing, setBacking, alloc, harray]

/-- The loop fills the new slice with the objects of the other one from the index `i` on. -/
theorem becomes_copyFrom {dst : Slice} : ∀ (n : ℕ) {h : Heap α} {i : ℕ} {qs : List ℕ},
    Owns h s ps xs → Owns h ⟨dst.array, i⟩ qs (xs.take i) → s.array ≠ dst.array →
    ps.Disjoint qs → i + n = xs.length → dst.len = xs.length →
    dst.len ≤ (h.backing dst).length →
    Becomes h ⟨dst.array, i⟩ qs ((copyFrom s dst h i n).map (·, dst)) xs
  | 0, h, i, qs, _, hdst, _, _, hn, hlen, _ => by
    obtain rfl : i = dst.len := by omega
    rw [take_of_length_le (Nat.le_of_eq hlen.symm)] at hdst
    exact becomes_refl hdst
  | n + 1, h, i, qs, hsrc, hdst, hne, hdis, hn, hlen, hcap => by
    have hi : i < xs.length := by omega
    obtain ⟨hset, hnext, hback⟩ := replaceAt_eq_push (xs[i]) (hlen ▸ hi) hcap
    obtain ⟨h', s', _, hpush, howns, hwithin⟩ := becomes_push hdst 0 (xs[i])
    obtain ⟨rfl, rfl⟩ : h' = (h.push ⟨dst.array, i⟩ 0 xs[i]).1 ∧
        s' = ⟨dst.array, i + 1⟩ := by
      rw [some.injEq] at hpush
      rw [hpush] at hnext ⊢
      exact ⟨rfl, hnext⟩
    rw [← take_succ_eq_append_getElem hi] at howns
    have hrest := becomes_copyFrom n (hsrc.frame hwithin hne hdis) howns hne
      (hsrc.disjoint_of_within hwithin hdis) (by omega) hlen (hback ▸ hcap)
    obtain ⟨h'', s'', qs'', hr, howns', hwithin'⟩ := hrest
    refine ⟨h'', s'', qs'', ?_, howns', hwithin.trans hwithin'⟩
    rw [copyFrom, hsrc.load_eq, getElem?_eq_getElem hi]
    simpa [hset] using hr

theorem becomes_deepCopy (ho : Owns h s ps xs) : Becomes h h.nowhere [] (h.deepCopy s) xs := by
  have hmoves := moves_newArray (h := h) (s := h.nowhere) [] (replicate s.len none)
  have hwithin : Within h h.nowhere [] (h.make s.len s.len).1 h.nowhere [] :=
    hmoves.within fun p hp => absurd hp not_mem_nil
  have hne : s.array ≠ h.nowhere.array := Nat.ne_of_lt ho.valid.array_lt
  have hback : (h.make s.len s.len).1.backing (h.make s.len s.len).2 =
      replicate s.len none := by
    simp [backing, make]
  have hdst : Owns (h.make s.len s.len).1 ⟨(h.make s.len s.len).2.array, 0⟩ [] (xs.take 0) :=
    ⟨hmoves.valid, hmoves.contents, rfl, nodup_nil⟩
  have hcap : (h.make s.len s.len).2.len ≤
      ((h.make s.len s.len).1.backing (h.make s.len s.len).2).length := by
    rw [hback, length_replicate]
    exact Nat.le_refl _
  obtain ⟨h', s', ps', hr, howns, hwithin'⟩ := becomes_copyFrom s.len
    (ho.frame hwithin hne (disjoint_nil_right ps)) hdst hne (disjoint_nil_right ps)
    (by rw [Nat.zero_add, ho.len_eq]) ho.len_eq hcap
  exact ⟨h', s', ps', hr, howns, hwithin.trans hwithin'⟩

end Slices
