import Mathlib

/-!
# Lists with keys

A list of entries with a key and a value each, and the map it stands for : `lookup` takes the
first entry of a key, `collect` writes the entries into a map one after the other. Where keys
do not repeat the two agree and the order of the entries does not matter.

`upsert` changes the value of a key, or adds the key, in a list of pairs, and `writeAll` writes the
pairs of a list in this way.
-/

set_option linter.unusedSectionVars false

open List Function

namespace KeyedLists

variable {α κ β : Type*} [BEq κ] [LawfulBEq κ] [DecidableEq κ] (keyOf : α → κ) (valueOf : α → β)

/-- The value of the first entry with the key. -/
def lookup (l : List α) (key : κ) : Option β :=
  (l.find? fun x => keyOf x == key).map valueOf

/-- The map with the entries. -/
def collect (l : List α) : κ → Option β :=
  l.foldl (fun map x => update map (keyOf x) (some (valueOf x))) fun _ => none

variable {keyOf valueOf}

@[simp] theorem lookup_nil (key : κ) : lookup keyOf valueOf [] key = none :=
  rfl

theorem lookup_cons (x : α) (l : List α) (key : κ) :
    lookup keyOf valueOf (x :: l) key =
      if key = keyOf x then some (valueOf x) else lookup keyOf valueOf l key := by
  by_cases h : key = keyOf x
  · simp [lookup, h]
  · simp [lookup, h, Ne.symm h]

theorem isSome_lookup (l : List α) (key : κ) :
    (lookup keyOf valueOf l key).isSome = l.any fun x => keyOf x == key := by
  rw [lookup, Option.isSome_map, isSome_find?]

variable {key : κ}

theorem lookup_eq_none_iff {l : List α} :
    lookup keyOf valueOf l key = none ↔ key ∉ l.map keyOf := by
  rw [lookup, Option.map_eq_none_iff, find?_eq_none, mem_map]
  constructor
  · rintro h ⟨x, hx, rfl⟩
    exact h x hx (beq_self_eq_true _)
  · intro h x hx heq
    exact h ⟨x, hx, eq_of_beq heq⟩

/-- Writing the entries in order gives the last of each key, which is the only one. -/
theorem foldl_update_eq : ∀ {l : List α}, (l.map keyOf).Nodup → ∀ (map : κ → Option β) (key : κ),
    l.foldl (fun map x => update map (keyOf x) (some (valueOf x))) map key =
      (lookup keyOf valueOf l key).or (map key)
  | [], _, map, key => rfl
  | x :: l, h, map, key => by
    rw [map_cons, nodup_cons] at h
    rw [foldl_cons, foldl_update_eq h.2, lookup_cons]
    by_cases hkey : key = keyOf x
    · have hnone : lookup keyOf valueOf l key = none := lookup_eq_none_iff.2 (hkey ▸ h.1)
      rw [hnone, if_pos hkey, hkey, update_self]
      rfl
    · rw [if_neg hkey, update_of_ne hkey]

theorem collect_eq_lookup {l : List α} (h : (l.map keyOf).Nodup) :
    collect keyOf valueOf l = lookup keyOf valueOf l := by
  funext key
  rw [collect, foldl_update_eq h, Option.or_none]

variable {v : β}

theorem lookup_eq_some_iff {l : List α} (h : (l.map keyOf).Nodup) :
    lookup keyOf valueOf l key = some v ↔ ∃ x ∈ l, keyOf x = key ∧ valueOf x = v := by
  induction l with
  | nil => simp
  | cons x l ih =>
    rw [map_cons, nodup_cons] at h
    rw [lookup_cons, exists_mem_cons_iff]
    split_ifs with hkey
    · have hrest : ¬∃ y ∈ l, keyOf y = key ∧ valueOf y = v := by
        rintro ⟨y, hy, hyk, -⟩
        exact h.1 (mem_map.2 ⟨y, hy, hyk.trans hkey⟩)
      rw [or_iff_left hrest, Option.some.injEq]
      exact (and_iff_right hkey.symm).symm
    · rw [ih h.2]
      simp [Ne.symm hkey]

/-- The order of the entries does not matter. -/
theorem lookup_perm {l l' : List α} (hperm : l.Perm l') (h : (l.map keyOf).Nodup) :
    lookup keyOf valueOf l = lookup keyOf valueOf l' := by
  funext key
  refine Option.ext fun v => ?_
  rw [lookup_eq_some_iff h, lookup_eq_some_iff ((hperm.map keyOf).nodup_iff.1 h)]
  simp only [hperm.mem_iff]

/-- Without the entries of a key. -/
theorem lookup_filter_ne (l : List α) (key : κ) :
    lookup keyOf valueOf (l.filter fun x => keyOf x != key) =
      update (lookup keyOf valueOf l) key none := by
  funext k
  rw [lookup, find?_filter]
  by_cases hk : k = key
  · have hnone : (l.find? fun x => decide ((keyOf x != key) = true ∧ (keyOf x == k) = true)) =
        none := by
      rw [find?_eq_none]
      simp [hk]
    rw [hnone, hk, update_self]
    rfl
  · have hsame : (fun x => decide ((keyOf x != key) = true ∧ (keyOf x == k) = true)) =
        fun x => keyOf x == k := by
      funext x
      by_cases hx : keyOf x = k <;> simp [hx, hk]
    rw [hsame, update_of_ne hk]
    rfl

/-! ## Changing the value of a key -/

/-- The value of the key is changed, or the key is added at the end. -/
def upsert (key : κ) (f : Option β → β) : List (κ × β) → List (κ × β)
  | [] => [(key, f none)]
  | e :: l => if e.1 = key then (key, f (some e.2)) :: l else e :: upsert key f l

/-- The value of a key in a list of pairs. -/
def get (l : List (κ × β)) (key : κ) : Option β :=
  lookup Prod.fst Prod.snd l key

@[simp] theorem get_nil (key : κ) : get ([] : List (κ × β)) key = none :=
  rfl

theorem get_cons (e : κ × β) (l : List (κ × β)) (key : κ) :
    get (e :: l) key = if key = e.1 then some e.2 else get l key :=
  lookup_cons e l key

/-- The entries as pairs. -/
theorem get_map_pair (l : List α) (key : κ) :
    get (l.map fun x => (keyOf x, valueOf x)) key = lookup keyOf valueOf l key := by
  induction l with
  | nil => rfl
  | cons x l ih => rw [map_cons, get_cons, lookup_cons, ih]

/-- A map given by its keys. -/
theorem get_map_key (f : κ → β) (keys : List κ) (key : κ) :
    get (keys.map fun k => (k, f k)) key = if key ∈ keys then some (f key) else none := by
  induction keys with
  | nil => rfl
  | cons k keys ih =>
    rw [map_cons, get_cons, ih]
    by_cases hk : key = k
    · simp [hk]
    · simp [hk]

theorem get_upsert (key : κ) (f : Option β → β) (k : κ) : ∀ l : List (κ × β),
    get (upsert key f l) k = if k = key then some (f (get l key)) else get l k
  | [] => by simp [upsert, get_cons]
  | e :: l => by
    rw [upsert]
    by_cases he : e.1 = key
    · rw [if_pos he, get_cons, get_cons, get_cons]
      by_cases hk : k = key <;> simp [he, hk]
    · rw [if_neg he, get_cons, get_upsert key f k l, get_cons, get_cons]
      by_cases hk : k = key
      · simp [hk, Ne.symm he]
      · simp [hk]

theorem get_filter_ne (l : List (κ × β)) (key k : κ) :
    get (l.filter fun e => e.1 != key) k = if k = key then none else get l k := by
  rw [get, lookup_filter_ne]
  split_ifs with h
  · rw [h, update_self]
  · rw [update_of_ne h, get]

/-- A new key comes last. -/
theorem upsert_of_get_none (f : Option β → β) : ∀ {l : List (κ × β)},
    get l key = none → upsert key f l = l ++ [(key, f none)]
  | [], _ => rfl
  | e :: l, h => by
    rw [get_cons] at h
    split_ifs at h with hkey
    rw [upsert, if_neg (Ne.symm hkey), upsert_of_get_none f h, cons_append]

theorem map_fst_upsert (key : κ) (f : Option β → β) : ∀ l : List (κ × β),
    (upsert key f l).map Prod.fst =
      if key ∈ l.map Prod.fst then l.map Prod.fst else l.map Prod.fst ++ [key]
  | [] => rfl
  | e :: l => by
    rw [upsert]
    by_cases he : e.1 = key
    · simp [he]
    · simp only [he, if_false, map_cons, map_fst_upsert key f l, mem_cons,
        Ne.symm he, false_or]
      split_ifs <;> rfl

variable {l : List (κ × β)} {f : Option β → β}

theorem nodup_upsert (h : (l.map Prod.fst).Nodup) : ((upsert key f l).map Prod.fst).Nodup := by
  rw [map_fst_upsert]
  split_ifs with hmem
  · exact h
  · exact h.append (nodup_singleton key) (by simpa using hmem)

/-- An entry that is written twice has the second value. -/
theorem upsert_const_upsert (key : κ) (v : β) (f : Option β → β) : ∀ l : List (κ × β),
    upsert key (fun _ => v) (upsert key f l) = upsert key (fun _ => v) l
  | [] => by simp [upsert]
  | e :: l => by
    by_cases h : e.1 = key
    · simp [upsert, h]
    · simp [upsert, h, upsert_const_upsert key v f l]

/-- An entry that is there can be written before or after another one. -/
theorem upsert_comm_of_mem {key key' : κ} (hne : key ≠ key') (f g : Option β → β) :
    ∀ {l : List (κ × β)}, key ∈ l.map Prod.fst →
      upsert key f (upsert key' g l) = upsert key' g (upsert key f l)
  | e :: l, hmem => by
    by_cases h : e.1 = key
    · simp [upsert, h, hne]
    · have hrest : key ∈ l.map Prod.fst :=
        (mem_cons.1 hmem).resolve_left fun heq => h heq.symm
      by_cases h' : e.1 = key'
      · simp [upsert, h', Ne.symm hne]
      · simp [upsert, h, h', upsert_comm_of_mem hne f g hrest]

theorem get_eq_some_iff (h : (l.map Prod.fst).Nodup) : get l key = some v ↔ (key, v) ∈ l := by
  rw [get, lookup_eq_some_iff h]
  constructor
  · rintro ⟨e, he, rfl, rfl⟩
    exact he
  · exact fun he => ⟨_, he, rfl, rfl⟩

/-- Two lists with the same values have the same entries. -/
theorem perm_of_get_eq {l l' : List (κ × β)} (h : (l.map Prod.fst).Nodup)
    (h' : (l'.map Prod.fst).Nodup) (hget : ∀ key, get l key = get l' key) : l.Perm l' := by
  refine (perm_ext_iff_of_nodup h.of_map h'.of_map).2 fun e => ?_
  rw [← get_eq_some_iff h, ← get_eq_some_iff h', hget]

/-- The entries after an entry was written. -/
theorem mem_upsert_iff (h : (l.map Prod.fst).Nodup) {e : κ × β} :
    e ∈ upsert key f l ↔ e = (key, f (get l key)) ∨ e ∈ l ∧ e.1 ≠ key := by
  rw [← get_eq_some_iff (nodup_upsert h), get_upsert, ← get_eq_some_iff h]
  split_ifs with hkey
  · simp [hkey, Prod.ext_iff, eq_comm]
  · simp [hkey, Prod.ext_iff]

theorem mem_of_get (h : get l key = some v) : (key, v) ∈ l := by
  induction l with
  | nil => cases h
  | cons e l ih =>
    rw [get_cons] at h
    split_ifs at h with hkey
    · cases h
      rw [hkey]
      exact mem_cons_self
    · exact mem_cons_of_mem e (ih h)

theorem isSome_get : (get l key).isSome ↔ key ∈ l.map Prod.fst := by
  rw [get, isSome_lookup, any_eq_true, mem_map]
  simp only [beq_iff_eq]

/-- A symmetric relation in a list without repetitions. -/
theorem pairwise_iff_of_nodup {R : α → α → Prop} (hsymm : ∀ a b, R a b → R b a) {l : List α}
    (hl : l.Nodup) : l.Pairwise R ↔ ∀ a ∈ l, ∀ b ∈ l, a ≠ b → R a b := by
  have : Std.Symm R := ⟨hsymm⟩
  exact ⟨fun h _ ha _ hb hne => h.forall ha hb hne, fun h => hl.pairwise_of_forall_ne h⟩

/-- The list with the entries, written one after the other. -/
def writeAll (l : List (κ × β)) : List (κ × β) :=
  l.foldl (fun map e => upsert e.1 (fun _ => e.2) map) []

theorem writeAll_concat (l : List (κ × β)) (e : κ × β) :
    writeAll (l ++ [e]) = upsert e.1 (fun _ => e.2) (writeAll l) :=
  foldl_append

theorem nodup_writeAll (l : List (κ × β)) : ((writeAll l).map Prod.fst).Nodup := by
  induction l using reverseRecOn with
  | nil => exact nodup_nil
  | append_singleton l e ih =>
    rw [writeAll_concat]
    exact nodup_upsert ih

/-- What is found was written. -/
theorem mem_of_get_writeAll (h : get (writeAll l) key = some v) : (key, v) ∈ l := by
  induction l using reverseRecOn with
  | nil => cases h
  | append_singleton l e ih =>
    rw [writeAll_concat, get_upsert] at h
    split_ifs at h with hkey
    · cases h
      rw [hkey]
      simp
    · exact mem_append_left _ (ih h)

/-- What is written later wins. -/
theorem get_writeAll_append (l l' : List (κ × β)) (key : κ) :
    get (writeAll (l ++ l')) key = (get (writeAll l') key).or (get (writeAll l) key) := by
  induction l' using reverseRecOn with
  | nil =>
    rw [append_nil]
    rfl
  | append_singleton l' e ih =>
    rw [← append_assoc, writeAll_concat, writeAll_concat, get_upsert, get_upsert]
    split_ifs with h
    · rfl
    · exact ih

theorem isSome_get_writeAll {e : κ × β} (h : e ∈ l) : ∃ v, get (writeAll l) e.1 = some v := by
  induction l using reverseRecOn with
  | nil => cases h
  | append_singleton l e' ih =>
    rw [writeAll_concat, get_upsert]
    by_cases hkey : e.1 = e'.1
    · exact ⟨e'.2, if_pos hkey⟩
    · rw [if_neg hkey]
      refine ih ((mem_append.1 h).resolve_right fun he => hkey ?_)
      rw [mem_singleton.1 he]

/-- Everything that was written is there, if and only if no key was written with two values. -/
theorem mem_writeAll_iff (l : List (κ × β)) :
    (∀ e, e ∈ writeAll l ↔ e ∈ l) ↔ ∀ e ∈ l, ∀ e' ∈ l, e.1 = e'.1 → e.2 = e'.2 := by
  have hget : ∀ {key : κ} {v : β}, get (writeAll l) key = some v ↔ (key, v) ∈ writeAll l :=
    get_eq_some_iff (nodup_writeAll l)
  constructor
  · intro h e he e' he' hkey
    have h₁ := hget.2 ((h e).2 he)
    have h₂ := hget.2 ((h e').2 he')
    rw [hkey] at h₁
    exact Option.some.inj (h₁.symm.trans h₂)
  · intro h e
    constructor
    · exact fun he => mem_of_get_writeAll (hget.2 he)
    · intro he
      obtain ⟨v, hv⟩ := isSome_get_writeAll he
      have hvalue : e.2 = v := h e he (e.1, v) (mem_of_get_writeAll hv) rfl
      rw [hget, ← hvalue] at hv
      exact hv

end KeyedLists
