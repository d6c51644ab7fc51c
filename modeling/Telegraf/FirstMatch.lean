import Mathlib.Data.List.Induction
import Mathlib.Data.List.Perm.Basic

/-!
# Clusters by first match

Items with keys are put into clusters one after the other : an item joins the first cluster whose
key its own key matches, or begins a new one with its key at the end of the list. Matching need not
be symmetric or transitive.

Every item is in one cluster (`items_clusters`), the key of a cluster is that of one of its items,
and the keys of all its items match it (`exists_key_eq`, `matches_of_mem`). No key of a cluster
matches that of an earlier one (`pairwise_clusters`). The clusters of the first items stay in front
(`exists_extends`) : a later item that matches one of them is put together with one of the first
items (`exists_shared`), and a cluster that is new matches none of them (`key_cases`).
-/

open List

namespace FirstMatch

variable {ι τ : Type*}

/-- A cluster with its key. -/
structure Cluster (ι τ : Type*) where
  key : τ
  items : List ι

variable (key : ι → τ) (R : τ → τ → Bool)

/-- An item joins the first cluster that it matches. -/
def insert : List (Cluster ι τ) → ι → List (Cluster ι τ)
  | [], x => [⟨key x, [x]⟩]
  | c :: cs, x => if R (key x) c.key then ⟨c.key, c.items ++ [x]⟩ :: cs else c :: insert cs x

/-- The clusters of a list. -/
def clusters (xs : List ι) : List (Cluster ι τ) :=
  xs.foldl (insert key R) []

variable {key R} {cs : List (Cluster ι τ)} {xs : List ι} {x : ι}

theorem clusters_concat (xs : List ι) (x : ι) :
    clusters key R (xs ++ [x]) = insert key R (clusters key R xs) x :=
  foldl_append

/-! ## Items and keys -/

theorem items_insert (key : ι → τ) (R : τ → τ → Bool) (x : ι) : ∀ cs : List (Cluster ι τ),
    ((insert key R cs x).flatMap Cluster.items).Perm (cs.flatMap Cluster.items ++ [x])
  | [] => List.Perm.refl _
  | c :: cs => by
    rw [insert]
    split_ifs with hmatch
    · rw [flatMap_cons, flatMap_cons, append_assoc, append_assoc]
      exact perm_append_comm.append_left _
    · rw [flatMap_cons, flatMap_cons, append_assoc]
      exact (items_insert key R x cs).append_left _

/-- Every item is put into one cluster. -/
theorem items_clusters (xs : List ι) : ((clusters key R xs).flatMap Cluster.items).Perm xs := by
  induction xs using reverseRecOn with
  | nil => exact List.Perm.refl _
  | append_singleton xs x ih =>
    rw [clusters_concat]
    exact (items_insert key R x _).trans (ih.append_right _)

variable {c : Cluster ι τ}

theorem mem_of_mem_items (hc : c ∈ clusters key R xs) (hx : x ∈ c.items) : x ∈ xs :=
  (items_clusters xs).subset (mem_flatMap.2 ⟨c, hc, hx⟩)

theorem exists_cluster (key : ι → τ) (R : τ → τ → Bool) (hx : x ∈ xs) :
    ∃ c ∈ clusters key R xs, x ∈ c.items :=
  mem_flatMap.1 ((items_clusters xs).symm.subset hx)

/-- A cluster after an insertion : it is a new one, has got the item, or was there before. -/
theorem mem_insert_cases : ∀ {cs : List (Cluster ι τ)}, c ∈ insert key R cs x →
    c = ⟨key x, [x]⟩ ∨ (∃ c₀ ∈ cs, R (key x) c₀.key ∧ c = ⟨c₀.key, c₀.items ++ [x]⟩) ∨ c ∈ cs
  | [], h => .inl (List.mem_singleton.1 h)
  | c₀ :: cs, h => by
    rw [insert] at h
    split_ifs at h with hmatch
    · rcases mem_cons.1 h with rfl | h
      · exact .inr (.inl ⟨c₀, mem_cons_self, hmatch, rfl⟩)
      · exact .inr (.inr (mem_cons_of_mem _ h))
    · rcases mem_cons.1 h with rfl | h
      · exact .inr (.inr mem_cons_self)
      · rcases mem_insert_cases h with heq | ⟨c₁, hc₁, hx, heq⟩ | h
        · exact .inl heq
        · exact .inr (.inl ⟨c₁, mem_cons_of_mem _ hc₁, hx, heq⟩)
        · exact .inr (.inr (mem_cons_of_mem _ h))

/-- A cluster has its items in their order. -/
theorem items_sublist (hc : c ∈ clusters key R xs) : c.items.Sublist xs := by
  induction xs using reverseRecOn generalizing c with
  | nil => cases hc
  | append_singleton xs x ih =>
    rw [clusters_concat] at hc
    rcases mem_insert_cases hc with rfl | ⟨_, hc₀, -, rfl⟩ | hc
    · exact sublist_append_right xs [x]
    · exact (ih hc₀).append (List.Sublist.refl [x])
    · exact (ih hc).trans (sublist_append_left xs [x])

/-- The key of a cluster is that of an item of it. -/
theorem exists_key_eq (hc : c ∈ clusters key R xs) : ∃ x ∈ c.items, key x = c.key := by
  induction xs using reverseRecOn generalizing c with
  | nil => cases hc
  | append_singleton xs x ih =>
    rw [clusters_concat] at hc
    rcases mem_insert_cases hc with rfl | ⟨_, hc₀, -, rfl⟩ | hc
    · exact ⟨x, mem_singleton_self x, rfl⟩
    · obtain ⟨y, hy, hkey⟩ := ih hc₀
      exact ⟨y, mem_append_left _ hy, hkey⟩
    · exact ih hc

/-- The keys of the items of a cluster match its key. -/
theorem matches_of_mem (hrefl : ∀ x ∈ xs, R (key x) (key x))
    (hc : c ∈ clusters key R xs) : ∀ x ∈ c.items, R (key x) c.key := by
  induction xs using reverseRecOn generalizing c with
  | nil => cases hc
  | append_singleton xs x ih =>
    have hxs : ∀ y ∈ xs, R (key y) (key y) := fun y hy => hrefl y (mem_append_left _ hy)
    rw [clusters_concat] at hc
    rcases mem_insert_cases hc with rfl | ⟨_, hc₀, hx, rfl⟩ | hc
    · intro y hy
      rw [mem_singleton.1 hy]
      exact hrefl x (by simp)
    · intro y hy
      rcases mem_append.1 hy with hy | hy
      · exact ih hxs hc₀ y hy
      · rw [mem_singleton.1 hy]
        exact hx
    · exact ih hxs hc

theorem pairwise_insert : ∀ {cs : List (Cluster ι τ)},
    cs.Pairwise (fun c c' => R c'.key c.key = false) →
      (insert key R cs x).Pairwise fun c c' => R c'.key c.key = false
  | [], _ => List.pairwise_singleton _ _
  | c :: cs, h => by
    obtain ⟨hc, hcs⟩ := pairwise_cons.1 h
    rw [insert]
    split_ifs with hmatch
    · exact pairwise_cons.2 ⟨hc, hcs⟩
    · refine pairwise_cons.2 ⟨fun c' hc' => ?_, pairwise_insert hcs⟩
      rcases mem_insert_cases hc' with rfl | ⟨c₀, hc₀, -, rfl⟩ | hc'
      · simpa using hmatch
      · exact hc c₀ hc₀
      · exact hc c' hc'

/-- The key of a cluster matches that of no earlier one. -/
theorem pairwise_clusters (key : ι → τ) (R : τ → τ → Bool) (xs : List ι) :
    (clusters key R xs).Pairwise fun c c' => R c'.key c.key = false := by
  induction xs using reverseRecOn with
  | nil => exact List.Pairwise.nil
  | append_singleton xs x ih =>
    rw [clusters_concat]
    exact pairwise_insert ih

/-! ## Clusters of earlier items -/

/-- A cluster keeps its key and its items. -/
theorem exists_mem_insert (key : ι → τ) (R : τ → τ → Bool) (x : ι) :
    ∀ {cs : List (Cluster ι τ)}, c ∈ cs →
    ∃ c' ∈ insert key R cs x, c'.key = c.key ∧ c.items ⊆ c'.items
  | c₀ :: cs, h => by
    rw [insert]
    split_ifs with hmatch
    · rcases mem_cons.1 h with rfl | h
      · exact ⟨_, mem_cons_self, rfl, subset_append_left _ _⟩
      · exact ⟨c, mem_cons_of_mem _ h, rfl, List.Subset.refl _⟩
    · rcases mem_cons.1 h with rfl | h
      · exact ⟨c, mem_cons_self, rfl, List.Subset.refl _⟩
      · obtain ⟨c', hc', hrel⟩ := exists_mem_insert key R x h
        exact ⟨c', mem_cons_of_mem _ hc', hrel⟩

/-- With a match in front the clusters behind are not looked at. -/
theorem insert_append (back : List (Cluster ι τ)) : ∀ {front : List (Cluster ι τ)},
    (∃ c ∈ front, R (key x) c.key) →
      insert key R (front ++ back) x = insert key R front x ++ back
  | [], hmatch => absurd hmatch (by simp)
  | c :: front, hmatch => by
    rw [cons_append, insert, insert]
    split_ifs with hx
    · rfl
    · obtain ⟨d, hd, hmatch⟩ := hmatch
      rcases mem_cons.1 hd with rfl | hd
      · exact absurd hmatch hx
      · rw [insert_append back ⟨d, hd, hmatch⟩, cons_append]

theorem insert_append_of_not (back : List (Cluster ι τ)) : ∀ {front : List (Cluster ι τ)},
    (¬∃ c ∈ front, R (key x) c.key) →
      insert key R (front ++ back) x = front ++ insert key R back x
  | [], _ => rfl
  | c :: front, hmatch => by
    have hx : ¬R (key x) c.key := fun hx => hmatch ⟨c, mem_cons_self, hx⟩
    rw [cons_append, insert, if_neg hx, cons_append,
      insert_append_of_not back fun ⟨d, hd, hd'⟩ => hmatch ⟨d, mem_cons_of_mem _ hd, hd'⟩]

/-- With a match no cluster is new. -/
theorem exists_before : ∀ {cs : List (Cluster ι τ)},
    (∃ c ∈ cs, R (key x) c.key) → c ∈ insert key R cs x →
      ∃ c₀ ∈ cs, c₀.key = c.key ∧ c₀.items ⊆ c.items
  | [], hmatch, _ => absurd hmatch (by simp)
  | c₀ :: cs, hmatch, h => by
    rw [insert] at h
    split_ifs at h with hx
    · rcases mem_cons.1 h with rfl | h
      · exact ⟨c₀, mem_cons_self, rfl, subset_append_left _ _⟩
      · exact ⟨c, mem_cons_of_mem _ h, rfl, List.Subset.refl _⟩
    · rcases mem_cons.1 h with rfl | h
      · exact ⟨c, mem_cons_self, rfl, List.Subset.refl _⟩
      · obtain ⟨d, hd, hmatch⟩ := hmatch
        rcases mem_cons.1 hd with rfl | hd
        · exact absurd hmatch hx
        · obtain ⟨c₁, hc₁, hrel⟩ := exists_before ⟨d, hd, hmatch⟩ h
          exact ⟨c₁, mem_cons_of_mem _ hc₁, hrel⟩

/-- The first clusters are those of `xs`, which may have got further items. -/
def Extends (key : ι → τ) (R : τ → τ → Bool) (xs : List ι) (front : List (Cluster ι τ)) : Prop :=
  (∀ c ∈ front, ∃ c₀ ∈ clusters key R xs, c₀.key = c.key ∧ c₀.items ⊆ c.items) ∧
    ∀ c₀ ∈ clusters key R xs, ∃ c ∈ front, c.key = c₀.key

theorem Extends.insert {front : List (Cluster ι τ)} (h : Extends key R xs front)
    (hmatch : ∃ c ∈ front, R (key x) c.key) : Extends key R xs (insert key R front x) := by
  refine ⟨fun c hc => ?_, fun c₀ hc₀ => ?_⟩
  · obtain ⟨c₁, hc₁, hkey₁, hsub₁⟩ := exists_before hmatch hc
    obtain ⟨c₀, hc₀, hkey, hsub⟩ := h.1 c₁ hc₁
    exact ⟨c₀, hc₀, hkey.trans hkey₁, List.Subset.trans hsub hsub₁⟩
  · obtain ⟨c, hc, hkey⟩ := h.2 c₀ hc₀
    obtain ⟨c', hc', hkey', -⟩ := exists_mem_insert key R x hc
    exact ⟨c', hc', hkey'.trans hkey⟩

/-- Further items leave the clusters in front, and the item that matches one of them joins one. -/
theorem exists_extends (key : ι → τ) (R : τ → τ → Bool) (xs ys : List ι) :
    ∃ front back, clusters key R (xs ++ ys) = front ++ back ∧ Extends key R xs front ∧
      ∀ x ∈ ys, (∃ c₀ ∈ clusters key R xs, R (key x) c₀.key) → ∃ c ∈ front, x ∈ c.items := by
  induction ys using reverseRecOn with
  | nil =>
    refine ⟨clusters key R xs, [], by rw [append_nil, append_nil], ⟨?_, ?_⟩, by simp⟩
    · exact fun c hc => ⟨c, hc, rfl, List.Subset.refl _⟩
    · exact fun c hc => ⟨c, hc, rfl⟩
  | append_singleton ys y ih =>
    obtain ⟨front, back, heq, hext, hjoin⟩ := ih
    rw [← append_assoc, clusters_concat, heq]
    by_cases hmatch : ∃ c ∈ front, R (key y) c.key
    · refine ⟨insert key R front y, back, insert_append back hmatch, hext.insert hmatch, ?_⟩
      intro x hx hx₀
      rcases mem_append.1 hx with hx | hx
      · obtain ⟨c, hc, hxc⟩ := hjoin x hx hx₀
        obtain ⟨c', hc', -, hsub⟩ := exists_mem_insert key R y hc
        exact ⟨c', hc', hsub hxc⟩
      · obtain rfl := mem_singleton.1 hx
        exact mem_flatMap.1 ((items_insert key R x front).symm.subset
          (mem_append_right _ (mem_singleton_self x)))
    · refine ⟨front, _, insert_append_of_not back hmatch, hext, ?_⟩
      intro x hx hx₀
      rcases mem_append.1 hx with hx | hx
      · exact hjoin x hx hx₀
      · obtain rfl := mem_singleton.1 hx
        obtain ⟨c₀, hc₀, hmatch₀⟩ := hx₀
        obtain ⟨c, hc, hkey⟩ := hext.2 c₀ hc₀
        rw [← hkey] at hmatch₀
        exact absurd ⟨c, hc, hmatch₀⟩ hmatch

/-- An item whose key matches that of a cluster of earlier ones is put together with one of them,
under its key. -/
theorem exists_shared {ys : List ι} (hx : x ∈ ys)
    (hmatch : ∃ c₀ ∈ clusters key R xs, R (key x) c₀.key) :
    ∃ c ∈ clusters key R (xs ++ ys), x ∈ c.items ∧ ∃ z ∈ xs, z ∈ c.items ∧ key z = c.key := by
  obtain ⟨_, _, heq, hext, hjoin⟩ := exists_extends key R xs ys
  obtain ⟨c, hc, hxc⟩ := hjoin x hx hmatch
  obtain ⟨c₀, hc₀, hkey, hsub⟩ := hext.1 c hc
  obtain ⟨z, hz, hzkey⟩ := exists_key_eq hc₀
  refine ⟨c, ?_, hxc, z, mem_of_mem_items hc₀ hz, hsub hz, hzkey.trans hkey⟩
  rw [heq]
  exact mem_append_left _ hc

/-- The key of a cluster is that of one of the earlier items, or matches none of their clusters. -/
theorem key_cases {ys : List ι} (hc : c ∈ clusters key R (xs ++ ys)) :
    (∃ z ∈ xs, key z = c.key) ∨ ∀ c₀ ∈ clusters key R xs, R c.key c₀.key = false := by
  obtain ⟨_, _, heq, hext, -⟩ := exists_extends key R xs ys
  have hpairwise := pairwise_clusters key R (xs ++ ys)
  rw [heq] at hc hpairwise
  rcases mem_append.1 hc with hc | hc
  · obtain ⟨c₀, hc₀, hkey, -⟩ := hext.1 c hc
    obtain ⟨z, hz, hzkey⟩ := exists_key_eq hc₀
    exact .inl ⟨z, mem_of_mem_items hc₀ hz, hzkey.trans hkey⟩
  · refine .inr fun c₀ hc₀ => ?_
    obtain ⟨d, hd, hkey⟩ := hext.2 c₀ hc₀
    rw [← hkey]
    exact (pairwise_append.1 hpairwise).2.2 d hd c hc

end FirstMatch
