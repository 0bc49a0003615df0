import SmallC.Proofs.Allocation.Views

/-!
Orders of use are lists of keys without duplicates. A use takes a key out of the list and puts it at the end, a
demotion puts a key that is there at the front. The stamps of a recency order say the same: the list is what they sort
the keys into.
-/
namespace SmallC

/-- What can be done to an order of use. -/
inductive Usage (κ : Type) where
  | touch (key : κ)
  | demote (key : κ)
  | remove (key : κ)
  | clear

variable {κ : Type} [DecidableEq κ]

/-- What becomes of the list of keys, from the least to the most recently used one. -/
def Usage.onKeys (keys : List κ) : Usage κ → List κ
  | touch key => keys.erase key ++ [key]
  | demote key => if key ∈ keys then key :: keys.erase key else keys
  | remove key => keys.erase key
  | clear => []

/-- The keys that are left by several uses, the first one first. -/
def Usage.keys (usages : List (Usage κ)) : List κ := usages.foldl onKeys []

namespace Recency

/-- What becomes of a recency order. -/
def use (order : Recency κ) : Usage κ → Recency κ
  | .touch key => order.touch key
  | .demote key => order.demote key
  | .remove key => order.remove key
  | .clear => empty

variable {order : Recency κ} {key : κ} {stamp : Int}

omit [DecidableEq κ]

/-- The stamps in ascending order, each with its key. -/
def ranked (order : Recency κ) : List (κ × Int) := order.stamps.mergeSort fun a b => decide (a.2 ≤ b.2)

theorem toList_eq (order : Recency κ) : order.toList = order.ranked.map Prod.fst := rfl

theorem ranked_perm (order : Recency κ) : order.ranked.Perm order.stamps := List.mergeSort_perm _ _

theorem ranked_ascending (order : Recency κ) : order.ranked.Pairwise fun a b => a.2 ≤ b.2 := by
  refine (List.pairwise_mergeSort (fun a b c first second => ?_) (fun a b => ?_) _).imp of_decide_eq_true
  · simp only [decide_eq_true_eq] at first second ⊢
    exact first.trans second
  · simp only [Bool.or_eq_true, decide_eq_true_eq]
    exact Int.le_total _ _

/-- There is one way to put the stamps in ascending order, as no two are the same. -/
theorem ranked_eq {stamps : List (κ × Int)} (same : stamps.Perm order.stamps)
    (ascending : stamps.Pairwise fun a b => a.2 ≤ b.2) : order.ranked = stamps := by
  refine (order.ranked_perm.trans same.symm).eq_of_pairwise (fun a b here there le ge => ?_) order.ranked_ascending
    ascending
  exact List.inj_on_of_nodup_map order.stampsDistinct (order.ranked_perm.subset here) (same.subset there)
    (Int.le_antisymm le ge)

variable [DecidableEq κ]

theorem others_ranked_perm (order : Recency κ) (key : κ) :
    (others key order.ranked).Perm (others key order.stamps) := order.ranked_perm.filter _

theorem others_ranked_ascending (order : Recency κ) (key : κ) :
    (others key order.ranked).Pairwise fun a b => a.2 ≤ b.2 := order.ranked_ascending.sublist (others_sublist _ _)

/-- The keys of all other stamps are the keys without the one. -/
theorem map_others (order : Recency κ) (key : κ) : (others key order.ranked).map Prod.fst = order.toList.erase key := by
  rw [(nodup_toList order).erase_eq_filter, toList_eq, List.filter_map]
  refine congrArg (List.map Prod.fst) (List.filter_congr fun s _ => ?_)
  by_cases same : s.1 = key <;> simp [same]

theorem toList_remove (order : Recency κ) (key : κ) : (order.remove key).toList = order.toList.erase key := by
  rw [toList_eq, ranked_eq (order.others_ranked_perm key) (order.others_ranked_ascending key), map_others]

/-- A stamp above all others puts its key at the end. -/
theorem toList_stampWith_last {unused : ∀ s ∈ order.stamps, s.2 ≠ stamp} (above : ∀ s ∈ order.stamps, s.2 ≤ stamp) :
    (order.stampWith key stamp unused).toList = order.toList.erase key ++ [key] := by
  have sorted : (order.stampWith key stamp unused).ranked = others key order.ranked ++ [(key, stamp)] := by
    refine ranked_eq (List.perm_append_singleton _ _ |>.trans ((order.others_ranked_perm key).cons _)) ?_
    refine List.pairwise_append.2 ⟨order.others_ranked_ascending key, List.pairwise_singleton _ _,
      fun s here t there => ?_⟩
    rw [List.mem_singleton.1 there]
    exact above s (order.ranked_perm.subset ((others_sublist _ _).subset here))
  rw [toList_eq, sorted, List.map_append, map_others]
  rfl

/-- A stamp below all others puts its key at the front. -/
theorem toList_stampWith_first {unused : ∀ s ∈ order.stamps, s.2 ≠ stamp} (below : ∀ s ∈ order.stamps, stamp ≤ s.2) :
    (order.stampWith key stamp unused).toList = key :: order.toList.erase key := by
  have sorted : (order.stampWith key stamp unused).ranked = (key, stamp) :: others key order.ranked := by
    refine ranked_eq ((order.others_ranked_perm key).cons _) (List.pairwise_cons.2 ⟨fun s here => ?_,
      order.others_ranked_ascending key⟩)
    exact below s (order.ranked_perm.subset ((others_sublist _ _).subset here))
  rw [toList_eq, sorted, List.map_cons, map_others]

theorem toList_touch (order : Recency κ) (key : κ) :
    (order.touch key).toList = order.toList.erase key ++ [key] :=
  toList_stampWith_last fun s member => by
    have := le_newest member
    omega

theorem contains_eq (order : Recency κ) (key : κ) : order.contains key = decide (key ∈ order.toList) := by
  rw [contains, Bool.eq_iff_iff, List.any_eq_true, decide_eq_true_iff, mem_toList]
  simp only [decide_eq_true_eq]

theorem toList_demote (order : Recency κ) (key : κ) :
    (order.demote key).toList = if key ∈ order.toList then key :: order.toList.erase key else order.toList := by
  unfold demote
  rw [contains_eq]
  by_cases present : key ∈ order.toList
  · rw [if_pos (decide_eq_true present), if_pos present]
    refine toList_stampWith_first fun s member => ?_
    have := oldest_le member
    omega
  · rw [if_neg (by simpa using present), if_neg present]

/-- A use does to the order what it does to the list of its keys. -/
theorem toList_use (order : Recency κ) (usage : Usage κ) : (order.use usage).toList = usage.onKeys order.toList := by
  cases usage with
  | touch key => exact toList_touch order key
  | demote key => exact toList_demote order key
  | remove key => exact toList_remove order key
  | clear => exact toList_empty

/-- A recency order answers as a list of keys does. -/
structure Answers (order : Recency κ) (keys : List κ) : Prop where
  listed : order.toList = keys
  size : order.size = keys.length
  contains : ∀ key, order.contains key = decide (key ∈ keys)
  least : order.least? = keys.head?

/-- Every order answers as the list of its own keys. -/
theorem answers_toList (order : Recency κ) : order.Answers order.toList where
  listed := rfl
  size := by rw [toList_eq, List.length_map, order.ranked_perm.length_eq, size]
  contains := order.contains_eq
  least := rfl

/-- Whatever an order was used for, its keys are those that are left by the same uses of a list. -/
theorem toList_foldl_use (usages : List (Usage κ)) (order : Recency κ) :
    (usages.foldl use order).toList = usages.foldl Usage.onKeys order.toList := by
  induction usages generalizing order with
  | nil => rfl
  | cons usage rest ih => rw [List.foldl_cons, List.foldl_cons, ih, toList_use]

end Recency

end SmallC
