/-!
Recency orders: which of several keys was used last. Every key carries a stamp, a use gives it a stamp
above all others, and a demotion one below all others; the order of the keys is that of their stamps.
No key has two stamps and no stamp two keys.
-/
namespace SmallC

/-- An order of distinct keys from the least to the most recently used. -/
structure Recency (κ : Type) where
  /-- The keys with their stamps, in no particular order. -/
  stamps : List (κ × Int)
  keysDistinct : (stamps.map Prod.fst).Nodup
  stampsDistinct : (stamps.map Prod.snd).Nodup

namespace Recency

variable {κ : Type}

/-- No stamp is above this one. -/
def newest (stamps : List (κ × Int)) : Int := stamps.foldr (fun s bound => max s.2 bound) 0

/-- No stamp is below this one. -/
def oldest (stamps : List (κ × Int)) : Int := stamps.foldr (fun s bound => min s.2 bound) 0

theorem le_newest {stamps : List (κ × Int)} {s : κ × Int} (member : s ∈ stamps) :
    s.2 ≤ newest stamps := by
  induction stamps with
  | nil => cases member
  | cons head rest ih =>
    simp only [newest, List.foldr_cons]
    rcases List.mem_cons.1 member with rfl | member
    · omega
    · have := ih member
      simp only [newest] at this
      omega

theorem oldest_le {stamps : List (κ × Int)} {s : κ × Int} (member : s ∈ stamps) :
    oldest stamps ≤ s.2 := by
  induction stamps with
  | nil => cases member
  | cons head rest ih =>
    simp only [oldest, List.foldr_cons]
    rcases List.mem_cons.1 member with rfl | member
    · omega
    · have := ih member
      simp only [oldest] at this
      omega

/-- No keys. -/
def empty : Recency κ := ⟨[], List.nodup_nil, List.nodup_nil⟩

variable [DecidableEq κ]

/-- The stamps of all other keys. -/
def others (key : κ) (stamps : List (κ × Int)) : List (κ × Int) :=
  stamps.filter fun s => s.1 ≠ key

theorem others_sublist (key : κ) (stamps : List (κ × Int)) : (others key stamps).Sublist stamps :=
  List.filter_sublist

theorem not_mem_others (key : κ) (stamps : List (κ × Int)) :
    key ∉ (others key stamps).map Prod.fst := by
  simp [others]

/-- Takes a key out, if it is there. -/
def remove (order : Recency κ) (key : κ) : Recency κ where
  stamps := others key order.stamps
  keysDistinct := order.keysDistinct.sublist ((others_sublist key _).map _)
  stampsDistinct := order.stampsDistinct.sublist ((others_sublist key _).map _)

/-- Gives a key a stamp that no other key has. -/
def stampWith (order : Recency κ) (key : κ) (stamp : Int)
    (unused : ∀ s ∈ order.stamps, s.2 ≠ stamp) : Recency κ where
  stamps := (key, stamp) :: others key order.stamps
  keysDistinct := List.nodup_cons.2 ⟨not_mem_others key _, (order.remove key).keysDistinct⟩
  stampsDistinct := List.nodup_cons.2 ⟨fun member => by
    obtain ⟨s, inOthers, same⟩ := List.mem_map.1 member
    exact unused s ((others_sublist key _).subset inOthers) same, (order.remove key).stampsDistinct⟩

/-- Makes a key the most recently used one, adding it if it is missing. -/
def touch (order : Recency κ) (key : κ) : Recency κ :=
  order.stampWith key (newest order.stamps + 1) fun s member => by
    have := le_newest member
    omega

/-- Whether a key is in the order. -/
def contains (order : Recency κ) (key : κ) : Bool := order.stamps.any fun s => s.1 = key

/-- Makes a key the least recently used one, if it is in the order. -/
def demote (order : Recency κ) (key : κ) : Recency κ :=
  if order.contains key then
    order.stampWith key (oldest order.stamps - 1) fun s member => by
      have := oldest_le member
      omega
  else order

omit [DecidableEq κ] in
/-- The keys from the least to the most recently used. -/
def toList (order : Recency κ) : List κ :=
  (order.stamps.mergeSort fun a b => decide (a.2 ≤ b.2)).map Prod.fst

omit [DecidableEq κ] in
/-- Number of keys. -/
def size (order : Recency κ) : Nat := order.stamps.length

omit [DecidableEq κ] in
/-- The least recently used key, if there is any. -/
def least? (order : Recency κ) : Option κ := order.toList.head?

end Recency

end SmallC
