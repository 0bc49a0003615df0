import SmallC.Proofs.Allocation.Protocol

/-!
The shape of the allocator's state: which temporaries are alive, what further names the levels hold,
whether a function body is open, and which registers are reserved. It is all that the generator of code
has to keep track of, and each operation changes it in one way, whatever the traffic on the way.
-/
namespace SmallC

/-- What the generator of code keeps track of. -/
structure Shape where
  /-- The names of the temporaries. -/
  alive : Multiset String
  /-- The further names that each level holds, the root first. -/
  aliases : List (List (String × VarId))
  /-- Whether a function body is open. -/
  inside : Bool
  reserved : List Reg

/-- One more temporary. -/
def Shape.plus (s : Shape) (temp : String) : Shape := { s with alive := temp ::ₘ s.alive }

namespace Allocator

/-- The shape of a state. -/
def shape (a : Allocator) : Shape where
  alive := (a.temps.map Prod.fst : List String)
  aliases := a.levels.map Level.aliases
  inside := a.frame.isSome
  reserved := a.reserved

variable {a a' : Allocator} {id : VarId} {v : Variable} {r : Reg} {name temp : String}

theorem shape_of_same (temps : a'.temps = a.temps) (root : a'.root = a.root)
    (inner : a'.inner = a.inner) (frame : a'.frame.isSome = a.frame.isSome)
    (reserved : a'.reserved = a.reserved) : a'.shape = a.shape := by
  simp only [shape, levels, temps, root, inner, frame, reserved]

theorem Keeps.shape (keeps : Keeps a a') : a'.shape = a.shape :=
  shape_of_same keeps.temps keeps.root keeps.inner keeps.frame keeps.reserved

/-- The further names that the levels hold once one level is changed. -/
theorem shape_modifyLevel (d : Nat) (f : Level → Level)
    (g : List (String × VarId) → List (String × VarId)) (change : ∀ l, (f l).aliases = g l.aliases) :
    (a.modifyLevel d f).shape = { a.shape with aliases := a.shape.aliases.modify d g } := by
  have levels : (a.modifyLevel d f).levels.map Level.aliases =
      (a.levels.map Level.aliases).modify d g := by
    rw [levels_modifyLevel]
    apply List.ext_getElem?
    intro i
    simp only [List.getElem?_map, List.getElem?_modify, Option.map_eq_map, Option.map_map]
    refine congrArg (Option.map · _) (funext fun l => ?_)
    by_cases here : d = i <;> simp [here, change]
  rw [shape, levels, modifyLevel_eq]
  rfl

/-- A change of the names of the variables that one level holds. -/
theorem shape_renamedLevel (d : Nat) (f : Level → Level) (same : ∀ l, (f l).aliases = l.aliases) :
    (a.modifyLevel d f).shape = a.shape := by
  refine (shape_modifyLevel d f id same).trans ?_
  rw [List.modify_id]

theorem aliases_removeNameOf (l : Level) : (l.removeNameOf name id).aliases = l.aliases := by
  unfold Level.removeNameOf
  split <;> rfl

/-- What stands under a name comes and goes with it. -/
theorem alive_without {names : List (String × VarId)} (once : (names.map Prod.fst).Nodup)
    (member : (name, id) ∈ names) :
    ((names.map Prod.fst : List String) : Multiset String) =
      name ::ₘ ((Level.without name names).map Prod.fst : List String) := by
  refine Multiset.coe_eq_coe.2 ((List.perm_ext_iff_of_nodup once ?_).2 fun n => ?_)
  · rw [List.nodup_cons]
    refine ⟨fun inside => ?_, Level.nodup_without once⟩
    obtain ⟨entry, kept, own⟩ := List.mem_map.1 inside
    exact (Level.mem_without.1 kept).2 own
  · simp only [List.mem_cons, List.mem_map, Level.mem_without]
    constructor
    · rintro ⟨entry, here, rfl⟩
      by_cases same : entry.1 = name
      · exact .inl same
      · exact .inr ⟨entry, ⟨here, same⟩, rfl⟩
    · rintro (rfl | ⟨entry, ⟨here, -⟩, rfl⟩)
      · exact ⟨_, member, rfl⟩
      · exact ⟨entry, here, rfl⟩

theorem shape_forgotten_temp (names : Names a) (found : a.var? id = some v) (isTemp : v.isTemp = true) :
    a.shape = (a.forgotten id v).shape.plus v.name := by
  have alive := alive_without names.tempOnce (names.temp found isTemp)
  unfold forgotten
  rw [if_pos isTemp]
  simp only [shape, Shape.plus, levels, alive]

theorem shape_forgotten_named (isNamed : v.isTemp = false) :
    (a.forgotten id v).shape = a.shape := by
  have same : (a.modifyLevel v.depth (Level.removeNameOf v.name id)).shape = a.shape :=
    shape_renamedLevel _ _ fun l => aliases_removeNameOf l
  rw [← same, forgotten, if_neg (by rw [isNamed]; exact Bool.false_ne_true)]
  exact shape_of_same rfl rfl rfl rfl rfl

/-- A name that is no further name and none of a temporary is that of a named variable. -/
theorem named_of_find? (names : Names a) (plain : ∀ further ∈ a.shape.aliases, further.lookup name = none)
    (noTemp : a.temps.lookup name = none) (resolved : a.find? name = some id)
    (found : a.var? id = some v) : v.isTemp = false ∧ v.name = name := by
  have held : ∀ {l : Level}, l ∈ a.levels → l.find? name = some id → (name, id) ∈ l.names := by
    intro l member here
    rw [Level.find?, plain _ (List.mem_map.2 ⟨l, member, rfl⟩)] at here
    obtain ⟨d, inside, level⟩ := List.mem_iff_getElem.1 member
    exact (Level.lookup_eq_some (names.levelOnce (List.getElem?_eq_some_iff.2 ⟨inside, level⟩))).1 here
  have search : ∀ inner : List Level, (∀ l ∈ inner, l ∈ a.levels) →
      findFrom a.root name inner = some id → ∃ l ∈ a.levels, (name, id) ∈ l.names := by
    intro inner
    induction inner with
    | nil =>
      intro _ here
      exact ⟨a.root, List.mem_cons_self, held List.mem_cons_self here⟩
    | cons level outer ih =>
      intro within here
      rw [findFrom] at here
      cases first : level.find? name with
      | some other =>
        rw [first] at here
        cases here
        have member := within level List.mem_cons_self
        exact ⟨level, member, held member first⟩
      | none =>
        rw [first] at here
        by_cases hides : level.hidesOuter
        · rw [if_pos hides] at here
          exact ⟨a.root, List.mem_cons_self, held List.mem_cons_self here⟩
        · rw [if_neg hides] at here
          exact ih (fun l member => within l (List.mem_cons_of_mem level member)) here
  rw [find?, noTemp] at resolved
  obtain ⟨l, member, here⟩ := search a.inner
    (fun l member => List.mem_cons_of_mem _ (List.mem_reverse.2 member)) resolved
  obtain ⟨d, inside, level⟩ := List.mem_iff_getElem.1 member
  obtain ⟨u, found', isNamed, own, -⟩ :=
    names.namedIs (List.getElem?_eq_some_iff.2 ⟨inside, level⟩) here
  cases found.symm.trans found'
  exact ⟨isNamed, own⟩

end Allocator

namespace Alloc

open Allocator

variable {w w' : Work} {id : VarId} {r : Reg} {name temp : String} {hand : List Reg} {x : Unit}

/-! ### Variables and temporaries -/

/-- A new variable stands under its name in the innermost level. -/
theorem shape_declared (a : Allocator) {v : Variable} {words : Nat} :
    (((a.grown words).addVar v).modifyCurrent (Level.addName name id)).shape = a.shape :=
  (shape_renamedLevel (a := (a.grown words).addVar v) _ (Level.addName name id) fun _ => rfl).trans
    (Keeps.grown a words).shape

theorem shape_addVariable {given : Option Reg} (sound : Sound hand w.allocator)
    (ran : Ran (addVariable name given) w r w') : w'.allocator.shape = w.allocator.shape := by
  have introduced : ∀ a, (withVariable name r a).shape = a.shape := fun a =>
    (shape_of_same rfl rfl rfl rfl rfl).trans (shape_declared a)
  obtain ⟨-, mid, ⟨-, took⟩ | ⟨-, -, rfl⟩, rfl⟩ := ran_addVariable ran
  · exact (introduced _).trans (takes sound took).keeps.shape
  · exact (introduced _).trans (Keeps.withdrawn w.allocator r).shape

theorem shape_declareVariable (ran : Ran (declareVariable name) w x w') :
    w'.allocator.shape = w.allocator.shape := by
  obtain ⟨-, rfl⟩ := ran_declareVariable ran
  exact shape_declared _

theorem shape_setArray {size : Nat} (ran : Ran (setArray name size) w x w') :
    w'.allocator.shape = w.allocator.shape := by
  obtain ⟨-, rfl⟩ := ran_setArray ran
  exact shape_declared _

theorem shape_addTemp (sound : Sound hand w.allocator) (ran : Ran addTemp w temp w') :
    w'.allocator.shape = w.allocator.shape.plus temp ∧ ∃ n, temp = tempName n := by
  obtain ⟨r, mid, took, rfl, rfl⟩ := ran_addTemp ran
  have taken := takes sound took
  refine ⟨?_, _, rfl⟩
  rw [← taken.keeps.shape]
  have fresh : Level.without (tempName mid.allocator.nextTemp) mid.allocator.temps =
      mid.allocator.temps := List.filter_eq_self.2 fun entry member =>
    decide_eq_true (taken.sound.names.tempName_fresh entry member)
  have alive : ((withTemp r mid.allocator).temps.map Prod.fst) =
      mid.allocator.temps.map Prod.fst ++ [tempName mid.allocator.nextTemp] := by
    change (Level.without _ _ ++ [_]).map Prod.fst = _
    rw [fresh, List.map_append]
    rfl
  simp only [shape, Shape.plus, allocator_on, alive, ← Multiset.coe_add, Multiset.cons_coe]
  congr 1
  exact Multiset.coe_eq_coe.2 (List.perm_append_singleton _ _)

theorem shape_renameTemp (sound : Sound hand w.allocator) (ran : Ran (renameTemp temp name) w x w') :
    w.allocator.shape = w'.allocator.shape.plus temp := by
  have renamed : ∀ {a : Allocator} {id : VarId} {v : Variable} (words : Nat), Names a →
      a.temps.lookup temp = some id →
      a.shape = (withRenamed temp name id v (a.grown words)).shape.plus temp := by
    intro a id v words names looked
    have alive := alive_without names.tempOnce ((Level.lookup_eq_some names.tempOnce).1 looked)
    have same : (withRenamed temp name id v (a.grown words)).shape =
        ({ a.grown words with temps := Level.without temp a.temps } : Allocator).shape :=
      (shape_renamedLevel _ (Level.addName name id) fun _ => rfl).trans
        (shape_of_same rfl rfl rfl rfl rfl)
    rw [same]
    simp only [shape, Shape.plus, levels, Allocator.grown, Option.isSome_map, alive]
  obtain ⟨-, id, v, looked, -, ⟨r, -, rfl⟩ | ⟨place, home, -, -, rfl⟩⟩ := ran_renameTemp ran
  · exact renamed _ sound.names looked
  · have done := renamed (v := renamedVar w.allocator name home false v) 0 sound.names looked
    rw [grown_zero] at done
    exact done

theorem shape_getRegister {modifies : Bool} (sound : Sound hand w.allocator)
    (ran : Ran (getRegister name modifies) w r w') : w'.allocator.shape = w.allocator.shape :=
  (getRegister_reads sound ran).1.shape

theorem shape_detachAsTemp (sound : Sound hand w.allocator) (ran : Ran (detachAsTemp name) w temp w') :
    w'.allocator.shape = w.allocator.shape.plus temp ∧ ∃ n, temp = tempName n := by
  obtain ⟨r, mid, id, v, read, -, -, rfl, rfl⟩ := ran_detachAsTemp ran
  refine ⟨?_, _, rfl⟩
  rw [← shape_getRegister sound read]
  have names := (getRegister_sound sound read).names
  have fresh : Level.without (tempName mid.allocator.nextTemp) mid.allocator.temps =
      mid.allocator.temps := List.filter_eq_self.2 fun entry member =>
    decide_eq_true (names.tempName_fresh entry member)
  have level := shape_renamedLevel (a := mid.allocator) v.depth (Level.removeName name) fun _ => rfl
  have aliases : (mid.allocator.modifyLevel v.depth (Level.removeName name)).levels.map Level.aliases =
      mid.allocator.levels.map Level.aliases := congrArg Shape.aliases level
  simp only [shape, Shape.plus, allocator_on, withDetached, setVar, levels, fresh, List.map_append,
    Multiset.cons_coe] at aliases ⊢
  rw [aliases, modifyLevel_eq]
  congr 1
  exact Multiset.coe_eq_coe.2 (List.perm_append_singleton _ _)

theorem shape_prepareWrite (sound : Sound hand w.allocator) (ran : Ran (prepareWrite name) w r w') :
    w'.allocator.shape = w.allocator.shape := by
  obtain ⟨id, v, -, -, -, ⟨-, rfl⟩ | ⟨-, mid, u, took, -, rfl⟩⟩ := ran_prepareWrite ran
  · exact shape_of_same rfl rfl rfl rfl rfl
  · exact (shape_of_same rfl rfl rfl rfl rfl).trans (takes sound took).keeps.shape

theorem shape_markWritten (ran : Ran (markWritten name) w x w') :
    w'.allocator.shape = w.allocator.shape := by
  obtain ⟨id, v, -, -, ⟨-, rfl⟩ | ⟨-, mid, rfl, ⟨r, -, -, wrote⟩ | ⟨-, rfl⟩⟩⟩ := ran_markWritten ran
  · rfl
  · exact (writeBack_keeps wrote).shape.trans (shape_of_same rfl rfl rfl rfl rfl)
  · exact shape_of_same rfl rfl rfl rfl rfl

theorem shape_update {f : Variable → Variable} (ran : Ran (update id f) w x w') :
    w'.allocator.shape = w.allocator.shape := by
  obtain ⟨v, -, rfl⟩ := ran_update.1 ran
  exact shape_of_same rfl rfl rfl rfl rfl

/-- A note about the variable that a name stands for. -/
theorem shape_note {f : Variable → Variable} (ran : Ran (do update (← resolve name) f) w x w') :
    w'.allocator.shape = w.allocator.shape := by
  obtain ⟨id, mid, resolved, noted⟩ := ran_bind.1 ran
  obtain ⟨-, rfl⟩ := ran_resolve.1 resolved
  exact shape_update noted

theorem shape_memoryAddress {address : Address} (ran : Ran (memoryAddress name) w address w') :
    w'.allocator.shape = w.allocator.shape := by
  simp only [memoryAddress, ran_bind, ran_resolve, ran_known, and_assoc, exists_and_left,
    exists_eq_left] at ran
  obtain ⟨id, -, v, -, ran⟩ := ran
  split at ran
  · rw [(ran_addressOf.1 ran).2]
  · exact (ran_throw.1 ran).elim
  · split at ran
    · simp only [ran_bind] at ran
      obtain ⟨_, mid, wrote, _, marked, noted, addressed⟩ := ran
      rw [(ran_addressOf.1 addressed).2]
      exact (shape_update noted).trans (writeBack_keeps wrote).shape
    · simp only [ran_bind] at ran
      obtain ⟨_, marked, noted, addressed⟩ := ran
      rw [(ran_addressOf.1 addressed).2]
      exact shape_update noted

theorem shape_setAlias {target : String} (ran : Ran (setAlias name target) w x w') :
    ∃ id, w'.allocator.shape = { w.allocator.shape with
      aliases := w.allocator.shape.aliases.modify w.allocator.depth
        fun further => (name, id) :: Level.without name further } := by
  simp only [setAlias, ran_bind, ran_resolve, ran_change, and_assoc, exists_and_left,
    exists_eq_left] at ran
  obtain ⟨id, -, rfl⟩ := ran
  exact ⟨id, shape_modifyLevel _ _ _ fun _ => rfl⟩

theorem shape_removeAlias (ran : Ran (removeAlias name) w x w') :
    w'.allocator.shape = { w.allocator.shape with
      aliases := w.allocator.shape.aliases.modify w.allocator.depth (Level.without name) } := by
  rw [ran_change.1 ran]
  exact shape_modifyLevel _ _ _ fun _ => rfl

/-! ### Dropping and reserving -/

theorem shape_unbind (ran : Ran (unbind id) w x w') : w'.allocator.shape = w.allocator.shape := by
  rw [unbind_rest ran]
  exact shape_of_same rfl rfl rfl rfl rfl

/-- A temporary that is dropped is alive no more, and nothing else changes with it. -/
theorem shape_drop {v : Variable} (sound : Sound hand w.allocator)
    (found : w.allocator.var? id = some v) (ran : Ran (drop id) w x w') :
    if v.isTemp then w.allocator.shape = w'.allocator.shape.plus v.name
    else w'.allocator.shape = w.allocator.shape := by
  have forgets : ∀ {a : Allocator} {u : Variable}, Names a → a.var? id = some u →
      if u.isTemp then a.shape = (a.forgotten id u).shape.plus u.name
      else (a.forgotten id u).shape = a.shape := by
    intro a u names known
    cases isTemp : u.isTemp with
    | true => exact shape_forgotten_temp names known isTemp
    | false => exact shape_forgotten_named isTemp
  obtain ⟨v', found', ⟨-, rfl⟩ | ⟨r, there, rfl⟩⟩ := ran_drop ran
  · cases found.symm.trans found'
    exact forgets sound.names found
  · cases found.symm.trans found'
    have names : Names (w.allocator.unbound id r v) :=
      (sound.names.setVar found v.parted rfl rfl rfl).congr (fun _ => rfl) rfl rfl fun _ => rfl
    have same : (w.allocator.unbound id r v).shape = w.allocator.shape :=
      shape_of_same rfl rfl rfl rfl rfl
    have dropped := forgets names (by rw [var?_unbound found, if_pos rfl])
    rwa [same] at dropped

theorem shape_removeIfTemp (sound : Sound hand w.allocator) (ran : Ran (removeIfTemp name) w x w') :
    if name ∈ w.allocator.shape.alive then w.allocator.shape = w'.allocator.shape.plus name
    else w'.allocator.shape = w.allocator.shape := by
  simp only [removeIfTemp, ran_bind, ran_look, and_assoc, exists_and_left, exists_eq_left] at ran
  have alive : name ∈ w.allocator.shape.alive ↔ (w.allocator.temps.lookup name).isSome := by
    rw [shape, Multiset.mem_coe, List.mem_map, ← Option.ne_none_iff_isSome, Ne, Level.lookup_eq_none]
    push Not
    rfl
  split at ran
  · next id looked =>
    rw [if_pos (alive.2 (by rw [looked]; rfl))]
    obtain ⟨v, found, isTemp, own⟩ :=
      sound.names.tempIs ((Level.lookup_eq_some sound.names.tempOnce).1 looked)
    have dropped := shape_drop sound found ran
    rwa [if_pos isTemp, own] at dropped
  · next absent =>
    rw [if_neg (by rw [alive, absent]; exact Bool.false_ne_true), (ran_pure.1 ran).2]

theorem shape_demote (ran : Ran (demote name) w x w') : w'.allocator.shape = w.allocator.shape := by
  simp only [demote, ran_bind, ran_look, and_assoc, exists_and_left, exists_eq_left] at ran
  split at ran
  · rw [ran_change.1 ran]
    exact shape_of_same rfl rfl rfl rfl rfl
  · rw [(ran_pure.1 ran).2]

theorem shape_reserve (sound : Sound [] w.allocator) (ran : Ran (reserve r) w x w') :
    w'.allocator.shape = { w.allocator.shape with reserved := w'.allocator.reserved } ∧
      (r.isPool = false → w'.allocator.reserved = w.allocator.reserved) := by
  have out : ∀ {a : Allocator}, r.isPool = false → (withReserved r a).reserved = a.reserved := by
    intro a outside
    simp [withReserved, outside]
  obtain ⟨mid, rfl, ⟨-, rfl⟩ | ⟨id, target, taken, u, -, took, -, rfl⟩⟩ := ran_reserve ran
  · exact ⟨rfl, out⟩
  · have held : Sound [] { w.allocator with
        held := if r ∈ w.allocator.held then w.allocator.held else r :: w.allocator.held } :=
      sound.congr (fun _ => Iff.rfl) rfl
    have keeps := (takes (w := on _ w) held took).keeps
    have same : taken.allocator.shape = w.allocator.shape := keeps.shape
    refine ⟨?_, fun outside => (out outside).trans keeps.reserved⟩
    rw [← same]
    rfl

theorem shape_unreserveAll (ran : Ran unreserveAll w x w') :
    w'.allocator.shape = { w.allocator.shape with reserved := [] } := by
  simp only [unreserveAll, ran_bind, ran_look, ran_change, and_assoc, exists_and_left,
    exists_eq_left, exists_const] at ran
  refine ran.forM (P := fun mid => mid.allocator.shape = { w.allocator.shape with reserved := [] })
    rfl fun s _ mid mid' kept ran => ?_
  simp only [ran_bind, ran_look, ran_ite, ran_release, ran_pure, and_assoc, exists_and_left,
    exists_eq_left] at ran
  obtain ⟨-, rfl⟩ | ⟨-, -, rfl⟩ := ran
  · exact (shape_of_same rfl rfl rfl rfl rfl).trans kept
  · exact kept

/-! ### Paths and levels -/

theorem shape_sync (sound : Sound hand w.allocator) (ran : Ran sync w x w') :
    w'.allocator.shape = w.allocator.shape := by
  obtain ⟨home, ids, pinned, sent, listed, first, second⟩ := ran_sync ran
  have sent' : Sound hand home.allocator ∧ home.allocator.shape = w.allocator.shape := by
    refine sent.forM (P := fun mid => Sound hand mid.allocator ∧
      mid.allocator.shape = w.allocator.shape) ⟨sound, rfl⟩ fun r _ mid mid' kept ran => ?_
    refine ⟨(sendHome_sound kept.1 ran).1, Eq.trans ?_ kept.2⟩
    obtain ⟨-, rfl⟩ | ⟨id, v, -, -, ⟨-, rfl⟩ | ⟨-, stored, wrote, parted⟩⟩ := ran_sendHome ran
    · rfl
    · rfl
    · refine (shape_unbind parted).trans ?_
      obtain ⟨-, wrote⟩ | ⟨-, rfl⟩ := wrote
      · exact (writeBack_keeps wrote).shape
      · rfl
  obtain ⟨temps, -⟩ := mem_tempIds sent'.1.names listed
  obtain ⟨sound', keeps⟩ := temps_forM sent'.1 temps pin_sound first
  obtain ⟨-, keeps'⟩ := temps_forM sound' (temps.keeps keeps) bringBack_sound second
  exact keeps'.shape.trans (keeps.shape.trans sent'.2)

theorem shape_pushLevel {hides : Bool} (ran : Ran (pushLevel hides) w x w') :
    w'.allocator.shape =
      { w.allocator.shape with aliases := w.allocator.shape.aliases ++ [[]] } := by
  rw [ran_pushLevel ran]
  simp only [shape, allocator_on, levels_push, List.map_append]
  rfl

/-- Closing a level drops named variables only. -/
theorem shape_closeLevel {level : Level} (inside : w.allocator.inner ≠ [])
    (named : ∀ entry ∈ level.names, ∀ v, w.allocator.var? entry.2 = some v → v.isTemp = false)
    (ran : Ran (closeLevel level) w x w') :
    w'.allocator.shape =
      { w.allocator.shape with aliases := w.allocator.shape.aliases.dropLast } := by
  simp only [closeLevel, ran_bind, ran_change] at ran
  obtain ⟨_, mid, dropped, rfl⟩ := ran
  have kept : mid.allocator.shape = w.allocator.shape ∧ mid.allocator.inner.length =
      w.allocator.inner.length ∧ ∀ other v, mid.allocator.var? other = some v →
        w.allocator.var? other = some v := by
    refine dropped.forM (P := fun mid => mid.allocator.shape = w.allocator.shape ∧
      mid.allocator.inner.length = w.allocator.inner.length ∧
      ∀ other v, mid.allocator.var? other = some v → w.allocator.var? other = some v)
      ⟨rfl, rfl, fun _ _ found => found⟩ fun entry member mid mid' kept ran => ?_
    obtain ⟨same, deep, before⟩ := kept
    have drops := drops_one ran
    refine ⟨?_, drops.depth.trans deep, fun other v found => ?_⟩
    · obtain ⟨v, found, away⟩ := ran_drop ran
      have isNamed := named entry member v (before _ _ found)
      refine Eq.trans ?_ same
      obtain ⟨-, rfl⟩ | ⟨r, -, rfl⟩ := away
      · exact shape_forgotten_named isNamed
      · exact (shape_forgotten_named isNamed).trans (shape_of_same rfl rfl rfl rfl rfl)
    · rw [drops.vars] at found
      split at found
      · cases found
      · exact before other v found
  obtain ⟨same, deep, -⟩ := kept
  rw [← same]
  have levels : ({ mid.allocator with inner := mid.allocator.inner.drop 1 } : Allocator).levels =
      mid.allocator.levels.dropLast := by
    have inside' : mid.allocator.inner ≠ [] := fun empty => by
      rw [empty] at deep
      exact inside (List.eq_nil_of_length_eq_zero deep.symm)
    obtain ⟨l, rest, split⟩ := List.exists_cons_of_ne_nil inside'
    simp only [Allocator.levels, split, List.drop_one, List.tail_cons, List.reverse_cons]
    rw [← List.cons_append, List.dropLast_concat]
  simp only [shape, allocator_on, levels, List.map_dropLast]

theorem shape_popLevel (sound : Sound hand w.allocator) (ran : Ran popLevel w x w') :
    w'.allocator.shape =
      { w.allocator.shape with aliases := w.allocator.shape.aliases.dropLast } := by
  obtain ⟨inside, closed⟩ := ran_popLevel ran
  refine shape_closeLevel inside (fun entry member v found => ?_) closed
  obtain ⟨n, i⟩ := entry
  obtain ⟨u, known, isNamed, -⟩ := sound.names.namedIs current_level member
  cases found.symm.trans known
  exact isNamed

/-- Closing all levels of a body leaves the root. -/
theorem shape_closeAll {levels : List Level} (deep : w.allocator.depth = levels.length)
    (named : ∀ level ∈ levels, ∀ entry ∈ level.names, ∀ v, w.allocator.var? entry.2 = some v →
      v.isTemp = false)
    (ran : Ran (levels.forM closeLevel) w x w') :
    w'.allocator.shape =
      { w.allocator.shape with aliases := [w.allocator.root.aliases] } := by
  induction levels generalizing w with
  | nil =>
    rw [ran_forM_nil.1 ran]
    have root : w.allocator.inner = [] := List.eq_nil_of_length_eq_zero deep
    simp only [shape, Allocator.levels, root]
    rfl
  | cons level outer ih =>
    obtain ⟨mid, first, second⟩ := ran_forM_cons.1 ran
    have inside : w.allocator.inner ≠ [] := fun empty => by
      rw [Allocator.depth, empty] at deep
      cases deep
    have closes := closes first
    have shape := shape_closeLevel inside (named level List.mem_cons_self) first
    have root : mid.allocator.root.aliases = w.allocator.root.aliases := by
      have aliases := congrArg (fun s : Shape => s.aliases.head?) shape
      obtain ⟨l, rest, split⟩ := List.exists_cons_of_ne_nil inside
      simp only [Allocator.shape, Allocator.levels, split, List.map_cons, List.head?_cons,
        List.reverse_cons, List.map_append, ← List.cons_append, List.map_nil, List.dropLast_concat,
        Option.some.injEq] at aliases
      exact aliases
    rw [ih (by rw [closes.depth, deep]; rfl) (fun l member entry here v found => ?_) second, shape,
      root]
    rw [closes.vars] at found
    split at found
    · cases found
    · exact named l (List.mem_cons_of_mem level member) entry here v found

/-! ### Function bodies and calls -/

theorem shape_enterFunction (sound : Sound hand w.allocator) (ran : Ran enterFunction w x w') :
    w'.allocator.shape = { w.allocator.shape with
      aliases := w.allocator.shape.aliases ++ [[]], inside := true } := by
  obtain ⟨-, parted, unbound, rfl⟩ := ran_enterFunction sound.registers.toOwners ran
  have same : parted.allocator.shape = w.allocator.shape :=
    unbound.forM (P := fun mid => mid.allocator.shape = w.allocator.shape) rfl
      fun _ _ _ _ kept ran => (shape_unbind ran).trans kept
  rw [← same]
  simp only [shape, allocator_on, Allocator.levels, List.reverse_cons, List.map_append, List.map_cons]
  rfl

/-- The temporaries are those of before the body: a body that leaves none behind has none to discard. -/
theorem shape_leaveFunction {n : Nat} (sound : Sound hand w.allocator)
    (none : w.allocator.shape.alive = 0) (ran : Ran leaveFunction w n w') :
    w'.allocator.shape = { w.allocator.shape with
      aliases := [w.allocator.root.aliases], inside := false } := by
  obtain ⟨sent, closed, vacated, dropped, k, o, bound, first, second, third, fourth, -, -, fifth, rfl⟩ :=
    ran_leaveFunction ran
  have sent' : Keeps w.allocator sent.allocator := by
    refine first.forM (P := fun mid => Keeps w.allocator mid.allocator) (.refl _)
      fun r _ mid mid' kept ran => ?_
    obtain rfl | ⟨id, s, -, -, -, -, -, -, wrote⟩ := ran_sendRootHome ran
    · exact kept
    · exact kept.trans (writeBack_keeps wrote)
  have closed' := shape_closeAll rfl (fun level member entry here v found => ?named) second
  case named =>
    rw [sent'.inner] at member
    obtain ⟨d, inside, level'⟩ := List.mem_iff_getElem.1
      (List.mem_cons_of_mem w.allocator.root (List.mem_reverse.2 member))
    obtain ⟨n, i⟩ := entry
    obtain ⟨u, known, isNamed, -⟩ := sound.names.namedIs
      (List.getElem?_eq_some_iff.2 ⟨inside, level'⟩) here
    obtain ⟨u', known', same⟩ := sent'.same known
    cases found.symm.trans known'
    exact same.isTemp.trans isNamed
  have vacated' : vacated.allocator.shape = closed.allocator.shape :=
    third.forM (P := fun mid => mid.allocator.shape = closed.allocator.shape) rfl
      fun r _ mid mid' kept ran => by
        obtain ⟨-, rfl⟩ | ⟨id, -, parted⟩ := ran_vacate ran
        · exact kept
        · exact (shape_unbind parted).trans kept
  have empty : vacated.allocator.temps = [] := by
    have alive : vacated.allocator.shape.alive = 0 := by
      rw [vacated', closed', sent'.shape]
      exact none
    exact List.map_eq_nil_iff.1 ((Multiset.coe_eq_zero _).1 alive)
  have dropped' : dropped = vacated := by
    simp only [discardTemps, ran_bind, ran_look, ran_pure, empty, and_assoc, exists_and_left,
      exists_eq_left] at fourth
    obtain ⟨_, mid, ran, -, rfl⟩ := fourth
    exact ran_forM_nil.1 ran
  have bound' : bound.allocator.shape = { dropped.allocator.shape with inside := false } :=
    fifth.forM (P := fun mid => mid.allocator.shape = { dropped.allocator.shape with inside := false })
      rfl fun binding _ mid mid' kept ran => by
        obtain ⟨v, -, rfl⟩ := ran_rebind ran
        exact (shape_of_same rfl rfl rfl rfl rfl).trans kept
  have same : (on (fun a => { a with held := [] }) bound).allocator.shape = bound.allocator.shape :=
    shape_of_same rfl rfl rfl rfl rfl
  rw [same, bound', dropped', vacated', closed', sent'.shape, sent'.root]

theorem shape_saveForCall (sound : Sound [] w.allocator) (ran : Ran saveForCall w x w') :
    w'.allocator.shape = w.allocator.shape := by
  obtain ⟨xs, left, emptied, saved, words, stored, parked, saving, parking, rfl⟩ :=
    ran_saveForCall ran
  have emptied' : Sound [] left.allocator ∧ left.allocator.shape = w.allocator.shape := by
    refine emptied.mapM (P := fun mid => Sound [] mid.allocator ∧
      mid.allocator.shape = w.allocator.shape) ⟨sound, rfl⟩ fun r _ mid x mid' kept ran => ?_
    refine ⟨(leaves_one kept.1 ran).sound, Eq.trans ?_ kept.2⟩
    obtain ⟨-, -, rfl⟩ | ⟨id, v, -, -, ⟨-, -, rfl⟩ | ⟨-, -, stored, wrote, parted⟩⟩ :=
      ran_leaveForCall kept.1.registers.toOwners ran
    · rfl
    · rfl
    · refine (shape_unbind parted).trans ?_
      obtain ⟨-, wrote⟩ | ⟨-, rfl⟩ := wrote
      · exact (writeBack_keeps wrote).shape
      · rfl
  have stored' : stored.allocator.shape = left.allocator.shape := by
    rcases saving with ⟨-, -, saving⟩ | ⟨outside, -, saving⟩
    · rw [(ran_saveOnStack saving).1]
      exact shape_of_same rfl rfl rfl rfl rfl
    · refine saving.mapM (P := fun mid => mid.allocator.shape = left.allocator.shape) rfl
        fun temp _ mid x mid' kept ran => ?_
      simp only [saveInGlobal, ran_bind, ran_look, ran_change, ran_emit, ran_pure, and_assoc,
        exists_and_left, exists_eq_left, exists_const] at ran
      rw [ran.2]
      exact (shape_of_same rfl rfl rfl rfl rfl).trans kept
  have parked' : parked.allocator.shape = stored.allocator.shape :=
    parking.forM (P := fun mid => mid.allocator.shape = stored.allocator.shape) rfl
      fun s _ mid mid' kept ran => by
        obtain ⟨v, -, rfl⟩ := ran_park ran
        exact (shape_of_same rfl rfl rfl rfl rfl).trans kept
  exact (shape_of_same rfl rfl rfl rfl rfl).trans (parked'.trans (stored'.trans emptied'.2))

theorem shape_restoreAfterCall (ran : Ran restoreAfterCall w x w') :
    w'.allocator.shape = w.allocator.shape := by
  obtain ⟨save, calls, back, -, loaded, last⟩ := ran_restoreAfterCall ran
  have back' : back.allocator.shape = w.allocator.shape :=
    loaded.forM (P := fun mid => mid.allocator.shape = w.allocator.shape)
      (shape_of_same rfl rfl rfl rfl rfl) fun s _ mid mid' kept ran => by
        obtain ⟨v, -, rfl⟩ := ran_unpark ran
        exact (shape_of_same rfl rfl rfl rfl rfl).trans kept
  rcases last with ⟨-, rfl⟩ | ⟨-, rfl⟩
  · exact (shape_of_same rfl rfl rfl rfl rfl).trans back'
  · exact back'

end Alloc

end SmallC
