import Mathlib
import SmallC.Program.Link
import SmallC.Proofs.Entries

/-!
When entries link, and what they link to. Entries link exactly when no label stands at two addresses
and every target refers to a label that stands somewhere; every instruction then keeps its place and
its target resolves to the address of the label, as a distance where the instruction is relative.
-/
namespace SmallC

/-- A label is bound to the entry at an address. -/
def LabelAt (es : List Entry) (label : String) (address : Nat) : Prop :=
  ∃ e, es[address]? = some e ∧ e.label = some label

/-- Entries whose labels are unambiguous and whose targets all refer to one. -/
structure Linkable (es : List Entry) : Prop where
  unique : ∀ {label a b}, LabelAt es label a → LabelAt es label b → a = b
  bound : ∀ {e t}, e ∈ es → e.target? = some t → ∃ a, LabelAt es t.label a

/-- An instruction at an address as linking leaves it. -/
def LinksTo (es : List Entry) (address : Nat) (i linked : MachineInstr) : Prop :=
  match i.target? with
  | none => linked = i
  | some t => ∃ a, LabelAt es t.label a ∧
      linked = i.mapTarget fun t => { t with resolved := some (Link.resolution i address a) }

/-- A program whose instructions are those of some entries, linked. -/
structure Linked (es : List Entry) (p : Program) : Prop where
  linkable : Linkable es
  size : p.size = es.length
  instr : ∀ {a e}, es[a]? = some e → ∃ linked, p.instr? a = some linked ∧ LinksTo es a e.instr linked

namespace Link

theorem mem_addressesFrom {es : List Entry} {start a : Nat} {label : String} :
    (label, a) ∈ addressesFrom start es ↔ ∃ i, LabelAt es label i ∧ a = start + i := by
  induction es generalizing start with
  | nil => simp [addressesFrom, LabelAt]
  | cons e rest ih =>
    have later : (∃ i, LabelAt (e :: rest) label i ∧ a = start + i) ↔
        (e.label = some label ∧ a = start) ∨ ∃ i, LabelAt rest label i ∧ a = start + 1 + i := by
      constructor
      · rintro ⟨i, labelled, rfl⟩
        cases i with
        | zero =>
          obtain ⟨e', at', label'⟩ := labelled
          cases at'
          exact .inl ⟨label', rfl⟩
        | succ i => exact .inr ⟨i, labelled, by omega⟩
      · rintro (⟨label', rfl⟩ | ⟨i, labelled, rfl⟩)
        · exact ⟨0, ⟨e, rfl, label'⟩, rfl⟩
        · exact ⟨i + 1, labelled, by omega⟩
    rw [later]
    unfold addressesFrom
    split
    · next own bound =>
      rw [List.mem_cons, ih, bound]
      simp only [Prod.mk.injEq, Option.some.injEq]
      exact or_congr_left ⟨fun ⟨a, b⟩ => ⟨a.symm, b⟩, fun ⟨a, b⟩ => ⟨a.symm, b⟩⟩
    · next unbound =>
      rw [ih, unbound]
      simp

theorem mem_addresses {es : List Entry} {a : Nat} {label : String} :
    (label, a) ∈ addresses es ↔ LabelAt es label a := by
  rw [addresses, mem_addressesFrom]
  constructor
  · rintro ⟨i, labelled, rfl⟩
    rwa [Nat.zero_add]
  · intro labelled
    exact ⟨a, labelled, (Nat.zero_add a).symm⟩

theorem addressesFrom_lt {es : List Entry} {start a : Nat} {label : String}
    (member : (label, a) ∈ addressesFrom start es) : start ≤ a := by
  obtain ⟨i, -, rfl⟩ := mem_addressesFrom.1 member
  exact Nat.le_add_right start i

/-- Distinct labels stand at distinct addresses, so labels repeat only where one stands twice. -/
theorem nodup_labels_iff {es : List Entry} {start : Nat} :
    ((addressesFrom start es).map Prod.fst).Nodup ↔
      ∀ label a b, (label, a) ∈ addressesFrom start es → (label, b) ∈ addressesFrom start es →
        a = b := by
  induction es generalizing start with
  | nil => simp [addressesFrom]
  | cons e rest ih =>
    unfold addressesFrom
    split
    · next own bound =>
      rw [List.map_cons, List.nodup_cons, ih]
      constructor
      · rintro ⟨fresh, unique⟩ label a b first second
        rcases List.mem_cons.1 first with same | first <;>
          rcases List.mem_cons.1 second with same' | second
        · cases same
          cases same'
          rfl
        · cases same
          exact absurd (List.mem_map_of_mem second) fresh
        · cases same'
          exact absurd (List.mem_map_of_mem first) fresh
        · exact unique label a b first second
      · intro unique
        refine ⟨fun member => ?_, fun label a b first second =>
          unique label a b (List.mem_cons_of_mem _ first) (List.mem_cons_of_mem _ second)⟩
        obtain ⟨⟨label, a⟩, later, rfl⟩ := List.mem_map.1 member
        have same := unique label start a List.mem_cons_self (List.mem_cons_of_mem _ later)
        have := addressesFrom_lt later
        omega
    · exact ih

theorem firstRepeat_eq_none {seen labels : List String} :
    firstRepeat seen labels = none ↔ labels.Nodup ∧ ∀ label ∈ labels, label ∉ seen := by
  induction labels generalizing seen with
  | nil => simp [firstRepeat]
  | cons label rest ih =>
    unfold firstRepeat
    split
    · next repeated => simp [repeated]
    · next fresh =>
      rw [ih]
      simp only [List.nodup_cons, List.mem_cons, not_or, forall_eq_or_imp]
      constructor
      · rintro ⟨distinct, unseen⟩
        exact ⟨⟨fun member => (unseen label member).1 rfl, distinct⟩, fresh,
          fun other member => (unseen other member).2⟩
      · rintro ⟨⟨fresh', distinct⟩, -, unseen⟩
        refine ⟨distinct, fun other member => ⟨?_, unseen other member⟩⟩
        rintro rfl
        exact fresh' member

/-! ### Entry by entry -/

/-- The entry with its target resolved, given the bound labels. -/
def resolve (bound : List (String × Nat)) (address : Nat) (e : Entry) : Except LinkError Entry :=
  match e.target? with
  | none => .ok e
  | some target =>
    match bound.lookup target.label with
    | none => .error (.missingLabel target.label)
    | some destination => .ok (settle (resolution e.instr address destination) e)

/-- Entries with their targets resolved, from a first address on. -/
def resolveFrom (bound : List (String × Nat)) (address : Nat) :
    List Entry → Except LinkError (List Entry)
  | [] => .ok []
  | e :: rest => return (← resolve bound address e) :: (← resolveFrom bound (address + 1) rest)

/-- The entry that resolution leaves, where the label that the target refers to is bound. -/
theorem resolve_eq_ok_iff {bound : List (String × Nat)} {a : Nat} {e e' : Entry} :
    resolve bound a e = .ok e' ↔
      match e.target? with
      | none => e' = e
      | some t => ∃ d, bound.lookup t.label = some d ∧ e' = settle (resolution e.instr a d) e := by
  unfold resolve
  cases target : e.target? with
  | none => simp [eq_comm]
  | some t =>
    cases found : bound.lookup t.label with
    | none => simp [found]
    | some d => simp [found, eq_comm]

theorem resolveFrom_cons {bound : List (String × Nat)} {start : Nat} {e : Entry}
    {rest out : List Entry} : resolveFrom bound start (e :: rest) = .ok out ↔
      ∃ e' rest', resolve bound start e = .ok e' ∧ resolveFrom bound (start + 1) rest = .ok rest' ∧
        out = e' :: rest' := by
  rw [resolveFrom]
  cases resolve bound start e with
  | error err => simp [bind, Except.bind]
  | ok e' =>
    cases resolveFrom bound (start + 1) rest with
    | error err => simp [bind, Except.bind]
    | ok rest' => simp [bind, Except.bind, pure, Except.pure, eq_comm]

/-- The entries as writing each resolution leaves them. -/
def settleAll (values : List (Nat × Int)) (entries : List Entry) : List Entry :=
  values.foldl (fun entries (address, value) => entries.modify address (settle value)) entries

/-- To look up all labels and then to write what was found comes to resolving entry by entry. -/
theorem settleAll_resolutionsFrom {bound : List (String × Nat)} (before es : List Entry) :
    (resolutionsFrom bound before.length es).map (settleAll · (before ++ es)) =
      (resolveFrom bound before.length es).map (before ++ ·) := by
  induction es generalizing before with
  | nil => rfl
  | cons e rest ih =>
    -- what is behind stays as it is as the entry in front is settled
    have behind : ∀ e' : Entry, (resolutionsFrom bound (before.length + 1) rest).map (settleAll · (before ++ e' :: rest)) =
        (resolveFrom bound (before.length + 1) rest).map (before ++ e' :: ·) := by
      intro e'
      have shifted := ih (before ++ [e'])
      simpa using shifted
    rw [resolutionsFrom, resolveFrom, resolve]
    cases target : e.target? with
    | none =>
      refine (behind e).trans ?_
      cases resolveFrom bound (before.length + 1) rest <;> rfl
    | some t =>
      cases there : bound.lookup t.label with
      | none => simp only [there]; rfl
      | some d =>
        have settled := behind (settle (resolution e.instr before.length d) e)
        have first : (before ++ e :: rest).modify before.length (settle (resolution e.instr before.length d)) =
            before ++ settle (resolution e.instr before.length d) e :: rest :=
          List.modifyTailIdx_add (List.modifyHead _) 0 before (e :: rest)
        rw [← first] at settled
        simp only [there]
        refine .trans ?_ (settled.trans ?_)
        · cases resolutionsFrom bound (before.length + 1) rest <;> rfl
        · cases resolveFrom bound (before.length + 1) rest <;> rfl

theorem resolveFrom_spec {bound : List (String × Nat)} {start : Nat} {es out : List Entry}
    (resolved : resolveFrom bound start es = .ok out) : out.length = es.length ∧
      ∀ {a e}, es[a]? = some e → ∃ e', out[a]? = some e' ∧ resolve bound (start + a) e = .ok e' := by
  induction es generalizing start out with
  | nil =>
    cases resolved
    simp
  | cons e rest ih =>
    obtain ⟨e', rest', first, behind, rfl⟩ := resolveFrom_cons.1 resolved
    obtain ⟨length, each⟩ := ih behind
    refine ⟨by simp [length], fun {a e₁} found => ?_⟩
    cases a with
    | zero =>
      cases found
      exact ⟨e', rfl, first⟩
    | succ a =>
      obtain ⟨e₂, found', first'⟩ := each found
      exact ⟨e₂, found', by rw [← first']; congr 1; omega⟩

theorem resolveFrom_total {bound : List (String × Nat)} (start : Nat) {es : List Entry}
    (resolvable : ∀ e ∈ es, ∀ a, ∃ e', resolve bound a e = .ok e') :
    ∃ out, resolveFrom bound start es = .ok out := by
  induction es generalizing start with
  | nil => exact ⟨[], rfl⟩
  | cons e rest ih =>
    obtain ⟨e', first⟩ := resolvable e List.mem_cons_self start
    obtain ⟨rest', behind⟩ := ih (start + 1) fun e member =>
      resolvable e (List.mem_cons_of_mem _ member)
    exact ⟨e' :: rest', resolveFrom_cons.2 ⟨e', rest', first, behind, rfl⟩⟩

end Link

open Link

theorem nodup_of_unique {es : List Entry}
    (unique : ∀ {label a b}, LabelAt es label a → LabelAt es label b → a = b) :
    ((addresses es).map Prod.fst).Nodup :=
  nodup_labels_iff.2 fun _ _ _ first second => unique (mem_addresses.1 first) (mem_addresses.1 second)

theorem Linkable.nodup {es : List Entry} (linkable : Linkable es) :
    ((addresses es).map Prod.fst).Nodup :=
  nodup_of_unique linkable.unique

theorem forM_settle (values : List (Nat × Int)) (es : List Entry) :
    (values.forM fun (address, value) => modify fun entries => entries.modify address (settle value) :
      EStateM LinkError (List Entry) Unit) es = .ok () (settleAll values es) := by
  induction values generalizing es with
  | nil => rfl
  | cons first rest ih => exact ih _

/-- Linking writes all resolutions, or finds an error and leaves the entries as they were. -/
theorem linkInPlace_eq (es : List Entry) : linkInPlace es =
    match resolutions es with
    | .error e => .error e es
    | .ok values => .ok () (settleAll values es) := by
  change (match resolutions es with
    | .error e => throw e
    | .ok values => _ : EStateM LinkError (List Entry) Unit) es = _
  cases resolutions es with
  | error e => rfl
  | ok values => exact forM_settle values es

theorem linkEntries_eq (es : List Entry) : linkEntries es =
    match firstRepeat [] ((addresses es).map Prod.fst) with
    | some label => .error (.duplicateLabel label)
    | none => resolveFrom (addresses es) 0 es := by
  have settled : (resolutionsFrom (addresses es) 0 es).map (settleAll · es) = resolveFrom (addresses es) 0 es :=
    (settleAll_resolutionsFrom [] es).trans (congrFun Except.map_id _)
  rw [linkEntries, linkInPlace_eq, resolutions]
  cases firstRepeat [] ((addresses es).map Prod.fst) with
  | some label => rfl
  | none =>
    refine .trans ?_ settled
    dsimp only
    cases resolutionsFrom (addresses es) 0 es <;> rfl

theorem linkEntries_eq_ok_iff {es out : List Entry} : linkEntries es = .ok out ↔
    ((addresses es).map Prod.fst).Nodup ∧ resolveFrom (addresses es) 0 es = .ok out := by
  rw [linkEntries_eq]
  cases repeated : firstRepeat [] ((addresses es).map Prod.fst) with
  | some label =>
    have : ¬ ((addresses es).map Prod.fst).Nodup := fun distinct => by
      rw [firstRepeat_eq_none.2 ⟨distinct, by simp⟩] at repeated
      cases repeated
    simp [this]
  | none => simp [(firstRepeat_eq_none.1 repeated).1]

/-- A program that entries link to has their instructions, linked. -/
theorem linked_of_link {es : List Entry} {p : Program} (linked : Program.link es = .ok p) :
    Linked es p := by
  rw [Program.link] at linked
  cases out? : linkEntries es with
  | error err => simp [out?, Except.map] at linked
  | ok out =>
    simp only [out?, Except.map, Except.ok.injEq] at linked
    subst linked
    obtain ⟨distinct, resolved⟩ := linkEntries_eq_ok_iff.1 out?
    obtain ⟨length, each⟩ := resolveFrom_spec resolved
    have linksTo : ∀ {a e e'}, es[a]? = some e → resolve (addresses es) (0 + a) e = .ok e' →
        LinksTo es a e.instr e'.instr := by
      intro a e e' _ ok
      rw [Nat.zero_add, resolve_eq_ok_iff] at ok
      change match e.target? with | none => _ | some t => _
      split at ok
      · rw [ok]
      · obtain ⟨d, found, rfl⟩ := ok
        exact ⟨d, mem_addresses.1 ((lookup_eq_some_of_once distinct).1 found), rfl⟩
    refine ⟨⟨fun {label a b} first second => ?_, fun {e t} member target => ?_⟩,
      by simp [Program.size, length], fun {a e} found => ?_⟩
    · exact nodup_labels_iff.1 distinct label a b (mem_addresses.2 first) (mem_addresses.2 second)
    · obtain ⟨a, found⟩ := List.mem_iff_getElem?.1 member
      obtain ⟨e', -, ok⟩ := each found
      rw [resolve_eq_ok_iff, target] at ok
      obtain ⟨d, bound, -⟩ := ok
      exact ⟨d, mem_addresses.1 ((lookup_eq_some_of_once distinct).1 bound)⟩
    · obtain ⟨e', found', ok⟩ := each found
      exact ⟨e'.instr, by simp [Program.instr?, found'], linksTo found ok⟩

/-- Entries with unambiguous labels and bound targets link. -/
theorem Linkable.link {es : List Entry} (linkable : Linkable es) : ∃ p, Program.link es = .ok p := by
  have resolvable : ∀ e ∈ es, ∀ a, ∃ e', resolve (addresses es) a e = .ok e' := by
    intro e member a
    cases target : e.target? with
    | none => exact ⟨e, by rw [resolve_eq_ok_iff, target]⟩
    | some t =>
      obtain ⟨d, labelled⟩ := linkable.bound member target
      have found := (lookup_eq_some_of_once linkable.nodup).2 (mem_addresses.2 labelled)
      rw [resolve, target]
      simp only [found]
      exact ⟨_, rfl⟩
  obtain ⟨out, resolved⟩ := resolveFrom_total 0 resolvable
  refine ⟨⟨out.toArray⟩, ?_⟩
  rw [Program.link, linkEntries_eq_ok_iff.2 ⟨linkable.nodup, resolved⟩]
  rfl

end SmallC
