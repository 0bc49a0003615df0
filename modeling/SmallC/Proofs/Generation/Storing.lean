import SmallC.Generation.Statement
import SmallC.Proofs.Generation.Deciding

/-!
Variables that are written. The number of one variable changes, and what others rely on in the meantime stays what
it was. A variable gets a register to write into, whether its value was in one or not; what it was before is lost.
-/
namespace SmallC

open Allocator Machine

/-- Code that gives a variable a word, and leaves what is relied on alone otherwise. -/
structure Assigns (S : Site) (K : VarId → Prop) (p : Progress) (id : VarId) (p' : Progress)
    (R : (VarId → Option Word) → Word → Prop) : Prop where
  along : Along K [] p p'
  runs : S.Hosts p' → ∀ {last m w}, Abreast S p last m → R last w →
    ∃ last' m', Abreast S p' last' m' ∧ Reaches S.entries m m' ∧ last' id = some w ∧
      ∀ {i}, K i → i ≠ id → last' i = last i

variable {S : Site} {K L : VarId → Prop} {kept : List Reg} {p p' p₁ p₂ : Progress} {m m' : Machine}
  {last last' : VarId → Option Word} {c : Context} {id : VarId} {r rd rs : Reg} {u : Variable} {name v : String} {w : Word}
  {R R' : (VarId → Option Word) → Word → Prop} {code : Code}

namespace Assigns

theorem weaken (assigns : Assigns S K p id p' R) (holds : ∀ {last w}, R' last w → R last w) :
    Assigns S K p id p' R' :=
  ⟨assigns.along, fun hosts _ _ _ abreast value => assigns.runs hosts abreast (holds value)⟩

/-- More code is run through that leaves all that is known alone. -/
theorem extend (assigns : Assigns S K p id p₁ R) (flows : RunsThrough S p₁.allocator.Known [] p₁ p') :
    Assigns S K p id p' R := by
  have known : ∀ {i}, K i → p₁.allocator.Known i := assigns.along.stands.still
  refine ⟨assigns.along.trans (flows.along.mono known (List.Subset.refl _)), fun hosts last m w abreast value => ?_⟩
  obtain ⟨last₁, m₁, abreast₁, reaches, own, others⟩ := assigns.runs (hosts.before flows.along) abreast value
  obtain ⟨m₂, comes⟩ := flows.runs hosts abreast₁
  exact ⟨last₁, m₂, comes.abreast, reaches.trans comes.reaches, own, others⟩

end Assigns

/-- A number is computed first, and then given to the variable. -/
theorem Produces.assigns {Q : (VarId → Option Word) → Number → Prop} {T : Number → Word → Prop}
    (produces : Produces S K p v p₁ Q)
    (assigns : Assigns S K p₁ id p' fun last w => ∃ x, Gen.Denotes p₁.allocator last v x ∧ T x w) :
    Assigns S K p id p' fun last w => ∃ x, Q last x ∧ T x w := by
  refine ⟨produces.along.trans assigns.along, fun hosts last m w abreast => ?_⟩
  rintro ⟨x, value, gives⟩
  obtain ⟨last₁, m₁, comes, denotes⟩ := produces.runs (hosts.before assigns.along) abreast value
  obtain ⟨last₂, m₂, abreast₂, reaches, own, others⟩ := assigns.runs hosts comes.abreast ⟨x, denotes, gives⟩
  exact ⟨last₂, m₂, abreast₂, comes.reaches.trans reaches, own,
    fun counts apart => (others counts apart).trans (comes.same counts)⟩

/-- The variable that a register waits for has the value that is in it. -/
theorem Abreast.learn (abreast : Abreast S p (Function.update last id none) m) (poised : Alloc.Poised id r p.allocator)
    (holds : m.reg r = w) : Abreast S p (Function.update last id (some w)) m := by
  obtain ⟨v, found, there, dirty⟩ := poised
  refine ⟨?_, abreast.here⟩
  rw [← Function.update_idem (β := fun _ => Option Word) none]
  refine abreast.agrees.learn found ⟨fun there' => ?_, fun there' => ?_, fun isNamed _ clean => ?_⟩
  · cases there.symm.trans there'
    exact holds
  · cases there.symm.trans there'
  · cases (dirty isNamed).symm.trans clean

namespace Gen

open Alloc

/-- What a name of the source stands for does not depend on where values are. -/
theorem find?_along (named : isTempName name = false) (orderly : p.Orderly L []) (along : Along K kept p p') :
    p'.allocator.find? name = p.allocator.find? name := by
  rw [Allocator.find?, Allocator.find?, lookup_of_named orderly.sound.names named,
    lookup_of_named along.orderly.sound.names named, along.root, along.inner]

/-- A variable waits for its value in a register. -/
theorem prepare_writes (orderly : p.Orderly K kept)
    (ran : (Gen.alloc (Alloc.prepareWrite name)).exec c p = .ok (r, p')) :
    Along K kept p p' ∧ ∃ id, p.allocator.find? name = some id ∧ Poised id r p'.allocator ∧
      (S.Hosts p' → ∀ {last m}, Abreast S p last m → ∃ m', Abreast S p' (Function.update last id none) m' ∧
        Reaches S.entries m m' ∧ ∀ s ∈ kept, m'.reg s = m.reg s) := by
  obtain ⟨w, did, rfl⟩ := exec_alloc ran
  have steady := prepareWrite_steady orderly.sound orderly.calm did
  have sound := prepareWrite_sound orderly.sound did
  have along := alloc_along orderly steady sound
  obtain ⟨id, resolved, v, found, there, dirty⟩ : ∃ id, p.allocator.find? name = some id ∧
      Poised id r w.allocator := by
    obtain ⟨id, v, resolved, found, -, ⟨there, rfl⟩ | ⟨away, mid, u, took, known, rfl⟩⟩ := ran_prepareWrite did
    · exact ⟨id, resolved, _, var?_setVar_self (a := p.allocator.used id r) found _, there, fun _ => rfl⟩
    · have bound : (mid.allocator.bound id r u).var? id = some { u with storage := .register r } := by
        rw [var?_bound known, if_pos rfl]
      exact ⟨id, resolved, _, var?_setVar_self bound _, rfl, fun _ => rfl⟩
  refine ⟨along, id, resolved, ⟨v, found, there, dirty⟩, fun hosts last m abreast => ?_⟩
  obtain ⟨m₁, other, carried, t, found', there', -⟩ := prepareWrite_carried ⟨orderly.sound, abreast.agrees, rfl⟩ hosts.room did
  -- both variables are in the one register
  have owned := sound.registers.owner.2 ⟨v, found, there⟩
  cases owned.symm.trans (sound.registers.owner.2 ⟨t, found', there'⟩)
  exact alloc_comes orderly.pooled steady.spares hosts abreast.here carried

/-- A value is copied from one register to another, unless it is there. -/
structure Copies (S : Site) (K : VarId → Prop) (kept : List Reg) (id : VarId) (rs : Reg) (p p' : Progress) : Prop where
  along : Along K kept p p'
  same : p'.allocator = p.allocator
  runs : S.Hosts p' → ∀ {last m}, Abreast S p (Function.update last id none) m →
    ∃ m', Abreast S p' (Function.update last id (some (m.reg rs))) m' ∧ Reaches S.entries m m'

theorem copies_move (orderly : p.Orderly K kept) (poised : Poised id rd p.allocator) (inPool : rd.isPool = true)
    (inPool' : rs.isPool = true) (ran : (Gen.emit (MachineInstr.move rd rs)).exec c p = .ok ((), p')) :
    Copies S K kept id rs p p' := by
  rw [emit_eq] at ran
  have own : ∀ i ∈ [MachineInstr.move rd rs], MachineInstr.Local i := by
    refine List.forall_mem_singleton.2 ?_
    exact local_alu (Reg.ne_returnAddress inPool) (by decide) (Reg.ne_returnAddress inPool')
  obtain ⟨along, same⟩ := emitAll_along orderly own ran
  refine ⟨along, same, fun hosts last m abreast => ?_⟩
  obtain ⟨m', abreast', reaches⟩ := emitAll_leaves orderly.sound ran hosts abreast poised
    (leaves_move inPool abreast.agrees.zero)
  rw [Function.update_idem] at abreast'
  exact ⟨m', abreast', reaches⟩

theorem copies_none (orderly : p.Orderly K kept) (poised : Poised id rs p.allocator) : Copies S K kept id rs p p :=
  ⟨.refl orderly, rfl, fun _ _ m abreast => ⟨m, abreast.learn poised rfl, .refl⟩⟩

/-- A variable that was written may be noted to be. -/
theorem markWritten_flows (orderly : p.Orderly K kept)
    (ran : (Gen.alloc (Alloc.markWritten name)).exec c p = .ok ((), p')) : RunsThrough S K kept p p' := by
  obtain ⟨w, did, rfl⟩ := exec_alloc ran
  exact flows_alloc orderly (markWritten_steady orderly.calm did) (markWritten_sound orderly.sound did)
    fun carried room => markWritten_carried carried room did

/-- A value that was read into a register is copied into a variable, and dropped if it is a temporary. -/
theorem store_assigns (orderly : p.Orderly K [rs]) (inPool : rs.isPool = true) (loose : Loose K v p.allocator)
    (resolved : p.allocator.find? name = some id) (ran : (do
      let rd ← Gen.alloc (Alloc.prepareWrite name)
      if rd ≠ rs then Gen.emit (MachineInstr.move rd rs)
      free v
      Gen.alloc (Alloc.markWritten name)
      releaseHolds : Gen Unit).exec c p = .ok ((), p')) :
    Along K [] p p' ∧ (S.Hosts p' → ∀ {last m}, Abreast S p last m →
      ∃ last' m', Abreast S p' last' m' ∧ Reaches S.entries m m' ∧ last' id = some (m.reg rs) ∧
        ∀ {i}, K i → i ≠ id → last' i = last i) := by
  obtain ⟨rd, p₁, prepared, ran⟩ := exec_bind_ok ran
  obtain ⟨along, id', resolved', poised, prepares⟩ := prepare_writes (S := S) orderly prepared
  cases resolved.symm.trans resolved'
  have inPool' : rd.isPool = true := by
    obtain ⟨t, found, there, -⟩ := poised
    exact (along.orderly.calm.numeric found).pooled there
  obtain ⟨p₂, copies, ran⟩ : ∃ p₂, Copies S K [rs] id rs p₁ p₂ ∧ (do
      free v
      Gen.alloc (Alloc.markWritten name)
      releaseHolds : Gen Unit).exec c p₂ = .ok ((), p') := by
    split at ran
    · obtain ⟨⟨⟩, p₂, moved, ran⟩ := exec_bind_ok ran
      exact ⟨p₂, copies_move along.orderly poised inPool' inPool moved, ran⟩
    · next same =>
      rw [Decidable.not_not.1 same] at poised
      exact ⟨p₁, copies_none along.orderly poised, ran⟩
  obtain ⟨⟨⟩, p₃, freed, ran⟩ := exec_bind_ok ran
  obtain ⟨⟨⟩, p₄, marked, released⟩ := exec_bind_ok ran
  have upto : Along K [rs] p p₂ := along.trans copies.along
  have frees := free_flows (S := S) upto.orderly (Loose.along loose orderly upto) freed
  have marks := markWritten_flows (S := S) frees.along.orderly marked
  have ends := releaseHolds_flows (S := S) marks.along.orderly released
  have behind : RunsThrough S K [] p₂ p' :=
    ((frees.trans marks).mono (fun counts => counts) (List.nil_subset _)).trans ends
  refine ⟨(upto.mono (fun counts => counts) (List.nil_subset _)).trans behind.along, fun hosts last m abreast => ?_⟩
  have hosts₂ := hosts.before behind.along
  obtain ⟨m₁, abreast₁, reaches, still⟩ := prepares (hosts₂.before copies.along) abreast
  obtain ⟨m₂, abreast₂, reaches'⟩ := copies.runs hosts₂ abreast₁
  obtain ⟨m₃, comes⟩ := behind.runs hosts abreast₂
  refine ⟨_, m₃, comes.abreast, (reaches.trans reaches').trans comes.reaches, ?_,
    fun counts apart => Function.update_of_ne apart _ _⟩
  rw [Function.update_self, still rs List.mem_cons_self]

/-- A value is copied into a variable, which keeps its kind. -/
theorem assignName_assigns (named : isTempName name = false) (orderly : p.Orderly K []) (loose : Loose K v p.allocator)
    (resolved : p.allocator.find? name = some id) (ran : (assignName name v).exec c p = .ok ((), p')) :
    ∃ u, p.allocator.var? id = some u ∧ Assigns S K p id p' fun last w =>
      ∃ x, Denotes p.allocator last v x ∧ w = (x.convert u.kind).word := by
  obtain ⟨kind, p₁, noted, ran⟩ := exec_bind_ok ran
  obtain ⟨rfl, i, u, resolved', found, rfl⟩ := exec_arithmeticKind orderly.calm.numeric noted
  cases resolved.symm.trans resolved'
  refine ⟨u, found, ?_⟩
  obtain ⟨v', p₁, converted, ran⟩ := exec_bind_ok ran
  have produces := convert_produces (S := S) orderly loose converted
  have resolved₁ : p₁.allocator.find? name = some id := (find?_along named orderly produces.along).trans resolved
  have assigns : Assigns S K p₁ id p' fun last w => ∃ x, Denotes p₁.allocator last v' x ∧ w = x.word := by
    split at ran
    · next same =>
      cases ran
      refine ⟨.refl produces.along.orderly, fun _ last m w abreast => ?_⟩
      rintro ⟨x, ⟨i, t, resolved', found', -, written, -⟩, rfl⟩
      rw [same, resolved₁] at resolved'
      cases resolved'
      exact ⟨last, m, abreast, .refl, written, fun _ _ => rfl⟩
    · obtain ⟨rs, p₂, fetched, ran⟩ := exec_bind_ok ran
      obtain ⟨flows, reads, held⟩ := fetch_flows (S := S) produces.along.orderly fetched
      have resolved₂ := (find?_along named produces.along.orderly flows.along).trans resolved₁
      obtain ⟨along, stores⟩ := store_assigns (S := S) held (held.pooled rs List.mem_cons_self)
        (produces.loose.along produces.along.orderly flows.along) resolved₂ ran
      refine ⟨flows.along.trans along, fun hosts last m w abreast => ?_⟩
      rintro ⟨x, denotes, rfl⟩
      obtain ⟨m₁, comes⟩ := flows.runs (hosts.before along) abreast
      obtain ⟨last₂, m₂, abreast₂, reaches, own, others⟩ := stores hosts comes.abreast
      rw [reads.value denotes held.calm.numeric comes.abreast.agrees] at own
      exact ⟨last₂, m₂, abreast₂, comes.reaches.trans reaches, own, others⟩
  apply (produces.assigns assigns).weaken
  rintro last w ⟨x, denotes, rfl⟩
  exact ⟨x.convert u.kind, ⟨x, denotes, rfl⟩, rfl⟩

/-- A literal stands for its value at the scale of a kind. -/
theorem constant_value {e : Expr} {kind : NumberKind} {n : Int} {env : Env} {x : Number}
    (known : e.constant? kind = some n) (value : e.eval env = some x) : (x.convert kind).word = Word.ofInt n := by
  cases e with
  | int line i =>
    simp only [Expr.eval, Expr.ofLiteral, Option.ite_none_right_eq_some, Option.some.injEq] at value
    obtain ⟨-, rfl⟩ := value
    cases kind with
    | int =>
      cases known
      rfl
    | fixed =>
      cases known
      exact Word.shiftLeft_ofInt i
  | fixed line i =>
    simp only [Expr.eval, Expr.ofLiteral, Option.ite_none_right_eq_some, Option.some.injEq] at value
    obtain ⟨fits, rfl⟩ := value
    cases kind with
    | int =>
      cases known
      exact Word.sshiftRight_ofInt fits
    | fixed =>
      cases known
      rfl
  | _ => cases known

/-- An expression is computed into a variable. -/
theorem assignCode_assigns (valued : Valued S c code) (named : isTempName name = false) (orderly : p.Orderly K [])
    (covers : Covers K p.allocator) (resolved : p.allocator.find? name = some id) (counts : K id)
    (ran : (assignCode name code).exec c p = .ok ((), p')) :
    ∃ u, p.allocator.var? id = some u ∧ Assigns S K p id p' fun last w =>
      ∃ x, code.expr.Means p.allocator last x ∧ w = (x.convert u.kind).word := by
  obtain ⟨kind, p₁, noted, ran⟩ := exec_bind_ok ran
  obtain ⟨rfl, i, u, resolved', found, rfl⟩ := exec_arithmeticKind orderly.calm.numeric noted
  cases resolved.symm.trans resolved'
  refine ⟨u, found, ?_⟩
  dsimp only at ran
  split at ran
  · next n known =>
    obtain ⟨rd, p₁, prepared, ran⟩ := exec_bind_ok ran
    obtain ⟨⟨⟩, p₂, loaded, ran⟩ := exec_bind_ok ran
    obtain ⟨⟨⟩, p₃, marked, released⟩ := exec_bind_ok ran
    obtain ⟨along, id', resolved', poised, prepares⟩ := prepare_writes (S := S) orderly prepared
    cases resolved.symm.trans resolved'
    have inPool : rd.isPool = true := by
      obtain ⟨t, found, there, -⟩ := poised
      exact (along.orderly.calm.numeric found).pooled there
    obtain ⟨along', -⟩ := emitAll_along along.orderly (local_literalCode (Reg.ne_returnAddress inPool) n) loaded
    have marks := markWritten_flows (S := S) along'.orderly marked
    have behind := marks.trans (releaseHolds_flows marks.along.orderly released)
    refine ⟨(along.trans along').trans behind.along, fun hosts last m w abreast => ?_⟩
    rintro ⟨x, ⟨env, -, evaluated⟩, rfl⟩
    have hosts₂ := hosts.before behind.along
    obtain ⟨m₁, abreast₁, reaches, -⟩ := prepares (hosts₂.before along') abreast
    obtain ⟨m₂, abreast₂, reaches'⟩ := emitAll_leaves along.orderly.sound loaded hosts₂ abreast₁ poised
      (leaves_literalCode inPool abreast₁.agrees.zero n)
    obtain ⟨m₃, comes⟩ := behind.runs hosts abreast₂
    refine ⟨_, m₃, comes.abreast, (reaches.trans reaches').trans comes.reaches, ?_, fun counts apart => ?_⟩
    · rw [Function.update_self, constant_value (Option.filter_eq_some_iff.1 known).1 evaluated]
    · rw [Function.update_of_ne apart, Function.update_of_ne apart]
  · obtain ⟨v, p₁, computed, ran⟩ := exec_bind_ok ran
    have produces := valued.produces orderly covers computed
    obtain ⟨t, found₁, stays⟩ := produces.along.stands.stays counts found
    obtain ⟨t', found', assigns⟩ := assignName_assigns (S := S) named produces.along.orderly produces.loose
      ((find?_along named orderly produces.along).trans resolved) ran
    cases found₁.symm.trans found'
    rw [stays.kind] at assigns
    exact produces.assigns assigns

/-- The word that an assignment gives to a variable, given the values of variables. -/
def Assigned (a : Allocator) (name : String) (op : Option WordOp) (value : Expr) (last : VarId → Option Word)
    (w : Word) : Prop :=
  ∃ env old new, Shows env a last ∧ env.find? name = some old ∧ Expr.assigned env op old value = some new ∧
    w = (new.convert old.kind).word

/-- What stops generation on a condition is passed where the condition fails. -/
theorem exec_refuse {α : Type} {q : Prop} [Decidable q] {line : Nat} {fault : SemanticFault} {f : Unit → Gen α} {x : α}
    (ran : (if q then Gen.fail line fault >>= f else f ()).exec c p = .ok (x, p')) :
    ¬ q ∧ (f ()).exec c p = .ok (x, p') := by
  split at ran
  · cases ran
  · next fails => exact ⟨fails, ran⟩

/-- The answer of what is mapped is that of what comes first. -/
theorem exec_map_ok {α β : Type} {f : α → β} {act : Gen α} {y : β} (ran : (f <$> act).exec c p = .ok (y, p')) :
    ∃ x, y = f x ∧ act.exec c p = .ok (x, p') := by
  rw [map_eq_pure_bind] at ran
  obtain ⟨x, mid, ran, ended⟩ := exec_bind_ok ran
  cases ended
  exact ⟨x, rfl, ran⟩

/-- An assignment keeps the kind of its variable, whatever it computes. -/
theorem assigned_kind {op : Option WordOp} {value : Expr} (named : isTempName name = false)
    (resolved : p.allocator.find? name = some id) (found : p.allocator.var? id = some u)
    (assigned : Assigned p.allocator name op value last w) : ∃ env old new, Shows env p.allocator last ∧
      Denotes p.allocator last name old ∧ env.find? name = some old ∧ Expr.assigned env op old value = some new ∧
        w = (new.convert u.kind).word := by
  obtain ⟨env, old, new, shows, known, value, rfl⟩ := assigned
  have denotes := shows name old named known
  exact ⟨env, old, new, shows, denotes, known, value, by rw [denotes.kind_eq resolved found]⟩

/-- A variable is combined with the value of an expression. -/
theorem combine_assigned {op : ArithmeticOp} {l : String} (valued : Valued S c code) (named : isTempName name = false)
    (orderly : p.Orderly K []) (covers : Covers K p.allocator) (computed : code.value.exec c p = .ok (l, p₁))
    (combined : (combine op name l).exec c p₁ = .ok (v, p')) :
    Produces S K p v p' fun last z => ∃ env x y, Shows env p.allocator last ∧ env.find? name = some x ∧
      code.expr.eval env = some y ∧ Number.apply op x y = some z := by
  have first := valued.produces orderly covers computed
  have noTemp : p₁.allocator.temps.lookup name = none := lookup_of_named first.along.orderly.sound.names named
  have second := combine_produces (S := S) first.along.orderly
    (fun id looked => by cases noTemp.symm.trans looked) first.loose combined
  refine ⟨first.along.trans second.along, second.loose, fun hosts last m z abreast => ?_⟩
  rintro ⟨env, x, y, shows, known, value, result⟩
  obtain ⟨last₁, m₁, comes, denotes⟩ := first.runs (hosts.before second.along) abreast ⟨env, shows, value⟩
  have shows₁ : Shows env p₁.allocator last₁ := shows.along orderly covers first.along comes.same
  obtain ⟨last₂, m₂, comes', result⟩ := second.runs hosts comes.abreast
    ⟨x, y, shows₁ name x named known, denotes, fun id looked => (by cases noTemp.symm.trans looked), result⟩
  exact ⟨last₂, m₂, comes.trans comes', result⟩

theorem assignVariable_assigns {whole : Expr} {op : Option WordOp} {calls : CallCode} {line n : Nat}
    (valued : Valued S c code) (named : isTempName name = false) (orderly : p.Orderly K [])
    (covers : Covers K p.allocator)
    (ran : (assignVariable whole op name (Gen.code calls (.var line name n)) code).exec c p = .ok (v, p')) :
    v = name ∧ ∃ id, p.allocator.find? name = some id ∧
      Assigns S K p id p' (Assigned p.allocator name op code.expr) := by
  obtain ⟨defined, p₁, looked, ran⟩ := exec_bind_ok ran
  cases looked
  dsimp only at ran
  obtain ⟨defined, ran⟩ := exec_refuse ran
  have isDefined : (p.allocator.find? name).isSome = true := by simpa only [Allocator.isDefined, not_not] using defined
  obtain ⟨id, resolved⟩ := Option.isSome_iff_exists.1 isDefined
  obtain ⟨isArray, p₁, looked, ran⟩ := exec_bind_ok ran
  cases looked
  dsimp only at ran
  obtain ⟨-, ran⟩ := exec_refuse ran
  have inScope := resolved
  rw [Allocator.find?, lookup_of_named orderly.sound.names named] at inScope
  have counts : K id := covers name id inScope
  -- what is computed first is copied into the variable, which has the kind it had
  have copied : ∀ {l : String} {p₁ p₂ : Progress} {Q : (VarId → Option Word) → Number → Prop},
      Produces S K p l p₁ Q → (assignName name l).exec c p₁ = .ok ((), p₂) → ∃ u, p.allocator.var? id = some u ∧
        Assigns S K p id p₂ fun last w => ∃ x, Q last x ∧ w = (x.convert u.kind).word := fun produces ran => by
    obtain ⟨t, found, assigns⟩ := assignName_assigns (S := S) named produces.along.orderly produces.loose
      ((find?_along named orderly produces.along).trans resolved) ran
    obtain ⟨u, found', stays⟩ := produces.along.stands.old counts found
    rw [stays.kind] at assigns
    exact ⟨u, found', produces.assigns assigns⟩
  obtain ⟨p₁, assigns, hinted⟩ : ∃ p₁, Assigns S K p id p₁ (Assigned p.allocator name op code.expr) ∧
      (do hint code.expr; return name : Gen String).exec c p₁ = .ok (v, p') := by
    cases op with
    | none =>
      obtain ⟨⟨⟩, p₁, assigned, rest⟩ := exec_bind_ok ran
      obtain ⟨u, found, assigns⟩ := assignCode_assigns (S := S) valued named orderly covers resolved counts assigned
      refine ⟨p₁, assigns.weaken fun assigned => ?_, rest⟩
      obtain ⟨env, old, new, shows, -, -, value, rfl⟩ := assigned_kind named resolved found assigned
      exact ⟨new, ⟨env, shows, value⟩, rfl⟩
    | some op =>
      cases op with
      | shift direction =>
        obtain ⟨l, p₁, shifted, ran⟩ := exec_bind_ok ran
        obtain ⟨⟨⟩, p₂, assigned, rest⟩ := exec_bind_ok ran
        rw [Gen.code] at shifted
        obtain ⟨u, found, assigns⟩ := copied
          (shift_produces (variable_valued (S := S) line n named) orderly covers shifted) assigned
        refine ⟨p₂, assigns.weaken fun assigned => ?_, rest⟩
        obtain ⟨env, old, new, shows, -, known, value, rfl⟩ := assigned_kind named resolved found assigned
        obtain ⟨amount, is, rfl⟩ := Option.map_eq_some_iff.1 value
        exact ⟨_, ⟨old, ⟨env, shows, known⟩, amount, is, rfl⟩, rfl⟩
      | arithmetic op =>
        obtain ⟨l, p₁, computed, ran⟩ := exec_bind_ok ran
        obtain ⟨l', p₂, combined, ran⟩ := exec_bind_ok ran
        obtain ⟨⟨⟩, p₃, assigned, rest⟩ := exec_bind_ok ran
        obtain ⟨u, found, assigns⟩ := copied (combine_assigned (S := S) valued named orderly covers computed combined)
          assigned
        refine ⟨p₃, assigns.weaken fun assigned => ?_, rest⟩
        obtain ⟨env, old, new, shows, -, known, value, rfl⟩ := assigned_kind named resolved found assigned
        obtain ⟨y, operand, result⟩ := Option.bind_eq_some_iff.1 value
        exact ⟨new, ⟨env, old, y, shows, known, operand, result⟩, rfl⟩
  obtain ⟨⟨⟩, p₂, hinted, rest⟩ := exec_bind_ok hinted
  cases rest
  exact ⟨rfl, id, resolved, assigns.extend (hint_flows assigns.along.orderly.known hinted)⟩

/-- An assignment that is computed for its effect. -/
theorem evaluate_assigns {op : Option WordOp} {calls : CallCode} {line line' n : Nat} {value : Expr}
    (pure : value.isPure = true) (proper : value.Proper) (named : isTempName name = false) (orderly : p.Orderly K [])
    (covers : Covers K p.allocator)
    (ran : (evaluate (Gen.code calls (.assign line op (.var line' name n) value))).exec c p = .ok ((), p')) :
    ∃ id, p.allocator.find? name = some id ∧ Assigns S K p id p' (Assigned p.allocator name op value) := by
  have valued := (code_faithful S c calls value pure proper).value
  rw [code] at ran
  obtain ⟨result, p₁, computed, ran⟩ := exec_bind_ok ran
  obtain ⟨v, rfl, assigned⟩ := exec_map_ok computed
  rw [assignee_var] at assigned
  obtain ⟨rfl, id, resolved, assigns⟩ := assignVariable_assigns (S := S) valued named orderly covers assigned
  rw [expr_code] at assigns
  obtain ⟨⟨⟩, p₂, freed, ran⟩ := exec_bind_ok ran
  obtain ⟨⟨⟩, p₃, hinted, released⟩ := exec_bind_ok ran
  have known := assigns.along.orderly.known
  -- the result is the variable, and no temporary goes by its name
  have frees : RunsThrough S p₁.allocator.Known [] p₁ p₂ := free_flows known
    (fun i looked => by cases (lookup_of_named known.sound.names named).symm.trans looked) freed
  have hints := hint_flows (S := S) frees.along.orderly hinted
  have ends := releaseHolds_flows (S := S) hints.along.orderly released
  exact ⟨id, resolved, assigns.extend ((frees.trans hints).trans ends)⟩

end Gen

end SmallC
